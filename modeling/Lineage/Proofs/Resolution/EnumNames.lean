import Lineage.Proofs.Naming.Reversal
import Lineage.Proofs.Resolution.ForcedNames
import Lineage.Proofs.Resolution.Targets

/-!
The official names of an enum's members, found through a table read backwards.

The table that leads from official to other names gives the names of the members
and the descriptors they stand under; the class file of the enum has both in the
other language.  The table read backwards finds a method under its descriptor in
that language, and the descriptors of the two methods that list an enum are made
up from the name of the class.  The three agree when the official name of the class
fits into a descriptor: a descriptor that cannot be read is not renamed.
-/

namespace Lineage

open Std (ExtTreeMap)

/-! ## Descriptors of the methods that list an enum -/

namespace Descriptor

variable {f : String → Option String} {cls : String}

theorem render_values (cls : String) :
    MethodType.render ⟨[], some (.array (.object cls))⟩ = "()[L" ++ cls ++ ";" := by
  refine String.toList_inj.mp ?_
  simp [MethodType.render, MethodType.chars, FieldType.chars]

theorem render_valueOf (cls : String) :
    MethodType.render ⟨[.object "java/lang/String"], some (.object cls)⟩ =
      "(Ljava/lang/String;)L" ++ cls ++ ";" := by
  refine String.toList_inj.mp ?_
  simp [MethodType.render, MethodType.chars, FieldType.chars]

theorem rename_values (f : String → Option String) (hcls : FitsDescriptor cls) :
    rename f ("()[L" ++ cls ++ ";") = "()[L" ++ (f cls).getD cls ++ ";" := by
  rw [← render_values, ← render_values]
  exact rename_render_method f (by simpa [MethodType.names, FieldType.names] using hcls)

theorem rename_valueOf (hcls : FitsDescriptor cls) (hf : f "java/lang/String" = none) :
    rename f ("(Ljava/lang/String;)L" ++ cls ++ ";") =
      "(Ljava/lang/String;)L" ++ (f cls).getD cls ++ ";" := by
  have hstring : FieldType.rename f (.object "java/lang/String") = .object "java/lang/String" := by
    rw [FieldType.rename, hf, Option.getD_none]
  have hfits : FitsDescriptor "java/lang/String" := by decide
  rw [← render_valueOf, ← render_valueOf, rename_render_method f]
  · rw [MethodType.rename, List.map_singleton, hstring]
    rfl
  · simpa [MethodType.names, FieldType.names] using ⟨hfits, hcls⟩

end Descriptor

/-! ## Looking up in a table that has been reversed -/

namespace NamingTable

/-- The name of a member before members were renamed by `target?`: the one that
leads to `name`, or `name` itself if none does. -/
def Restores (target? : String → Option String) (name official : String) : Prop :=
  target? official = some name ∨ (∀ other, target? other ≠ some name) ∧ official = name

theorem restores_iff {target? : String → Option String} {source? : Option String}
    {name official : String} (h : ∀ k, source? = some k ↔ target? k = some name) :
    source?.getD name = official ↔ Restores target? name official := by
  cases hs : source? with
  | none =>
    have hnone : ∀ k, target? k ≠ some name := fun k hk => by cases hs.symm.trans ((h k).mpr hk)
    simp only [Restores, hnone official, Option.getD_none, false_or]
    exact ⟨fun he => ⟨hnone, he.symm⟩, fun he => he.2.symm⟩
  | some k =>
    have hk : target? k = some name := (h k).mp hs
    have hunique : ∀ k', target? k' = some name → k = k' := fun k' hk' =>
      Option.some.inj (hs.symm.trans ((h k').mpr hk'))
    refine ⟨?_, ?_⟩
    · rintro rfl
      exact Or.inl hk
    · rintro (ho | ⟨hno, _⟩)
      · exact hunique official ho
      · exact absurd hk (hno k)

section

variable {t : NamingTable} {official cls : String}

theorem field?_reversed_iff (h : t.Reversible) (hcls : t.className? official = some cls)
    (f g : String) : t.reversed.field? cls f = some g ↔ t.field? official g = some f := by
  obtain ⟨c, hc, rfl⟩ := className?_eq_some_iff.mp hcls
  have hreversed := (getElem?_classes_reversed h.classes _ _).mpr ⟨official, c, hc, rfl, rfl⟩
  rw [field?, field?, hreversed, hc]
  exact ClassNaming.getElem?_fields_reversed (h.of_class hc) g f

/-- A method is found under a descriptor that has been renamed, if renaming can be
undone there. -/
theorem method?_reversed_iff (h : t.Reversible) (hcls : t.className? official = some cls)
    {d d' : String} (hthere : Descriptor.rename t.className? d = d')
    (hback : Descriptor.rename t.reversed.className? d' = d) (n m : String) :
    t.reversed.method? cls ⟨n, d'⟩ = some m ↔ t.method? official ⟨m, d⟩ = some n := by
  obtain ⟨c, hc, rfl⟩ := className?_eq_some_iff.mp hcls
  have hreversed := (getElem?_classes_reversed h.classes _ _).mpr ⟨official, c, hc, rfl, rfl⟩
  have hundoes := h.undoes hc
  rw [method?, method?, hreversed, hc]
  refine (ClassNaming.getElem?_methods_reversed (h.of_class hc) hundoes m n d').trans
    ⟨?_, fun hm => ⟨d, hm, hthere⟩⟩
  rintro ⟨d₀, hm, hd₀⟩
  have hsame : d₀ = d := by rw [← hundoes m d₀ n hm, hd₀, hback]
  exact hsame ▸ hm

/-- The official name of a field that a reversed table answers with. -/
theorem field?_table_reversed (h : t.Reversible) (hcls : t.className? official = some cls)
    (f : String) : ∃ g, (Names.table t.reversed).field? cls f = some g ∧
      ∀ name, g = name ↔ Restores (t.field? official) f name := by
  obtain ⟨c, hc, _⟩ :=
    className?_eq_some_iff.mp ((className?_reversed h.classes official cls).mpr hcls)
  refine ⟨(t.reversed.field? cls f).getD f, ?_, fun name =>
    restores_iff (field?_reversed_iff h hcls f)⟩
  simp only [Names.table, field?, hc]
  rfl

/-- The official name of a method that a reversed table answers with. -/
theorem method?_table_reversed (h : t.Reversible) (hcls : t.className? official = some cls)
    {d d' : String} (hthere : Descriptor.rename t.className? d = d')
    (hback : Descriptor.rename t.reversed.className? d' = d) (n : String) :
    ∃ m, (Names.table t.reversed).method? cls ⟨n, d'⟩ = some m ∧
      ∀ name, m = name ↔ Restores (fun k => t.method? official ⟨k, d⟩) n name := by
  obtain ⟨c, hc, _⟩ :=
    className?_eq_some_iff.mp ((className?_reversed h.classes official cls).mpr hcls)
  refine ⟨(t.reversed.method? cls ⟨n, d'⟩).getD n, ?_, fun name =>
    restores_iff (method?_reversed_iff h hcls hthere hback n)⟩
  simp only [Names.table, method?, hc]
  rfl

end
end NamingTable

namespace ClassNode

/-- The fields of a class, and which names are forced on its methods. -/
def labels (c : ClassNode) : ExtTreeMap String FieldNode × ExtTreeMap String MethodNode :=
  (c.fields, c.methods.map fun _ => MethodNode.naming)

end ClassNode

namespace Resolution

open Hierarchy (Alike Keyed SameBut)
open NamingTable (Restores)

variable {names : Names} {h : Hierarchy} {cls : String} {c d : ClassNode}

/-! ## Naming the members of a class -/

theorem nameEnumField_nameEnumField (names : Names) (cls : String) (f : FieldNode) :
    nameEnumField names cls (nameEnumField names cls f) = nameEnumField names cls f := by
  unfold nameEnumField
  cases ho : names.field? cls f.name with
  | none => simp only [ho]
  | some official =>
    by_cases hflags : f.access.contains constantFlags || official == valuesField
    · simp only [if_pos hflags, ho]
    · simp only [if_neg hflags, ho]

theorem nameEnumMethod_nameEnumMethod (names : Names) (cls : String) (m : MethodNode) :
    nameEnumMethod names cls (nameEnumMethod names cls m) = nameEnumMethod names cls m := by
  unfold nameEnumMethod
  cases ho : names.method? cls ⟨m.name, m.descriptor⟩ with
  | none => simp only [ho]
  | some official =>
    by_cases hlisted : ⟨official, m.descriptor⟩ ∈ enumMethods cls
    · simp only [if_pos hlisted, MethodNode.pin, ho]
    · simp only [if_neg hlisted, ho]

theorem naming_nameEnumMethod (names : Names) (cls : String) (m : MethodNode) :
    (nameEnumMethod names cls m).naming = nameEnumMethod names cls m.naming := by
  unfold nameEnumMethod
  rw [show m.naming.name = m.name from rfl, show m.naming.descriptor = m.descriptor from rfl]
  cases names.method? cls ⟨m.name, m.descriptor⟩ with
  | none => rfl
  | some official =>
    dsimp only
    split <;> rfl

theorem nameEnum_nameEnum (names : Names) (c : ClassNode) :
    nameEnum names (nameEnum names c) = nameEnum names c := by
  unfold nameEnum
  by_cases he : c.isEnum
  · rw [if_pos he]
    have he' : ({ c with
        fields := c.fields.map fun _ => nameEnumField names c.name
        methods := c.methods.map fun _ => nameEnumMethod names c.name } : ClassNode).isEnum := he
    rw [if_pos he']
    simp only [ClassNode.mk.injEq, true_and, and_true]
    refine ⟨ExtTreeMap.ext_getElem? fun field => ?_, ExtTreeMap.ext_getElem? fun key => ?_⟩
    · simp only [ExtTreeMap.getElem?_map, Option.map_map, Function.comp_def,
        nameEnumField_nameEnumField]
    · simp only [ExtTreeMap.getElem?_map, Option.map_map, Function.comp_def,
        nameEnumMethod_nameEnumMethod]
  · rw [if_neg he, if_neg he]

/-- The labels that a class gets depend on those it has. -/
theorem labels_nameEnum_congr (hb : c.bare = d.bare) (hl : c.labels = d.labels) :
    (nameEnum names c).labels = (nameEnum names d).labels := by
  obtain ⟨hfields, hmethods⟩ := Prod.mk.injEq .. ▸ hl
  have henum : c.isEnum = d.isEnum := congrArg (fun e => e.access.has .enum) hb
  have hname : c.name = d.name := ClassNode.name_eq hb
  unfold nameEnum
  rw [henum]
  split
  · refine Prod.ext (by rw [ClassNode.labels, ClassNode.labels, hfields, hname]) ?_
    refine ExtTreeMap.ext_getElem? fun key => ?_
    have hkey := congrArg (fun ms : ExtTreeMap String MethodNode =>
      ms[key]?.map (nameEnumMethod names d.name)) hmethods
    simpa only [ClassNode.labels, ExtTreeMap.getElem?_map, Option.map_map, Function.comp_def,
      naming_nameEnumMethod, hname] using hkey
  · exact hl

theorem map_labels_of_sameBut {h' : Hierarchy} (hh : SameBut MethodNode.naming h h')
    (a : String) : (h'.class? a).map ClassNode.labels = (h.class? a).map ClassNode.labels := by
  have ha := congrArg (Option.map fun p => (p.1.fields, p.2)) (hh a)
  rw [Option.map_map, Option.map_map] at ha
  exact ha.symm

/-- Of all that settling a class does, naming it labels it. -/
theorem map_labels_settle (names : Names) (cls : String) (h : Hierarchy) (a : String) :
    ((settle names cls h).1.class? a).map ClassNode.labels =
      ((nameEnums names cls h).class? a).map ClassNode.labels := by
  cases hc : h.class? cls with
  | none =>
    rw [settle_of_none hc, nameEnums, Hierarchy.class?_modifyClass]
    split
    · next heq => rw [← heq, hc]; rfl
    · rfl
  | some c =>
    rw [settle_fst hc, Hierarchy.map_class?_modifyClass _ cls (f := markResolved) (fun _ => rfl),
      Hierarchy.map_class?_modifyClass _ cls (f := nameAccessors) (fun _ => rfl),
      map_labels_of_sameBut (sameBut_naming_boundAt names cls c.isAbstract h)]

/-! ## Naming the members of a class that is resolved -/

variable {r : Resolution}

theorem map_labels_handle (halike : Alike h r.path.hierarchy) (hc : h.class? cls = some c)
    (hd : d.bare = c.bare)
    (hl : (r.path.hierarchy.class? cls).map ClassNode.labels = some d.labels) (names : Names)
    (e : Graph.Event String) :
    ((handle names r e).path.hierarchy.class? cls).map ClassNode.labels =
      some (if e = .closed cls then (nameEnum names d).labels else d.labels) := by
  obtain ⟨c', hc', hb⟩ := halike.exists_class hc
  rw [hc', Option.map_some, Option.some.injEq] at hl
  cases e with
  | cycle a => simp [hc', hl]
  | closed a =>
    rw [hierarchy_handle_closed, map_labels_settle, nameEnums, Hierarchy.class?_modifyClass, hc']
    by_cases ha : a = cls
    · rw [if_pos ha, if_pos (congrArg Graph.Event.closed ha)]
      exact congrArg some (labels_nameEnum_congr (hb.symm.trans hd.symm) hl)
    · rw [if_neg ha, if_neg fun he => ha (Graph.Event.closed.inj he)]
      exact congrArg some hl

/-- Resolving a class names its members, whatever else is resolved with it. -/
theorem map_labels_resolve (names : Names) (hc : r.path.hierarchy.class? cls = some c)
    (hu : ¬ r.path.hierarchy.isResolved cls) :
    ((r.resolve names cls).path.hierarchy.class? cls).map ClassNode.labels =
      some (nameEnum names c).labels := by
  -- Settling other classes does not label the class, settling it again labels it as before.
  have hb := bare_nameEnum names c
  refine foldl_of_mem (P := fun s : Resolution => Alike r.path.hierarchy s.path.hierarchy ∧
      ((s.path.hierarchy.class? cls).map ClassNode.labels = some c.labels ∨
        (s.path.hierarchy.class? cls).map ClassNode.labels = some (nameEnum names c).labels))
    (Q := fun s : Resolution => (s.path.hierarchy.class? cls).map ClassNode.labels =
      some (nameEnum names c).labels)
    (closed_mem_of_not_isResolved (Option.isSome_of_eq_some hc) hu)
    ⟨.refl _, Or.inl (congrArg (Option.map ClassNode.labels) hc)⟩
    (fun s hs e _ => ⟨hs.1.trans (alike_handle names s e), ?_⟩) (fun s hs => ?_)
    fun s hs hend e _ => ?_
  · rcases hs.2 with hl | hl
    · rw [map_labels_handle hs.1 hc rfl hl]
      split
      · exact Or.inr rfl
      · exact Or.inl rfl
    · rw [map_labels_handle hs.1 hc hb hl, nameEnum_nameEnum, ite_self]
      exact Or.inr rfl
  · rcases hs.2 with hl | hl
    · rw [map_labels_handle hs.1 hc rfl hl, if_pos rfl]
    · rw [map_labels_handle hs.1 hc hb hl, nameEnum_nameEnum, ite_self]
  · rw [map_labels_handle hs.1 hc hb hend, nameEnum_nameEnum, ite_self]

/-! ## Classes that have not been resolved -/

/-- No names are forced for good before a class is resolved. -/
def PinsLate (h : Hierarchy) : Prop :=
  ∀ r m, ¬ h.isResolved r.owner → h.method? r = some m → m.pinned = false

theorem PinsLate.of_kept {h' : Hierarchy} (hp : PinsLate h)
    (hkept : ∀ r m', ¬ h'.isResolved r.owner → h'.method? r = some m' →
      ¬ h.isResolved r.owner ∧ ∃ m, h.method? r = some m ∧ m'.pinned = m.pinned) :
    PinsLate h' := by
  intro r m' hu hm'
  obtain ⟨hold, m, hm, hpinned⟩ := hkept r m' hu hm'
  exact hpinned.trans (hp r m hold hm)

theorem PinsLate.of_sameBut {β : Type} {view : MethodNode → β} {h' : Hierarchy}
    (hp : PinsLate h) (hh : SameBut view h h')
    (hview : ∀ m m', view m = view m' → m.pinned = m'.pinned) : PinsLate h' := by
  refine hp.of_kept fun r m' hu hm' => ⟨hh.isResolved r.owner ▸ hu, ?_⟩
  obtain ⟨m, hm, hv⟩ := hh.symm.exists_method hm'
  exact ⟨m, hm, hview _ _ hv.symm⟩

theorem pinsLate_of_asRead (hh : h.AsRead) : PinsLate h := by
  intro r m _ hm
  obtain ⟨c, hc, hcm⟩ := Hierarchy.method?_eq_some.mp hm
  obtain ⟨bytes, isLocal, hb⟩ := hh _ _ hc
  exact ((ClassNode.unforced_of_ofBytes? hb).1 _ _ hcm).2

theorem persists_pinsLate (names : Names) :
    Persists names fun p => PinsLate p.hierarchy where
  ask _ _ hp := hp
  add p name bytes isPrimary hp r m hu hm := by
    obtain ⟨c, hc, hcm⟩ := Hierarchy.method?_eq_some.mp hm
    rw [ClassPath.class?_add] at hc
    rw [Hierarchy.isResolved, ClassPath.class?_add] at hu
    split at hc
    · exact ((ClassNode.unforced_of_ofBytes? hc).1 _ _ hcm).2
    · next hn =>
      rw [if_neg hn] at hu
      exact hp r m hu (Hierarchy.method?_eq_some.mpr ⟨c, hc, hcm⟩)
  link p cls hp :=
    hp.of_sameBut ((sameBut_linkBouncers p.hierarchy cls).map MethodNode.naming)
      fun _ _ => MethodNode.pinned_eq_of_naming
  settle p cls _ hp := by
    refine hp.of_kept fun r m' hu hm' => ?_
    rw [isResolved_settle, Bool.or_eq_true, not_or] at hu
    refine ⟨hu.1, ?_⟩
    obtain ⟨m, hm, hnaming | ⟨c, _, rfl, hc, _⟩⟩ := exists_of_settle hm'
    · exact ⟨m, hm, MethodNode.pinned_eq_of_naming hnaming⟩
    · exact absurd (by simp [hc]) hu.2
  unify p loaded cls _ hp :=
    hp.of_sameBut (sameBut_unifyInterface p.isPrimary loaded cls p.hierarchy)
      fun _ _ => MethodNode.pinned_eq_of_sansUnity

/-! ## Enum classes -/

/-- A method gets the name of one that lists the enum, and for good, if this is its
official name. -/
theorem pinned_nameEnumMethod_iff {m : MethodNode} {official : String} {listed : Selector}
    (hm : m.pinned = false) (ho : names.method? cls ⟨m.name, m.descriptor⟩ = some official)
    (hlisted : listed ∈ enumMethods cls) (hdescriptor : listed.descriptor = m.descriptor) :
    ((nameEnumMethod names cls m).pinned ∧
      (nameEnumMethod names cls m).forcedName = some listed.name) ↔ official = listed.name := by
  rw [nameEnumMethod, ho]
  dsimp only
  split
  · exact ⟨fun hpin => Option.some.inj hpin.2, fun hname => ⟨rfl, congrArg some hname⟩⟩
  · next hno =>
    refine ⟨fun hpin => absurd (hm.symm.trans hpin.1) (by decide), fun hname => absurd ?_ hno⟩
    rw [hname, ← hdescriptor]
    exact hlisted

/-- The members of an enum that is resolved are those that it had, named once. -/
theorem enum_resolve (hk : Keyed r.path.hierarchy) (hpins : PinsLate r.path.hierarchy)
    (names : Names) (hc : r.path.hierarchy.class? cls = some c) (he : c.isEnum)
    (hu : ¬ r.path.hierarchy.isResolved cls) :
    ∃ c', (r.resolve names cls).path.hierarchy.class? cls = some c' ∧
      c'.bare = c.bare ∧ c'.resolved ∧
      (∀ (field : String) f', c'.fields[field]? = some f' →
        ∃ f, c.fields[field]? = some f ∧ f' = nameEnumField names cls f) ∧
      ∀ key m', c'.method? key = some m' → ∃ m, c.method? key = some m ∧ m.pinned = false ∧
        m'.naming = (nameEnumMethod names cls m).naming := by
  obtain ⟨c', hc', hb⟩ := (alike_resolve names r cls).exists_class hc
  have hresolved := isResolved_resolve_self names r (Option.isSome_of_eq_some hc)
  have hlabels := map_labels_resolve names hc hu
  have hname : c.name = cls := hk.name_eq hc
  rw [hc', Option.map_some, Option.some.injEq, nameEnum, if_pos he, hname] at hlabels
  obtain ⟨hfields, hmethods⟩ := Prod.mk.injEq .. ▸ hlabels
  refine ⟨c', hc', hb.symm, ?_, fun field f' hf' => ?_, fun key m' hm' => ?_⟩
  · rwa [Hierarchy.isResolved, hc'] at hresolved
  · rw [hfields, ExtTreeMap.getElem?_map, Option.map_eq_some_iff] at hf'
    obtain ⟨f, hf, rfl⟩ := hf'
    exact ⟨f, hf, rfl⟩
  · have hkey := congrArg (fun ms : ExtTreeMap String MethodNode => ms[key]?) hmethods
    simp only [ExtTreeMap.getElem?_map, Option.map_map] at hkey
    rw [show c'.methods[key]? = some m' from hm', Option.map_some] at hkey
    obtain ⟨m, hm, hnaming⟩ := Option.map_eq_some_iff.mp hkey.symm
    obtain ⟨howner, _, hself⟩ := hk.of_mem_class hc hm
    have hu : ¬ r.path.hierarchy.isResolved m.ref.owner := by
      rw [show m.ref.owner = cls from howner]
      exact hu
    exact ⟨m, hm, hpins m.ref m hu hself, hnaming.symm⟩

section

variable {t : NamingTable} {official : String}

/-- A method that lists the enum is recognised by the descriptor that its official
one has been renamed to. -/
theorem pinned_iff_restores (ht : t.Reversible) (hcls : t.className? official = some cls)
    {m m' : MethodNode} (hm : m.pinned = false)
    (hnaming : m'.naming = (nameEnumMethod (.table t.reversed) cls m).naming)
    (listed : Selector) (hlisted : listed ∈ enumMethods cls)
    (hdescriptor : m'.descriptor = listed.descriptor) {d : String}
    (hthere : Descriptor.rename t.className? d = listed.descriptor)
    (hback : Descriptor.rename t.reversed.className? listed.descriptor = d) :
    (m'.pinned ∧ m'.forcedName = some listed.name) ↔
      Restores (fun n => t.method? official ⟨n, d⟩) m'.name listed.name := by
  have hbare : m'.bare = m.bare :=
    (MethodNode.bare_eq_of_naming hnaming).trans (bare_nameEnumMethod _ _ _)
  obtain ⟨_, hname, hd⟩ := MemberRef.mk.injEq .. ▸ MethodNode.ref_eq hbare
  obtain ⟨found, hfound, hrestores⟩ :=
    NamingTable.method?_table_reversed ht hcls hthere hback m.name
  rw [← hdescriptor, hd] at hfound
  rw [MethodNode.pinned_eq_of_naming hnaming, MethodNode.forcedName_eq_of_naming hnaming,
    pinned_nameEnumMethod_iff hm hfound hlisted (hdescriptor.symm.trans hd), hrestores, hname]

/-- Resolving an enum class forces the official names of its constants on them and
pins the two methods that list them, if the names come from a table that leads from
official names to those in the class file, read backwards.  Methods are only found
if the official name of the class fits into a descriptor. -/
theorem enum_resolve_reversed (ht : t.Reversible) (earlier : Names) (sources : List ClassTable)
    {operations : List Operation} (ho : ∀ operation ∈ operations, ¬ operation.IsEdit)
    (hcls : t.className? official = some cls) :
    let r := afterOperations earlier sources operations
    ∀ c, r.path.hierarchy.class? cls = some c → c.isEnum → c.resolved = false →
      ∃ c', (r.resolve (.table t.reversed) cls).path.hierarchy.class? cls = some c' ∧
        c'.bare = c.bare ∧ c'.resolved ∧
        (∀ (field : String) f, c'.fields[field]? = some f → f.access.contains constantFlags →
          ∀ name, f.forcedName = some name ↔ Restores (t.field? official) f.name name) ∧
        (FitsDescriptor official → ∀ key m, c'.method? key = some m →
          (m.descriptor = "()[L" ++ cls ++ ";" →
            (m.pinned ∧ m.forcedName = some "values" ↔
              Restores (fun n => t.method? official ⟨n, "()[L" ++ official ++ ";"⟩)
                m.name "values")) ∧
          (m.descriptor = "(Ljava/lang/String;)L" ++ cls ++ ";" →
            t.className? "java/lang/String" = none →
            (∀ other, t.className? other ≠ some "java/lang/String") →
            (m.pinned ∧ m.forcedName = some "valueOf" ↔
              Restores (fun n =>
                  t.method? official ⟨n, "(Ljava/lang/String;)L" ++ official ++ ";"⟩)
                m.name "valueOf"))) := by
  intro r c hc he hunresolved
  have hu : ¬ r.path.hierarchy.isResolved cls := by
    rw [Hierarchy.isResolved, hc]
    exact Bool.eq_false_iff.mp hunresolved
  have hread := ClassPath.asRead_ofSources sources
  have hk := (detected_afterOperations earlier sources ho).1
  have hpins := (persists_pinsLate earlier).afterOperations (pinsLate_of_asRead hread) ho
  obtain ⟨c', hc', hb, hresolved, hfields, hmethods⟩ :=
    enum_resolve hk hpins (.table t.reversed) hc he hu
  refine ⟨c', hc', hb, hresolved, fun field f' hf' hflags name => ?_, fun hfits key m' hm' => ?_⟩
  · obtain ⟨f, _, rfl⟩ := hfields field f' hf'
    obtain ⟨g, hg, hrestores⟩ := NamingTable.field?_table_reversed ht hcls f.name
    have hbare := bare_nameEnumField (.table t.reversed) cls f
    have hname : (nameEnumField (.table t.reversed) cls f).name = f.name :=
      (congrArg FieldNode.name hbare :)
    have haccess : (nameEnumField (.table t.reversed) cls f).access = f.access :=
      (congrArg FieldNode.access hbare :)
    rw [haccess] at hflags
    have hforced : (nameEnumField (.table t.reversed) cls f).forcedName = some g := by
      rw [nameEnumField, hg]
      simp [hflags]
    rw [hname, hforced, Option.some.injEq, hrestores]
  · obtain ⟨m, _, hpinned, hnaming⟩ := hmethods key m' hm'
    have htarget : FitsDescriptor cls := ht.fits official cls hcls
    have hsource : t.reversed.className? cls = some official :=
      (NamingTable.className?_reversed ht.classes official cls).mpr hcls
    refine ⟨fun hd => ?_, fun hd hno hnone => ?_⟩
    · refine pinned_iff_restores ht hcls hpinned hnaming ⟨"values", _⟩
        List.mem_cons_self hd ?_ ?_
      · rw [Descriptor.rename_values _ hfits, hcls, Option.getD_some]
      · rw [Descriptor.rename_values _ htarget, hsource, Option.getD_some]
    · have hno' : t.reversed.className? "java/lang/String" = none :=
        Option.eq_none_iff_forall_ne_some.mpr fun other hother =>
          hnone other ((NamingTable.className?_reversed ht.classes _ _).mp hother)
      refine pinned_iff_restores ht hcls hpinned hnaming ⟨"valueOf", _⟩
        (List.mem_cons_of_mem _ List.mem_cons_self) hd ?_ ?_
      · rw [Descriptor.rename_valueOf hfits hno, hcls, Option.getD_some]
      · rw [Descriptor.rename_valueOf htarget hno', hsource, Option.getD_some]

end

namespace Sample

open Assembly (Sketch)
open NamingTable.Sample (colours)

/-- An enum class under short names. -/
def shortColour : Sketch where
  name := "a"
  superName := none
  access := .ofModifiers [.pub, .enum]
  declarations :=
    [.field
      { access := .ofModifiers [.pub, .static, .final, .enum]
        name := "b"
        descriptor := "La;"
        signature := none },
      returning [.pub, .static] "d" "()[La;"]

def shortColourOperations : List Operation := [.request (.register (archive [shortColour]) true)]

def beforeColour : Resolution := afterOperations .asWritten [] shortColourOperations

theorem class?_shortColour : (beforeColour.path.hierarchy.class? "a").any fun c =>
    c.isEnum ∧ c.resolved = false ∧
      (c.fields["b"]?.any fun f => f.name = "b" ∧ f.access.contains constantFlags) ∧
      (c.method? "d()[La;").any fun m => m.name = "d" ∧ m.descriptor = "()[La;" := by
  decide +kernel

/-- The constant and the method that lists it get their official names. -/
theorem enum_resolve_reversed_colours :
    colours.Reversible ∧ (∀ operation ∈ shortColourOperations, ¬ operation.IsEdit) ∧
      colours.className? "net/Color" = some "a" ∧
      ∃ c', (beforeColour.resolve (.table colours.reversed) "a").path.hierarchy.class? "a" =
          some c' ∧
        (∃ f, c'.fields["b"]? = some f ∧ f.forcedName = some "RED") ∧
        ∃ m, c'.method? "d()[La;" = some m ∧ m.pinned ∧ m.forcedName = some "values" := by
  have ho : ∀ operation ∈ shortColourOperations, ¬ operation.IsEdit := by
    simp [shortColourOperations, Operation.IsEdit]
  have hcls : colours.className? "net/Color" = some "a" := by decide +kernel
  obtain ⟨c, hc, hflags⟩ := (Option.any_eq_true _ _).mp class?_shortColour
  obtain ⟨he, hunresolved, hfield, hmethod⟩ := of_decide_eq_true hflags
  obtain ⟨f, hf, hflags⟩ := (Option.any_eq_true _ _).mp hfield
  obtain ⟨hfname, haccess⟩ := of_decide_eq_true hflags
  obtain ⟨m, hm, hflags⟩ := (Option.any_eq_true _ _).mp hmethod
  obtain ⟨hmname, hdescriptor⟩ := of_decide_eq_true hflags
  obtain ⟨c', hc', hb, _, hfields, hmethods⟩ :=
    enum_resolve_reversed NamingTable.reversible_colours .asWritten [] ho hcls c hc he hunresolved
  refine ⟨NamingTable.reversible_colours, ho, hcls, c', hc', ?_, ?_⟩
  · have hbare := congrArg (fun e => e.fields["b"]?) hb
    simp only [ClassNode.bare, ExtTreeMap.getElem?_map, hf, Option.map_some] at hbare
    obtain ⟨f', hf', hsame⟩ := Option.map_eq_some_iff.mp hbare
    have hname : f'.name = f.name := (congrArg FieldNode.name hsame :)
    have haccess' : f'.access = f.access := (congrArg FieldNode.access hsame :)
    refine ⟨f', hf', (hfields "b" f' hf' (haccess' ▸ haccess) "RED").mpr (Or.inl ?_)⟩
    rw [hname, hfname]
    decide +kernel
  · have hbare := congrArg (fun e => e.method? "d()[La;") hb
    simp only [ClassNode.method?_bare, hm, Option.map_some] at hbare
    obtain ⟨m', hm', hsame⟩ := Option.map_eq_some_iff.mp hbare
    obtain ⟨_, hname, hd⟩ := MemberRef.mk.injEq .. ▸ MethodNode.ref_eq hsame
    refine ⟨m', hm', ((hmethods (by decide) _ m' hm').1 (hd.trans hdescriptor)).mpr (Or.inl ?_)⟩
    rw [hname, hmname]
    decide +kernel

/-- A table that has the class under a name that does not fit into a descriptor. -/
def oddColours : NamingTable :=
  .update .empty "net;Color" fun c =>
    { c.addMethod ⟨"values", "()[Lnet;Color;"⟩ "d" with target := "a" }

set_option maxRecDepth 10000 in
/-- The table leads from `values` to the method, whose name is not forced all the
same. -/
theorem values_unforced_oddColours :
    oddColours.Reversible ∧ oddColours.className? "net;Color" = some "a" ∧
      ((beforeColour.path.hierarchy.class? "a").any fun c => c.isEnum ∧ c.resolved = false) ∧
      oddColours.method? "net;Color" ⟨"values", "()[Lnet;Color;"⟩ = some "d" ∧
      ((beforeColour.resolve (.table oddColours.reversed) "a").path.hierarchy.method?
        ⟨"a", "d", "()[La;"⟩).any fun m => m.ref = ⟨"a", "d", "()[La;"⟩ ∧ m.pinned = false ∧
          m.forcedName = none := by
  refine ⟨?_, by decide +kernel, by decide +kernel, by decide +kernel, ?_⟩
  · refine NamingTable.reversible_of_entries ?_ ?_ ?_ ?_ ?_ <;> decide +kernel
  · rw [resolve_eq_resolving]
    decide +kernel

end Sample

end Resolution
end Lineage
