import Lineage.Proofs.ClassFile.Constants
import Lineage.Proofs.ClassFile.Getters
import Lineage.Proofs.Resolution.ForcedNames
import Lineage.Proofs.Resolution.Targets

/-!
The accessors of record components.

Resolving a class gives each component of a record the name of the first getter of
its field.  Nothing else changes components, and the getters of a field are those
in the class file, so what is known of a component can be told from the class
file, whatever else has been done.

Getters are told by the name of the field alone.  Two components with one name get
the same accessor, though it can only read one of the fields.
-/

namespace Lineage

open Std (ExtTreeMap)

namespace ClassNode

/-- The components are named as the getters of their fields say. -/
def Furnished (c : ClassNode) : Prop :=
  ∀ k ∈ c.components, k.accessor = (Resolution.accessorNames c k.field).head?

theorem furnished_nameAccessors (c : ClassNode) : (Resolution.nameAccessors c).Furnished := by
  intro k hk
  obtain ⟨k, _, rfl⟩ := List.mem_map.mp hk
  rfl

end ClassNode

namespace Resolution

open Hierarchy (Alike SameBut)

variable {h : Hierarchy} {c d : ClassNode}

theorem accessorNames_congr (hb : c.bare = d.bare) : accessorNames c = accessorNames d := by
  funext field
  have hfields := congrArg (fun e : ClassNode => e.fields[field]?.map FieldNode.accessors) hb
  simp only [ClassNode.bare, ExtTreeMap.getElem?_map, Option.map_map] at hfields
  exact congrArg (fun o => (Option.getD o []).map MemberRef.name) hfields

/-! ## Steps of a run -/

/-- The components of classes that have been resolved are furnished. -/
def RecordsDone (h : Hierarchy) : Prop :=
  ∀ a c, h.class? a = some c → c.resolved → c.Furnished

namespace RecordsDone

theorem of_sameBut {β : Type} {view : MethodNode → β} {h' : Hierarchy} (hd : RecordsDone h)
    (hh : SameBut view h h') : RecordsDone h' := by
  intro a c' hc' hr k hk
  obtain ⟨c, hc, hheader⟩ := hh.symm.exists_class hc'
  have hresolved : c.resolved = c'.resolved := (congrArg ClassNode.resolved hheader :)
  have hcomponents : c.components = c'.components := (congrArg ClassNode.components hheader :)
  have hfields : c.fields = c'.fields := (congrArg ClassNode.fields hheader :)
  have hnames : accessorNames c k.field = accessorNames c' k.field := by
    rw [accessorNames, accessorNames, hfields]
  exact (hd a c hc (hresolved.trans hr) k (hcomponents ▸ hk)).trans (congrArg List.head? hnames)

theorem modifyClass (hd : RecordsDone h) (name : String) {g : ClassNode → ClassNode}
    (hg : ∀ c, (c.resolved → c.Furnished) → (g c).resolved → (g c).Furnished) :
    RecordsDone (h.modifyClass name g) := by
  intro a c' hc' hr
  obtain ⟨c, hc, ⟨_, rfl⟩ | ⟨_, rfl⟩⟩ := Hierarchy.exists_of_modifyClass hc'
  · exact hg c (hd a c hc) hr
  · exact hd a _ hc hr

theorem nameEnums (hd : RecordsDone h) (names : Names) (cls : String) :
    RecordsDone (nameEnums names cls h) := by
  refine hd.modifyClass cls fun c hc hr k hk => ?_
  have hkept : (nameEnum names c).resolved = c.resolved ∧
      (nameEnum names c).components = c.components := by
    unfold nameEnum
    split <;> exact ⟨rfl, rfl⟩
  rw [hkept.1] at hr
  rw [hkept.2] at hk
  rw [accessorNames_congr (bare_nameEnum names c)]
  exact hc hr k hk

theorem settle (hd : RecordsDone h) (names : Names) (cls : String) :
    RecordsDone (settle names cls h).1 := by
  cases hc : h.class? cls with
  | none =>
    rw [settle_of_none hc]
    exact hd
  | some c =>
    have hbound := (hd.nameEnums names cls).of_sameBut
      (sameBut_naming_boundAt names cls c.isAbstract h)
    intro a c' hc' hr
    rw [settle_fst hc, Hierarchy.class?_modifyClass, Hierarchy.class?_modifyClass] at hc'
    split at hc'
    · obtain ⟨named, hnamed, rfl⟩ := Option.map_eq_some_iff.mp hc'
      obtain ⟨bound, _, rfl⟩ := Option.map_eq_some_iff.mp hnamed
      exact bound.furnished_nameAccessors
    · exact hbound a c' hc' hr

theorem of_asRead (hh : h.AsRead) : RecordsDone h := fun _ _ hc hr =>
  absurd ((hh.resolved_eq_false hc).symm.trans hr) (by decide)

end RecordsDone

theorem persists_recordsDone (names : Names) :
    Persists names fun p => RecordsDone p.hierarchy where
  ask _ _ hp := hp
  add p name bytes isPrimary hp a c hc hr := by
    rw [ClassPath.class?_add] at hc
    split at hc
    · obtain ⟨s, _, _, rfl⟩ := ClassNode.ofBytes?_eq_some hc
      cases hr
    · exact hp a c hc hr
  link p cls hp := hp.of_sameBut (sameBut_linkBouncers p.hierarchy cls)
  settle p cls _ hp := hp.settle names cls
  unify p loaded cls _ hp :=
    hp.of_sameBut (sameBut_unifyInterface p.isPrimary loaded cls p.hierarchy)

/-- A class that is there, has been resolved and says `b` when bare. -/
structure Finished (p : ClassPath) (a : String) (b : ClassNode) : Prop where
  asked : a ∈ p.asked
  resolved : p.hierarchy.isResolved a
  bare : (p.hierarchy.class? a).map ClassNode.bare = some b

theorem Finished.of_alike {p : ClassPath} {a : String} {b : ClassNode} (hp : Finished p a b)
    {h' : Hierarchy} (hh : Alike p.hierarchy h') (hr : h'.isResolved a) :
    Finished { p with hierarchy := h' } a b :=
  ⟨hp.asked, hr, (hh a).symm.trans hp.bare⟩

/-- Later on the class is still there and resolved. -/
theorem persists_finished (names : Names) (a : String) (b : ClassNode) :
    Persists names fun p => Finished p a b where
  ask p l hp := { hp with asked := ClassPath.mem_asked_ask.mpr (Or.inl hp.asked) }
  add p name bytes isPrimary hp := by
    have hc := ClassPath.class?_add_of_asked hp.asked name bytes isPrimary
    refine ⟨hp.asked, ?_, ?_⟩
    · rw [Hierarchy.isResolved, hc]
      exact hp.resolved
    · rw [hc]
      exact hp.bare
  link p cls hp := by
    have hsame := sameBut_linkBouncers p.hierarchy cls
    exact hp.of_alike (hsame.alike_of fun _ => rfl) (hsame.isResolved a ▸ hp.resolved)
  settle p cls _ hp := by
    refine hp.of_alike (alike_settle names cls p.hierarchy) ?_
    rw [isResolved_settle, hp.resolved, Bool.true_or]
  unify p loaded cls _ hp := by
    have hsame := sameBut_unifyInterface p.isPrimary loaded cls p.hierarchy
    exact hp.of_alike (hsame.alike_of fun _ => rfl) (hsame.isResolved a ▸ hp.resolved)

/-! ## What class files say of components -/

section ClassFiles

variable {s : ClassFile.Summary} {isLocal : Bool}

theorem componentsOf_eq (hs : ClassNode.isRecordSummary s) :
    (ClassNode.componentsOf s).map (fun k => (k.field, k.descriptor)) =
      (s.fields.filter fun f => f.access.has .final && !f.access.has .static).map fun f =>
        (f.name, f.descriptor) := by
  rw [ClassNode.componentsOf, if_pos hs, List.map_map]
  rfl

/-- The first getter of a component's field is the first method that the class file
says to be one. -/
theorem head?_accessorNames (hs : ClassNode.isRecordSummary s) {k : RecordComponent}
    (hk : k ∈ ClassNode.componentsOf s) :
    (accessorNames (ClassNode.ofSummary s isLocal) k.field).head? =
      (s.methods.find? fun m => m.getterOf == some k.field).map ClassFile.MethodSummary.name := by
  have hfield : ∃ f ∈ s.fields, f.name = k.field := by
    rw [ClassNode.componentsOf, if_pos hs] at hk
    obtain ⟨f, hf, rfl⟩ := List.mem_map.mp hk
    exact ⟨f, List.mem_of_mem_filter hf, rfl⟩
  obtain ⟨f, hf, hname⟩ := hfield
  have hmem : f ∈ s.fields.filter fun f => f.name == k.field :=
    List.mem_filter.mpr ⟨hf, beq_iff_eq.mpr hname⟩
  obtain ⟨last, hlast⟩ := Option.isSome_iff_exists.mp
    (List.getLast?_isSome.mpr (List.ne_nil_of_mem hmem))
  have hlastname : last.name = k.field :=
    beq_iff_eq.mp (List.mem_filter.mp (List.mem_of_getLast? hlast)).2
  rw [accessorNames, ClassNode.getElem?_fields_ofSummary, ClassFile.Summary.field?, hlast,
    Option.map_some, Option.map_some, Option.getD_some, ClassNode.fieldOfSummary,
    ClassNode.accessorsOf, if_pos hs, hlastname, List.map_map, List.head?_map, List.head?_filter]
  rfl

/-- What is known of the components of a class that has been resolved. -/
theorem components_of_finished {p : ClassPath} (hd : RecordsDone p.hierarchy)
    (hs : ClassNode.isRecordSummary s)
    (hp : Finished p s.name (ClassNode.ofSummary s isLocal).bare) :
    ∃ c, p.hierarchy.class? s.name = some c ∧ c.resolved ∧
      c.components.map (fun k => (k.field, k.descriptor)) =
        (s.fields.filter fun f => f.access.has .final && !f.access.has .static).map
          (fun f => (f.name, f.descriptor)) ∧
      ∀ k ∈ c.components, k.accessor =
        (s.methods.find? fun m => m.getterOf == some k.field).map ClassFile.MethodSummary.name := by
  obtain ⟨c, hc, hb⟩ := Option.map_eq_some_iff.mp hp.bare
  have hresolved : c.resolved := by
    have hr := hp.resolved
    rwa [Hierarchy.isResolved, hc] at hr
  have hcomponents : c.components.map (fun k => (k.field, k.descriptor)) =
      (ClassNode.componentsOf s).map fun k => (k.field, k.descriptor) := by
    have hmap := congrArg (fun e : ClassNode =>
      e.components.map fun k => (k.field, k.descriptor)) hb
    simp only [ClassNode.bare, List.map_map, Function.comp_def] at hmap
    exact hmap
  refine ⟨c, hc, hresolved, hcomponents.trans (componentsOf_eq hs), fun k hk => ?_⟩
  have hmem : (k.field, k.descriptor) ∈ (ClassNode.componentsOf s).map fun k =>
      (k.field, k.descriptor) := hcomponents ▸ List.mem_map_of_mem hk
  obtain ⟨k', hk', hsame⟩ := List.mem_map.mp hmem
  have hfield : k'.field = k.field := congrArg Prod.fst hsame
  rw [hd _ c hc hresolved k hk, accessorNames_congr hb, ← hfield, head?_accessorNames hs hk']

end ClassFiles

/-! ## Records -/

/-- Once a record class has been resolved, its components are the fields that its
class file declares final and not static, in file order, each with the name of the
first method in the file that takes nothing and returns a field of this name.  The
method reads the very field if no method reads a field of this name under another
descriptor. -/
theorem accessors_read_fields {bytes : Bytes} {s : ClassFile.Summary}
    (hparse : ClassFile.parse bytes = .ok s) (hrecord : s.superName = some "java/lang/Record")
    (names : Names) (sources : List ClassTable) {operations : List Operation}
    (ho : ∀ operation ∈ operations, ¬ operation.IsEdit) (later : List Operation)
    (hlater : ∀ operation ∈ later, ¬ operation.IsEdit) (isLocal : Bool) :
    let r := afterOperations names sources operations
    (r.path.hierarchy.class? s.name).map ClassNode.bare =
        (ClassNode.ofBytes? s.name bytes isLocal).map ClassNode.bare →
      ∃ layout rest, ClassFile.Layout.read bytes = .ok (layout, rest) ∧ layout.name = s.name ∧
        ∃ c, (later.foldl (perform names) (r.resolve names s.name)).path.hierarchy.class? s.name =
            some c ∧ c.resolved ∧
          c.components.map (fun k => (k.field, k.descriptor)) =
            (layout.fields.filter fun f => f.access.has .final && !f.access.has .static).map
              (fun f => (f.name, f.descriptor)) ∧
          ∀ k ∈ c.components,
            (k.accessor = none →
              ∀ m ∈ layout.methods, ∀ descriptor, ¬ m.Gets layout k.field descriptor) ∧
            ∀ name, k.accessor = some name →
              ∃ m ∈ layout.methods, m.name = name ∧ layout.FirstGetter k.field m ∧
                ((∀ n ∈ layout.methods, ∀ descriptor, n.Gets layout k.field descriptor →
                  descriptor = k.descriptor) → m.Gets layout k.field k.descriptor) := by
  intro r hread
  have hs : ClassNode.isRecordSummary s := beq_iff_eq.mpr hrecord
  have hbytes : ClassNode.ofBytes? s.name bytes isLocal = some (ClassNode.ofSummary s isLocal) := by
    rw [ClassNode.ofBytes?, hparse]
    exact if_pos rfl
  rw [hbytes, Option.map_some] at hread
  obtain ⟨c₀, hc₀, _⟩ := Option.map_eq_some_iff.mp hread
  have hfinished : Finished (r.resolve names s.name).path s.name
      (ClassNode.ofSummary s isLocal).bare :=
    { asked := (AtRest.mem_asked_resolve names).mpr (Or.inr .refl)
      resolved := isResolved_resolve_self names r (Option.isSome_of_eq_some hc₀)
      bare := ((alike_resolve names r s.name) s.name).symm.trans hread }
  have hdone : RecordsDone (r.resolve names s.name).path.hierarchy := by
    have hstart := RecordsDone.of_asRead (ClassPath.asRead_ofSources sources)
    have hpersists := persists_recordsDone names
    exact hpersists.of_resolve (hpersists.afterOperations hstart ho) s.name
  obtain ⟨c, hc, hresolved, hcomponents, haccessors⟩ := components_of_finished
    ((persists_recordsDone names).performAll hdone hlater) hs
    ((persists_finished names s.name _).performAll hfinished hlater)
  obtain ⟨layout, rest, hlayout, hsummary⟩ := ClassFile.parse_eq_ok hparse
  have hnames := ClassFile.find?_getterOf hsummary
  obtain ⟨bodies, targets, _, _, rfl⟩ := ClassFile.summary_eq_ok hsummary
  rw [List.filter_map, List.map_map] at hcomponents
  refine ⟨layout, rest, hlayout, rfl, c, hc, hresolved, hcomponents, fun k hk => ?_⟩
  obtain ⟨hfirst, hnone⟩ := hnames k.field
  rw [← haccessors k hk] at hfirst hnone
  refine ⟨hnone, fun name hname => ?_⟩
  obtain ⟨m, hm, hmname⟩ := hfirst name hname
  obtain ⟨⟨descriptor, hgets⟩, _⟩ := id hm
  refine ⟨m, hm.mem, hmname, hm, fun honly => ?_⟩
  rw [← honly m hm.mem descriptor hgets]
  exact hgets

namespace Sample

open Assembly (Sketch Declaration)

/-- A method that returns a field of a class. -/
def getter (cls field descriptor : String) (name : String) (opcode : UInt8) : Declaration :=
  .method
    { access := .ofModifiers [.pub]
      name
      descriptor := "()" ++ descriptor
      signature := none
      body := some [.load .reference 0, .getField ⟨cls, field, descriptor⟩, .op opcode] }

def component (name descriptor : String) : Declaration :=
  .field { access := .ofModifiers [.priv, .final], name, descriptor, signature := none }

/-- A record of two numbers that can be asked for each. -/
def point : Sketch :=
  plain "Point" (some "java/lang/Record")
    [component "x" "I", component "y" "J", getter "Point" "x" "I" "x" 0xAC,
      getter "Point" "y" "J" "y" 0xAD]

def pointOperations : List Operation := [.request (.register (archive [point]) true)]

theorem class?_point :
    (afterOperations .asWritten [] pointOperations).path.hierarchy.class? "Point" =
      ClassNode.ofBytes? "Point" point.assemble true := by
  decide +kernel

theorem parse_point : (ClassFile.parse point.assemble).toOption.any fun s =>
    s.name = "Point" ∧ s.superName = some "java/lang/Record" := by
  decide +kernel

/-- Every method of the record reads one of its fields, under its descriptor. -/
theorem read_point : (ClassFile.Layout.read point.assemble).toOption.any fun p =>
    ∀ m ∈ p.1.methods, m.second? p.1.pool = some (.getField ⟨"Point", "x", "I"⟩) ∨
      m.second? p.1.pool = some (.getField ⟨"Point", "y", "J"⟩) := by
  decide +kernel

set_option maxRecDepth 10000 in
theorem components_point : ((afterOperations .asWritten [] pointOperations).resolve .asWritten
      "Point").path.hierarchy.class? "Point" |>.any fun c =>
    c.components = [⟨"x", "I", some "x"⟩, ⟨"y", "J", some "y"⟩] := by
  rw [resolve_eq_resolving]
  decide +kernel

/-- Both components have accessors, which read them. -/
theorem accessors_read_fields_point :
    (∀ operation ∈ pointOperations, ¬ operation.IsEdit) ∧
    ∃ s layout rest, ClassFile.parse point.assemble = .ok s ∧
      s.superName = some "java/lang/Record" ∧
      ClassFile.Layout.read point.assemble = .ok (layout, rest) ∧
      ∃ c, ((afterOperations .asWritten [] pointOperations).resolve .asWritten
          "Point").path.hierarchy.class? "Point" = some c ∧
        c.components = [⟨"x", "I", some "x"⟩, ⟨"y", "J", some "y"⟩] ∧
        ∀ k ∈ c.components, ∃ m ∈ layout.methods,
          k.accessor = some m.name ∧ m.Gets layout k.field k.descriptor := by
  have ho : ∀ operation ∈ pointOperations, ¬ operation.IsEdit := by
    simp [pointOperations, Operation.IsEdit]
  obtain ⟨s, hs, hflags⟩ := (Option.any_eq_true _ _).mp parse_point
  obtain ⟨hname, hrecord⟩ := of_decide_eq_true hflags
  have hparse : ClassFile.parse point.assemble = .ok s := ClassFile.toOption_eq_some.mp hs
  obtain ⟨layout, rest, hlayout, _, c, hc, _, _, haccessors⟩ :=
    accessors_read_fields hparse hrecord .asWritten [] ho [] (by simp) true (by
      rw [hname, class?_point])
  obtain ⟨p, hp, hflags⟩ := (Option.any_eq_true _ _).mp read_point
  have hreads := of_decide_eq_true hflags
  cases (ClassFile.toOption_eq_some.mp hp).symm.trans hlayout
  rw [hname] at hc
  obtain ⟨c', hc', hcomponents⟩ := (Option.any_eq_true _ _).mp components_point
  cases hc.symm.trans hc'
  have hcomponents := of_decide_eq_true hcomponents
  refine ⟨ho, s, layout, rest, hparse, hrecord, hlayout, c, hc, hcomponents, fun k hk => ?_⟩
  have hk' : k = ⟨"x", "I", some "x"⟩ ∨ k = ⟨"y", "J", some "y"⟩ := by
    simpa [hcomponents] using hk
  have haccessor : k.accessor = some k.field := by rcases hk' with rfl | rfl <;> rfl
  obtain ⟨m, hm, hmname, _, hreadsfield⟩ := (haccessors k hk).2 k.field haccessor
  refine ⟨m, hm, haccessor.trans (congrArg some hmname.symm),
    hreadsfield fun n hn descriptor hgets => ?_⟩
  have hsecond := hreads n hn
  rw [hgets.second?] at hsecond
  simp only [Option.some.injEq, ClassFile.Instruction.getField.injEq, MemberRef.mk.injEq]
    at hsecond
  rcases hk' with rfl | rfl <;> rcases hsecond with ⟨_, hfield, rfl⟩ | ⟨_, hfield, rfl⟩
  · rfl
  · exact absurd hfield (by decide)
  · exact absurd hfield (by decide)
  · rfl

/-- A record with two fields of one name, which can be asked for one of them. -/
def pair : Sketch :=
  plain "Pair" (some "java/lang/Record")
    [component "x" "I", component "x" "J", getter "Pair" "x" "J" "a" 0xAD]

def pairOperations : List Operation := [.request (.register (archive [pair]) true)]

/-- The only method reads the second field. -/
theorem read_pair : (ClassFile.Layout.read pair.assemble).toOption.any fun p =>
    ∀ m ∈ p.1.methods, m.second? p.1.pool = some (.getField ⟨"Pair", "x", "J"⟩) := by
  decide +kernel

set_option maxRecDepth 10000 in
theorem components_pair : ((afterOperations .asWritten [] pairOperations).resolve .asWritten
      "Pair").path.hierarchy.class? "Pair" |>.any fun c => c.resolved ∧
    c.components = [⟨"x", "I", some "a"⟩, ⟨"x", "J", some "a"⟩] := by
  rw [resolve_eq_resolving]
  decide +kernel

/-- The first component gets a getter, though no method of the class reads it. -/
theorem accessor_astray_pair :
    (∃ c, ((afterOperations .asWritten [] pairOperations).resolve .asWritten
        "Pair").path.hierarchy.class? "Pair" = some c ∧ c.resolved ∧
      ⟨"x", "I", some "a"⟩ ∈ c.components) ∧
    ∃ layout rest, ClassFile.Layout.read pair.assemble = .ok (layout, rest) ∧
      ∀ m ∈ layout.methods, ¬ m.Gets layout "x" "I" := by
  obtain ⟨c, hc, hflags⟩ := (Option.any_eq_true _ _).mp components_pair
  obtain ⟨hresolved, hcomponents⟩ := of_decide_eq_true hflags
  obtain ⟨⟨layout, rest⟩, hp, hflags⟩ := (Option.any_eq_true _ _).mp read_pair
  have hreads := of_decide_eq_true hflags
  refine ⟨⟨c, hc, hresolved, hcomponents ▸ List.mem_cons_self⟩, layout, rest,
    ClassFile.toOption_eq_some.mp hp, fun m hm hgets => ?_⟩
  have hsecond := (hreads m hm).symm.trans hgets.second?
  simp at hsecond

end Sample

end Resolution
end Lineage
