import Lineage.Proofs.Resolution.Unity

/-!
Unifying as a list of changes.

What unifying an interface does is to make some changes to single methods, one
after the other.  Which ones they are is told by class files and by what is
loaded, not by what has been changed before.  For one method only the changes
count that are made where it stands, and of these all roots and the last name.
So making a list of changes once more changes nothing.
-/

namespace Lineage

open Std (ExtTreeMap ExtTreeSet)

/-! ## Changes -/

/-- What unifying does to a method. -/
inductive Change where
  | root (r : MemberRef)
  | name (n : String)

namespace Change

def apply : Change → MethodNode → MethodNode
  | root r, m => m.addOverrides {r}
  | name n, m => m.force n

def name? : Change → Option String
  | root _ => none
  | name n => some n

theorem sansUnity_apply (c : Change) (m : MethodNode) : (c.apply m).sansUnity = m.sansUnity := by
  cases c with
  | root r => rfl
  | name n => exact Resolution.sansUnity_force m n

def applyAll (cs : List Change) (m : MethodNode) : MethodNode := cs.foldl (fun m c => c.apply m) m

variable (cs : List Change) (m : MethodNode)

theorem sansUnity_applyAll : (applyAll cs m).sansUnity = m.sansUnity :=
  List.foldlRecOn (motive := fun n : MethodNode => n.sansUnity = m.sansUnity) _ _ rfl
    fun n hn c _ => (sansUnity_apply c n).trans hn

/-- All roots are gained. -/
theorem mem_overrides_applyAll (x : MemberRef) :
    x ∈ (applyAll cs m).overrides ↔ x ∈ m.overrides ∨ root x ∈ cs := by
  induction cs generalizing m with
  | nil => simp [applyAll]
  | cons c cs ih =>
    rw [applyAll, List.foldl_cons, ← applyAll, ih, List.mem_cons]
    cases c with
    | root r =>
      have hmem : x ∈ ({r} : MemberSet) ↔ root x = root r := by
        simp [eq_comm (a := x)]
      rw [apply, MethodNode.addOverrides, ExtTreeSet.mem_union_iff, or_assoc, hmem]
    | name n => simp [apply, MethodNode.overrides_force]

/-- Of the names the last counts, unless one has been pinned. -/
theorem forcedName_applyAll : (applyAll cs m).forcedName =
    if m.pinned then m.forcedName else (cs.reverse.findSome? name?).or m.forcedName := by
  induction cs generalizing m with
  | nil => simp [applyAll]
  | cons c cs ih =>
    have hpinned := MethodNode.pinned_eq_of_sansUnity (sansUnity_apply c m)
    rw [applyAll, List.foldl_cons, ← applyAll, ih, hpinned, List.reverse_cons,
      List.findSome?_append]
    cases c with
    | root r => simp [apply, name?, MethodNode.addOverrides]
    | name n => cases hp : m.pinned <;> simp [apply, name?, MethodNode.force, hp]

theorem applyAll_applyAll : applyAll cs (applyAll cs m) = applyAll cs m := by
  have hsans := sansUnity_applyAll cs (applyAll cs m)
  refine MethodNode.eq_of_sansUnity hsans (ExtTreeSet.ext_mem fun x => ?_) ?_
  · simp only [mem_overrides_applyAll, or_assoc, or_self]
  · rw [forcedName_applyAll, forcedName_applyAll,
      MethodNode.pinned_eq_of_sansUnity (sansUnity_applyAll cs m)]
    cases m.pinned with
    | true => rfl
    | false => cases cs.reverse.findSome? name? <;> rfl

/-- The bouncers that a method knows do not matter. -/
theorem sansForwarders_applyAll :
    (applyAll cs m).sansForwarders = applyAll cs m.sansForwarders := by
  induction cs generalizing m with
  | nil => rfl
  | cons c cs ih =>
    have hc : (c.apply m).sansForwarders = c.apply m.sansForwarders := by
      cases c with
      | root r => rfl
      | name n =>
        cases hp : m.pinned <;> simp [apply, MethodNode.force, MethodNode.sansForwarders, hp]
    rw [applyAll, List.foldl_cons, ← applyAll, ih, hc]
    rfl

end Change

/-! ## Changes to a hierarchy -/

/-- The changes that are made to the method with a key in a class. -/
def changesAt (cs : List (MemberRef × Change)) (name key : String) : List Change :=
  (cs.filter fun c => c.1.owner = name ∧ c.1.key = key).map Prod.snd

namespace ClassNode

def changed (cs : List (MemberRef × Change)) (name : String) (c : ClassNode) : ClassNode :=
  { c with methods := c.methods.map fun key => Change.applyAll (changesAt cs name key) }

variable (name : String) (c : ClassNode)

theorem getElem?_changed (cs : List (MemberRef × Change)) (key : String) :
    (c.changed cs name).methods[key]? =
      (c.methods[key]?).map (Change.applyAll (changesAt cs name key)) :=
  ExtTreeMap.getElem?_map

/-- Changes are made to methods only. -/
theorem changed_eq_of_methods {cs ds : List (MemberRef × Change)} {d : ClassNode}
    (hheader : d.header = c.header)
    (hmethods : ∀ key : String,
      (d.changed ds name).methods[key]? = (c.changed cs name).methods[key]?) :
    d.changed ds name = c.changed cs name := by
  have heq := ExtTreeMap.ext_getElem? hmethods
  cases c
  cases d
  simp_all [header, changed]

theorem changed_nil : c.changed [] name = c := by
  have hmethods : (c.changed [] name).methods = c.methods :=
    ExtTreeMap.ext_getElem? fun key => by
      rw [getElem?_changed]
      exact Option.map_id'
  exact congrArg (fun methods => { c with methods }) hmethods

theorem changed_cons (d : MemberRef × Change) (cs : List (MemberRef × Change)) :
    c.changed (d :: cs) name =
      (if d.1.owner = name then c.modifyMethod d.1.key d.2.apply else c).changed cs name := by
  refine (changed_eq_of_methods name c ?_ fun key => ?_).symm
  · split <;> rfl
  · rw [getElem?_changed, getElem?_changed]
    have hm := c.method?_modifyMethod d.1.key key d.2.apply
    simp only [method?] at hm
    by_cases hslot : d.1.owner = name ∧ d.1.key = key
    · have hat : changesAt (d :: cs) name key = d.2 :: changesAt cs name key := by
        simp [changesAt, hslot]
      rw [if_pos hslot.1, hm, if_pos hslot.2, hat, Option.map_map]
      rfl
    · have hat : changesAt (d :: cs) name key = changesAt cs name key := by
        simp [changesAt, hslot]
      rw [hat]
      by_cases ho : d.1.owner = name
      · rw [if_pos ho, hm, if_neg fun hk => hslot ⟨ho, hk⟩]
      · rw [if_neg ho]

/-- Making changes once more changes nothing. -/
theorem changed_changed (cs : List (MemberRef × Change)) :
    (c.changed cs name).changed cs name = c.changed cs name := by
  refine changed_eq_of_methods name c rfl fun key => ?_
  rw [getElem?_changed, getElem?_changed, Option.map_map]
  exact congrArg (fun f => c.methods[key]?.map f)
    (funext fun m => Change.applyAll_applyAll (changesAt cs name key) m)

end ClassNode

namespace Hierarchy

def change (h : Hierarchy) (c : MemberRef × Change) : Hierarchy := h.modifyMethod c.1 c.2.apply

def changeAll (h : Hierarchy) (cs : List (MemberRef × Change)) : Hierarchy := cs.foldl change h

/-- Every method gets the changes that are made where it stands. -/
theorem class?_changeAll (h : Hierarchy) (cs : List (MemberRef × Change)) (name : String) :
    (h.changeAll cs).class? name = (h.class? name).map (ClassNode.changed cs name) := by
  induction cs generalizing h with
  | nil =>
    rw [funext (ClassNode.changed_nil name)]
    exact Option.map_id'.symm
  | cons d cs ih =>
    rw [changeAll, List.foldl_cons, ← changeAll, ih, change, modifyMethod, class?_modifyClass,
      funext fun c => ClassNode.changed_cons name c d cs]
    by_cases ho : d.1.owner = name
    · simp only [if_pos ho, Option.map_map]
      rfl
    · simp only [if_neg ho]

theorem eq_of_class? {h h' : Hierarchy} (hh : ∀ name, h.class? name = h'.class? name) :
    h = h' := by
  cases h
  cases h'
  exact congrArg Hierarchy.mk (ExtTreeMap.ext_getElem? hh)

theorem changeAll_changeAll (h : Hierarchy) (cs : List (MemberRef × Change)) :
    (h.changeAll cs).changeAll cs = h.changeAll cs := by
  refine eq_of_class? fun name => ?_
  rw [class?_changeAll, class?_changeAll, Option.map_map]
  exact congrArg (fun f => (h.class? name).map f)
    (funext fun c => ClassNode.changed_changed name c cs)

theorem changeAll_append (h : Hierarchy) (cs ds : List (MemberRef × Change)) :
    h.changeAll (cs ++ ds) = (h.changeAll cs).changeAll ds :=
  List.foldl_append

theorem alike_changeAll (h : Hierarchy) (cs : List (MemberRef × Change)) :
    Alike h (h.changeAll cs) := by
  have hsame : SameBut MethodNode.sansUnity h (h.changeAll cs) :=
    List.foldlRecOn (motive := SameBut MethodNode.sansUnity h) _ _ (.refl h) fun g hg c _ =>
      hg.trans (sameBut_modifyMethod g c.1 fun m => c.2.sansUnity_apply m)
  exact hsame.alike_of fun _ => rfl

/-- Hierarchies in which methods know other bouncers differ in no more than that
after the same changes. -/
theorem SameBut.changeAll {h h' : Hierarchy} (hh : SameBut MethodNode.sansForwarders h h')
    (cs : List (MemberRef × Change)) :
    SameBut MethodNode.sansForwarders (h.changeAll cs) (h'.changeAll cs) := by
  intro name
  have hchanged : ∀ c : ClassNode,
      ((c.changed cs name).methods.map fun _ => MethodNode.sansForwarders) =
        (c.methods.map fun _ => MethodNode.sansForwarders).map fun key =>
          Change.applyAll (changesAt cs name key) := fun c =>
    ExtTreeMap.ext_getElem? fun key => by
      simp only [ExtTreeMap.getElem?_map, ClassNode.getElem?_changed, Option.map_map]
      exact congrArg (fun f => c.methods[key]?.map f)
        (funext fun m => Change.sansForwarders_applyAll _ m)
  have hname := congrArg (Option.map fun p => (p.1, p.2.map fun key =>
    Change.applyAll (changesAt cs name key))) (hh name)
  simp only [Option.map_map, Function.comp_def] at hname
  simp only [class?_changeAll, Option.map_map, Function.comp_def, hchanged]
  exact hname

end Hierarchy

namespace Resolution

open Hierarchy (Alike)

/-! ## What unifying changes -/

/-- The changes in forcing the name of a method outside the primary archive. -/
def renamings (isPrimary : String → Bool) (counterparts : List MethodNode) :
    List (MemberRef × Change) :=
  match counterparts.find? fun o => !isPrimary o.owner with
  | some outside => counterparts.map fun i => (i.ref, .name outside.name)
  | none => []

theorem forceExternalName_eq (isPrimary : String → Bool) (counterparts : List MethodNode)
    (h : Hierarchy) :
    forceExternalName isPrimary counterparts h =
      h.changeAll (renamings isPrimary counterparts) := by
  unfold forceExternalName renamings
  cases counterparts.find? fun o => !isPrimary o.owner with
  | none => rfl
  | some outside =>
    rw [Hierarchy.changeAll, List.foldl_map]
    rfl

/-- The changes in unifying the method `m` of an interface with its
counterparts. -/
def unifications (isPrimary : String → Bool) (h : Hierarchy) (cls : String)
    (counterparts : List MethodNode) (m : MethodNode) : List (MemberRef × Change) :=
  let implementations := counterparts.filter (isImplementation h cls)
  if implementations.isEmpty then []
  else
    (implementations.filter (·.owner != cls)).map (fun i => (i.ref, .root m.ref)) ++
      renamings isPrimary counterparts

theorem unifyMethod_eq (isPrimary : String → Bool) (cls : String) (classes : List String)
    (h : Hierarchy) (m : MethodNode) : unifyMethod isPrimary cls classes h m =
      h.changeAll (unifications isPrimary h cls (siblings h classes m.key) m) := by
  unfold unifyMethod unifications
  dsimp only
  split
  · rfl
  · rw [Hierarchy.changeAll_append, forceExternalName_eq, Hierarchy.changeAll,
      Hierarchy.changeAll, Hierarchy.changeAll, List.foldl_map]
    rfl

/-- The changes in unifying all methods of an interface. -/
def interfaceChanges (isPrimary : String → Bool) (loaded : List String) (cls : String)
    (h : Hierarchy) : List (MemberRef × Change) :=
  match h.class? cls with
  | some c =>
    if c.isInterface then
      (interfaceMethods c).flatMap fun m =>
        unifications isPrimary h cls (siblings h (scope h loaded cls).toList m.key) m
    else []
  | none => []

/-! ### Class files tell them -/

section

variable {h g : Hierarchy}

theorem renamings_bare (isPrimary : String → Bool) (counterparts : List MethodNode) :
    renamings isPrimary (counterparts.map MethodNode.bare) =
      renamings isPrimary counterparts := by
  unfold renamings
  rw [List.find?_map]
  have howner : (fun o : MethodNode => !isPrimary o.owner) ∘ MethodNode.bare =
      fun o => !isPrimary o.owner := rfl
  rw [howner]
  cases counterparts.find? fun o => !isPrimary o.owner with
  | none => rfl
  | some outside => exact List.map_map

theorem unifications_bare (isPrimary : String → Bool) (h : Hierarchy) (cls : String)
    (counterparts : List MethodNode) (m : MethodNode) :
    unifications isPrimary h cls (counterparts.map MethodNode.bare) m.bare =
      unifications isPrimary h cls counterparts m := by
  unfold unifications
  simp only [List.filter_map, List.isEmpty_map, List.map_map, renamings_bare]
  rfl

theorem isImplementation_eq_of_alike (ha : Alike h g) (cls : String) :
    isImplementation g cls = isImplementation h cls :=
  funext fun _ => (isImplementation_eq ha rfl).symm

/-- What is told of a method is told by class files alone. -/
theorem unifications_eq (ha : Alike h g) (isPrimary : String → Bool) (cls : String)
    {counterparts counterparts' : List MethodNode} {m m' : MethodNode}
    (hc : counterparts.map MethodNode.bare = counterparts'.map MethodNode.bare)
    (hm : m.bare = m'.bare) :
    unifications isPrimary g cls counterparts m =
      unifications isPrimary h cls counterparts' m' := by
  rw [← unifications_bare, hc, hm, unifications_bare]
  unfold unifications
  rw [isImplementation_eq_of_alike ha]

theorem map_bare_siblings (ha : Alike h g) (classes : List String) (key : String) :
    (siblings g classes key).map MethodNode.bare =
      (siblings h classes key).map MethodNode.bare := by
  have hbare : ∀ h : Hierarchy, (siblings h classes key).map MethodNode.bare =
      ((classes.filterMap fun name => (h.class? name).map ClassNode.bare).filterMap
        (·.method? key)).filter MethodNode.isOverridable := fun h => by
    have hmethod : (fun c : ClassNode => (c.method? key).map MethodNode.bare) =
        fun c => c.bare.method? key := funext fun c => (c.method?_bare key).symm
    rw [← List.map_filterMap, List.filterMap_map, siblings]
    show _ = ((classes.filterMap h.class?).filterMap fun c => c.bare.method? key).filter _
    rw [← hmethod, ← List.map_filterMap, List.filter_map]
    rfl
  have hclass : (fun name => (g.class? name).map ClassNode.bare) =
      fun name => (h.class? name).map ClassNode.bare := funext fun name => (ha name).symm
  rw [hbare, hbare, hclass]

theorem map_bare_interfaceMethods {c d : ClassNode} (hb : c.bare = d.bare) :
    (interfaceMethods c).map MethodNode.bare = (interfaceMethods d).map MethodNode.bare := by
  have hvalues : ∀ c : ClassNode, (interfaceMethods c).map MethodNode.bare =
      c.bare.methods.values.filter fun m => !m.access.has .static && !m.access.has .priv :=
    fun c => by
      show _ = (c.methods.map fun _ => MethodNode.bare).values.filter _
      rw [values_eq_map_toList, ExtTreeMap.toList_map, List.map_map, interfaceMethods,
        values_eq_map_toList]
      show _ = (c.methods.toList.map (MethodNode.bare ∘ Prod.snd)).filter _
      rw [← List.map_map]
      exact (List.filter_map (f := MethodNode.bare)
        (p := fun m => !m.access.has .static && !m.access.has .priv)).symm
  rw [hvalues, hvalues, hb]

theorem interfaceChanges_eq (ha : Alike h g) (isPrimary : String → Bool) (loaded : List String)
    (cls : String) :
    interfaceChanges isPrimary loaded cls g = interfaceChanges isPrimary loaded cls h := by
  unfold interfaceChanges
  cases hd : h.class? cls with
  | none =>
    have hc : g.class? cls = none := by
      have hn := ha.isSome_class? cls
      rw [hd] at hn
      exact Option.isNone_iff_eq_none.mp (by simpa using hn.symm)
    rw [hc]
  | some d =>
    obtain ⟨c, hc, hb⟩ := ha.exists_class hd
    have hinterface : c.isInterface = d.isInterface := (congrArg ClassNode.isInterface hb).symm
    rw [hc]
    dsimp only
    rw [hinterface, scope_eq_of_alike ha]
    split
    · generalize (scope h loaded cls).toList = classes
      let told := fun m => unifications isPrimary h cls (siblings h classes m.key) m
      have hstep : ∀ m, unifications isPrimary g cls (siblings g classes m.key) m = told m :=
        fun m => unifications_eq ha isPrimary cls (map_bare_siblings ha classes m.key) rfl
      have hbare : told = fun m => told m.bare := rfl
      rw [funext hstep]
      show (interfaceMethods c).flatMap told = (interfaceMethods d).flatMap told
      rw [hbare, ← List.flatMap_map MethodNode.bare, ← List.flatMap_map MethodNode.bare,
        map_bare_interfaceMethods hb.symm]
    · rfl

end

/-! ### Unifying makes them -/

theorem foldl_unifyMethod (isPrimary : String → Bool) (cls : String) (classes : List String)
    {h g : Hierarchy} (ha : Alike h g) (methods : List MethodNode) :
    methods.foldl (unifyMethod isPrimary cls classes) g =
      g.changeAll (methods.flatMap fun m =>
        unifications isPrimary h cls (siblings h classes m.key) m) := by
  induction methods generalizing g with
  | nil => rfl
  | cons m methods ih =>
    rw [List.foldl_cons, unifyMethod_eq, List.flatMap_cons, Hierarchy.changeAll_append,
      ih (ha.trans (Hierarchy.alike_changeAll g _)),
      unifications_eq ha isPrimary cls (map_bare_siblings ha classes m.key) rfl]

theorem unifyInterface_eq (isPrimary : String → Bool) (loaded : List String) (cls : String)
    (h : Hierarchy) : unifyInterface isPrimary loaded cls h =
      h.changeAll (interfaceChanges isPrimary loaded cls h) := by
  unfold unifyInterface interfaceChanges
  cases h.class? cls with
  | none => rfl
  | some c =>
    dsimp only
    split
    · exact foldl_unifyMethod isPrimary cls _ (.refl h) _
    · rfl

end Resolution
end Lineage
