import Lineage.Hierarchy.Basic

/-!
Looking up from a class for declarations of a method.

A viewpoint is a method seen from a class.  From there one goes on to the
bouncers that forward to the method, seen from the same class, and to the same
method seen from the supertypes of the class.
-/

namespace Lineage

structure Viewpoint where
  method : MemberRef
  cls : String
  deriving DecidableEq, Repr

namespace Viewpoint

/-- The viewpoints to go on to.  Only a method that can be overridden leads
anywhere, and only in a class that is there. -/
def next? (h : Hierarchy) (v : Viewpoint) : Option (List Viewpoint) := do
  let m ← h.method? v.method
  let c ← h.class? v.cls
  if m.isOverridable then
    some ((m.forwarders.toList.filterMap h.method?).map (fun f => ⟨f.ref, v.cls⟩) ++
      c.supertypes.map fun s => ⟨v.method, s⟩)
  else none

/-- The declaration that the method meets in the class: one of another owner
that subclasses may override. -/
def met? (h : Hierarchy) (v : Viewpoint) : Option MethodNode := do
  let m ← h.method? v.method
  let c ← h.class? v.cls
  let d ← c.method? v.method.key
  if m.isOverridable && d.owner != v.method.owner && d.isInheritable then some d else none

/-! ## There are finitely many viewpoints -/

/-- All ways of cutting a text in two. -/
def splits (s : String) : List (String × String) :=
  (List.range (s.toList.length + 1)).map fun i =>
    (String.ofList (s.toList.take i), String.ofList (s.toList.drop i))

theorem mem_splits (a b : String) : (a, b) ∈ splits (a ++ b) := by
  refine List.mem_map.mpr ⟨a.toList.length, ?_, ?_⟩
  · rw [List.mem_range, String.toList_append, List.length_append]
    omega
  · simp [String.toList_append]

/-- All references that lead to a method of the hierarchy. -/
def references (h : Hierarchy) : List MemberRef :=
  h.classes.toList.flatMap fun c =>
    c.2.methods.keys.flatMap fun key => (splits key).map fun s => ⟨c.1, s.1, s.2⟩

theorem mem_references {h : Hierarchy} {m : MemberRef} (hm : (h.method? m).isSome) :
    m ∈ references h := by
  simp only [Hierarchy.method?, Hierarchy.class?, ClassNode.method?, Option.bind_eq_bind,
    Option.isSome_iff_exists, Option.bind_eq_some_iff] at hm
  obtain ⟨d, c, hc, hd⟩ := hm
  refine List.mem_flatMap.mpr ⟨(m.owner, c), ?_, List.mem_flatMap.mpr ⟨m.key, ?_, ?_⟩⟩
  · exact Std.ExtTreeMap.mem_toList_iff_getElem?_eq_some.mpr hc
  · rw [Std.ExtTreeMap.mem_keys, Std.ExtTreeMap.mem_iff_isSome_getElem?, hd]
    rfl
  · exact List.mem_map.mpr ⟨(m.name, m.descriptor), mem_splits _ _, rfl⟩

theorem next?_isSome {h : Hierarchy} {v : Viewpoint} (hv : (v.next? h).isSome) :
    (h.method? v.method).isSome ∧ (h.class? v.cls).isSome := by
  simp only [next?, Option.bind_eq_bind, Option.isSome_iff_exists, Option.bind_eq_some_iff] at hv
  obtain ⟨_, m, hm, c, hc, _⟩ := hv
  exact ⟨by rw [hm]; rfl, by rw [hc]; rfl⟩

/-- All viewpoints that can be gone on from. -/
def all (h : Hierarchy) : List Viewpoint :=
  (references h).flatMap fun m => h.classes.keys.map fun c => ⟨m, c⟩

theorem mem_all {h : Hierarchy} {v : Viewpoint} (hm : (h.method? v.method).isSome)
    (hc : (h.class? v.cls).isSome) : v ∈ all h :=
  List.mem_flatMap.mpr ⟨v.method, mem_references hm,
    List.mem_map.mpr ⟨v.cls, Hierarchy.mem_keys_of_class? hc, rfl⟩⟩

def graph (h : Hierarchy) : Graph Viewpoint where
  next := next? h
  finite := ⟨all h, fun _ hv => mem_all (next?_isSome hv).1 (next?_isSome hv).2⟩

end Viewpoint

namespace Hierarchy

/-- The declarations that a method meets on the way up from a class: first what
the class declares, then what the bouncers into the method meet, then the
supertypes. -/
def declarationsAbove (h : Hierarchy) (m : MemberRef) (cls : String) : List MethodNode :=
  ((Viewpoint.graph h).depthFirst ⟨m, cls⟩).filterMap (Viewpoint.met? h)

end Hierarchy

/-- What a declaration contributes to the roots of the methods below it: its own
roots, or itself if it has none. -/
def MethodNode.roots (m : MethodNode) : MemberSet :=
  if m.overrides.isEmpty then {m.ref} else m.overrides

namespace Hierarchy

/-- The roots of all declarations that a method meets. -/
def overrideRoots (h : Hierarchy) (m : MemberRef) (cls : String) : MemberSet :=
  (h.declarationsAbove m cls).foldl (fun roots d => roots ∪ d.roots) ∅

/-- The first declaration that a method meets in a primary class. -/
def nearestParent? (h : Hierarchy) (m : MemberRef) (cls : String) : Option MemberRef :=
  ((h.declarationsAbove m cls).find? fun d =>
    (h.class? d.owner).any ClassNode.isLocal).map MethodNode.ref

end Hierarchy
end Lineage
