import Lineage.Graph.Search
import Lineage.Hierarchy.Node

/-!
Hierarchies: classes by name, with the supertype relation between them.

A supertype that the hierarchy does not have is still named by its subtypes, so
walks meet it, but they cannot go beyond it.
-/

namespace Lineage

open Std (ExtTreeMap)

structure Hierarchy where
  classes : ExtTreeMap String ClassNode
  deriving DecidableEq

namespace Hierarchy

def class? (h : Hierarchy) (name : String) : Option ClassNode := h.classes[name]?

/-- The method that a reference leads to: the one with its key in its owner. -/
def method? (h : Hierarchy) (m : MemberRef) : Option MethodNode := do
  let c ← h.class? m.owner
  c.method? m.key

def modifyClass (h : Hierarchy) (name : String) (f : ClassNode → ClassNode) : Hierarchy :=
  ⟨h.classes.modify name f⟩

def modifyMethod (h : Hierarchy) (m : MemberRef) (f : MethodNode → MethodNode) : Hierarchy :=
  h.modifyClass m.owner (·.modifyMethod m.key f)

@[grind =]
theorem class?_modifyClass (h : Hierarchy) (name other : String) (f : ClassNode → ClassNode) :
    (h.modifyClass name f).class? other =
      if name = other then (h.class? other).map f else h.class? other := by
  by_cases hn : name = other <;>
    simp [modifyClass, class?, ExtTreeMap.getElem?_modify, hn]

/-! ## The supertype relation -/

def supertypes? (h : Hierarchy) (name : String) : Option (List String) :=
  (h.class? name).map ClassNode.supertypes

theorem mem_keys_of_class? {h : Hierarchy} {name : String} (hc : (h.class? name).isSome) :
    name ∈ h.classes.keys := by
  rw [ExtTreeMap.mem_keys, ExtTreeMap.mem_iff_isSome_getElem?]
  exact hc

def supertypeGraph (h : Hierarchy) : Graph String where
  next := h.supertypes?
  finite := ⟨h.classes.keys, fun _ ha => mem_keys_of_class? (by simpa [supertypes?] using ha)⟩

/-- The names that can be reached from `name` over supertypes, `name` included,
by distance. -/
def lineage (h : Hierarchy) (name : String) : List String :=
  h.supertypeGraph.breadthFirst name

/-- The classes among them. -/
def ancestors (h : Hierarchy) (name : String) : List String :=
  (h.lineage name).filter fun n => (h.class? n).isSome

/-- `target` can be reached from `name`. -/
def isInstance (h : Hierarchy) (name target : String) : Bool :=
  name == target || (h.lineage name).contains target

/-- The reference to the first class that declares the method, starting at its
owner and taking superclasses with all their ancestors before interfaces. -/
def declaration? (h : Hierarchy) (m : MemberRef) : Option MemberRef :=
  ((h.supertypeGraph.depthFirst m.owner).map m.withOwner).find? fun r => (h.method? r).isSome

end Hierarchy
end Lineage
