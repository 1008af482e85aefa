import Lineage.Hierarchy.Basic
import Lineage.Resolution.Finding

/-!
Abstract methods that a concrete class takes over from its ancestors.  Each is
bound to the first implementation among the ancestors, by distance.
-/

namespace Lineage
namespace Resolution

open Std (ExtTreeMap)

/-- Abstract methods that override nothing themselves. -/
def isContract (m : MethodNode) : Bool := m.access.has .abstract && m.overrides.isEmpty

/-- The class can be relied on for the method. -/
def implements (m : MethodNode) : Bool := !m.access.has .abstract && m.isOverridable

/-- The contracts of some classes, by key. -/
def contracts (h : Hierarchy) (classes : List String) : ExtTreeMap String MemberSet :=
  ((classes.filterMap h.class?).flatMap fun c => c.methods.values.filter isContract).foldl
    (fun cs m => cs.alter m.key fun roots => some ((roots.getD ∅).insert m.ref)) ∅

/-- The first method with a key among some classes that implements it. -/
def implementation? (h : Hierarchy) (classes : List String) (key : String) :
    Option MethodNode :=
  (classes.filterMap h.class?).findSome? fun c => (c.method? key).filter implements

def bindContract (cls : String) (classes : List String)
    (state : Hierarchy × List Finding) (contract : String × MemberSet) :
    Hierarchy × List Finding :=
  match implementation? state.1 classes contract.1 with
  | some m => (state.1.modifyMethod m.ref (·.addOverrides contract.2), state.2)
  | none => (state.1, state.2 ++ contract.2.toList.map (.unresolvedContract cls))

def bindContracts (cls : String) (h : Hierarchy) : Hierarchy × List Finding :=
  let classes := h.ancestors cls
  (contracts h classes).toList.foldl (bindContract cls classes) (h, [])

end Resolution
end Lineage
