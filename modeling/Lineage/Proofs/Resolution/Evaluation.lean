import Lineage.Proofs.Graph.Evaluation
import Lineage.Resolution.Basic

/-!
Resolving that computes.

What comes of resolving a given class can be decided once all searches on the way
get a number of steps.  `resolving` and `unifying` are `resolve` and `unify` with
such searches.  They are not written down a second time: unfolding the functions
down to their searches and rewriting these says what they are.
-/

namespace Lineage
namespace Resolution

/-- `resolve` with searches that compute. -/
def resolving (names : Names) : { f : Resolution → String → Resolution // resolve names = f } :=
  ⟨_, by
    delta resolve handle settle linkMethods linkMethod resolveBounces resolveBouncer landBouncer
      retarget bindContracts Hierarchy.overrideRoots Hierarchy.nearestParent?
      Hierarchy.declarationsAbove Hierarchy.ancestors Hierarchy.lineage Hierarchy.declaration?
      Graph.depthFirst Graph.breadthFirst Graph.traversal Walk.walk Walk.walk._f Walk.settle
    simp only [Graph.visit_eq, Graph.run_eq]
    rfl⟩

/-- `unify` with searches that compute. -/
def unifying : { f : Resolution → String → Resolution // unify = f } :=
  ⟨_, by
    delta unify unifyInterface unifyMethod scope isImplementation Hierarchy.isInstance
      Hierarchy.ancestors Hierarchy.lineage Graph.breadthFirst
    simp only [Graph.visit_eq]
    rfl⟩

theorem resolve_eq_resolving (names : Names) : resolve names = (resolving names).1 :=
  (resolving names).2

theorem unify_eq_unifying : unify = unifying.1 := unifying.2

end Resolution
end Lineage
