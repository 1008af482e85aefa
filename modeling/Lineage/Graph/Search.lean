import Lineage.Graph.Basic

/-!
Searching a graph.

A search keeps a list of nodes to be looked at and answers each node that it
meets, once, in the order in which it meets them.  A node that cannot be
expanded is met like any other.
-/

namespace Lineage
namespace Graph

variable {α : Type} [DecidableEq α]

/-- Where the successors of a node go among the nodes to be looked at. -/
inductive Strategy where
  | depthFirst
  | breadthFirst
  deriving DecidableEq, Repr

def Strategy.merge : Strategy → List α → List α → List α
  | depthFirst, new, waiting => new ++ waiting
  | breadthFirst, new, waiting => waiting ++ new

/-- The nodes met from `waiting` on, where those in `seen` have been met
before. -/
def visit (g : Graph α) (strategy : Strategy) (waiting seen : List α) : List α :=
  match waiting with
  | [] => []
  | a :: rest =>
    if _ha : a ∈ seen then g.visit strategy rest seen
    else
      match _h : g.next a with
      | none => a :: g.visit strategy rest (a :: seen)
      | some l => a :: g.visit strategy (strategy.merge l rest) (a :: seen)
  termination_by (g.unseen seen, waiting.length)
  decreasing_by
    · exact Prod.Lex.right _ (Nat.lt_succ_self _)
    · rcases Nat.lt_or_eq_of_le (g.unseen_cons_le seen a) with hlt | heq
      · exact Prod.Lex.left _ _ hlt
      · rw [heq]
        exact Prod.Lex.right _ (Nat.lt_succ_self _)
    · exact Prod.Lex.left _ _ (g.unseen_cons_lt _h _ha)

/-- All nodes met from `start`, a node before its successors and those before
the rest. -/
def depthFirst (g : Graph α) (start : α) : List α := g.visit .depthFirst [start] []

/-- All nodes met from `start`, in order of their distance. -/
def breadthFirst (g : Graph α) (start : α) : List α := g.visit .breadthFirst [start] []

end Graph
end Lineage
