import Lineage.Graph.Basic

/-!
Traversing a graph so that a node comes after its successors.

A node is open from the moment it is entered until its successors have been
dealt with, and is closed then.  Meeting an open node again shows a cycle.
-/

namespace Lineage
namespace Graph

variable {α : Type} [DecidableEq α]

inductive Event (α : Type) where
  /-- The successors of the node have been dealt with. -/
  | closed (a : α)
  /-- The node was met again while it was open. -/
  | cycle (a : α)
  deriving DecidableEq, Repr

inductive Task (α : Type) where
  | enter (a : α)
  | leave (a : α)
  deriving DecidableEq, Repr

/-- What happens while `tasks` are worked off.  Of the nodes in `entered`, those
in `closed` are closed and the others are open. -/
def run (g : Graph α) (tasks : List (Task α)) (entered closed : List α) : List (Event α) :=
  match tasks with
  | [] => []
  | .leave a :: rest => .closed a :: g.run rest entered (a :: closed)
  | .enter a :: rest =>
    match _h : g.next a with
    | none => g.run rest entered closed
    | some l =>
      if a ∈ closed then g.run rest entered closed
      else if _ha : a ∈ entered then .cycle a :: g.run rest entered closed
      else g.run (l.map .enter ++ .leave a :: rest) (a :: entered) closed
  termination_by (g.unseen entered, tasks.length)
  decreasing_by
    · exact Prod.Lex.right _ (Nat.lt_succ_self _)
    · exact Prod.Lex.right _ (Nat.lt_succ_self _)
    · exact Prod.Lex.right _ (Nat.lt_succ_self _)
    · exact Prod.Lex.right _ (Nat.lt_succ_self _)
    · exact Prod.Lex.left _ _ (g.unseen_cons_lt _h _ha)

/-- The events of a traversal that starts at `start`.  A node that cannot be
expanded has none. -/
def traversal (g : Graph α) (start : α) : List (Event α) := g.run [.enter start] [] []

end Graph
end Lineage
