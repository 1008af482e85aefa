import Lineage.Graph.Basic

/-!
Queues in which no node waits twice.

A node counts as known from the moment it starts to wait.  The nodes that a
search over such a queue can still expand are those that wait and those that are
not known yet.
-/

namespace Lineage
namespace Graph

variable {α : Type} [DecidableEq α]

/-- Put those of some nodes that are not known behind the nodes that wait. -/
def enqueue : List α → List α → List α → List α × List α
  | [], waiting, known => (waiting, known)
  | a :: new, waiting, known =>
    if a ∈ known then enqueue new waiting known else enqueue new (waiting ++ [a]) (a :: known)

/-- How many nodes a search can still expand. -/
noncomputable def expansions (g : Graph α) (waiting known : List α) : Nat :=
  g.unseen known + waiting.countP fun a => (g.next a).isSome

theorem expansions_enqueue_le (g : Graph α) (new waiting known : List α) :
    g.expansions (enqueue new waiting known).1 (enqueue new waiting known).2 ≤
      g.expansions waiting known := by
  induction new generalizing waiting known with
  | nil => exact Nat.le_refl _
  | cons a new ih =>
    rw [enqueue]
    by_cases ha : a ∈ known
    · rw [if_pos ha]
      exact ih waiting known
    · rw [if_neg ha]
      refine Nat.le_trans (ih (waiting ++ [a]) (a :: known)) ?_
      rw [expansions, expansions, List.countP_append, List.countP_singleton]
      cases hn : g.next a with
      | none => simpa using g.unseen_cons_le known a
      | some l =>
        have hlt := g.unseen_cons_lt hn ha
        simp only [Option.isSome_some, if_true]
        omega

theorem expansions_cons_of_none {g : Graph α} {a : α} (h : g.next a = none)
    (rest known : List α) : g.expansions (a :: rest) known = g.expansions rest known := by
  rw [expansions, expansions, List.countP_cons_of_neg (by simp [h])]

theorem expansions_cons_of_some {g : Graph α} {a : α} {l : List α} (h : g.next a = some l)
    (rest known : List α) : g.expansions (a :: rest) known = g.expansions rest known + 1 := by
  rw [expansions, expansions, List.countP_cons_of_pos (by simp [h]), Nat.add_assoc]

end Graph
end Lineage
