/-!
Graphs for searching.

A graph gives the successors of the nodes that it can expand.  There are only
finitely many of those, though any number of nodes may be named as successors,
and this is what ends a search that expands no node twice.
-/

namespace Lineage

structure Graph (α : Type) where
  /-- The successors of a node, `none` for a node that cannot be expanded. -/
  next : α → Option (List α)
  finite : ∃ nodes : List α, ∀ a, (next a).isSome → a ∈ nodes

namespace Graph

theorem countP_lt_countP {α : Type} {p q : α → Bool} {l : List α}
    (hpq : ∀ b, p b → q b) {a : α} (ha : a ∈ l) (hp : p a = false) (hq : q a = true) :
    l.countP p < l.countP q := by
  induction l with
  | nil => cases ha
  | cons b l ih =>
    have hle : l.countP p ≤ l.countP q := List.countP_mono_left fun b _ => hpq b
    rw [List.countP_cons, List.countP_cons]
    rcases List.mem_cons.mp ha with rfl | ha
    · rw [hp, hq]
      simp only [Bool.false_eq_true, if_false, if_true]
      omega
    · have hlt := ih ha
      by_cases hb : p b = true
      · rw [if_pos hb, if_pos (hpq b hb)]
        omega
      · rw [if_neg hb]
        omega

variable {α : Type} [DecidableEq α]

/-- How many nodes can be expanded and are not among `seen`. -/
noncomputable def unseen (g : Graph α) (seen : List α) : Nat :=
  g.finite.choose.countP (· ∉ seen)

theorem unseen_cons_le (g : Graph α) (seen : List α) (a : α) :
    g.unseen (a :: seen) ≤ g.unseen seen := by
  refine List.countP_mono_left fun b _ h => ?_
  simp only [List.mem_cons, not_or, decide_eq_true_eq] at h ⊢
  exact h.2

theorem unseen_cons_lt (g : Graph α) {seen : List α} {a : α} {l : List α}
    (h : g.next a = some l) (ha : a ∉ seen) : g.unseen (a :: seen) < g.unseen seen := by
  refine countP_lt_countP (fun b hb => ?_) (g.finite.choose_spec a (by rw [h]; rfl)) ?_ ?_
  · simp only [List.mem_cons, not_or, decide_eq_true_eq] at hb ⊢
    exact hb.2
  · simp
  · simpa using ha

end Graph
end Lineage
