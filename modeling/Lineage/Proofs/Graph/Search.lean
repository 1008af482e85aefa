import Mathlib.Logic.Relation
import Mathlib.Tactic.Tauto
import Lineage.Graph.Queue
import Lineage.Graph.Search

/-!
What a search meets.

Whatever the strategy, the nodes met from a start are those that can be reached
from it, each once.  Reaching goes over nodes that can be expanded; the last
node on the way need not be.
-/

namespace Lineage
namespace Graph

open Relation (ReflTransGen TransGen)

/-- `b` is a successor of `a`. -/
def Edge {α : Type} (g : Graph α) (a b : α) : Prop := ∃ l, g.next a = some l ∧ b ∈ l

theorem Edge.isSome_next {α : Type} {g : Graph α} {a b : α} (h : g.Edge a b) :
    (g.next a).isSome := by
  obtain ⟨l, hl, _⟩ := h
  rw [hl]
  rfl

theorem isSome_next_of_transGen {α : Type} {g : Graph α} {a b : α} (h : TransGen g.Edge a b) :
    (g.next a).isSome := by
  obtain ⟨c, hac, _⟩ := TransGen.head'_iff.mp h
  exact hac.isSome_next

open scoped Classical in
/-- Where no node leads back to itself, every way ends: each step leaves fewer
nodes to be reached. -/
theorem acc_of_acyclic {α : Type} {g : Graph α} (h : ∀ a, ¬ TransGen g.Edge a a) (a : α) :
    Acc (fun b c => TransGen g.Edge c b) a := by
  let left := fun a => g.finite.choose.countP fun b => decide (TransGen g.Edge a b)
  induction hn : left a using Nat.strongRecOn generalizing a with
  | _ n ih =>
    refine Acc.intro a fun b hab => ?_
    by_cases hb : (g.next b).isSome
    · refine ih (left b) ?_ b rfl
      rw [← hn]
      refine countP_lt_countP (fun c hc => ?_) (g.finite.choose_spec b hb) ?_ ?_
      · exact decide_eq_true (hab.trans (of_decide_eq_true hc))
      · exact decide_eq_false (h b)
      · exact decide_eq_true hab
    · exact Acc.intro b fun c hbc => absurd (isSome_next_of_transGen hbc) hb

@[simp]
theorem Strategy.mem_merge {α : Type} {strategy : Strategy} {new waiting : List α} {a : α} :
    a ∈ strategy.merge new waiting ↔ a ∈ new ∨ a ∈ waiting := by
  cases strategy with
  | depthFirst => exact List.mem_append
  | breadthFirst => exact List.mem_append.trans Or.comm

variable {α : Type} [DecidableEq α]

theorem visit_cons_of_mem {g : Graph α} {strategy : Strategy} {a : α} {rest seen : List α}
    (ha : a ∈ seen) : g.visit strategy (a :: rest) seen = g.visit strategy rest seen := by
  rw [visit, dif_pos ha]

theorem visit_cons_of_none {g : Graph α} {strategy : Strategy} {a : α} {rest seen : List α}
    (ha : a ∉ seen) (hn : g.next a = none) :
    g.visit strategy (a :: rest) seen = a :: g.visit strategy rest (a :: seen) := by
  rw [visit, dif_neg ha]
  split
  · rfl
  · next l hl =>
    rw [hn] at hl
    cases hl

theorem visit_cons_of_some {g : Graph α} {strategy : Strategy} {a : α} {l rest seen : List α}
    (ha : a ∉ seen) (hn : g.next a = some l) :
    g.visit strategy (a :: rest) seen =
      a :: g.visit strategy (strategy.merge l rest) (a :: seen) := by
  rw [visit, dif_neg ha]
  split
  · next hl =>
    rw [hn] at hl
    cases hl
  · next l' hl =>
    rw [hn] at hl
    cases hl
    rfl

/-- Everything that waits is met, unless it has been met before. -/
theorem mem_visit_of_mem {g : Graph α} {strategy : Strategy} {waiting seen : List α} {a : α}
    (ha : a ∈ waiting) : a ∈ seen ∨ a ∈ g.visit strategy waiting seen := by
  fun_induction g.visit strategy waiting seen with
  | case1 => cases ha
  | case2 seen b rest hb ih =>
    rcases List.mem_cons.mp ha with rfl | ha
    · exact Or.inl hb
    · exact ih ha
  | case3 seen b rest hb hn ih =>
    rcases List.mem_cons.mp ha with rfl | ha
    · exact Or.inr List.mem_cons_self
    · rcases ih ha with h | h
      · rcases List.mem_cons.mp h with rfl | h
        · exact Or.inr List.mem_cons_self
        · exact Or.inl h
      · exact Or.inr (List.mem_cons_of_mem b h)
  | case4 seen b rest hb l hn ih =>
    rcases List.mem_cons.mp ha with rfl | ha
    · exact Or.inr List.mem_cons_self
    · rcases ih (Strategy.mem_merge.mpr (Or.inr ha)) with h | h
      · rcases List.mem_cons.mp h with rfl | h
        · exact Or.inr List.mem_cons_self
        · exact Or.inl h
      · exact Or.inr (List.mem_cons_of_mem b h)

/-- A search leaves no successor out, provided that those of the nodes seen
before are seen or waiting. -/
theorem mem_visit_of_edge {g : Graph α} {strategy : Strategy} {waiting seen : List α}
    (hseen : ∀ a ∈ seen, ∀ b, g.Edge a b → b ∈ seen ∨ b ∈ waiting) {a b : α}
    (ha : a ∈ seen ∨ a ∈ g.visit strategy waiting seen) (hab : g.Edge a b) :
    b ∈ seen ∨ b ∈ g.visit strategy waiting seen := by
  fun_induction g.visit strategy waiting seen with
  | case1 seen =>
    rcases ha with ha | ha
    · exact Or.inl ((hseen a ha b hab).resolve_right List.not_mem_nil)
    · cases ha
  | case2 seen c rest hc ih =>
    refine ih (fun x hx y hxy => ?_) ha
    rcases hseen x hx y hxy with h | h
    · exact Or.inl h
    · rcases List.mem_cons.mp h with rfl | h
      · exact Or.inl hc
      · exact Or.inr h
  | case3 seen c rest hc hn ih =>
    have hstep := ih (fun x hx y hxy => ?_) ?_
    · simpa only [List.mem_cons, or_assoc, or_left_comm] using hstep
    · rcases List.mem_cons.mp hx with rfl | hx
      · obtain ⟨l, hl, _⟩ := hxy
        rw [hn] at hl
        cases hl
      · simpa only [List.mem_cons, or_assoc, or_left_comm] using hseen x hx y hxy
    · simpa only [List.mem_cons, or_assoc, or_left_comm] using ha
  | case4 seen c rest hc l hn ih =>
    have hstep := ih (fun x hx y hxy => ?_) ?_
    · simpa only [List.mem_cons, or_assoc, or_left_comm] using hstep
    · rw [Strategy.mem_merge]
      rcases List.mem_cons.mp hx with rfl | hx
      · obtain ⟨l', hl', hy⟩ := hxy
        rw [hn] at hl'
        cases hl'
        exact Or.inr (Or.inl hy)
      · rcases hseen x hx y hxy with h | h
        · exact Or.inl (List.mem_cons_of_mem c h)
        · rcases List.mem_cons.mp h with rfl | h
          · exact Or.inl List.mem_cons_self
          · exact Or.inr (Or.inr h)
    · simpa only [List.mem_cons, or_assoc, or_left_comm] using ha

/-- Nothing is met that cannot be reached from what waits. -/
theorem exists_reaches_of_mem_visit {g : Graph α} {strategy : Strategy} {waiting seen : List α}
    {b : α} (hb : b ∈ g.visit strategy waiting seen) :
    ∃ a ∈ waiting, ReflTransGen g.Edge a b := by
  fun_induction g.visit strategy waiting seen with
  | case1 => cases hb
  | case2 seen c rest hc ih =>
    obtain ⟨a, ha, hab⟩ := ih hb
    exact ⟨a, List.mem_cons_of_mem c ha, hab⟩
  | case3 seen c rest hc hn ih =>
    rcases List.mem_cons.mp hb with rfl | hb
    · exact ⟨b, List.mem_cons_self, ReflTransGen.refl⟩
    · obtain ⟨a, ha, hab⟩ := ih hb
      exact ⟨a, List.mem_cons_of_mem c ha, hab⟩
  | case4 seen c rest hc l hn ih =>
    rcases List.mem_cons.mp hb with rfl | hb
    · exact ⟨b, List.mem_cons_self, ReflTransGen.refl⟩
    · obtain ⟨a, ha, hab⟩ := ih hb
      rcases Strategy.mem_merge.mp ha with ha | ha
      · exact ⟨c, List.mem_cons_self, ReflTransGen.head ⟨l, hn, ha⟩ hab⟩
      · exact ⟨a, List.mem_cons_of_mem c ha, hab⟩

/-- A search from one node meets just what can be reached from it. -/
theorem mem_visit_iff {g : Graph α} {strategy : Strategy} {a b : α} :
    b ∈ g.visit strategy [a] [] ↔ ReflTransGen g.Edge a b := by
  constructor
  · intro hb
    obtain ⟨c, hc, hcb⟩ := exists_reaches_of_mem_visit hb
    rw [List.mem_singleton] at hc
    exact hc ▸ hcb
  · intro hab
    have hstart : a ∈ g.visit strategy [a] [] :=
      (mem_visit_of_mem List.mem_cons_self).resolve_left List.not_mem_nil
    induction hab with
    | refl => exact hstart
    | tail _ hbc ih =>
      exact (mem_visit_of_edge (fun _ h => absurd h List.not_mem_nil) (Or.inr ih)
        hbc).resolve_left List.not_mem_nil

@[simp]
theorem mem_depthFirst_iff {g : Graph α} {a b : α} :
    b ∈ g.depthFirst a ↔ ReflTransGen g.Edge a b := mem_visit_iff

@[simp]
theorem mem_breadthFirst_iff {g : Graph α} {a b : α} :
    b ∈ g.breadthFirst a ↔ ReflTransGen g.Edge a b := mem_visit_iff

/-! ## Graphs that agree where a search goes -/

/-- Two graphs have the same successors for the nodes in `P`, and these are in
`P` again. -/
structure Agree {α : Type} (P : α → Prop) (g g' : Graph α) : Prop where
  next : ∀ {a}, P a → g.next a = g'.next a
  closed : ∀ {a b}, P a → g.Edge a b → P b

theorem Agree.reaches {α : Type} {P : α → Prop} {g g' : Graph α} (h : Agree P g g') {a b : α}
    (ha : P a) (hab : ReflTransGen g.Edge a b) : P b := by
  induction hab with
  | refl => exact ha
  | tail _ hbc ih => exact h.closed ih hbc

theorem Agree.visit_eq {P : α → Prop} {g g' : Graph α} (h : Agree P g g') {strategy : Strategy}
    {waiting seen : List α} (hw : ∀ a ∈ waiting, P a) :
    g.visit strategy waiting seen = g'.visit strategy waiting seen := by
  fun_induction g.visit strategy waiting seen with
  | case1 seen => rw [visit]
  | case2 seen a rest ha ih =>
    rw [visit_cons_of_mem ha, ih fun b hb => hw b (List.mem_cons_of_mem a hb)]
  | case3 seen a rest ha hn ih =>
    rw [visit_cons_of_none ha ((h.next (hw a List.mem_cons_self)).symm.trans hn),
      ih fun b hb => hw b (List.mem_cons_of_mem a hb)]
  | case4 seen a rest ha l hn ih =>
    have hP := hw a List.mem_cons_self
    rw [visit_cons_of_some ha ((h.next hP).symm.trans hn), ih fun b hb => ?_]
    rcases Strategy.mem_merge.mp hb with hb | hb
    · exact h.closed hP ⟨l, hn, hb⟩
    · exact hw b (List.mem_cons_of_mem a hb)

theorem Agree.depthFirst_eq {P : α → Prop} {g g' : Graph α} (h : Agree P g g') {a : α}
    (ha : P a) : g.depthFirst a = g'.depthFirst a :=
  h.visit_eq fun b hb => by rwa [List.mem_singleton.mp hb]

theorem Agree.breadthFirst_eq {P : α → Prop} {g g' : Graph α} (h : Agree P g g') {a : α}
    (ha : P a) : g.breadthFirst a = g'.breadthFirst a :=
  h.visit_eq fun b hb => by rwa [List.mem_singleton.mp hb]

/-! ## Queues with and without repetitions -/

/-- The nodes of a queue that have not been met, each at its first place. -/
def fresh (seen : List α) : List α → List α
  | [] => []
  | a :: waiting => if a ∈ seen then fresh seen waiting else a :: fresh (a :: seen) waiting

theorem fresh_append_singleton (seen waiting : List α) (a : α) :
    fresh seen (waiting ++ [a]) =
      if a ∈ seen ∨ a ∈ waiting then fresh seen waiting else fresh seen waiting ++ [a] := by
  induction waiting generalizing seen with
  | nil => by_cases ha : a ∈ seen <;> simp [fresh, ha]
  | cons b waiting ih =>
    rw [List.cons_append, fresh, fresh]
    by_cases hb : b ∈ seen
    · rw [if_pos hb, if_pos hb, ih]
      refine if_congr ⟨Or.imp_right (List.mem_cons_of_mem b), ?_⟩ rfl rfl
      rintro (ha | ha)
      · exact Or.inl ha
      · rcases List.mem_cons.mp ha with rfl | ha
        · exact Or.inl hb
        · exact Or.inr ha
    · rw [if_neg hb, if_neg hb, ih]
      simp only [List.mem_cons, or_assoc, or_left_comm (a := a = b)]
      split <;> rfl

theorem enqueue_fresh (new waiting seen known : List α)
    (hknown : ∀ a, a ∈ known ↔ a ∈ seen ∨ a ∈ waiting) :
    (enqueue new (fresh seen waiting) known).1 = fresh seen (waiting ++ new) ∧
      ∀ a, a ∈ (enqueue new (fresh seen waiting) known).2 ↔ a ∈ seen ∨ a ∈ waiting ++ new := by
  induction new generalizing waiting known with
  | nil =>
    rw [List.append_nil]
    exact ⟨rfl, hknown⟩
  | cons b new ih =>
    have happend : waiting ++ b :: new = waiting ++ [b] ++ new := by simp
    rw [enqueue, happend]
    have hfresh := fresh_append_singleton seen waiting b
    by_cases hb : b ∈ known
    · rw [if_pos ((hknown b).mp hb)] at hfresh
      rw [if_pos hb, ← hfresh]
      refine ih (waiting ++ [b]) known fun a => ?_
      rw [hknown, List.mem_append, List.mem_singleton]
      refine ⟨Or.imp_right Or.inl, ?_⟩
      rintro (ha | ha | rfl)
      · exact Or.inl ha
      · exact Or.inr ha
      · exact (hknown a).mp hb
    · rw [if_neg fun h => hb ((hknown b).mpr h)] at hfresh
      rw [if_neg hb, ← hfresh]
      refine ih (waiting ++ [b]) (b :: known) fun a => ?_
      rw [List.mem_cons, hknown, List.mem_append, List.mem_singleton]
      tauto

end Graph
end Lineage
