import Mathlib.Order.Lattice.Nat
import Lineage.Proofs.Graph.Recursion

/-!
A breadth-first search meets nodes by distance.

The nodes that wait are those of two neighbouring layers, the nearer ones first,
and everything nearer than both has been met.  So the node that is taken next is
as near as any that is still to come.
-/

namespace Lineage
namespace Graph

open Relation (ReflTransGen)

variable {α : Type} {g : Graph α}

theorem edge_iff_mem_getD {a b : α} : g.Edge a b ↔ b ∈ (g.next a).getD [] := by
  unfold Edge
  cases g.next a <;> simp

/-! ## Distance -/

/-- There is a way of `n` steps from `a` to `b`. -/
def Way (g : Graph α) (a : α) : Nat → α → Prop
  | 0, b => a = b
  | n + 1, b => ∃ c, g.Way a n c ∧ g.Edge c b

theorem exists_way_iff {a b : α} : (∃ n, g.Way a n b) ↔ ReflTransGen g.Edge a b := by
  constructor
  · rintro ⟨n, h⟩
    induction n generalizing b with
    | zero => exact h ▸ .refl
    | succ n ih =>
      obtain ⟨c, hc, hcb⟩ := h
      exact (ih hc).tail hcb
  · intro h
    induction h with
    | refl => exact ⟨0, rfl⟩
    | tail _ hbc ih =>
      obtain ⟨n, hn⟩ := ih
      exact ⟨n + 1, _, hn, hbc⟩

/-- The length of a shortest way from `a` to `b`, where there is one. -/
noncomputable def distance (g : Graph α) (a b : α) : Nat := sInf {n | g.Way a n b}

theorem distance_le {n : Nat} {a b : α} (h : g.Way a n b) : g.distance a b ≤ n := Nat.sInf_le h

theorem way_distance {a b : α} (h : ReflTransGen g.Edge a b) : g.Way a (g.distance a b) b :=
  Nat.sInf_mem (s := {n | g.Way a n b}) (exists_way_iff.mpr h)

/-! ## Layers -/

/-- What holds of a breadth-first search from `a` while the nodes in `near` wait,
which are `d` steps away, and behind them those in `far`, a step further. -/
structure Layered (g : Graph α) (a : α) (d : Nat) (near far seen : List α) : Prop where
  way_near : ∀ b ∈ near, g.Way a d b
  way_far : ∀ b ∈ far, g.Way a (d + 1) b
  nearer : ∀ n < d, ∀ b, g.Way a n b → b ∈ seen
  level : ∀ b, g.Way a d b → b ∈ seen ∨ b ∈ near
  edge : ∀ b ∈ seen, ∀ c, g.Edge b c → c ∈ seen ∨ c ∈ near ∨ c ∈ far

namespace Layered

variable {a b : α} {d : Nat} {near far seen : List α}

theorem start (a : α) : Layered g a 0 [a] [] [] where
  way_near _ hb := (List.mem_singleton.mp hb).symm
  way_far _ hb := absurd hb List.not_mem_nil
  nearer n hn := absurd hn n.not_lt_zero
  level _ hb := Or.inr (List.mem_singleton.mpr (Eq.symm hb))
  edge _ hb := absurd hb List.not_mem_nil

/-- When a layer has been dealt with, the next one is all that waits. -/
theorem next (h : Layered g a d [] far seen) : Layered g a (d + 1) far [] seen where
  way_near := h.way_far
  way_far _ hb := absurd hb List.not_mem_nil
  nearer n hn b hb := by
    rcases Nat.lt_succ_iff_lt_or_eq.mp hn with hn | rfl
    · exact h.nearer n hn b hb
    · exact (h.level b hb).resolve_right List.not_mem_nil
  level b hb := by
    obtain ⟨c, hc, hcb⟩ := hb
    have hseen : c ∈ seen := (h.level c hc).resolve_right List.not_mem_nil
    exact (h.edge c hseen b hcb).imp_right fun hb => hb.resolve_left List.not_mem_nil
  edge b hb c hbc := by
    rcases h.edge b hb c hbc with hc | hc | hc
    · exact Or.inl hc
    · exact absurd hc List.not_mem_nil
    · exact Or.inr (Or.inl hc)

/-- The first node that waits is in the nearer layer, or can be taken as such. -/
theorem exists_cons {rest : List α} (h : Layered g a d near far seen)
    (hw : near ++ far = b :: rest) : ∃ e near' far', d ≤ e ∧ rest = near' ++ far' ∧
      Layered g a e (b :: near') far' seen := by
  cases near with
  | nil =>
    rw [List.nil_append] at hw
    subst hw
    exact ⟨d + 1, rest, [], Nat.le_succ d, rest.append_nil.symm, h.next⟩
  | cons c near =>
    rw [List.cons_append, List.cons.injEq] at hw
    obtain ⟨rfl, rfl⟩ := hw
    exact ⟨d, near, far, Nat.le_refl d, rfl, h⟩

/-- A node that has been met before is passed over. -/
theorem skip (h : Layered g a d (b :: near) far seen) (hb : b ∈ seen) :
    Layered g a d near far seen where
  way_near c hc := h.way_near c (List.mem_cons_of_mem b hc)
  way_far := h.way_far
  nearer := h.nearer
  level c hc := by
    rcases h.level c hc with hc | hc
    · exact Or.inl hc
    · rcases List.mem_cons.mp hc with rfl | hc
      · exact Or.inl hb
      · exact Or.inr hc
  edge c hc x hcx := by
    rcases h.edge c hc x hcx with hx | hx | hx
    · exact Or.inl hx
    · rcases List.mem_cons.mp hx with rfl | hx
      · exact Or.inl hb
      · exact Or.inr (Or.inl hx)
    · exact Or.inr (Or.inr hx)

/-- A node that has not been met is met, and what it leads to waits from then
on, behind the others. -/
theorem meet (h : Layered g a d (b :: near) far seen) :
    Layered g a d near (far ++ (g.next b).getD []) (b :: seen) where
  way_near c hc := h.way_near c (List.mem_cons_of_mem b hc)
  way_far c hc := by
    rcases List.mem_append.mp hc with hc | hc
    · exact h.way_far c hc
    · exact ⟨b, h.way_near b List.mem_cons_self, edge_iff_mem_getD.mpr hc⟩
  nearer n hn c hc := List.mem_cons_of_mem b (h.nearer n hn c hc)
  level c hc := by
    rcases h.level c hc with hc | hc
    · exact Or.inl (List.mem_cons_of_mem b hc)
    · rcases List.mem_cons.mp hc with rfl | hc
      · exact Or.inl List.mem_cons_self
      · exact Or.inr hc
  edge c hc x hcx := by
    simp only [List.mem_cons, List.mem_append] at hc ⊢
    rcases hc with rfl | hc
    · exact Or.inr (Or.inr (Or.inr (edge_iff_mem_getD.mp hcx)))
    · rcases h.edge c hc x hcx with hx | hx | hx
      · exact Or.inl (Or.inr hx)
      · rcases List.mem_cons.mp hx with rfl | hx
        · exact Or.inl (Or.inl rfl)
        · exact Or.inr (Or.inl hx)
      · exact Or.inr (Or.inr (Or.inl hx))

/-- What has not been met is at least as far away as the nearer layer. -/
theorem le_distance (h : Layered g a d near far seen) (hb : ReflTransGen g.Edge a b)
    (hseen : b ∉ seen) : d ≤ g.distance a b := by
  by_contra hlt
  exact hseen (h.nearer _ (Nat.lt_of_not_le hlt) b (way_distance hb))

end Layered

/-! ## The order of a search -/

/-- What is met after a node of the nearer layer may be put behind it. -/
theorem Layered.pairwise_cons {a b : α} {d : Nat} {near far seen met : List α}
    (h : Layered g a d (b :: near) far seen) (hb : b ∉ seen)
    (hle : ∀ c ∈ met, d ≤ g.distance a c)
    (hmet : met.Pairwise fun c x => g.distance a c ≤ g.distance a x) :
    (∀ c ∈ b :: met, d ≤ g.distance a c) ∧
      (b :: met).Pairwise fun c x => g.distance a c ≤ g.distance a x := by
  have hway : g.Way a d b := h.way_near b List.mem_cons_self
  refine ⟨fun c hc => ?_,
    List.pairwise_cons.mpr ⟨fun c hc => (distance_le hway).trans (hle c hc), hmet⟩⟩
  rcases List.mem_cons.mp hc with rfl | hc
  · exact h.le_distance (exists_way_iff.mp ⟨d, hway⟩) hb
  · exact hle c hc

variable [DecidableEq α]

theorem Layered.pairwise_visit {a : α} {d : Nat} {near far seen : List α}
    (h : Layered g a d near far seen) :
    (∀ b ∈ g.visit .breadthFirst (near ++ far) seen, d ≤ g.distance a b) ∧
      (g.visit .breadthFirst (near ++ far) seen).Pairwise
        fun b c => g.distance a b ≤ g.distance a c := by
  generalize hw : near ++ far = waiting
  generalize hs : Strategy.breadthFirst = strategy
  fun_induction g.visit strategy waiting seen generalizing d near far with
  | case1 => exact ⟨fun b hb => absurd hb List.not_mem_nil, .nil⟩
  | case2 seen b rest hb ih =>
    obtain ⟨e, near', far', hde, rfl, hcons⟩ := h.exists_cons hw
    obtain ⟨hle, hpairwise⟩ := ih (hcons.skip hb) rfl
    exact ⟨fun c hc => hde.trans (hle c hc), hpairwise⟩
  | case3 seen b rest hb hn ih =>
    obtain ⟨e, near', far', hde, rfl, hcons⟩ := h.exists_cons hw
    have hmeet := hcons.meet
    rw [hn, Option.getD_none, List.append_nil] at hmeet
    obtain ⟨hle, hpairwise⟩ := ih hmeet rfl
    obtain ⟨hall, hmet⟩ := hcons.pairwise_cons hb hle hpairwise
    exact ⟨fun c hc => hde.trans (hall c hc), hmet⟩
  | case4 seen b rest hb l hn ih =>
    obtain ⟨e, near', far', hde, rfl, hcons⟩ := h.exists_cons hw
    have hmeet := hcons.meet
    rw [hn, Option.getD_some] at hmeet
    subst hs
    obtain ⟨hle, hpairwise⟩ := ih hmeet (List.append_assoc near' far' l).symm
    obtain ⟨hall, hmet⟩ := hcons.pairwise_cons hb hle hpairwise
    exact ⟨fun c hc => hde.trans (hall c hc), hmet⟩

/-- A breadth-first search meets nearer nodes before those that are further
away. -/
theorem pairwise_breadthFirst (g : Graph α) (a : α) :
    (g.breadthFirst a).Pairwise fun b c => g.distance a b ≤ g.distance a c :=
  (Layered.start a).pairwise_visit.2

end Graph
end Lineage
