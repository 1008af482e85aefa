import Lineage.Proofs.Graph.Recursion

/-!
Looking for an answer on the way.

A recursion that asks every node for an answer goes the way of a depth-first
search, but turns back at the first answer, out of all the calls that are open.
It need not ask a node twice: whoever has dealt with the node before has found
nothing there nor beyond, or the recursion would have ended.
-/

namespace Lineage
namespace Graph

variable {α β : Type} {g : Graph α}

/-- `Seeks g answer seen nodes asked found`: the walk from some nodes, one after
the other, ends with `found` when it has asked `asked`, if `seen` has been asked
before without success.  A node is asked before what it leads to, and what it
leads to before the nodes after it. -/
inductive Seeks (g : Graph α) (answer : α → Option β) :
    List α → List α → List α → Option β → Prop
  | done (seen : List α) : Seeks g answer seen [] [] none
  | again {seen nodes asked : List α} {a : α} {found : Option β} (ha : a ∈ seen)
    (hrest : Seeks g answer seen nodes asked found) : Seeks g answer seen (a :: nodes) asked found
  | hit {seen nodes : List α} {a : α} {b : β} (ha : a ∉ seen) (hb : answer a = some b) :
    Seeks g answer seen (a :: nodes) [a] (some b)
  | stuck {seen nodes asked : List α} {a : α} {found : Option β} (ha : a ∉ seen)
    (hb : answer a = none) (hn : g.next a = none)
    (hrest : Seeks g answer (a :: seen) nodes asked found) :
    Seeks g answer seen (a :: nodes) (a :: asked) found
  | under {seen nodes successors asked : List α} {a : α} {b : β} (ha : a ∉ seen)
    (hb : answer a = none) (hn : g.next a = some successors)
    (hbelow : Seeks g answer (a :: seen) successors asked (some b)) :
    Seeks g answer seen (a :: nodes) (a :: asked) (some b)
  | past {seen nodes successors below asked : List α} {a : α} {found : Option β} (ha : a ∉ seen)
    (hb : answer a = none) (hn : g.next a = some successors)
    (hbelow : Seeks g answer (a :: seen) successors below none)
    (hrest : Seeks g answer (below.reverse ++ a :: seen) nodes asked found) :
    Seeks g answer seen (a :: nodes) (a :: (below ++ asked)) found

/-! ## The first answer -/

section

variable {f : α → Option β} {P : α → β → Prop} {l : List α}

theorem findSome?_eq_some_iff_of_forall (hP : ∀ a ∈ l, ∀ b, f a = some b ↔ P a b) {b : β} :
    l.findSome? f = some b ↔
      ∃ before a after, l = before ++ a :: after ∧ P a b ∧ ∀ c ∈ before, ∀ d, ¬ P c d := by
  rw [List.findSome?_eq_some_iff]
  constructor
  · rintro ⟨before, a, after, rfl, ha, hbefore⟩
    refine ⟨before, a, after, rfl, (hP a (by simp) b).mp ha, fun c hc d hd => ?_⟩
    have hfound := (hP c (List.mem_append_left _ hc) d).mpr hd
    rw [hbefore c hc] at hfound
    cases hfound
  · rintro ⟨before, a, after, rfl, ha, hbefore⟩
    refine ⟨before, a, after, rfl, (hP a (by simp) b).mpr ha, fun c hc => ?_⟩
    refine Option.eq_none_iff_forall_ne_some.mpr fun d hd => hbefore c hc d ?_
    exact (hP c (List.mem_append_left _ hc) d).mp hd

theorem findSome?_eq_none_iff_of_forall (hP : ∀ a ∈ l, ∀ b, f a = some b ↔ P a b) :
    l.findSome? f = none ↔ ∀ a ∈ l, ∀ b, ¬ P a b := by
  rw [List.findSome?_eq_none_iff]
  refine forall_congr' fun a => forall_congr' fun ha => ?_
  rw [Option.eq_none_iff_forall_ne_some]
  exact forall_congr' fun b => not_congr (hP a ha b)

end

/-- Looking for an answer finds the first one that a whole walk comes to, and
asks no node that the walk does not meet. -/
theorem Walks.exists_seeks {seen nodes met : List α} (h : Walks g seen nodes met)
    (answer : α → Option β) :
    ∃ asked, Seeks g answer seen nodes asked (met.findSome? answer) ∧ asked <+: met ∧
      (met.findSome? answer = none → asked = met) := by
  induction h with
  | done seen => exact ⟨[], .done seen, List.prefix_rfl, fun _ => rfl⟩
  | again ha _ ih =>
    obtain ⟨asked, hseeks, hinitial, hall⟩ := ih
    exact ⟨asked, .again ha hseeks, hinitial, hall⟩
  | @stuck seen nodes met a ha hn _ ih =>
    obtain ⟨asked, hseeks, hinitial, hall⟩ := ih
    rw [List.findSome?_cons]
    cases hb : answer a with
    | some b => exact ⟨[a], .hit ha hb, ⟨met, rfl⟩, nofun⟩
    | none =>
      exact ⟨a :: asked, .stuck ha hb hn hseeks, (List.prefix_cons_inj a).mpr hinitial,
        fun hnone => congrArg (a :: ·) (hall hnone)⟩
  | @enter seen nodes successors below met a ha hn _ _ ihbelow ihrest =>
    obtain ⟨asked, hseeks, hinitial, hall⟩ := ihbelow
    obtain ⟨asked', hseeks', hinitial', hall'⟩ := ihrest
    rw [List.findSome?_cons, List.findSome?_append]
    cases hb : answer a with
    | some b => exact ⟨[a], .hit ha hb, ⟨below ++ met, rfl⟩, nofun⟩
    | none =>
      cases hfound : below.findSome? answer with
      | some b =>
        rw [hfound] at hseeks
        refine ⟨a :: asked, .under ha hb hn hseeks, (List.prefix_cons_inj a).mpr ?_, nofun⟩
        exact hinitial.trans (List.prefix_append below met)
      | none =>
        rw [hall hfound, hfound] at hseeks
        refine ⟨a :: (below ++ asked'), .past ha hb hn hseeks hseeks',
          (List.prefix_cons_inj a).mpr ((List.prefix_append_right_inj below).mpr hinitial'), ?_⟩
        intro hnone
        rw [hall' hnone]

end Graph
end Lineage
