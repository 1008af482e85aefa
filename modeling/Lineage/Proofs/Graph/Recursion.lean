import Mathlib.Data.List.Nodup
import Lineage.Proofs.Graph.Search

/-!
The way that a search takes.

A search keeps one list of nodes to be looked at.  Depth first this is the same
as a recursion, which deals with all that a node leads to before it goes on, and
hands on what it has met.  A node is met once, and after another node that leads
to it, so there is a way to it over nodes met before.
-/

namespace Lineage
namespace Graph

open Relation (ReflTransGen)

variable {α : Type} {g : Graph α}

/-! ## Recursion -/

/-- `Walks g seen nodes met`: the walk from some nodes, one after the other, ends
and meets `met`, if `seen` has been met before.  From a node it goes to all of
the successors, and what these meet counts as met for the nodes after it. -/
inductive Walks (g : Graph α) : List α → List α → List α → Prop
  | done (seen : List α) : Walks g seen [] []
  | again {seen nodes met : List α} {a : α} (ha : a ∈ seen) (hrest : Walks g seen nodes met) :
    Walks g seen (a :: nodes) met
  | stuck {seen nodes met : List α} {a : α} (ha : a ∉ seen) (hn : g.next a = none)
    (hrest : Walks g (a :: seen) nodes met) : Walks g seen (a :: nodes) (a :: met)
  | enter {seen nodes successors below met : List α} {a : α} (ha : a ∉ seen)
    (hn : g.next a = some successors) (hbelow : Walks g (a :: seen) successors below)
    (hrest : Walks g (below.reverse ++ a :: seen) nodes met) :
    Walks g seen (a :: nodes) (a :: (below ++ met))

/-- A walk can be cut in two where its nodes can. -/
theorem Walks.exists_append {seen nodes nodes' met : List α}
    (h : Walks g seen (nodes ++ nodes') met) :
    ∃ before after, met = before ++ after ∧ Walks g seen nodes before ∧
      Walks g (before.reverse ++ seen) nodes' after := by
  generalize hall : nodes ++ nodes' = all at h
  induction h generalizing nodes with
  | done seen =>
    obtain ⟨rfl, rfl⟩ := List.append_eq_nil_iff.mp hall
    exact ⟨[], [], rfl, .done seen, .done seen⟩
  | @again seen rest met a ha hrest ih =>
    cases nodes with
    | nil =>
      subst hall
      exact ⟨[], met, rfl, .done seen, .again ha hrest⟩
    | cons b nodes =>
      cases hall
      obtain ⟨before, after, rfl, hbefore, hafter⟩ := ih rfl
      exact ⟨before, after, rfl, .again ha hbefore, hafter⟩
  | @stuck seen rest met a ha hn hrest ih =>
    cases nodes with
    | nil =>
      subst hall
      exact ⟨[], a :: met, rfl, .done seen, .stuck ha hn hrest⟩
    | cons b nodes =>
      cases hall
      obtain ⟨before, after, rfl, hbefore, hafter⟩ := ih rfl
      refine ⟨a :: before, after, rfl, .stuck ha hn hbefore, ?_⟩
      simpa using hafter
  | @enter seen rest successors below met a ha hn hbelow hrest _ ih =>
    cases nodes with
    | nil =>
      subst hall
      exact ⟨[], a :: (below ++ met), rfl, .done seen, .enter ha hn hbelow hrest⟩
    | cons b nodes =>
      cases hall
      obtain ⟨before, after, rfl, hbefore, hafter⟩ := ih rfl
      refine ⟨a :: (below ++ before), after, by simp, .enter ha hn hbelow hbefore, ?_⟩
      simpa using hafter

variable [DecidableEq α]

/-- The recursion ends, and meets what a depth-first search meets. -/
theorem walks_visit (g : Graph α) (nodes seen : List α) :
    Walks g seen nodes (g.visit .depthFirst nodes seen) := by
  generalize hs : Strategy.depthFirst = strategy
  fun_induction g.visit strategy nodes seen with
  | case1 seen => exact .done seen
  | case2 seen a rest ha ih => exact .again ha ih
  | case3 seen a rest ha hn ih => exact .stuck ha hn ih
  | case4 seen a rest ha successors hn ih =>
    subst hs
    obtain ⟨below, met, hmet, hbelow, hrest⟩ := ih.exists_append
    rw [hmet]
    exact .enter ha hn hbelow hrest

/-! ## Each node once -/

theorem not_mem_visit_of_mem {strategy : Strategy} {waiting seen : List α} {a : α}
    (ha : a ∈ seen) : a ∉ g.visit strategy waiting seen := by
  fun_induction g.visit strategy waiting seen with
  | case1 => exact List.not_mem_nil
  | case2 seen b rest hb ih => exact ih ha
  | case3 seen b rest hb hn ih =>
    rw [List.mem_cons, not_or]
    exact ⟨fun h => hb (h ▸ ha), ih (List.mem_cons_of_mem b ha)⟩
  | case4 seen b rest hb l hn ih =>
    rw [List.mem_cons, not_or]
    exact ⟨fun h => hb (h ▸ ha), ih (List.mem_cons_of_mem b ha)⟩

theorem nodup_visit (g : Graph α) (strategy : Strategy) (waiting seen : List α) :
    (g.visit strategy waiting seen).Nodup := by
  fun_induction g.visit strategy waiting seen with
  | case1 => exact List.nodup_nil
  | case2 seen b rest hb ih => exact ih
  | case3 seen b rest hb hn ih =>
    exact List.nodup_cons.mpr ⟨not_mem_visit_of_mem List.mem_cons_self, ih⟩
  | case4 seen b rest hb l hn ih =>
    exact List.nodup_cons.mpr ⟨not_mem_visit_of_mem List.mem_cons_self, ih⟩

/-! ## The way to a node -/

/-- What is met was waiting from the first, or a node met before leads to it. -/
theorem mem_or_edge_of_visit_eq {strategy : Strategy} {waiting seen before after : List α} {b : α}
    (h : g.visit strategy waiting seen = before ++ b :: after) :
    b ∈ waiting ∨ ∃ a ∈ before, g.Edge a b := by
  fun_induction g.visit strategy waiting seen generalizing before with
  | case1 => simp at h
  | case2 seen a rest ha ih =>
    rcases ih h with hb | hb
    · exact Or.inl (List.mem_cons_of_mem a hb)
    · exact Or.inr hb
  | case3 seen a rest ha hn ih =>
    cases before with
    | nil =>
      cases h
      exact Or.inl List.mem_cons_self
    | cons c before =>
      rw [List.cons_append, List.cons.injEq] at h
      rcases ih h.2 with hb | ⟨d, hd, hedge⟩
      · exact Or.inl (List.mem_cons_of_mem a hb)
      · exact Or.inr ⟨d, List.mem_cons_of_mem c hd, hedge⟩
  | case4 seen a rest ha l hn ih =>
    cases before with
    | nil =>
      cases h
      exact Or.inl List.mem_cons_self
    | cons c before =>
      rw [List.cons_append, List.cons.injEq] at h
      obtain ⟨rfl, h⟩ := h
      rcases ih h with hb | ⟨d, hd, hedge⟩
      · rcases Strategy.mem_merge.mp hb with hb | hb
        · exact Or.inr ⟨a, List.mem_cons_self, l, hn, hb⟩
        · exact Or.inl (List.mem_cons_of_mem a hb)
      · exact Or.inr ⟨d, List.mem_cons_of_mem a hd, hedge⟩

/-- There is a way to what is met over nodes that were met before it. -/
theorem reaches_of_visit_eq {strategy : Strategy} {a b : α} {before after : List α}
    (h : g.visit strategy [a] [] = before ++ b :: after) :
    ReflTransGen (fun c d => c ∈ before ∧ g.Edge c d) a b := by
  induction hn : before.length using Nat.strongRecOn generalizing b before after with
  | _ n ih =>
    rcases mem_or_edge_of_visit_eq h with hb | ⟨c, hc, hedge⟩
    · cases List.mem_singleton.mp hb
      exact .refl
    · obtain ⟨before', after', rfl⟩ := List.append_of_mem hc
      have hshort : before'.length < n := by
        rw [← hn, List.length_append, List.length_cons]
        omega
      rw [List.append_assoc, List.cons_append] at h
      have hway := ih before'.length hshort h rfl
      refine ReflTransGen.tail (ReflTransGen.mono ?_ _ _ hway) ⟨hc, hedge⟩
      exact fun d e hde => ⟨List.mem_append_left _ hde.1, hde.2⟩

/-! ## Searches in step -/

/-- If the successors in one graph are the images of those in another, so is what
a search meets. -/
theorem visit_map {β : Type} [DecidableEq β] {g' : Graph β} {f : α → β}
    (hf : Function.Injective f) (hnext : ∀ a, g'.next (f a) = (g.next a).map (List.map f))
    (strategy : Strategy) (waiting seen : List α) :
    g'.visit strategy (waiting.map f) (seen.map f) = (g.visit strategy waiting seen).map f := by
  fun_induction g.visit strategy waiting seen with
  | case1 seen => rw [List.map_nil, visit]
  | case2 seen a rest ha ih =>
    rw [List.map_cons, visit_cons_of_mem (List.mem_map_of_mem ha), ih]
  | case3 seen a rest ha hn ih =>
    have hfa : f a ∉ seen.map f := fun h => ha ((List.mem_map_of_injective hf).mp h)
    rw [List.map_cons, visit_cons_of_none hfa (by rw [hnext, hn, Option.map_none]), List.map_cons,
      ← ih, List.map_cons]
  | case4 seen a rest ha l hn ih =>
    have hfa : f a ∉ seen.map f := fun h => ha ((List.mem_map_of_injective hf).mp h)
    have hmerge : (strategy.merge l rest).map f = strategy.merge (l.map f) (rest.map f) := by
      cases strategy with
      | depthFirst => exact List.map_append
      | breadthFirst => exact List.map_append
    rw [List.map_cons, visit_cons_of_some hfa (by rw [hnext, hn, Option.map_some]), List.map_cons,
      ← ih, hmerge, List.map_cons]

end Graph
end Lineage
