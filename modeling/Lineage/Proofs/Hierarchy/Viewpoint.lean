import Lineage.Proofs.Hierarchy.Frame

/-!
What is met on the way up from a class.

A viewpoint leads on within its class, to the bouncers into its method, or to
the supertypes of the class, so all that is met is declared in the class or
above it.
-/

namespace Lineage

open Std (ExtTreeMap ExtTreeSet)
open Relation (ReflTransGen TransGen)

namespace Hierarchy

theorem mem_lineage {h : Hierarchy} {a b : String} :
    b ∈ h.lineage a ↔ ReflTransGen h.supertypeGraph.Edge a b :=
  Graph.mem_breadthFirst_iff

theorem mem_ancestors {h : Hierarchy} {a b : String} :
    b ∈ h.ancestors a ↔ ReflTransGen h.supertypeGraph.Edge a b ∧ (h.class? b).isSome := by
  rw [ancestors, List.mem_filter, mem_lineage]

theorem isInstance_iff {h : Hierarchy} {a b : String} :
    h.isInstance a b ↔ ReflTransGen h.supertypeGraph.Edge a b := by
  rw [isInstance, Bool.or_eq_true, beq_iff_eq, List.contains_iff_mem, mem_lineage]
  exact or_iff_right_of_imp fun hab => hab ▸ .refl

/-- Only classes lead to others. -/
theorem isSome_class?_of_transGen {h : Hierarchy} {a b : String}
    (hab : TransGen h.supertypeGraph.Edge a b) : (h.class? a).isSome := by
  have hnext := Graph.isSome_next_of_transGen hab
  rw [← Option.isSome_map (f := ClassNode.supertypes)]
  exact hnext

theorem isSome_class?_of_reaches {h : Hierarchy} {a b : String}
    (hab : ReflTransGen h.supertypeGraph.Edge a b) (hb : (h.class? b).isSome) :
    (h.class? a).isSome := by
  rcases Relation.reflTransGen_iff_eq_or_transGen.mp hab with rfl | hab
  · exact hb
  · exact isSome_class?_of_transGen hab

theorem mem_declarationsAbove {h : Hierarchy} {r : MemberRef} {c : String} {d : MethodNode} :
    d ∈ h.declarationsAbove r c ↔
      ∃ v, ReflTransGen (Viewpoint.graph h).Edge ⟨r, c⟩ v ∧ v.met? h = some d := by
  simp only [declarationsAbove, List.mem_filterMap, Graph.mem_depthFirst_iff]

/-- A viewpoint leads on to a bouncer in the same class, or to the same method
in a supertype. -/
theorem edge_viewpoint {h : Hierarchy} {v w : Viewpoint} (hvw : (Viewpoint.graph h).Edge v w) :
    ∃ m, h.method? v.method = some m ∧
      ((∃ f ∈ m.forwarders, ∃ n, h.method? f = some n ∧ w = ⟨n.ref, v.cls⟩) ∨
        h.supertypeGraph.Edge v.cls w.cls ∧ w.method = v.method) := by
  obtain ⟨l, hl, hw⟩ := hvw
  obtain ⟨m, hm, c, hc, hl⟩ : ∃ m, h.method? v.method = some m ∧ ∃ c, h.class? v.cls = some c ∧
      (m.forwarders.toList.filterMap h.method?).map (fun f => Viewpoint.mk f.ref v.cls) ++
        c.supertypes.map (Viewpoint.mk v.method) = l := by
    simp only [Viewpoint.graph, Viewpoint.next?, Option.bind_eq_bind,
      Option.bind_eq_some_iff] at hl
    obtain ⟨m, hm, c, hc, hl⟩ := hl
    split at hl
    · exact ⟨m, hm, c, hc, Option.some.inj hl⟩
    · cases hl
  refine ⟨m, hm, ?_⟩
  rw [← hl] at hw
  rcases List.mem_append.mp hw with hw | hw
  · obtain ⟨n, hn, rfl⟩ := List.mem_map.mp hw
    obtain ⟨f, hf, hfn⟩ := List.mem_filterMap.mp hn
    exact Or.inl ⟨f, ExtTreeSet.mem_toList.mp hf, n, hfn, rfl⟩
  · obtain ⟨s, hs, rfl⟩ := List.mem_map.mp hw
    refine Or.inr ⟨⟨c.supertypes, ?_, hs⟩, rfl⟩
    show (h.class? v.cls).map ClassNode.supertypes = some c.supertypes
    rw [hc, Option.map_some]

theorem reaches_cls {h : Hierarchy} {v w : Viewpoint}
    (hvw : ReflTransGen (Viewpoint.graph h).Edge v w) :
    ReflTransGen h.supertypeGraph.Edge v.cls w.cls := by
  induction hvw with
  | refl => exact .refl
  | tail _ hstep ih =>
    obtain ⟨_, _, ⟨_, _, _, _, rfl⟩ | ⟨hedge, _⟩⟩ := edge_viewpoint hstep
    · exact ih
    · exact ih.tail hedge

/-- What is met in a class is declared there, with the method's key. -/
theorem Keyed.of_met {h : Hierarchy} (hk : Keyed h) {v : Viewpoint} {d : MethodNode}
    (hd : v.met? h = some d) :
    h.method? d.ref = some d ∧ d.owner = v.cls ∧ d.key = v.method.key ∧
      d.owner ≠ v.method.owner ∧ d.isInheritable ∧
      ∃ m, h.method? v.method = some m ∧ m.isOverridable := by
  simp only [Viewpoint.met?, Option.bind_eq_bind, Option.bind_eq_some_iff] at hd
  obtain ⟨m, hm, c, hc, d', hd', hd⟩ := hd
  split at hd
  · next hall =>
    cases hd
    simp only [Bool.and_eq_true, bne_iff_ne, ne_eq] at hall
    obtain ⟨⟨hmo, hne⟩, hdi⟩ := hall
    obtain ⟨howner, hkey, href⟩ := hk.of_mem_class hc hd'
    exact ⟨href, howner, hkey, hne, hdi, m, hm, hmo⟩
  · cases hd

end Hierarchy
end Lineage
