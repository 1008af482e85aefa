import Mathlib.Data.List.Basic
import Mathlib.Data.List.Find
import Lineage.Proofs.Graph.Traversal
import Lineage.Proofs.Hierarchy.Viewpoint

/-!
Hierarchies that agree on some classes.

If nothing leads out of these classes, neither a supertype nor a bouncer, then
whatever is looked up from one of them comes out the same in both hierarchies,
and a change made to both leaves them agreeing.
-/

namespace Lineage

open Std (ExtTreeMap ExtTreeSet)
open Relation (ReflTransGen)

/-- The bouncers into a method and what it bounces to are in classes of `S`. -/
structure MethodNode.Inside (S : String → Prop) (m : MethodNode) : Prop where
  forwarders : ∀ f ∈ m.forwarders, S f.owner
  target : ∀ b, m.bounce = some b → S b.target.owner

namespace Hierarchy

/-- Two hierarchies have the same classes in `S`, and none of these leads out of
`S`. -/
structure Agree (S : String → Prop) (h h' : Hierarchy) : Prop where
  class?_eq : ∀ {name}, S name → h.class? name = h'.class? name
  closed : ∀ {a b}, S a → h.supertypeGraph.Edge a b → S b
  keyed : Keyed h
  inside : ∀ {r m}, S r.owner → h.method? r = some m → m.Inside S

namespace Agree

variable {S : String → Prop} {h h' : Hierarchy}

theorem method?_eq (hh : Agree S h h') {r : MemberRef} (hr : S r.owner) :
    h.method? r = h'.method? r := by
  rw [method?, method?, hh.class?_eq hr]

/-! ## What is looked up -/

theorem supertypeGraph (hh : Agree S h h') :
    Graph.Agree S h.supertypeGraph h'.supertypeGraph where
  next ha := congrArg (Option.map ClassNode.supertypes) (hh.class?_eq ha)
  closed := hh.closed

theorem lineage_eq (hh : Agree S h h') {name : String} (hn : S name) :
    h.lineage name = h'.lineage name :=
  hh.supertypeGraph.breadthFirst_eq hn

theorem of_mem_lineage (hh : Agree S h h') {a b : String} (ha : S a) (hb : b ∈ h.lineage a) :
    S b :=
  hh.supertypeGraph.reaches ha (Graph.mem_breadthFirst_iff.mp hb)

theorem of_mem_ancestors (hh : Agree S h h') {a b : String} (ha : S a)
    (hb : b ∈ h.ancestors a) : S b :=
  hh.of_mem_lineage ha (List.mem_filter.mp hb).1

theorem ancestors_eq (hh : Agree S h h') {name : String} (hn : S name) :
    h.ancestors name = h'.ancestors name := by
  rw [ancestors, ancestors, ← hh.lineage_eq hn]
  refine List.filter_congr fun a ha => ?_
  rw [hh.class?_eq (hh.of_mem_lineage hn ha)]

theorem isInstance_eq (hh : Agree S h h') {name : String} (hn : S name) (target : String) :
    h.isInstance name target = h'.isInstance name target := by
  rw [isInstance, isInstance, hh.lineage_eq hn]

theorem declaration?_eq (hh : Agree S h h') {r : MemberRef} (hr : S r.owner) :
    h.declaration? r = h'.declaration? r := by
  rw [declaration?, declaration?, ← hh.supertypeGraph.depthFirst_eq hr]
  refine List.find?_congr fun q hq => ?_
  obtain ⟨a, ha, rfl⟩ := List.mem_map.mp hq
  have hS : S (r.withOwner a).owner :=
    hh.supertypeGraph.reaches hr (Graph.mem_depthFirst_iff.mp ha)
  rw [hh.method?_eq hS]

theorem of_declaration? (hh : Agree S h h') {r d : MemberRef} (hr : S r.owner)
    (hd : h.declaration? r = some d) : S d.owner := by
  obtain ⟨a, ha, rfl⟩ := List.mem_map.mp (List.mem_of_find?_eq_some hd)
  exact hh.supertypeGraph.reaches hr (Graph.mem_depthFirst_iff.mp ha)

theorem viewpointGraph (hh : Agree S h h') :
    Graph.Agree (fun v => S v.method.owner ∧ S v.cls) (Viewpoint.graph h)
      (Viewpoint.graph h') where
  next {v} hv := by
    show v.next? h = v.next? h'
    rw [Viewpoint.next?, Viewpoint.next?, ← hh.method?_eq hv.1, hh.class?_eq hv.2]
    cases hm : h.method? v.method with
    | none => rfl
    | some m =>
      have hforwarders : m.forwarders.toList.filterMap h.method? =
          m.forwarders.toList.filterMap h'.method? := by
        refine List.filterMap_congr fun f hf => hh.method?_eq ?_
        exact (hh.inside hv.1 hm).forwarders f (ExtTreeSet.mem_toList.mp hf)
      simp only [Option.bind_eq_bind, Option.bind_some, hforwarders]
  closed {v w} hv hvw := by
    obtain ⟨m, hm, ⟨f, hf, n, hn, rfl⟩ | ⟨hedge, hw⟩⟩ := edge_viewpoint hvw
    · have hS := (hh.inside hv.1 hm).forwarders f hf
      refine ⟨?_, hv.2⟩
      rw [← (hh.keyed.slot_eq hn).1] at hS
      exact hS
    · rw [hw]
      exact ⟨hv.1, hh.closed hv.2 hedge⟩

theorem declarationsAbove_eq (hh : Agree S h h') {r : MemberRef} {c : String} (hr : S r.owner)
    (hc : S c) : h.declarationsAbove r c = h'.declarationsAbove r c := by
  have hgraph := hh.viewpointGraph
  have hstart : S (Viewpoint.mk r c).method.owner ∧ S (Viewpoint.mk r c).cls := ⟨hr, hc⟩
  rw [declarationsAbove, declarationsAbove, ← hgraph.depthFirst_eq hstart]
  refine List.filterMap_congr fun v hv => ?_
  obtain ⟨hm, hcls⟩ := hgraph.reaches hstart (Graph.mem_depthFirst_iff.mp hv)
  rw [Viewpoint.met?, Viewpoint.met?, hh.method?_eq hm, hh.class?_eq hcls]

theorem of_mem_declarationsAbove (hh : Agree S h h') {r : MemberRef} {c : String} {d : MethodNode}
    (hc : S c) (hd : d ∈ h.declarationsAbove r c) : S d.owner := by
  obtain ⟨v, hv, hmet⟩ := mem_declarationsAbove.mp hd
  rw [(hh.keyed.of_met hmet).2.1]
  exact hh.supertypeGraph.reaches hc (reaches_cls hv)

theorem overrideRoots_eq (hh : Agree S h h') {r : MemberRef} {c : String} (hr : S r.owner)
    (hc : S c) : h.overrideRoots r c = h'.overrideRoots r c := by
  rw [overrideRoots, overrideRoots, hh.declarationsAbove_eq hr hc]

theorem nearestParent?_eq (hh : Agree S h h') {r : MemberRef} {c : String} (hr : S r.owner)
    (hc : S c) : h.nearestParent? r c = h'.nearestParent? r c := by
  rw [nearestParent?, nearestParent?, ← hh.declarationsAbove_eq hr hc]
  refine congrArg (Option.map MethodNode.ref) (List.find?_congr fun d hd => ?_)
  rw [hh.class?_eq (hh.of_mem_declarationsAbove hc hd)]

/-! ## What is changed -/

theorem modifyClass (hh : Agree S h h') (name : String) {f : ClassNode → ClassNode}
    (hf : ∀ c, (f c).bare = c.bare)
    (hin : ∀ c key m, (f c).method? key = some m →
      ∃ n, c.method? key = some n ∧ (n.Inside S → m.Inside S)) :
    Agree S (h.modifyClass name f) (h'.modifyClass name f) where
  class?_eq {other} ho := by rw [class?_modifyClass, class?_modifyClass, hh.class?_eq ho]
  closed {a b} ha hab := by
    rw [← (alike_modifyClass h name hf).supertypeGraph] at hab
    exact hh.closed ha hab
  keyed := hh.keyed.of_alike (alike_modifyClass h name hf)
  inside {r m} hr hm := by
    obtain ⟨c, hc, hcm⟩ := method?_eq_some.mp hm
    obtain ⟨d, hd, ⟨_, rfl⟩ | ⟨_, rfl⟩⟩ := exists_of_modifyClass hc
    · obtain ⟨n, hn, hnm⟩ := hin d r.key m hcm
      exact hnm (hh.inside hr (method?_eq_some.mpr ⟨d, hd, hn⟩))
    · exact hh.inside hr (method?_eq_some.mpr ⟨c, hd, hcm⟩)

theorem modifyMethod (hh : Agree S h h') (r : MemberRef) {f : MethodNode → MethodNode}
    (hf : ∀ m, (f m).bare = m.bare) (hin : ∀ m : MethodNode, m.Inside S → (f m).Inside S) :
    Agree S (h.modifyMethod r f) (h'.modifyMethod r f) where
  class?_eq {other} ho := by
    simp only [Hierarchy.modifyMethod, class?_modifyClass, hh.class?_eq ho]
  closed {a b} ha hab := by
    rw [← ((sameBut_modifyMethod h r hf).alike).supertypeGraph] at hab
    exact hh.closed ha hab
  keyed := hh.keyed.of_alike (sameBut_modifyMethod h r hf).alike
  inside {q m} hq hm := by
    obtain ⟨n, hn, ⟨_, rfl⟩ | ⟨_, rfl⟩⟩ := exists_of_modifyMethod hm
    · exact hin n (hh.inside hq hn)
    · exact hh.inside hq hn

end Agree

end Hierarchy
end Lineage
