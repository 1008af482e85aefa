import Lineage.Proofs.Resolution.Parents

/-!
Methods that bridges lead back to.

A bridge may do no more than call the method that it overrides.  When that
method is linked, what lies above it is looked up as the bridge, too, and starts
in the class of the method.  The bridge belongs to another class, so the method
itself is met there as if it were above, and comes to be one of its own roots.
-/

namespace Lineage

open Std (ExtTreeSet)
open Relation (ReflTransGen TransGen)

namespace Resolution

open Hierarchy (Acyclic Alike Keyed SameBut)

/-- The method at `f` is a bouncer of another class that forwards to the method
at `r`, which has the same signature, and neither has modifiers that keep them
from overriding each other. -/
structure Bridge (h : Hierarchy) (classes : List String) (f r : MemberRef) : Prop where
  forwards : Forwards h classes f r
  owner_ne : f.owner ≠ r.owner
  key_eq : f.key = r.key
  bouncer : ∃ n, h.method? f = some n ∧ n.isOverridable
  method : ∃ m, h.method? r = some m ∧ m.ref = r ∧ m.isOverridable ∧ m.isInheritable

/-! ## Linking bouncers -/

theorem mem_bouncesOf_of_forwards {h : Hierarchy} {classes : List String} {f r : MemberRef}
    (hf : Forwards h classes f r) :
    ∃ t, (f, t) ∈ bouncesOf h f.owner ∧ t.owner = r.owner ∧ t.key = r.key := by
  obtain ⟨_, m, b, hm, href, hb, ht⟩ := hf
  obtain ⟨c, hc, hcm⟩ := Hierarchy.method?_eq_some.mp hm
  refine ⟨b.target, ?_, ht⟩
  simp only [bouncesOf, hc, Option.map_some, Option.getD_some, List.mem_filterMap,
    mem_values_iff, Option.map_eq_some_iff]
  exact ⟨m, ⟨f.key, hcm⟩, b, hb, by rw [href]⟩

theorem mem_forwarders_link {r : Resolution} {classes : List String} {f q : MemberRef}
    (hf : Forwards r.path.hierarchy classes f q) {m : MethodNode}
    (hm : (r.link classes).path.hierarchy.method? q = some m) : f ∈ m.forwarders := by
  have hkeep : ∀ (g : Hierarchy) (b : MemberRef × MemberRef),
      (∀ n, g.method? q = some n → f ∈ n.forwarders) →
      ∀ n, (g.modifyMethod b.2 (·.addForwarder b.1)).method? q = some n → f ∈ n.forwarders := by
    intro g b hg n hn
    rw [Hierarchy.method?_modifyMethod] at hn
    split at hn
    · obtain ⟨n', hn', rfl⟩ := Option.map_eq_some_iff.mp hn
      exact ExtTreeSet.mem_insert.mpr (Or.inr (hg n' hn'))
    · exact hg n hn
  have hkeepAll : ∀ (g : Hierarchy) (cls : String),
      (∀ n, g.method? q = some n → f ∈ n.forwarders) →
      ∀ n, (linkBouncers g cls).method? q = some n → f ∈ n.forwarders := fun g cls hg =>
    List.foldlRecOn (motive := fun g : Hierarchy =>
      ∀ n, g.method? q = some n → f ∈ n.forwarders) _ _ hg fun g hg b _ => hkeep g b hg
  refine foldl_of_mem (P := SameBut MethodNode.sansForwarders r.path.hierarchy)
    (Q := fun g : Hierarchy => ∀ n, g.method? q = some n → f ∈ n.forwarders) hf.1 (.refl _)
    (fun g hg cls _ => hg.trans (sameBut_linkBouncers g cls)) (fun g hg => ?_)
    (fun g _ hg cls _ => hkeepAll g cls hg) m hm
  obtain ⟨t, ht, hslot⟩ := mem_bouncesOf_of_forwards (hf.of_sameBut hg.symm)
  refine foldl_of_mem (P := fun _ => True)
    (Q := fun g : Hierarchy => ∀ n, g.method? q = some n → f ∈ n.forwarders) ht trivial
    (fun _ _ _ _ => trivial) (fun g _ n hn => ?_) (fun g _ hg b _ => hkeep g b hg)
  rw [Hierarchy.method?_modifyMethod, if_pos hslot] at hn
  obtain ⟨n', _, rfl⟩ := Option.map_eq_some_iff.mp hn
  exact ExtTreeSet.mem_insert_self

/-! ## Linking the method -/

section Link

variable {h₀ g : Hierarchy} {classes : List String} {f r : MemberRef}

/-- The method meets itself on the way up. -/
theorem Bridge.met (hb : Bridge h₀ classes f r) (hk : Keyed h₀) (ha : Alike h₀ g)
    {m : MethodNode} (hm : g.method? r = some m) (hf : f ∈ m.forwarders) {q : MemberRef}
    (ho : q.owner = r.owner) (hkey : q.key = r.key) : m ∈ g.declarationsAbove q r.owner := by
  obtain ⟨m₀, hm₀, _, hmo, hmi⟩ := hb.method
  obtain ⟨n₀, hn₀, hno⟩ := hb.bouncer
  obtain ⟨n, hn, hnb⟩ := ha.exists_method hn₀
  obtain ⟨_, k, _, hk₀, href, _⟩ := hb.forwards
  have hmb : m.bare = m₀.bare := ha.keyed_ref hm₀ hm
  have hnf : n.ref = f := by
    cases hn₀.symm.trans hk₀
    exact (MethodNode.ref_eq hnb).symm.trans href
  obtain ⟨c, hc, hcm⟩ := Hierarchy.method?_eq_some.mp hm
  have hq : g.method? q = some m := by rw [g.method?_congr ho hkey, hm]
  refine Hierarchy.mem_declarationsAbove.mpr ⟨⟨f, r.owner⟩, .single ?_, ?_⟩
  · have hnext : (Viewpoint.graph g).next ⟨q, r.owner⟩ =
        some ((m.forwarders.toList.filterMap g.method?).map (fun f => ⟨f.ref, r.owner⟩) ++
          c.supertypes.map (Viewpoint.mk q)) := by
      rw [← MethodNode.isOverridable_eq hmb] at hmo
      simp only [Viewpoint.graph, Viewpoint.next?, hq, hc, Option.bind_eq_bind, Option.bind_some,
        hmo, if_true]
    refine ⟨_, hnext, List.mem_append_left _ (List.mem_map.mpr ⟨n, ?_, by rw [hnf]⟩)⟩
    exact List.mem_filterMap.mpr ⟨f, ExtTreeSet.mem_toList.mpr hf, hn⟩
  · have howner : m.owner = r.owner := ((hk.of_alike ha).slot_eq hm).1
    have hne : r.owner ≠ f.owner := hb.owner_ne.symm
    rw [MethodNode.isOverridable_eq hnb] at hno
    rw [← MethodNode.isInheritable_eq hmb] at hmi
    simp [Viewpoint.met?, hn, hc, hb.key_eq, hcm, hno, hmi, howner, hne]

/-- A method has no roots yet, or is one of them. -/
def OwnRoot (g : Hierarchy) (r : MemberRef) : Prop :=
  ∀ m, g.method? r = some m → m.overrides = ∅ ∨ r ∈ m.overrides

theorem Bridge.mem_overrideRoots (hb : Bridge h₀ classes f r) (hk : Keyed h₀) (ha : Alike h₀ g)
    (hf : ∀ m, g.method? r = some m → f ∈ m.forwarders) (hown : OwnRoot g r) {q : MemberRef}
    (ho : q.owner = r.owner) (hkey : q.key = r.key) : r ∈ g.overrideRoots q r.owner := by
  obtain ⟨m₀, hm₀, href, _⟩ := hb.method
  obtain ⟨m, hm, hbare⟩ := ha.exists_method hm₀
  have hmr : m.ref = r := (MethodNode.ref_eq hbare).symm.trans href
  refine Hierarchy.mem_overrideRoots_iff.mpr ⟨m, hb.met hk ha hm (hf m hm) ho hkey, ?_⟩
  unfold MethodNode.roots
  split
  · rw [hmr]
    exact ExtTreeSet.mem_insert_self
  · next hne =>
    refine (hown m hm).resolve_left fun he => hne ?_
    rw [he]
    exact ExtTreeSet.isEmpty_empty

theorem Bridge.ownRoot_of_linking {h : Hierarchy} (hb : Bridge h₀ classes f r) (hk : Keyed h₀)
    (ha : Alike h₀ h) (hf : ∀ m, h.method? r = some m → f ∈ m.forwarders) (hown : OwnRoot h r)
    (hg : Linking r.owner h g) :
    (∀ m, g.method? r = some m → f ∈ m.forwarders) ∧ OwnRoot g r := by
  induction hg with
  | refl => exact ⟨hf, hown⟩
  | @link g q hg hq ih =>
    obtain ⟨hf, hown⟩ := ih
    refine ⟨fun m hm => ?_, fun m hm => ?_⟩
    · rw [linkMethod, Hierarchy.method?_modifyMethod] at hm
      split at hm
      · obtain ⟨n, hn, rfl⟩ := Option.map_eq_some_iff.mp hm
        exact hf n hn
      · exact hf m hm
    · rw [linkMethod, Hierarchy.method?_modifyMethod] at hm
      split at hm
      · next hslot =>
        obtain ⟨n, hn, rfl⟩ := Option.map_eq_some_iff.mp hm
        exact Or.inr (hb.mem_overrideRoots hk (ha.trans hg.alike) hf hown hq hslot.2)
      · exact hown m hm

end Link

/-! ## Settling classes -/

/-- Once the class of the method is resolved, the method is one of its own
roots. -/
structure BridgedBack (h : Hierarchy) (f r : MemberRef) : Prop where
  fresh : Fresh h
  forwarder : ∀ m, h.method? r = some m → f ∈ m.forwarders
  root : ∀ m, h.method? r = some m → h.isResolved r.owner → r ∈ m.overrides

theorem BridgedBack.mem_overrideRoots {h₀ h : Hierarchy} {classes : List String} {f r : MemberRef}
    (hb : BridgedBack h f r) (hbridge : Bridge h₀ classes f r) (hk : Keyed h₀) (ha : Alike h₀ h)
    (names : Names) (hready : Ready h r.owner) {m : MethodNode} (hm : h.method? r = some m)
    {g : Hierarchy} (hg : Linking r.owner (bouncedAt names r.owner h) g) :
    r ∈ g.overrideRoots r r.owner := by
  have hbefore := ha.trans (alike_bouncedAt names r.owner h)
  have hties : ∀ b, (bouncedAt names r.owner h).method? r = some b → b.ties = m.ties := by
    intro b hbm
    have hmap := map_ties_bouncedAt names r.owner h r
    rw [hbm, hm] at hmap
    exact Option.some.inj hmap
  have hforwarder : ∀ b, (bouncedAt names r.owner h).method? r = some b → f ∈ b.forwarders :=
    fun b hbm => MethodNode.forwarders_eq_of_ties (hties b hbm) ▸ hb.forwarder m hm
  have hfresh : OwnRoot (bouncedAt names r.owner h) r := by
    intro b hbm
    rw [MethodNode.overrides_eq_of_ties (hties b hbm)]
    exact Or.inl (hb.fresh r m hm hready.unresolved)
  obtain ⟨hf, hown⟩ := hbridge.ownRoot_of_linking hk hbefore hforwarder hfresh hg
  exact hbridge.mem_overrideRoots hk (hbefore.trans hg.alike) hf hown rfl rfl

theorem BridgedBack.settle {h₀ h : Hierarchy} {classes : List String} {f r : MemberRef}
    (hb : BridgedBack h f r) (hbridge : Bridge h₀ classes f r) (hk : Keyed h₀) (ha : Alike h₀ h)
    (names : Names) {cls : String} (hready : Ready h cls) :
    BridgedBack (settle names cls h).1 f r := by
  have hkh := hk.of_alike ha
  refine { fresh := hb.fresh.settle hkh names hready, forwarder := ?_, root := ?_ }
  · intro m' hm'
    obtain ⟨m, hm, hs⟩ := settled_settle hkh hready.loaded hm'
    rw [hs.forwarders]
    exact hb.forwarder m hm
  · intro m' hm' hresolved
    obtain ⟨m, hm, hs⟩ := settled_settle hkh hready.loaded hm'
    rw [hready.isResolved_settle_iff] at hresolved
    by_cases hr : r.owner = cls
    · subst hr
      obtain ⟨g, hg, _, hroots⟩ := hs.own rfl
      obtain ⟨m₀, hm₀, href, _⟩ := hbridge.method
      have hmr : m.ref = r := (MethodNode.ref_eq (ha.keyed_ref hm₀ hm)).trans href
      rw [hroots, hmr]
      exact Or.inl (hb.mem_overrideRoots hbridge hk ha names hready hm hg)
    · rw [(hs.other hr).2]
      exact Or.inl (hb.root m hm (hresolved.resolve_right hr))

/-- A method that a bridge leads back to is one of its own roots. -/
theorem mem_overrides_of_bridge (names : Names) {path : ClassPath} (hp : path.hierarchy.AsRead)
    (hacyclic : Acyclic path.hierarchy) {classes : List String} {f r : MemberRef}
    (hb : Bridge path.hierarchy classes f r) (hr : r.owner ∈ classes) :
    ∃ m, ((start path).resolveArchive names classes).path.hierarchy.method? r = some m ∧
      m.ref = r ∧ r ∈ m.overrides := by
  have hlink := alike_link (start path) classes
  have hrest : AtRest (start path).path := .of_asRead hp
  have hstart : BridgedBack ((start path).link classes).path.hierarchy f r :=
    { fresh := fun _ _ hm _ => (unrooted_link (r := start path) hp hm).1
      forwarder := fun m hm => mem_forwarders_link (r := start path) hb.forwards hm
      root := fun _ _ hres =>
        absurd hres (not_isResolved_link (r := start path) hp classes r.owner) }
  have hsettled := (hrest.link classes).resolveAll_induction
    (P := fun h => BridgedBack h f r) (hacyclic.of_alike hlink) hstart
    classes fun h a ha hback hready _ => hback.settle hb hp.keyed (hlink.trans ha) names hready
  have halike := hlink.trans (alike_resolveAll names ((start path).link classes) classes)
  obtain ⟨m₀, hm₀, href, _⟩ := hb.method
  obtain ⟨m, hm, hbare⟩ := halike.exists_method hm₀
  have hloaded : (path.hierarchy.class? r.owner).isSome := by
    obtain ⟨c, hc, _⟩ := Hierarchy.method?_eq_some.mp hm₀
    exact Option.isSome_of_eq_some hc
  have hresolved := hrest.isResolved_resolveArchive (r := start path) names hr .refl hloaded
  rw [resolveArchive, isResolved_unifyAll] at hresolved
  obtain ⟨m', hm', hbare', hroots⟩ := grows_unifyAll (fun _ => True) _ classes r m trivial hm
  refine ⟨m', hm', ?_, hroots r (hsettled.root m hm hresolved)⟩
  rw [MethodNode.ref_eq hbare', ← MethodNode.ref_eq hbare, href]

namespace Sample

/-- A class with a bridge to the method that it overrides. -/
def bridge : Assembly.Sketch :=
  plain "Bridge" (some "Base")
    [run [.pub, .bridge, .synthetic]
      [.load .reference 0, .invoke 0xB7 ⟨"Base", "run", "()V"⟩, .op 0xB1]]

def bridged : ClassPath := .afterRequests [] [.register (archive [base, bridge]) true]

theorem acyclic_bridged : Acyclic bridged.hierarchy :=
  Hierarchy.acyclic_of_rank (fun name => if name = "Base" then 0 else 1) (by decide +kernel)

theorem bridge_run : Bridge bridged.hierarchy ["Base", "Bridge"] ⟨"Bridge", "run", "()V"⟩
    ⟨"Base", "run", "()V"⟩ where
  forwards := by
    have hbouncer : (bridged.hierarchy.method? ⟨"Bridge", "run", "()V"⟩).any (fun m =>
        m.ref = ⟨"Bridge", "run", "()V"⟩ ∧
          m.bounce.map Bounce.target = some ⟨"Base", "run", "()V"⟩) := by decide +kernel
    obtain ⟨m, hm, hbounce⟩ := (Option.any_eq_true _ _).mp hbouncer
    obtain ⟨href, htarget⟩ := of_decide_eq_true hbounce
    obtain ⟨b, hb, ht⟩ := Option.map_eq_some_iff.mp htarget
    exact ⟨by decide, m, b, hm, href, hb, by rw [ht], by rw [ht]⟩
  owner_ne := by decide
  key_eq := rfl
  bouncer := by
    have hbouncer : (bridged.hierarchy.method? ⟨"Bridge", "run", "()V"⟩).any
        MethodNode.isOverridable := by decide +kernel
    exact (Option.any_eq_true _ _).mp hbouncer
  method := by
    have hmethod : (bridged.hierarchy.method? ⟨"Base", "run", "()V"⟩).any (fun m =>
        m.ref = ⟨"Base", "run", "()V"⟩ ∧ m.isOverridable ∧ m.isInheritable) := by decide +kernel
    obtain ⟨m, hm, hflags⟩ := (Option.any_eq_true _ _).mp hmethod
    exact ⟨m, hm, of_decide_eq_true hflags⟩

/-- The method of the base class is one of its own roots. -/
theorem mem_overrides_self_base : Acyclic bridged.hierarchy ∧
    ∃ m, ((start bridged).resolveArchive .asWritten ["Base", "Bridge"]).path.hierarchy.method?
      ⟨"Base", "run", "()V"⟩ = some m ∧ m.ref ∈ m.overrides := by
  have hread := ClassPath.asRead_afterRequests [] [.register (archive [base, bridge]) true]
  obtain ⟨m, hm, href, hroot⟩ :=
    mem_overrides_of_bridge .asWritten hread acyclic_bridged bridge_run List.mem_cons_self
  exact ⟨acyclic_bridged, m, hm, href ▸ hroot⟩

end Sample

end Resolution
end Lineage
