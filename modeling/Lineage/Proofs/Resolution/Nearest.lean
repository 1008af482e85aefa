import Lineage.Proofs.Resolution.Contributions
import Lineage.Proofs.Resolution.Parents

/-!
Which declaration becomes the parent of a method.

Where there are no bouncers, a method is looked for above its class depth first,
in a superclass and all its ancestors before the interfaces, and the first
primary declaration becomes its parent.  So there is a way up to the parent on
which no other primary declaration lies.  Where a superclass and an interface
lead to the parent, though, one may lie on the other way, below the parent.
-/

namespace Lineage

open Std (ExtTreeSet)
open Relation (ReflTransGen TransGen)

namespace Hierarchy

/-- The class `cls` is primary and not that of `m`, and declares `p`, which has
the key of `m` and may be overridden as far as its own modifiers go. -/
def PrimaryDeclaration (h : Hierarchy) (m : MethodNode) (cls : String) (p : MemberRef) : Prop :=
  ∃ c d, h.class? cls = some c ∧ c.isLocal ∧ cls ≠ m.owner ∧ c.method? m.key = some d ∧
    d.isInheritable ∧ d.ref = p

/-- From the class of `m` depth first up, `p` is the first primary
declaration. -/
def FirstDeclaration (h : Hierarchy) (m : MethodNode) (p : MemberRef) : Prop :=
  ∃ before cls after, h.supertypeGraph.depthFirst m.owner = before ++ cls :: after ∧
    PrimaryDeclaration h m cls p ∧ ∀ b ∈ before, ∀ q, ¬ PrimaryDeclaration h m b q

variable {h h' : Hierarchy} {m n : MethodNode} {cls : String} {p : MemberRef}

theorem PrimaryDeclaration.of_alike (hp : PrimaryDeclaration h m cls p) (hh : Alike h h')
    (hr : m.ref = n.ref) : PrimaryDeclaration h' n cls p := by
  obtain ⟨c, d, hc, hlocal, hne, hd, hdi, rfl⟩ := hp
  obtain ⟨c', hc', hb⟩ := hh.exists_class hc
  have howner : m.owner = n.owner := congrArg MemberRef.owner hr
  have hkey : m.key = n.key := congrArg MemberRef.key hr
  have hd' : (c'.method? n.key).map MethodNode.bare = some d.bare := by
    rw [← ClassNode.method?_bare, ← hb, ClassNode.method?_bare, ← hkey, hd, Option.map_some]
  obtain ⟨d', hd', hbd⟩ := Option.map_eq_some_iff.mp hd'
  refine ⟨c', d', hc', ?_, howner ▸ hne, hd', ?_, MethodNode.ref_eq hbd⟩
  · show c'.bare.isLocal
    rw [← hb]
    exact hlocal
  · rw [MethodNode.isInheritable_eq hbd]
    exact hdi

theorem FirstDeclaration.of_alike (hp : FirstDeclaration h m p) (hh : Alike h h')
    (hr : m.ref = n.ref) : FirstDeclaration h' n p := by
  obtain ⟨before, cls, after, hsplit, hdeclared, hbefore⟩ := hp
  have howner : m.owner = n.owner := congrArg MemberRef.owner hr
  refine ⟨before, cls, after, ?_, hdeclared.of_alike hh hr, fun b hb q hq => ?_⟩
  · rw [← hh.supertypeGraph, ← howner]
    exact hsplit
  · exact hbefore b hb q (hq.of_alike hh.symm hr.symm)

/-- There is a way up to the first primary declaration on which no other one
lies. -/
theorem FirstDeclaration.exists_way (hk : Keyed h) (hp : FirstDeclaration h m p) :
    ReflTransGen (fun a b => h.supertypeGraph.Edge a b ∧ ∀ q, ¬ PrimaryDeclaration h m a q)
      m.owner p.owner := by
  obtain ⟨before, cls, after, hsplit, ⟨c, d, hc, _, _, hd, _, rfl⟩, hbefore⟩ := hp
  have howner : d.ref.owner = cls := (hk.of_mem_class hc hd).1
  rw [howner]
  exact ReflTransGen.mono (fun a b hab => ⟨hab.2, hbefore a hab.1⟩) _ _
    (Graph.reaches_of_visit_eq hsplit)

/-! ## Looking up without bouncers -/

/-- Where the first element is found among what is picked. -/
theorem map_find?_filterMap {α β γ : Type} (l : List α) (f : α → Option β) (q : β → Bool)
    (g : β → γ) :
    ((l.filterMap f).find? q).map g = l.findSome? fun a => ((f a).filter q).map g := by
  induction l with
  | nil => rfl
  | cons a l ih =>
    cases hf : f a with
    | none =>
      rw [List.filterMap_cons_none hf, ih, List.findSome?_cons, hf]
      rfl
    | some b =>
      rw [List.filterMap_cons_some hf, List.findSome?_cons, hf, List.find?_cons, Option.filter_some]
      cases q b with
      | true => rfl
      | false => exact ih

theorem primaryDeclaration_iff (hk : Keyed h) (hm : h.method? m.ref = some m)
    (ho : m.isOverridable) : PrimaryDeclaration h m cls p ↔
      ((Viewpoint.met? h ⟨m.ref, cls⟩).filter fun d =>
        (h.class? d.owner).any ClassNode.isLocal).map MethodNode.ref = some p := by
  simp only [Option.map_eq_some_iff, Option.filter_eq_some_iff]
  constructor
  · intro hp
    obtain ⟨c, d, hc, hlocal, hne, hd, hdi, rfl⟩ := hp
    have howner : d.owner = cls := (hk.of_mem_class hc hd).1
    have hd : c.method? m.ref.key = some d := hd
    have hother : d.owner ≠ m.ref.owner := howner.symm ▸ hne
    refine ⟨d, ⟨?_, ?_⟩, rfl⟩
    · simp only [Viewpoint.met?, hm, hc, hd, Option.bind_eq_bind, Option.bind_some]
      rw [if_pos]
      simp [ho, hdi, hother]
    · rw [howner, hc]
      exact hlocal
  · intro hp
    obtain ⟨d, ⟨hmet, hlocal⟩, rfl⟩ := hp
    obtain ⟨href, howner, hkey, hne, hdi, _⟩ := hk.of_met hmet
    obtain ⟨c, hc, hd⟩ := method?_eq_some.mp href
    have howner : d.owner = cls := howner
    have hkey : d.ref.key = m.key := hkey
    have hc : h.class? d.owner = some c := hc
    rw [hkey] at hd
    rw [hc] at hlocal
    subst howner
    exact ⟨c, d, hc, hlocal, hne, hd, hdi, rfl⟩

/-- A method that no bouncer leads to is looked for just where the supertypes
lead. -/
theorem depthFirst_viewpoint (hm : h.method? m.ref = some m) (ho : m.isOverridable)
    (hnone : m.forwarders = ∅) (cls : String) :
    (Viewpoint.graph h).depthFirst ⟨m.ref, cls⟩ =
      (h.supertypeGraph.depthFirst cls).map (Viewpoint.mk m.ref) := by
  have hinjective : Function.Injective (Viewpoint.mk m.ref) := by
    intro a b hab
    exact congrArg Viewpoint.cls hab
  refine Graph.visit_map hinjective (fun a => ?_) .depthFirst [cls] []
  show Viewpoint.next? h ⟨m.ref, a⟩ = ((h.class? a).map ClassNode.supertypes).map _
  cases hc : h.class? a with
  | none => simp [Viewpoint.next?, hm, hc]
  | some c =>
    have hempty : m.forwarders.toList = [] := by
      refine List.eq_nil_iff_forall_not_mem.mpr fun f hf => ?_
      rw [ExtTreeSet.mem_toList, hnone] at hf
      exact ExtTreeSet.not_mem_empty hf
    rw [Viewpoint.next?_eq_some (v := ⟨m.ref, a⟩) hm ho hc, hempty]
    rfl

/-- What is met first becomes the parent. -/
theorem nearestParent?_eq_some_iff (hk : Keyed h) (hm : h.method? m.ref = some m)
    (hnone : m.forwarders = ∅) : h.nearestParent? m.ref m.owner = some p ↔
      m.isOverridable ∧ FirstDeclaration h m p := by
  by_cases ho : m.isOverridable
  · rw [nearestParent?, declarationsAbove, depthFirst_viewpoint hm ho hnone, List.filterMap_map,
      map_find?_filterMap, List.findSome?_eq_some_iff]
    simp only [FirstDeclaration, primaryDeclaration_iff hk hm ho, ho, true_and, ne_eq,
      Option.eq_none_iff_forall_ne_some, Function.comp_apply]
  · refine ⟨fun hp => ?_, fun hp => absurd hp.1 ho⟩
    obtain ⟨d, hd, _⟩ := Resolution.exists_met_of_nearestParent? hp
    obtain ⟨v, hv, hmet⟩ := mem_declarationsAbove.mp hd
    rcases hv.cases_head with rfl | ⟨w, ⟨l, hl, _⟩, _⟩
    · obtain ⟨_, _, _, _, _, n, hn, hno⟩ := hk.of_met hmet
      cases hm.symm.trans hn
      exact absurd hno ho
    · obtain ⟨n, _, hn, hno, _⟩ := Viewpoint.exists_of_next?_eq_some hl
      cases hm.symm.trans hn
      exact absurd hno ho

end Hierarchy

namespace Resolution

open Hierarchy (Alike Keyed PrimaryDeclaration FirstDeclaration)

/-! ## Resolving without bouncers -/

/-- No bouncer is known to any method, and the parents of methods of classes
that have been resolved are what `read` says they have to be. -/
structure Parented (read h : Hierarchy) : Prop where
  bounceless : ∀ {r m}, h.method? r = some m → m.forwarders = ∅
  parent : ∀ {r m}, h.method? r = some m → ∀ p, m.parent = some p ↔
    h.isResolved m.owner ∧ m.isOverridable ∧ FirstDeclaration read m p

theorem firstDeclaration_congr {h h' : Hierarchy} (hh : Alike h h') {m n : MethodNode}
    (hb : m.bare = n.bare) (p : MemberRef) : FirstDeclaration h m p ↔ FirstDeclaration h' n p :=
  ⟨fun hp => hp.of_alike hh (MethodNode.ref_eq hb),
    fun hp => hp.of_alike hh.symm (MethodNode.ref_eq hb).symm⟩

/-- Settling a class gives its methods their parents, and leaves others. -/
theorem Parented.settle {read h : Hierarchy} (hp : Parented read h) (hk : Keyed read)
    (ha : Alike read h) (names : Names) (cls : String) :
    Parented read (settle names cls h).1 := by
  have hkh := hk.of_alike ha
  cases hc : h.class? cls with
  | none =>
    rw [settle_of_none hc]
    exact hp
  | some c =>
    have hsome : (h.class? cls).isSome := by rw [hc, Option.isSome_some]
    refine ⟨fun {r m'} hm' => ?_, fun {r m'} hm' p => ?_⟩
    · obtain ⟨m, hm, hs⟩ := settled_settle hkh hsome hm'
      rw [hs.forwarders]
      exact hp.bounceless hm
    · obtain ⟨m, hm, hs⟩ := settled_settle hkh hsome hm'
      have howner : m'.owner = m.owner := congrArg MemberRef.owner (MethodNode.ref_eq hs.bare)
      have hslot : m.owner = r.owner := (hkh.slot_eq hm).1
      rw [MethodNode.isOverridable_eq hs.bare, firstDeclaration_congr (.refl read) hs.bare,
        isResolved_settle, howner]
      by_cases hr : r.owner = cls
      · obtain ⟨g, hg, hparent, _⟩ := hs.own hr
        have hag := (alike_bouncedAt names cls h).trans hg.alike
        have hown : m.owner = cls := hslot.trans hr
        obtain ⟨n, hn, hbare⟩ := hag.exists_method hm
        have href : n.ref = m.ref := (MethodNode.ref_eq hbare).symm
        have hself : g.method? n.ref = some n := (hkh.of_alike hag).method?_ref hn
        obtain ⟨n₀, hn₀, _, hforwarders, _⟩ := hg.exists_before hn
        have hnone : n.forwarders = ∅ := hforwarders.trans (hp.bounceless hn₀)
        have hcls : n.owner = cls := (congrArg MemberRef.owner href).trans hown
        have hfirst := Hierarchy.nearestParent?_eq_some_iff (p := p)
          (hkh.of_alike hag) hself hnone
        rw [hcls, href] at hfirst
        rw [hparent, hfirst, MethodNode.isOverridable_eq hbare.symm,
          firstDeclaration_congr (ha.trans hag) hbare]
        simp [hown, hc]
      · have hown : cls ≠ m.owner := fun heq => hr (hslot.symm.trans heq.symm)
        rw [(hs.other hr).1, hp.parent hm]
        simp [hown]

/-- Where no method of some classes is a bouncer, linking them changes nothing. -/
theorem parented_link {path : ClassPath} (hp : path.hierarchy.AsRead) {classes : List String}
    (hnone : ∀ r m, path.hierarchy.method? r = some m → m.owner ∈ classes → m.bounce = none) :
    Parented path.hierarchy ((start path).link classes).path.hierarchy where
  bounceless {r m} hm := by
    have hforwarded := forwarded_link (r := start path) hp classes
    refine ExtTreeSet.eq_empty_iff_forall_not_mem.mpr fun f hf => ?_
    obtain ⟨howner, n, b, hn, href, hb, _⟩ := hforwarded r m f hm hf
    have hmem : n.owner ∈ classes := (hp.keyed.slot_eq hn).1 ▸ howner
    rw [hnone f n hn hmem] at hb
    cases hb
  parent {r m} hm p := by
    rw [(unrooted_link (r := start path) hp hm).2]
    have hunresolved := not_isResolved_link (r := start path) hp classes m.owner
    simp [hunresolved]

theorem parented_resolveAll (names : Names) {path : ClassPath} (hp : path.hierarchy.AsRead)
    {classes : List String}
    (hnone : ∀ r m, path.hierarchy.method? r = some m → m.owner ∈ classes → m.bounce = none) :
    Parented path.hierarchy
      (classes.foldl (resolve names) ((start path).link classes)).path.hierarchy := by
  have hlink := alike_link (start path) classes
  exact resolveAll_induction (P := Parented path.hierarchy) names (parented_link hp hnone) classes
    fun h a ha hparented _ => hparented.settle hp.keyed (hlink.trans ha) names a

/-- After resolving an archive without bouncers, the parent of a method is the
first primary declaration that a depth-first search from its class meets, and
there is a way up to it on which no other primary declaration lies. -/
theorem parent_iff_firstDeclaration (names : Names) (sources : List ClassTable)
    (requests : List ClassPath.Request) (classes : List String) :
    let read := (ClassPath.afterRequests sources requests).hierarchy
    let h := ((start (.afterRequests sources requests)).resolveArchive names classes).path.hierarchy
    (∀ r m, read.method? r = some m → m.owner ∈ classes → m.bounce = none) →
      ∀ r m, h.method? r = some m →
        (∀ p, m.parent = some p ↔
          h.isResolved m.owner ∧ m.isOverridable ∧ FirstDeclaration read m p) ∧
        ∀ p, m.parent = some p → ReflTransGen
          (fun a b => read.supertypeGraph.Edge a b ∧ ∀ q, ¬ PrimaryDeclaration read m a q)
          m.owner p.owner := by
  intro read h hnone r m hm
  have hp := ClassPath.asRead_afterRequests sources requests
  have halike := (alike_link (start (.afterRequests sources requests)) classes).trans
    (alike_resolveAll names _ classes)
  have hparented := parented_resolveAll names hp hnone
  have hunified := Beside.unifyAll (hp.keyed.of_alike halike) classes
  obtain ⟨n, hn, hview⟩ := hunified.sameBut.symm.exists_method hm
  have hparent : n.sansUnity.parent = m.sansUnity.parent := congrArg MethodNode.parent hview
  have hbare : n.sansUnity.bare = m.sansUnity.bare := congrArg MethodNode.bare hview
  change n.parent = m.parent at hparent
  change n.bare = m.bare at hbare
  have howner : n.owner = m.owner := congrArg MemberRef.owner (MethodNode.ref_eq hbare)
  have hfirst : ∀ p, m.parent = some p ↔
      h.isResolved m.owner ∧ m.isOverridable ∧ FirstDeclaration read m p := by
    intro p
    rw [← hparent, hparented.parent hn, ← howner, MethodNode.isOverridable_eq hbare,
      firstDeclaration_congr (.refl read) hbare]
    show _ ↔ (classes.foldl unify _).path.hierarchy.isResolved n.owner ∧ _
    rw [isResolved_unifyAll]
  exact ⟨hfirst, fun p hpar => ((hfirst p).mp hpar).2.2.exists_way hp.keyed⟩

namespace Sample

open Assembly (Sketch)

/-- An interface that asks for `run`. -/
def runnable (name : String) (above : List String) : Sketch where
  name := name
  superName := none
  access := .ofModifiers [.pub, .interface, .abstract]
  declarations := above.map .interface ++ [.abstractMethod (.ofModifiers [.pub]) "run" "()V"]

/-- Two ways lead from a class up to an interface, the first over a superclass
that does not declare the method and the second over an interface that does. -/
def crossing : ClassPath :=
  .afterRequests [] [.register (archive
    [runnable "Top" [], runnable "Middle" ["Top"],
      { plain "Base" none [.interface "Top"] with access := .ofModifiers [.pub, .abstract] },
      plain "Child" (some "Base") [.interface "Middle", run [.pub] [.op 0xB1]]]) true]

def crossed : Resolution :=
  (start crossing).resolveArchive .asWritten ["Base", "Child", "Middle", "Top"]

theorem bounce_eq_none_crossing {r : MemberRef} {m : MethodNode}
    (hm : crossing.hierarchy.method? r = some m) : m.bounce = none := by
  have hall : ∀ c ∈ crossing.hierarchy.classes.values, ∀ m ∈ c.methods.values, m.bounce = none := by
    decide +kernel
  obtain ⟨c, hc, hcm⟩ := Hierarchy.method?_eq_some.mp hm
  exact hall c (mem_values_iff.mpr ⟨r.owner, hc⟩) m (mem_values_iff.mpr ⟨r.key, hcm⟩)

set_option maxRecDepth 10000 in
theorem parent_crossed :
    (crossed.path.hierarchy.method? ⟨"Child", "run", "()V"⟩).map
      (fun m => (m.ref, m.parent)) =
        some (⟨"Child", "run", "()V"⟩, some ⟨"Top", "run", "()V"⟩) := by
  simp only [crossed, resolveArchive, link, List.foldl_cons, List.foldl_nil,
    resolve_eq_resolving, unify_eq_unifying]
  decide +kernel

/-- The parent is found on the way over the superclass. -/
theorem parent_iff_firstDeclaration_crossed :
    (∀ r m, crossing.hierarchy.method? r = some m →
      m.owner ∈ ["Base", "Child", "Middle", "Top"] → m.bounce = none) ∧
    ∃ m, crossed.path.hierarchy.method? ⟨"Child", "run", "()V"⟩ = some m ∧
      FirstDeclaration crossing.hierarchy m ⟨"Top", "run", "()V"⟩ ∧
      ReflTransGen (fun a b => crossing.hierarchy.supertypeGraph.Edge a b ∧
        ∀ q, ¬ PrimaryDeclaration crossing.hierarchy m a q) "Child" "Top" := by
  have hnone : ∀ r m, crossing.hierarchy.method? r = some m →
      m.owner ∈ ["Base", "Child", "Middle", "Top"] → m.bounce = none :=
    fun _ _ hm _ => bounce_eq_none_crossing hm
  obtain ⟨m, hm, hnode⟩ := Option.map_eq_some_iff.mp parent_crossed
  obtain ⟨href, hparent⟩ := Prod.mk.inj hnode
  obtain ⟨hfirst, hway⟩ := parent_iff_firstDeclaration .asWritten [] _ _ hnone _ m hm
  have hway := hway _ hparent
  rw [show m.owner = "Child" from congrArg MemberRef.owner href] at hway
  exact ⟨hnone, m, hm, ((hfirst _).mp hparent).2.2, hway⟩

theorem acyclic_crossing : Hierarchy.Acyclic crossing.hierarchy :=
  Hierarchy.acyclic_of_rank (fun name =>
    if name = "Child" then 2 else if name = "Top" then 0 else 1) (by decide +kernel)

/-- A primary declaration lies between a method and its parent, and no bouncer
or cycle is to blame. -/
theorem nearer_declaration_passed : Hierarchy.Acyclic crossing.hierarchy ∧
    (∀ r m, crossing.hierarchy.method? r = some m → m.bounce = none) ∧
    ∃ m, crossed.path.hierarchy.method? ⟨"Child", "run", "()V"⟩ = some m ∧
      m.parent = some ⟨"Top", "run", "()V"⟩ ∧
      TransGen crossing.hierarchy.supertypeGraph.Edge "Child" "Middle" ∧
      TransGen crossing.hierarchy.supertypeGraph.Edge "Middle" "Top" ∧
      PrimaryDeclaration crossing.hierarchy m "Middle" ⟨"Middle", "run", "()V"⟩ := by
  obtain ⟨m, hm, hnode⟩ := Option.map_eq_some_iff.mp parent_crossed
  obtain ⟨href, hparent⟩ := Prod.mk.inj hnode
  have hchild : crossing.hierarchy.supertypes? "Child" = some ["Base", "Middle"] := by
    decide +kernel
  have hmiddle : crossing.hierarchy.supertypes? "Middle" = some ["Top"] := by decide +kernel
  refine ⟨acyclic_crossing, fun _ _ => bounce_eq_none_crossing, m, hm, hparent,
    .single ⟨_, hchild, by simp⟩, .single ⟨_, hmiddle, by simp⟩, ?_⟩
  have hdeclared : (crossing.hierarchy.class? "Middle").any fun c =>
      c.isLocal && (c.method? "run()V").any fun d =>
        d.isInheritable && decide (d.ref = ⟨"Middle", "run", "()V"⟩) := by decide +kernel
  obtain ⟨c, hc, hflags⟩ := (Option.any_eq_true _ _).mp hdeclared
  obtain ⟨hlocal, hd⟩ := Bool.and_eq_true_iff.mp hflags
  obtain ⟨d, hd, hflags⟩ := (Option.any_eq_true _ _).mp hd
  obtain ⟨hdi, hdref⟩ := Bool.and_eq_true_iff.mp hflags
  have howner : m.owner = "Child" := congrArg MemberRef.owner href
  have hkey : m.key = "run()V" := congrArg MemberRef.key href
  refine ⟨c, d, hc, hlocal, ?_, hkey ▸ hd, hdi, of_decide_eq_true hdref⟩
  rw [howner]
  decide

end Sample

end Resolution
end Lineage
