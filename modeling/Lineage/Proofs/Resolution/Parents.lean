import Lineage.Proofs.Resolution.Evaluation
import Lineage.Proofs.Resolution.Settling

/-!
Roots and parents lie above.

A method looks up for declarations as itself and as the bouncers that lead to
it.  What it meets as itself is declared above its class.  A bouncer of another
class starts in the same place, but takes any declaration there for one of
another class, the method it forwards to included.  So a method whose bouncers
are of its own class, or do not have the signature of a method there, has no
root and no parent but above; others can end up as their own parents.
-/

namespace Lineage

open Std (ExtTreeMap ExtTreeSet)
open Relation (ReflTransGen TransGen)

namespace Resolution

open Hierarchy (Acyclic Alike Keyed SameBut)

/-! ## Bouncers -/

/-- The method at `f`, of one of the classes, is a bouncer that forwards to the
method at `r`. -/
def Forwards (h : Hierarchy) (classes : List String) (f r : MemberRef) : Prop :=
  f.owner ∈ classes ∧ ∃ m b, h.method? f = some m ∧ m.ref = f ∧ m.bounce = some b ∧
    b.target.owner = r.owner ∧ b.target.key = r.key

/-- No bouncer of another class that leads to the method at `r` has the
signature of an inheritable method of its class. -/
def Straight (h : Hierarchy) (classes : List String) (r : MemberRef) : Prop :=
  ∀ f, TransGen (Forwards h classes) f r → f.owner ≠ r.owner →
    ∀ d, h.method? (f.withOwner r.owner) = some d → d.isInheritable = false

theorem forwards_of_mem_bouncesOf {h : Hierarchy} (hk : Keyed h) {classes : List String}
    {cls : String} (hcls : cls ∈ classes) {b : MemberRef × MemberRef} (hb : b ∈ bouncesOf h cls)
    {r : MemberRef} (ho : b.2.owner = r.owner) (hkey : b.2.key = r.key) :
    Forwards h classes b.1 r := by
  obtain ⟨howner, m, bounce, hm, href, hbounce, htarget⟩ := (mem_bouncesOf hk).mp hb
  rw [← htarget] at ho hkey
  exact ⟨howner ▸ hcls, m, bounce, hm, href, hbounce, ho, hkey⟩

theorem Forwards.of_sameBut {h h' : Hierarchy} (hh : SameBut MethodNode.sansForwarders h h')
    {classes : List String} {f r : MemberRef} (hf : Forwards h' classes f r) :
    Forwards h classes f r := by
  obtain ⟨howner, m', b, hm', href, hb, ht⟩ := hf
  obtain ⟨m, hm, hview⟩ := hh.symm.exists_method hm'
  have hbounce : m.bounce = m'.bounce := by
    show m.sansForwarders.bounce = m'.sansForwarders.bounce
    rw [hview]
  have hrefs : m.ref = m'.ref := by
    show m.sansForwarders.ref = m'.sansForwarders.ref
    rw [hview]
  exact ⟨howner, m, b, hm, hrefs.trans href, hbounce.trans hb, ht⟩

/-- The forwarders of methods are bouncers of the classes. -/
def Forwarded (h₀ : Hierarchy) (classes : List String) (h : Hierarchy) : Prop :=
  ∀ r m f, h.method? r = some m → f ∈ m.forwarders → Forwards h₀ classes f r

theorem forwarded_linkBouncers {h₀ h : Hierarchy} (hk : Keyed h₀)
    (hh : SameBut MethodNode.sansForwarders h₀ h) {classes : List String} {cls : String}
    (hcls : cls ∈ classes) (hf : Forwarded h₀ classes h) :
    Forwarded h₀ classes (linkBouncers h cls) := by
  unfold linkBouncers
  refine List.foldlRecOn (motive := Forwarded h₀ classes) _ _ hf ?_
  intro g hg b hb q m f hm hmf
  obtain ⟨n, hn, ⟨hslot, rfl⟩ | ⟨_, rfl⟩⟩ := Hierarchy.exists_of_modifyMethod hm
  · rcases ExtTreeSet.mem_insert.mp hmf with hbf | hmf
    · cases Std.LawfulEqOrd.eq_of_compare hbf
      have hk := hk.of_alike (hh.alike_of fun _ => rfl)
      exact (forwards_of_mem_bouncesOf hk hcls hb hslot.1 hslot.2).of_sameBut hh
    · exact hg q n f hn hmf
  · exact hg q m f hn hmf

theorem forwarded_link {r : Resolution} (hr : r.path.hierarchy.AsRead) (classes : List String) :
    Forwarded r.path.hierarchy classes (r.link classes).path.hierarchy := by
  have hstart : Forwarded r.path.hierarchy classes r.path.hierarchy := by
    intro q m f hm hf
    have hforwarders : m.ties.forwarders = ∅ := by rw [hr.untied hm]; rfl
    exact absurd (hforwarders ▸ hf) ExtTreeSet.not_mem_empty
  have hfold : SameBut MethodNode.sansForwarders r.path.hierarchy
        (classes.foldl linkBouncers r.path.hierarchy) ∧
      Forwarded r.path.hierarchy classes (classes.foldl linkBouncers r.path.hierarchy) := by
    refine List.foldlRecOn (motive := fun h =>
      SameBut MethodNode.sansForwarders r.path.hierarchy h ∧
        Forwarded r.path.hierarchy classes h) _ _ ⟨.refl _, hstart⟩ ?_
    rintro h ⟨hh, hf⟩ cls hcls
    exact ⟨hh.trans (sameBut_linkBouncers h cls),
      forwarded_linkBouncers hr.keyed hh hcls hf⟩
  exact hfold.2

theorem Forwarded.settle {h₀ h : Hierarchy} {classes : List String} (hf : Forwarded h₀ classes h)
    (hk : Keyed h) (names : Names) (cls : String) :
    Forwarded h₀ classes (settle names cls h).1 := by
  intro r m' f hm' hmf
  have hmap := map_forwarders_settle hk names cls r
  rw [hm', Option.map_some] at hmap
  obtain ⟨m, hm, hforwarders⟩ := Option.map_eq_some_iff.mp hmap.symm
  exact hf r m f hm (hforwarders ▸ hmf)

theorem not_isResolved_link {r : Resolution} (hr : r.path.hierarchy.AsRead)
    (classes : List String) (a : String) : ¬ (r.link classes).path.hierarchy.isResolved a := by
  rw [(sameBut_link r classes).isResolved]
  exact Bool.eq_false_iff.mp (hr.isResolved_eq_false a)

/-- Linking bouncers gives methods neither roots nor parents. -/
theorem unrooted_link {r : Resolution} (hr : r.path.hierarchy.AsRead) {classes : List String}
    {q : MemberRef} {m : MethodNode}
    (hm : (r.link classes).path.hierarchy.method? q = some m) :
    m.overrides = ∅ ∧ m.parent = none := by
  obtain ⟨n, hn, hview⟩ := (sameBut_link r classes).symm.exists_method hm
  have huntied := hr.untied hn
  have hoverrides : n.sansForwarders.overrides = ∅ := congrArg MethodNode.overrides huntied
  have hparent : n.sansForwarders.parent = none := congrArg MethodNode.parent huntied
  rw [hview] at hoverrides hparent
  exact ⟨hoverrides, hparent⟩

/-! ## Looking up -/

section Met

variable {h₀ h : Hierarchy} {classes : List String} {r : MemberRef} {c : String}

theorem forwards_of_reaches (ha : Alike h₀ h) (hf : Forwarded h₀ classes h) {v : Viewpoint}
    (hv : ReflTransGen (Viewpoint.graph h).Edge ⟨r, c⟩ v) :
    ReflTransGen (Forwards h₀ classes) v.method r := by
  induction hv with
  | refl => exact .refl
  | tail _ hstep ih =>
    obtain ⟨m, hm, ⟨f, hmf, n, hn, rfl⟩ | ⟨_, hmethod⟩⟩ := Hierarchy.edge_viewpoint hstep
    · obtain ⟨_, m₀, b, hm₀, href, _⟩ := hf _ m f hm hmf
      obtain ⟨n', hn', hbare⟩ := ha.exists_method hm₀
      rw [hn] at hn'
      cases hn'
      have hnf : n.ref = f := (MethodNode.ref_eq hbare).symm.trans href
      show ReflTransGen _ n.ref r
      rw [hnf]
      exact .head (hf _ m f hm hmf) ih
    · rw [hmethod]
      exact ih

/-- What a method meets from its own class on is declared there or above, and
above if its bouncers do not see it in its class. -/
theorem reaches_of_met (hk : Keyed h₀) (ha : Alike h₀ h) (hf : Forwarded h₀ classes h)
    {d : MethodNode} (hd : d ∈ h.declarationsAbove r r.owner) :
    h.method? d.ref = some d ∧ ReflTransGen h₀.supertypeGraph.Edge r.owner d.owner ∧
      (Straight h₀ classes r → d.owner ≠ r.owner) := by
  obtain ⟨v, hv, hmet⟩ := Hierarchy.mem_declarationsAbove.mp hd
  obtain ⟨href, howner, hkey, hne, hdi, _⟩ := (hk.of_alike ha).of_met hmet
  refine ⟨href, ?_, fun hstraight hown => ?_⟩
  · rw [howner, ha.supertypeGraph]
    exact Hierarchy.reaches_cls hv
  · rcases Relation.reflTransGen_iff_eq_or_transGen.mp (forwards_of_reaches ha hf hv) with
      hself | hforwards
    · exact hne (hown.trans (congrArg MemberRef.owner hself))
    · have hslot : h.method? (v.method.withOwner r.owner) = some d := by
        rw [← href]
        exact h.method?_congr hown.symm hkey.symm
      obtain ⟨d₀, hd₀, hbare⟩ := ha.symm.exists_method hslot
      have hno := hstraight v.method hforwards (fun ho => hne (hown.trans ho.symm)) d₀ hd₀
      rw [← MethodNode.isInheritable_eq hbare, hdi] at hno
      cases hno

theorem exists_met_of_nearestParent? {p : MemberRef} (hp : h.nearestParent? r c = some p) :
    ∃ d ∈ h.declarationsAbove r c, d.ref = p := by
  obtain ⟨d, hd, href⟩ := Option.map_eq_some_iff.mp hp
  exact ⟨d, List.mem_of_find?_eq_some hd, href⟩

end Met

/-! ## Settling classes -/

/-- Roots are methods of classes that have been resolved, and roots and parents
lie above where bouncers allow it. -/
structure Upward (h₀ : Hierarchy) (classes : List String) (h : Hierarchy) : Prop where
  forwarded : Forwarded h₀ classes h
  resolved : ∀ {x}, IsRoot h x → h.isResolved x.owner
  apart : ∀ {r m}, h.method? r = some m → Straight h₀ classes m.ref → m.ref ∉ m.overrides
  parent : ∀ {r m p}, h.method? r = some m → m.parent = some p →
    ReflTransGen h₀.supertypeGraph.Edge m.owner p.owner ∧
      (Straight h₀ classes m.ref → p.owner ≠ m.owner)

namespace Upward

variable {h₀ h : Hierarchy} {classes : List String}

theorem forwarded_of_linking (hf : Forwarded h₀ classes h) {names : Names} {cls : String}
    {g : Hierarchy} (hg : Linking cls (bouncedAt names cls h) g) : Forwarded h₀ classes g := by
  intro r m f hm hmf
  obtain ⟨n, hn, _, hforwarders, _⟩ := hg.exists_before hm
  exact hf r n f hn (hforwarders ▸ hmf)

/-- What a method meets when it is linked is declared above its class, and has
only roots of resolved classes, so the method is not one of them. -/
theorem not_mem_overrideRoots (hu : Upward h₀ classes h) (hk : Keyed h₀) (ha : Alike h₀ h)
    {names : Names} {cls : String} (hready : Ready h cls) {g : Hierarchy}
    (hg : Linking cls (bouncedAt names cls h) g) {r : MemberRef} (hr : r.owner = cls)
    (hstraight : Straight h₀ classes r) : r ∉ g.overrideRoots r cls := by
  subst hr
  intro hself
  have hag := ha.trans ((alike_bouncedAt names r.owner h).trans hg.alike)
  obtain ⟨d, hd, hx⟩ := Hierarchy.mem_overrideRoots_iff.mp hself
  obtain ⟨hdref, _, hne⟩ := reaches_of_met hk hag (forwarded_of_linking hu.forwarded hg) hd
  have hne := hne hstraight
  rcases MethodNode.mem_roots hx with hx | hx
  · exact hne (congrArg MemberRef.owner hx).symm
  · -- A root of `d` belongs to a class that has been resolved, and that of `r` has not been.
    obtain ⟨n, hn, _, _, hties⟩ := hg.exists_before hdref
    rw [MethodNode.overrides_eq_of_ties (hties hne)] at hx
    exact hready.unresolved (hu.resolved ⟨d.ref, n, hn, hx⟩)

theorem apart_settle (hu : Upward h₀ classes h) (hk : Keyed h₀) (ha : Alike h₀ h)
    (names : Names) {cls : String} (hready : Ready h cls) {r : MemberRef} {m' : MethodNode}
    (hm' : (settle names cls h).1.method? r = some m') (hstraight : Straight h₀ classes m'.ref) :
    m'.ref ∉ m'.overrides := by
  have hkh := hk.of_alike ha
  obtain ⟨m, hm, hs⟩ := settled_settle hkh hready.loaded hm'
  have href : m'.ref = m.ref := MethodNode.ref_eq hs.bare
  rw [href] at hstraight ⊢
  intro hself
  by_cases hr : r.owner = cls
  · obtain ⟨g, hg, _, hroots⟩ := hs.own hr
    have hmo : m.ref.owner = cls := (hkh.slot_eq hm).1.trans hr
    rcases (hroots m.ref).mp hself with hself | hself
    · exact hu.not_mem_overrideRoots hk ha hready hg hmo hstraight hself
    · exact hself.ne hkh hm rfl
  · rcases ((hs.other hr).2 m.ref).mp hself with hself | hself
    · exact hu.apart hm hstraight hself
    · exact hself.ne hkh hm rfl

theorem parent_settle (hu : Upward h₀ classes h) (hk : Keyed h₀) (ha : Alike h₀ h)
    (names : Names) {cls : String} (hready : Ready h cls) {r p : MemberRef} {m' : MethodNode}
    (hm' : (settle names cls h).1.method? r = some m') (hp : m'.parent = some p) :
    ReflTransGen h₀.supertypeGraph.Edge m'.owner p.owner ∧
      (Straight h₀ classes m'.ref → p.owner ≠ m'.owner) := by
  have hkh := hk.of_alike ha
  obtain ⟨m, hm, hs⟩ := settled_settle hkh hready.loaded hm'
  have href : m'.ref = m.ref := MethodNode.ref_eq hs.bare
  rw [href, show m'.owner = m.owner from congrArg MemberRef.owner href]
  by_cases hr : r.owner = cls
  · obtain ⟨g, hg, hparent, _⟩ := hs.own hr
    have hag := ha.trans ((alike_bouncedAt names cls h).trans hg.alike)
    have hmo : m.ref.owner = cls := (hkh.slot_eq hm).1.trans hr
    rw [hparent] at hp
    obtain ⟨d, hd, rfl⟩ := exists_met_of_nearestParent? hp
    rw [← hmo] at hd
    exact (reaches_of_met hk hag (forwarded_of_linking hu.forwarded hg) hd).2
  · rw [(hs.other hr).1] at hp
    exact hu.parent hm hp

protected theorem settle (hu : Upward h₀ classes h) (hk : Keyed h₀) (ha : Alike h₀ h)
    (names : Names) {cls : String} (hready : Ready h cls) :
    Upward h₀ classes (settle names cls h).1 where
  forwarded := hu.forwarded.settle (hk.of_alike ha) names cls
  resolved hx := by
    rcases isRoot_settle (hk.of_alike ha) hready.loaded hx with hx | hx
    · exact (hready.isResolved_settle_iff names).mpr (Or.inl (hu.resolved hx))
    · exact hready.isResolved_settle names hx
  apart := hu.apart_settle hk ha names hready
  parent := hu.parent_settle hk ha names hready

end Upward

/-! ## Unifying interfaces -/

/-- Nothing is new in `h'` but names that are forced and roots of methods that
belong to other classes. -/
structure Beside (h h' : Hierarchy) : Prop where
  sameBut : SameBut MethodNode.sansUnity h h'
  root : ∀ {r m m' x}, h.method? r = some m → h'.method? r = some m' → x ∈ m'.overrides →
    x ∈ m.overrides ∨ x.owner ≠ r.owner

namespace Beside

variable {h h' h'' : Hierarchy}

theorem refl (h : Hierarchy) : Beside h h where
  sameBut := .refl h
  root hm hm' hx := by
    cases hm.symm.trans hm'
    exact Or.inl hx

theorem trans (hh : Beside h h') (hh' : Beside h' h'') : Beside h h'' where
  sameBut := hh.sameBut.trans hh'.sameBut
  root hm hm'' hx := by
    obtain ⟨m', hm', _⟩ := hh.sameBut.exists_method hm
    rcases hh'.root hm' hm'' hx with hx | hne
    · exact hh.root hm hm' hx
    · exact Or.inr hne

theorem modifyMethod (h : Hierarchy) (r : MemberRef) {f : MethodNode → MethodNode}
    (hf : ∀ m, (f m).sansUnity = m.sansUnity)
    (hroot : ∀ m x, x ∈ (f m).overrides → x ∈ m.overrides ∨ x.owner ≠ r.owner) :
    Beside h (h.modifyMethod r f) where
  sameBut := Hierarchy.sameBut_modifyMethod h r hf
  root {q m m' x} hm hm' hx := by
    rw [Hierarchy.method?_modifyMethod, hm] at hm'
    split at hm'
    · next hslot =>
      cases hm'
      rw [← hslot.1]
      exact hroot m x hx
    · cases hm'
      exact Or.inl hx

theorem unifyInterface (hk : Keyed h) (isPrimary : String → Bool) (loaded : List String)
    (cls : String) : Beside h (unifyInterface isPrimary loaded cls h) := by
  refine unifyInterface_induction (.refl h) (fun g _ c m i hg _ hc hm _ hne => hg.trans ?_)
    fun g _ _ i o hg _ _ _ => hg.trans ?_
  · refine modifyMethod g i.ref (fun _ => rfl) fun n x hx => ?_
    obtain ⟨key, hkey⟩ := mem_values_iff.mp (List.mem_filter.mp hm).1
    have howner : m.owner = cls := (hk.of_mem_class hc hkey).1
    rcases ExtTreeSet.mem_union_iff.mp hx with hx | hx
    · exact Or.inl hx
    · rcases ExtTreeSet.mem_insert.mp hx with hx | hx
      · rw [← Std.LawfulEqOrd.eq_of_compare hx]
        exact Or.inr fun ho => hne (ho.symm.trans howner)
      · exact absurd hx ExtTreeSet.not_mem_empty
  · refine modifyMethod g i.ref (fun n => sansUnity_force n o.name) fun n x hx => Or.inl ?_
    unfold MethodNode.force at hx
    split at hx <;> exact hx

theorem unifyAll {r : Resolution} (hk : Keyed r.path.hierarchy) (classes : List String) :
    Beside r.path.hierarchy (classes.foldl unify r).path.hierarchy := by
  refine List.foldlRecOn (motive := fun s : Resolution => Beside r.path.hierarchy s.path.hierarchy)
    _ _ (.refl _) fun s hs cls _ => hs.trans ?_
  rw [hierarchy_unify]
  exact unifyInterface (hk.of_alike (hs.sameBut.alike_of fun _ => rfl)) _ _ cls

end Beside

/-! ## A whole archive -/

/-- The method at `r` has the parent `p`. -/
def IsParent (h : Hierarchy) (p r : MemberRef) : Prop :=
  ∃ m, h.method? r = some m ∧ m.parent = some p

theorem upward_resolveAll (names : Names) {path : ClassPath} (hp : path.hierarchy.AsRead)
    (hacyclic : Acyclic path.hierarchy) (classes : List String) :
    Upward path.hierarchy classes
      (classes.foldl (resolve names) ((start path).link classes)).path.hierarchy := by
  have hlink := alike_link (start path) classes
  have hnone : ∀ {q m x}, ((start path).link classes).path.hierarchy.method? q = some m →
      x ∉ m.overrides := by
    intro q m x hm
    rw [(unrooted_link (r := start path) hp hm).1]
    exact ExtTreeSet.not_mem_empty
  have hstart : Upward path.hierarchy classes ((start path).link classes).path.hierarchy :=
    { forwarded := forwarded_link (r := start path) hp classes
      resolved := fun ⟨_, _, hm, hx⟩ => absurd hx (hnone hm)
      apart := fun hm _ => hnone hm
      parent := by
        intro q m p hm hpar
        rw [(unrooted_link (r := start path) hp hm).2] at hpar
        cases hpar }
  have hrest : AtRest (start path).path := .of_asRead hp
  exact (hrest.link classes).resolveAll_induction
    (P := fun h => Upward path.hierarchy classes h) (hacyclic.of_alike hlink) hstart
    classes fun h a ha hu hready _ => hu.settle hp.keyed (hlink.trans ha) names hready

/-- Unifying interfaces leaves parents, and roots of a method's own class. -/
theorem Upward.leads_up {h₀ h h' : Hierarchy} {classes : List String} (hu : Upward h₀ classes h)
    (hk : Keyed h') (hunified : Beside h h') {r : MemberRef} {m : MethodNode}
    (hm : h'.method? r = some m) :
    (∀ p, m.parent = some p → ReflTransGen h₀.supertypeGraph.Edge m.owner p.owner) ∧
      (Straight h₀ classes m.ref → m.ref ∉ m.overrides ∧
        ∀ p, m.parent = some p → TransGen h₀.supertypeGraph.Edge m.owner p.owner) := by
  obtain ⟨n, hn, hview⟩ := hunified.sameBut.symm.exists_method hm
  have href : n.sansUnity.ref = m.sansUnity.ref := congrArg MethodNode.ref hview
  have hparent : n.sansUnity.parent = m.sansUnity.parent := congrArg MethodNode.parent hview
  have howner : n.sansUnity.owner = m.sansUnity.owner := congrArg MethodNode.owner hview
  change n.ref = m.ref at href
  change n.parent = m.parent at hparent
  change n.owner = m.owner at howner
  rw [← href, ← hparent, ← howner]
  refine ⟨fun p hp => (hu.parent hn hp).1, fun hs => ⟨fun hx => ?_, fun p hp => ?_⟩⟩
  · rcases hunified.root hn hm hx with hx | hne
    · exact hu.apart hn hs hx
    · exact hne ((congrArg MemberRef.owner href).trans (hk.slot_eq hm).1)
  · obtain ⟨hreach, hne⟩ := hu.parent hn hp
    rcases Relation.reflTransGen_iff_eq_or_transGen.mp hreach with heq | hreach
    · exact absurd heq (hne hs)
    · exact hreach

/-- After resolving an archive a method's parent is declared in its class or
above.  Where bouncers allow it the parent lies above and the method is no root
of its own, and following parents ends. -/
theorem parents_lead_up (names : Names) (sources : List ClassTable)
    (requests : List ClassPath.Request) (classes : List String)
    (hacyclic : Acyclic (ClassPath.afterRequests sources requests).hierarchy) :
    let read := (ClassPath.afterRequests sources requests).hierarchy
    let h := ((start (.afterRequests sources requests)).resolveArchive names classes).path.hierarchy
    (∀ r m, h.method? r = some m →
      (∀ p, m.parent = some p → ReflTransGen read.supertypeGraph.Edge m.owner p.owner) ∧
        (Straight read classes m.ref → m.ref ∉ m.overrides ∧
          ∀ p, m.parent = some p → TransGen read.supertypeGraph.Edge m.owner p.owner)) ∧
      ((∀ r m, read.method? r = some m → Straight read classes m.ref) →
        ∀ r, Acc (IsParent h) r) := by
  intro read h
  have hp := ClassPath.asRead_afterRequests sources requests
  have hu := upward_resolveAll names hp hacyclic classes
  have halike := (alike_link (start (.afterRequests sources requests)) classes).trans
    (alike_resolveAll names _ classes)
  have hunified := Beside.unifyAll (hp.keyed.of_alike halike) classes
  have halike : Alike read h := halike.trans (hunified.sameBut.alike_of fun _ => rfl)
  have hkeyed := hp.keyed.of_alike halike
  have hmethods := fun r m (hm : h.method? r = some m) => hu.leads_up hkeyed hunified hm
  refine ⟨hmethods, fun hs r => ?_⟩
  refine Subrelation.accessible
    (r := InvImage (fun b c => TransGen read.supertypeGraph.Edge c b) MemberRef.owner) ?_
    (InvImage.accessible MemberRef.owner (Graph.acc_of_acyclic hacyclic r.owner))
  rintro p q ⟨m, hm, hpar⟩
  have howner : m.owner = q.owner := (hkeyed.slot_eq hm).1
  obtain ⟨n, hn, hbare⟩ := halike.symm.exists_method hm
  have hstraight : Straight read classes m.ref := by
    rw [MethodNode.ref_eq hbare]
    exact hs q n hn
  show TransGen read.supertypeGraph.Edge q.owner p.owner
  rw [← howner]
  exact ((hmethods q m hm).2 hstraight).2 p hpar

namespace Sample

/-- What is true of all methods that are declared. -/
theorem forall_method {P : MethodNode → Prop} {h : Hierarchy}
    (hall : ∀ c ∈ h.classes.toList, ∀ m ∈ c.2.methods.values, P m) {r : MemberRef}
    {m : MethodNode} (hm : h.method? r = some m) : P m := by
  obtain ⟨c, hc, hcm⟩ := Hierarchy.method?_eq_some.mp hm
  exact hall (r.owner, c) (ExtTreeMap.mem_toList_iff_getElem?_eq_some.mpr hc) m
    (mem_values_iff.mpr ⟨r.key, hcm⟩)

/-- A class with a method that returns a text where the one above it returns
anything, and the bridge for that. -/
def narrowed : List (String × Bytes) :=
  archive
    [plain "Base" none [returning [.pub] "get" "()Ljava/lang/Object;"],
      plain "Child" (some "Base")
        [returning [.pub] "get" "()Ljava/lang/String;",
          .method
            { access := .ofModifiers [.pub, .bridge, .synthetic]
              name := "get"
              descriptor := "()Ljava/lang/Object;"
              signature := none
              body := some [.load .reference 0,
                .invoke 0xB6 ⟨"Child", "get", "()Ljava/lang/String;"⟩, .op 0xB0] }]]

def covariant : ClassPath := .afterRequests [] [.register narrowed true]

/-- The method above, the one that returns a text, and the bridge to it. -/
def wide : MemberRef := ⟨"Base", "get", "()Ljava/lang/Object;"⟩

def narrow : MemberRef := ⟨"Child", "get", "()Ljava/lang/String;"⟩

def bridging : MemberRef := ⟨"Child", "get", "()Ljava/lang/Object;"⟩

def resolved : Resolution := (start covariant).resolveArchive .asWritten ["Base", "Child"]

theorem acyclic_covariant : Acyclic covariant.hierarchy :=
  Hierarchy.acyclic_of_rank (fun name => if name = "Base" then 0 else 1) (by decide +kernel)

theorem owner_eq_of_forwards {f r : MemberRef}
    (h : Forwards covariant.hierarchy ["Base", "Child"] f r) : f.owner = r.owner := by
  obtain ⟨_, m, b, hm, href, hb, howner, _⟩ := h
  have hall : ∀ c ∈ covariant.hierarchy.classes.toList, ∀ m ∈ c.2.methods.values,
      ∀ b ∈ m.bounce, m.owner = b.target.owner := by decide +kernel
  rw [← href, ← howner]
  exact forall_method hall hm b hb

/-- The bridge is of the class of its target. -/
theorem straight_covariant (r : MemberRef) : Straight covariant.hierarchy ["Base", "Child"] r := by
  intro f hf hne
  have howner : f.owner = r.owner := by
    clear hne
    induction hf with
    | single hf => exact owner_eq_of_forwards hf
    | tail _ hlast ih => exact ih.trans (owner_eq_of_forwards hlast)
  exact absurd howner hne

set_option maxRecDepth 10000 in
theorem parent_covariant :
    (resolved.path.hierarchy.method? narrow).map (fun m => (m.ref, m.parent)) =
      some (narrow, some wide) := by
  simp only [resolved, resolveArchive, link, List.foldl_cons, List.foldl_nil,
    resolve_eq_resolving, unify_eq_unifying]
  decide +kernel

/-- The bridge leads the child's method to a parent, which lies above the child.  The
method is no root of its own, and parents come to an end. -/
theorem parents_lead_up_covariant :
    Forwards covariant.hierarchy ["Base", "Child"] bridging narrow ∧
      (∃ m, resolved.path.hierarchy.method? narrow = some m ∧
        m.parent = some wide ∧ m.ref ∉ m.overrides ∧
        TransGen covariant.hierarchy.supertypeGraph.Edge "Child" "Base") ∧
      ∀ r, Acc (IsParent resolved.path.hierarchy) r := by
  obtain ⟨hmethods, hends⟩ := parents_lead_up .asWritten [] _ ["Base", "Child"] acyclic_covariant
  have hbouncer : (covariant.hierarchy.method? bridging).any (fun m =>
      m.ref = bridging ∧ m.bounce.map Bounce.target = some narrow) := by decide +kernel
  obtain ⟨m₀, hm₀, hbounce⟩ := (Option.any_eq_true _ _).mp hbouncer
  obtain ⟨href₀, htarget⟩ := of_decide_eq_true hbounce
  obtain ⟨b, hb, ht⟩ := Option.map_eq_some_iff.mp htarget
  obtain ⟨m, hm, hnode⟩ := Option.map_eq_some_iff.mp parent_covariant
  obtain ⟨href, hparent⟩ := Prod.mk.inj hnode
  obtain ⟨hroot, hup⟩ := (hmethods _ m hm).2 (straight_covariant _)
  have hup := hup _ hparent
  rw [show m.owner = "Child" from congrArg MemberRef.owner href] at hup
  exact ⟨⟨by decide, m₀, b, hm₀, href₀, hb, by rw [ht], by rw [ht]⟩,
    ⟨m, hm, hparent, hroot, hup⟩, hends fun _ _ _ => straight_covariant _⟩

end Sample

end Resolution
end Lineage
