import Lineage.Proofs.Graph.Seeking
import Lineage.Proofs.Resolution.Nearest

/-!
How the parent of a method is looked for.

Every viewpoint that is come to is asked for a primary declaration, and the first
answer ends the search.  Bouncers that forward to each other, and classes that
inherit from each other, lead back to viewpoints that have been asked; these are
passed over, and no answer is lost by that.

A viewpoint offers a declaration of the method's own name and descriptor.  The
tables of classes know methods by keys, so a method of another name that has the
same key is taken for such a declaration.
-/

namespace Lineage

open Std (ExtTreeSet)
open Relation (ReflTransGen)

namespace Viewpoint

open Hierarchy (Alike Keyed PrimaryDeclaration)

/-- The declaration that ends a search at the viewpoint, if there is one. -/
def answer? (h : Hierarchy) (v : Viewpoint) : Option MemberRef :=
  ((v.met? h).filter fun d => (h.class? d.owner).any ClassNode.isLocal).map MethodNode.ref

/-- The method can be overridden, and the class, a primary one other than the
method's own, declares `p` under the name and the descriptor of the method,
neither final nor private. -/
def Offers (h : Hierarchy) (v : Viewpoint) (p : MemberRef) : Prop :=
  ∃ m, h.method? v.method = some m ∧ m.isOverridable ∧ PrimaryDeclaration h m v.cls p ∧
    p.name = m.name ∧ p.descriptor = m.descriptor

variable {h h' : Hierarchy} {v : Viewpoint} {p : MemberRef}

/-- Only the slot that the reference leads to counts. -/
theorem met?_congr {r : MemberRef} (ho : r.owner = v.method.owner) (hkey : r.key = v.method.key) :
    met? h ⟨r, v.cls⟩ = met? h v := by
  simp only [met?, h.method?_congr ho hkey, ho, hkey]

theorem answer?_eq_some_iff (hk : Keyed h) : v.answer? h = some p ↔
    ∃ m, h.method? v.method = some m ∧ m.isOverridable ∧ PrimaryDeclaration h m v.cls p := by
  have hslot : ∀ {m}, h.method? v.method = some m → m.isOverridable →
      (v.answer? h = some p ↔ PrimaryDeclaration h m v.cls p) := by
    intro m hm ho
    obtain ⟨howner, hkey⟩ := hk.slot_eq hm
    rw [Hierarchy.primaryDeclaration_iff hk (hk.method?_ref hm) ho, met?_congr howner hkey]
    rfl
  constructor
  · intro hp
    obtain ⟨d, hd, _⟩ := Option.map_eq_some_iff.mp hp
    obtain ⟨_, _, _, _, _, m, hm, ho⟩ := hk.of_met (Option.filter_eq_some_iff.mp hd).1
    exact ⟨m, hm, ho, (hslot hm ho).mp hp⟩
  · intro hp
    obtain ⟨m, hm, ho, hp⟩ := hp
    exact (hslot hm ho).mpr hp

/-- What has the key of a method and its name has its descriptor as well. -/
theorem descriptor_eq_of_name {m : MethodNode} {cls : String} (hk : Keyed h)
    (hp : PrimaryDeclaration h m cls p) (hname : p.name = m.name) :
    p.descriptor = m.descriptor := by
  obtain ⟨c, d, hc, _, _, hd, _, rfl⟩ := hp
  have hsame : d.ref.withOwner m.owner = m.ref :=
    Hierarchy.eq_of_key rfl hname (hk.of_mem_class hc hd).2.1
  exact congrArg MemberRef.descriptor hsame

/-! ## What the answers depend on -/

theorem answer?_of_alike (hk : Keyed h) (hh : Alike h h') : v.answer? h = v.answer? h' := by
  have hle : ∀ {g g'}, Keyed g → Alike g g' → ∀ p, v.answer? g = some p →
      v.answer? g' = some p := by
    intro g g' hk hh p hp
    obtain ⟨m, hm, ho, hp⟩ := (answer?_eq_some_iff hk).mp hp
    obtain ⟨m', hm', hbare⟩ := hh.exists_method hm
    refine (answer?_eq_some_iff (hk.of_alike hh)).mpr ⟨m', hm', ?_, ?_⟩
    · rw [← MethodNode.isOverridable_eq hbare]
      exact ho
    · exact hp.of_alike hh (MethodNode.ref_eq hbare)
  exact Option.ext fun p => ⟨hle hk hh p, hle (hk.of_alike hh) hh.symm p⟩

end Viewpoint

namespace Hierarchy

variable {h h' : Hierarchy} {r p : MemberRef} {cls : String}

theorem nearestParent?_eq_findSome? (h : Hierarchy) (r : MemberRef) (cls : String) :
    h.nearestParent? r cls =
      ((Viewpoint.graph h).depthFirst ⟨r, cls⟩).findSome? (Viewpoint.answer? h) := by
  rw [nearestParent?, declarationsAbove, map_find?_filterMap]
  rfl

/-- Roots and forced names have no say in where the parent is found. -/
theorem nearestParent?_of_alike (hk : Keyed h) (hh : Alike h h')
    (hf : ∀ r, (h.method? r).map MethodNode.forwarders = (h'.method? r).map MethodNode.forwarders)
    (r : MemberRef) (cls : String) : h.nearestParent? r cls = h'.nearestParent? r cls := by
  have hgraph := viewpointGraph_of_alike hh hf
  have hanswer : Viewpoint.answer? h = Viewpoint.answer? h' :=
    funext fun v => Viewpoint.answer?_of_alike hk hh
  rw [nearestParent?_eq_findSome?, nearestParent?_eq_findSome?, hgraph, hanswer]

/-- Where no method of another name is met under the key of one that is looked
for, viewpoints answer with what they offer. -/
theorem answer?_eq_some_iff_offers (hk : Keyed h) {v : Viewpoint}
    (hnames : ∀ m p, h.method? v.method = some m → m.isOverridable →
      PrimaryDeclaration h m v.cls p → p.name = m.name) :
    v.answer? h = some p ↔ v.Offers h p := by
  rw [Viewpoint.answer?_eq_some_iff hk]
  constructor
  · intro hp
    obtain ⟨m, hm, ho, hp⟩ := hp
    have hname := hnames m p hm ho hp
    exact ⟨m, hm, ho, hp, hname, Viewpoint.descriptor_eq_of_name hk hp hname⟩
  · intro hp
    obtain ⟨m, hm, ho, hp, _⟩ := hp
    exact ⟨m, hm, ho, hp⟩

/-- The search for a parent ends, having gone through the viewpoints that can be
reached, each at most once, up to the first that answers.  If no method of
another name has the key of one that is looked for, it finds nothing just when
no viewpoint offers anything, and otherwise the first offer on the way.  What
has been found out about roots and forced names makes no difference. -/
theorem nearestParent?_first (hk : Keyed h) (r : MemberRef) (cls : String)
    (hnames : ∀ v, ReflTransGen (Viewpoint.Step h) ⟨r, cls⟩ v → ∀ m p,
      h.method? v.method = some m → m.isOverridable → PrimaryDeclaration h m v.cls p →
        p.name = m.name) :
    (∃ walked asked, Graph.Walks (Viewpoint.graph h) [] [⟨r, cls⟩] walked ∧ walked.Nodup ∧
      (∀ v, v ∈ walked ↔ ReflTransGen (Viewpoint.Step h) ⟨r, cls⟩ v) ∧ asked <+: walked ∧
      Graph.Seeks (Viewpoint.graph h) (Viewpoint.answer? h) [] [⟨r, cls⟩] asked
        (h.nearestParent? r cls) ∧
      ∀ p, h.nearestParent? r cls = some p ↔ ∃ before v after, walked = before ++ v :: after ∧
        v.Offers h p ∧ ∀ u ∈ before, ∀ q, ¬ u.Offers h q) ∧
    (h.nearestParent? r cls = none ↔
      ∀ v, ReflTransGen (Viewpoint.Step h) ⟨r, cls⟩ v → ∀ p, ¬ v.Offers h p) ∧
    ∀ h', Alike h h' →
      (∀ q, (h.method? q).map MethodNode.forwarders = (h'.method? q).map MethodNode.forwarders) →
        h'.nearestParent? r cls = h.nearestParent? r cls := by
  have hreach : ∀ v, v ∈ (Viewpoint.graph h).depthFirst ⟨r, cls⟩ ↔
      ReflTransGen (Viewpoint.Step h) ⟨r, cls⟩ v := by
    intro v
    rw [Graph.mem_depthFirst_iff, Viewpoint.reaches_iff_steps]
  have hoffer : ∀ v ∈ (Viewpoint.graph h).depthFirst ⟨r, cls⟩, ∀ p,
      v.answer? h = some p ↔ v.Offers h p :=
    fun v hv p => answer?_eq_some_iff_offers hk (hnames v ((hreach v).mp hv))
  have hwalks := Graph.walks_visit (Viewpoint.graph h) [⟨r, cls⟩] []
  obtain ⟨asked, hseeks, hinitial, _⟩ := hwalks.exists_seeks (Viewpoint.answer? h)
  refine ⟨⟨_, asked, hwalks, Graph.nodup_visit _ _ _ _, hreach, hinitial, ?_, fun p => ?_⟩, ?_,
    fun h' hh hf => (nearestParent?_of_alike hk hh hf r cls).symm⟩
  · rw [nearestParent?_eq_findSome?]
    exact hseeks
  · rw [nearestParent?_eq_findSome?]
    exact Graph.findSome?_eq_some_iff_of_forall hoffer
  · rw [nearestParent?_eq_findSome?, Graph.findSome?_eq_none_iff_of_forall hoffer]
    exact forall_congr' fun v => imp_congr_left (hreach v)

end Hierarchy

namespace Resolution.Sample

open Hierarchy (Keyed PrimaryDeclaration)

theorem name_of_ring {r : MemberRef} {m : MethodNode} (hm : ring.method? r = some m) :
    m.name = "run" := by
  have hall : ∀ c ∈ ring.classes.values, ∀ m ∈ c.methods.values, m.name = "run" := by
    decide +kernel
  obtain ⟨c, hc, hcm⟩ := Hierarchy.method?_eq_some.mp hm
  exact hall c (mem_values_iff.mpr ⟨r.owner, hc⟩) m (mem_values_iff.mpr ⟨r.key, hcm⟩)

/-- Where two classes inherit from each other, the search comes back to the class
of the method, seen from the bridge, and ends there. -/
theorem nearestParent?_ring : Keyed ring ∧
    (∀ v, ReflTransGen (Viewpoint.Step ring) ⟨⟨"Left", "run", "()V"⟩, "Left"⟩ v → ∀ m p,
      ring.method? v.method = some m → m.isOverridable → PrimaryDeclaration ring m v.cls p →
        p.name = m.name) ∧
    ring.nearestParent? ⟨"Left", "run", "()V"⟩ "Left" ≠ none := by
  have hnames : ∀ v, ReflTransGen (Viewpoint.Step ring) ⟨⟨"Left", "run", "()V"⟩, "Left"⟩ v →
      ∀ m p, ring.method? v.method = some m → m.isOverridable →
        PrimaryDeclaration ring m v.cls p → p.name = m.name := by
    intro v _ m p hm _ hp
    obtain ⟨c, d, hc, _, _, hd, _, rfl⟩ := hp
    rw [name_of_ring hm]
    exact name_of_ring (keyed_ring.of_mem_class hc hd).2.2
  obtain ⟨_, hnone, _⟩ := Hierarchy.nearestParent?_first keyed_ring _ "Left" hnames
  have hleft : (ring.class? "Left").any (fun c => c.isLocal && (c.method? "run()V").any fun m =>
      m.ref = ⟨"Left", "run", "()V"⟩ ∧ m.isOverridable ∧ m.isInheritable ∧
        m.forwarders.contains ⟨"Right", "run", "()V"⟩) := by
    decide +kernel
  have hright : (ring.method? ⟨"Right", "run", "()V"⟩).any (fun m =>
      m.ref = ⟨"Right", "run", "()V"⟩ ∧ m.isOverridable) := by
    decide +kernel
  obtain ⟨c, hc, hflags⟩ := (Option.any_eq_true _ _).mp hleft
  obtain ⟨hlocal, hd⟩ := Bool.and_eq_true_iff.mp hflags
  obtain ⟨d, hd, hflags⟩ := (Option.any_eq_true _ _).mp hd
  obtain ⟨href, ho, hdi, hf⟩ := of_decide_eq_true hflags
  obtain ⟨n, hn, hflags⟩ := (Option.any_eq_true _ _).mp hright
  obtain ⟨hnref, hno⟩ := of_decide_eq_true hflags
  have hstep : Viewpoint.Step ring ⟨⟨"Left", "run", "()V"⟩, "Left"⟩ ⟨n.ref, "Left"⟩ :=
    .forwarder (Hierarchy.method?_eq_some.mpr ⟨c, hc, hd⟩) ho hc hf hn
  have hkey : n.key = "run()V" := congrArg MemberRef.key hnref
  have hne : "Left" ≠ n.owner := by
    rw [show n.owner = "Right" from congrArg MemberRef.owner hnref]
    decide
  refine ⟨keyed_ring, hnames, fun heq => hnone.mp heq ⟨n.ref, "Left"⟩ (.single hstep) d.ref ?_⟩
  refine ⟨n, keyed_ring.method?_ref hn, hno, ⟨c, d, hc, hlocal, hne, hkey ▸ hd, hdi, rfl⟩, ?_, ?_⟩
  · exact (congrArg MemberRef.name href).trans (congrArg MemberRef.name hnref).symm
  · exact (congrArg MemberRef.descriptor href).trans (congrArg MemberRef.descriptor hnref).symm

/-- Between an interface of another archive and a class that implements its
method, a class with a method of another name that has the same key. -/
def mistaking : ClassPath :=
  .afterRequests []
    [.register (archive
      [{ name := "Face"
         superName := none
         access := .ofModifiers [.pub, .interface, .abstract]
         declarations := [.abstractMethod (.ofModifiers [.pub]) "m" "()La(I)Lb;"] }]) false,
     .register (archive
      [plain "Base" none [.interface "Face", returning [.pub] "m()La" "(I)Lb;"],
        plain "Child" (some "Base") [.interface "Face", returning [.pub] "m" "()La(I)Lb;"]]) true]

def mistaken : Resolution := (start mistaking).resolve .asWritten "Child"

set_option maxRecDepth 10000 in
theorem parent_mistaken :
    (mistaken.path.hierarchy.method? ⟨"Child", "m", "()La(I)Lb;"⟩).map
      (fun m => (m.ref, m.parent, m.overrides.toList)) =
        some (⟨"Child", "m", "()La(I)Lb;"⟩, some ⟨"Base", "m()La", "(I)Lb;"⟩,
          [⟨"Face", "m", "()La(I)Lb;"⟩]) := by
  rw [mistaken, resolve_eq_resolving]
  decide +kernel

/-- The search finds a parent, though nothing that it comes to is a declaration
of the method's name in a primary class, and the method gets this parent when its
class is resolved. -/
theorem nearestParent?_mistaking :
    mistaking.hierarchy.nearestParent? ⟨"Child", "m", "()La(I)Lb;"⟩ "Child" =
      some ⟨"Base", "m()La", "(I)Lb;"⟩ ∧
    (∀ v, ReflTransGen (Viewpoint.Step mistaking.hierarchy)
        ⟨⟨"Child", "m", "()La(I)Lb;"⟩, "Child"⟩ v →
      ∀ p, ¬ v.Offers mistaking.hierarchy p) ∧
    (mistaken.path.hierarchy.method? ⟨"Child", "m", "()La(I)Lb;"⟩).map
      (fun m => (m.ref, m.parent, m.overrides.toList)) =
        some (⟨"Child", "m", "()La(I)Lb;"⟩, some ⟨"Base", "m()La", "(I)Lb;"⟩,
          [⟨"Face", "m", "()La(I)Lb;"⟩]) := by
  refine ⟨?_, ?_, parent_mistaken⟩
  · rw [Hierarchy.nearestParent?_eq_findSome?, Graph.depthFirst, Graph.visit_eq]
    decide +kernel
  · intro v hv p hp
    obtain ⟨m, hm, _, ⟨c, d, hc, hlocal, hne, hd, _, rfl⟩, hname, _⟩ := hp
    have hmethod : (mistaking.hierarchy.method? ⟨"Child", "m", "()La(I)Lb;"⟩).map
        (fun m => (m.owner, m.name)) = some ("Child", "m") := by decide +kernel
    have hothers : ∀ c ∈ mistaking.hierarchy.classes.values, c.isLocal → c.name ≠ "Child" →
        ∀ d ∈ c.methods.values, d.name ≠ "m" := by decide +kernel
    rw [Hierarchy.AsRead.method_of_steps (ClassPath.asRead_afterRequests _ _) hv] at hm
    rw [hm, Option.map_some, Option.some.injEq, Prod.mk.injEq] at hmethod
    have hkeyed := (ClassPath.asRead_afterRequests _ _ : mistaking.hierarchy.AsRead).keyed
    refine hothers c (mem_values_iff.mpr ⟨_, hc⟩) hlocal ?_ d (mem_values_iff.mpr ⟨_, hd⟩)
      (hname.trans hmethod.2)
    rw [hkeyed.name_eq hc, ← hmethod.1]
    exact hne

end Resolution.Sample
end Lineage
