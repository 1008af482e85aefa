import Lineage.Proofs.Graph.Recursion
import Lineage.Proofs.Resolution.Evaluation
import Lineage.Proofs.Resolution.Settling

/-!
What the override roots of a method are made of.

Looking up from a class goes from viewpoint to viewpoint, and no viewpoint is
looked at twice, whatever cycles there are.  Passing over one that has been seen
loses nothing: the roots are all that is given by what the method meets in the
viewpoints that can be reached.

A viewpoint contributes what the class declares under the name and the descriptor
of the method.  The tables of classes know methods by keys, so a method of another
name that has the same key is met in its place.
-/

namespace Lineage

open Std (ExtTreeSet)
open Relation (ReflTransGen)

/-- What a declaration gives to the roots of the methods that meet it: its own
roots, or itself if it has none. -/
def MethodNode.Gives (d : MethodNode) (x : MemberRef) : Prop :=
  d.overrides = ∅ ∧ x = d.ref ∨ d.overrides ≠ ∅ ∧ x ∈ d.overrides

theorem MethodNode.mem_roots_iff {d : MethodNode} {x : MemberRef} : x ∈ d.roots ↔ d.Gives x := by
  unfold MethodNode.roots MethodNode.Gives
  by_cases he : d.overrides = ∅
  · simp [he]
    exact eq_comm
  · have hn : ¬ d.overrides.isEmpty := fun h => he (ExtTreeSet.isEmpty_iff.mp h)
    simp [he, hn]

namespace Viewpoint

open Hierarchy (Keyed)

/-- One step of looking up.  Where the method can be overridden and the class is
there, it goes to a bouncer that forwards to the method, seen from the same
class, or to the same method seen from a supertype. -/
inductive Step (h : Hierarchy) (v : Viewpoint) : Viewpoint → Prop
  | forwarder {m n : MethodNode} {c : ClassNode} {f : MemberRef}
    (hm : h.method? v.method = some m) (ho : m.isOverridable) (hc : h.class? v.cls = some c)
    (hf : f ∈ m.forwarders) (hn : h.method? f = some n) : Step h v ⟨n.ref, v.cls⟩
  | supertype {m : MethodNode} {c : ClassNode} {s : String}
    (hm : h.method? v.method = some m) (ho : m.isOverridable) (hc : h.class? v.cls = some c)
    (hs : s ∈ c.supertypes) : Step h v ⟨v.method, s⟩

/-- The method can be overridden, and the class, which is not its own, has `d` under
the key of the method, neither final nor private. -/
def Meets (h : Hierarchy) (v : Viewpoint) (m d : MethodNode) : Prop :=
  h.method? v.method = some m ∧ m.isOverridable ∧ v.cls ≠ m.owner ∧
    (∃ c, h.class? v.cls = some c ∧ c.method? m.key = some d) ∧ d.isInheritable

/-- What a viewpoint contributes to the roots: what the class gives that it declares
under the name and the descriptor of the method. -/
def Contributes (h : Hierarchy) (v : Viewpoint) (x : MemberRef) : Prop :=
  ∃ m d, v.Meets h m d ∧ d.name = m.name ∧ d.descriptor = m.descriptor ∧ d.Gives x

/-- What a method gives that has another name, but the same key. -/
def Mistakes (h : Hierarchy) (v : Viewpoint) (x : MemberRef) : Prop :=
  ∃ m d, v.Meets h m d ∧ d.name ≠ m.name ∧ d.Gives x

variable {h : Hierarchy} {v w : Viewpoint}

theorem next?_eq_some {m : MethodNode} {c : ClassNode} (hm : h.method? v.method = some m)
    (ho : m.isOverridable) (hc : h.class? v.cls = some c) :
    v.next? h = some ((m.forwarders.toList.filterMap h.method?).map
      (fun f => ⟨f.ref, v.cls⟩) ++ c.supertypes.map fun s => ⟨v.method, s⟩) := by
  simp only [next?, hm, hc, Option.bind_eq_bind, Option.bind_some, ho, if_true]

theorem exists_of_next?_eq_some {l : List Viewpoint} (hl : v.next? h = some l) :
    ∃ m c, h.method? v.method = some m ∧ m.isOverridable ∧ h.class? v.cls = some c := by
  simp only [next?, Option.bind_eq_bind, Option.bind_eq_some_iff] at hl
  obtain ⟨m, hm, c, hc, hl⟩ := hl
  split at hl
  · next ho => exact ⟨m, c, hm, ho, hc⟩
  · cases hl

theorem edge_iff_step : (graph h).Edge v w ↔ Step h v w := by
  constructor
  · intro hedge
    obtain ⟨l, hl, hw⟩ := hedge
    obtain ⟨m, c, hm, ho, hc⟩ := exists_of_next?_eq_some hl
    cases (next?_eq_some hm ho hc).symm.trans hl
    rcases List.mem_append.mp hw with hw | hw
    · obtain ⟨n, hn, rfl⟩ := List.mem_map.mp hw
      obtain ⟨f, hf, hfn⟩ := List.mem_filterMap.mp hn
      exact .forwarder hm ho hc (ExtTreeSet.mem_toList.mp hf) hfn
    · obtain ⟨s, hs, rfl⟩ := List.mem_map.mp hw
      exact .supertype hm ho hc hs
  · intro hstep
    cases hstep with
    | @forwarder m n c f hm ho hc hf hn =>
      refine ⟨_, next?_eq_some hm ho hc, List.mem_append_left _ (List.mem_map.mpr ⟨n, ?_, rfl⟩)⟩
      exact List.mem_filterMap.mpr ⟨f, ExtTreeSet.mem_toList.mpr hf, hn⟩
    | @supertype m c s hm ho hc hs =>
      exact ⟨_, next?_eq_some hm ho hc, List.mem_append_right _ (List.mem_map.mpr ⟨s, hs, rfl⟩)⟩

theorem reaches_iff_steps :
    ReflTransGen (graph h).Edge v w ↔ ReflTransGen (Step h) v w := by
  have hedge : (graph h).Edge = Step h := by
    funext v w
    exact propext edge_iff_step
  rw [hedge]

theorem exists_met_iff_meets (hk : Keyed h) {x : MemberRef} :
    (∃ d, v.met? h = some d ∧ x ∈ d.roots) ↔ ∃ m d, v.Meets h m d ∧ d.Gives x := by
  constructor
  · intro hx
    obtain ⟨d, hd, hx⟩ := hx
    obtain ⟨href, hcls, hdkey, hne, hdi, m, hm, ho⟩ := hk.of_met hd
    obtain ⟨howner, hkey⟩ := hk.slot_eq hm
    obtain ⟨c, hc, hslot⟩ := Hierarchy.method?_eq_some.mp href
    refine ⟨m, d, ⟨hm, ho, ?_, ⟨c, hcls ▸ hc, ?_⟩, hdi⟩, MethodNode.mem_roots_iff.mp hx⟩
    · rw [howner, ← hcls]
      exact hne
    · rw [hkey, ← hdkey]
      exact hslot
  · intro hx
    obtain ⟨m, d, ⟨hm, ho, hne, ⟨c, hc, hd⟩, hdi⟩, hx⟩ := hx
    obtain ⟨howner, hkey⟩ := hk.slot_eq hm
    rw [hkey] at hd
    refine ⟨d, ?_, MethodNode.mem_roots_iff.mpr hx⟩
    have hother : d.owner ≠ v.method.owner := by
      rw [(hk.of_mem_class hc hd).1, ← howner]
      exact hne
    simp only [met?, hm, hc, hd, Option.bind_eq_bind, Option.bind_some]
    rw [if_pos]
    simp [ho, hdi, hother]

/-- What is met under the name of the method has its descriptor as well. -/
theorem Meets.descriptor_eq {m d : MethodNode} (hk : Keyed h) (hd : v.Meets h m d)
    (hname : d.name = m.name) : d.descriptor = m.descriptor := by
  obtain ⟨_, _, _, ⟨c, hc, hslot⟩, _⟩ := hd
  have hsame : d.ref.withOwner m.owner = m.ref :=
    Hierarchy.eq_of_key rfl hname (hk.of_mem_class hc hslot).2.1
  exact congrArg MemberRef.descriptor hsame

/-- What is met is the declaration that is looked for, or one of another name. -/
theorem exists_meets_iff (hk : Keyed h) {x : MemberRef} :
    (∃ m d, v.Meets h m d ∧ d.Gives x) ↔ v.Contributes h x ∨ v.Mistakes h x := by
  constructor
  · intro hx
    obtain ⟨m, d, hd, hx⟩ := hx
    by_cases hname : d.name = m.name
    · exact Or.inl ⟨m, d, hd, hname, hd.descriptor_eq hk hname, hx⟩
    · exact Or.inr ⟨m, d, hd, hname, hx⟩
  · intro hx
    rcases hx with ⟨m, d, hd, _, _, hx⟩ | ⟨m, d, hd, _, hx⟩
    · exact ⟨m, d, hd, hx⟩
    · exact ⟨m, d, hd, hx⟩

end Viewpoint

namespace Hierarchy

variable {h : Hierarchy}

theorem mem_overrideRoots_iff_meets (hk : Keyed h) {r x : MemberRef} {cls : String} :
    x ∈ h.overrideRoots r cls ↔ ∃ v, ReflTransGen (Viewpoint.graph h).Edge ⟨r, cls⟩ v ∧
      ∃ m d, v.Meets h m d ∧ d.Gives x := by
  simp only [mem_overrideRoots_iff, mem_declarationsAbove, ← Viewpoint.exists_met_iff_meets hk]
  constructor
  · rintro ⟨d, ⟨v, hv, hmet⟩, hx⟩
    exact ⟨v, hv, d, hmet, hx⟩
  · rintro ⟨v, hv, d, hmet, hx⟩
    exact ⟨d, ⟨v, hv, hmet⟩, hx⟩

/-- Looking up ends, looks at the viewpoints that can be reached, each once, and
finds as roots all that these contribute, and what methods of another name give
that are met under the same key.  So the roots are what is contributed exactly if
nothing is given by mistake that is not contributed somewhere. -/
theorem overrideRoots_eq_contributions_iff (hk : Keyed h) (r : MemberRef) (cls : String) :
    ∃ walked, Graph.Walks (Viewpoint.graph h) [] [⟨r, cls⟩] walked ∧ walked.Nodup ∧
      (∀ v, v ∈ walked ↔ ReflTransGen (Viewpoint.Step h) ⟨r, cls⟩ v) ∧
      (∀ x, x ∈ h.overrideRoots r cls ↔ ∃ v ∈ walked, v.Contributes h x ∨ v.Mistakes h x) ∧
      ((∀ x, x ∈ h.overrideRoots r cls ↔ ∃ v ∈ walked, v.Contributes h x) ↔
        ∀ v ∈ walked, ∀ x, v.Mistakes h x → ∃ w ∈ walked, w.Contributes h x) := by
  have hroots : ∀ x, x ∈ h.overrideRoots r cls ↔
      ∃ v ∈ (Viewpoint.graph h).depthFirst ⟨r, cls⟩, v.Contributes h x ∨ v.Mistakes h x := by
    intro x
    simp only [mem_overrideRoots_iff_meets hk, Viewpoint.exists_meets_iff hk,
      Graph.mem_depthFirst_iff]
  refine ⟨(Viewpoint.graph h).depthFirst ⟨r, cls⟩, Graph.walks_visit _ _ _,
    Graph.nodup_visit _ _ _ _, fun v => ?_, hroots, ⟨fun hall v hv x hx => ?_, fun hall x => ?_⟩⟩
  · rw [Graph.mem_depthFirst_iff, Viewpoint.reaches_iff_steps]
  · exact (hall x).mp ((hroots x).mpr ⟨v, hv, Or.inr hx⟩)
  · rw [hroots x]
    constructor
    · rintro ⟨v, hv, hx | hx⟩
      · exact ⟨v, hv, hx⟩
      · exact hall v hv x hx
    · rintro ⟨v, hv, hx⟩
      exact ⟨v, hv, Or.inl hx⟩

end Hierarchy

/-! ## What the roots depend on -/

namespace Hierarchy

/-- The references of the methods that some references lead to. -/
theorem Alike.filterMap_ref {h h' : Hierarchy} (hh : Alike h h') (rs : List MemberRef) :
    (rs.filterMap h.method?).map MethodNode.ref = (rs.filterMap h'.method?).map MethodNode.ref := by
  have hslot : ∀ r, (h.method? r).map MethodNode.ref = (h'.method? r).map MethodNode.ref := by
    intro r
    have hclass := congrArg (fun o => o.bind fun c => (c.method? r.key).map MethodNode.ref)
      (hh r.owner)
    simp only [Option.bind_map, Function.comp_def, ClassNode.method?_bare, Option.map_map] at hclass
    simp only [method?, Option.bind_eq_bind, Option.map_bind]
    exact hclass
  rw [List.map_filterMap, List.map_filterMap, funext hslot]

end Hierarchy

namespace Viewpoint

open Hierarchy (Alike Keyed)

variable {h h' : Hierarchy} {v : Viewpoint}

/-- Where to go on depends on what class files say and on the bouncers that are
known. -/
theorem next?_of_alike (hh : Alike h h')
    (hf : ∀ r, (h.method? r).map MethodNode.forwarders = (h'.method? r).map MethodNode.forwarders) :
    v.next? h = v.next? h' := by
  have hle : ∀ {g g'}, Alike g g' →
      (∀ r, (g.method? r).map MethodNode.forwarders = (g'.method? r).map MethodNode.forwarders) →
      ∀ l, v.next? g = some l → v.next? g' = some l := by
    intro g g' hh hf l hl
    obtain ⟨m, c, hm, ho, hc⟩ := exists_of_next?_eq_some hl
    obtain ⟨m', hm', hbare⟩ := hh.exists_method hm
    obtain ⟨c', hc', hbarec⟩ := hh.exists_class hc
    have ho' : m'.isOverridable := (MethodNode.isOverridable_eq hbare).symm.trans ho
    have hforwarders : m.forwarders = m'.forwarders := by
      simpa [hm, hm'] using hf v.method
    have hsupertypes : c.supertypes = c'.supertypes := by
      show c.bare.supertypes = c'.bare.supertypes
      rw [hbarec]
    have hreferred : ∀ fs : List MemberRef,
        (fs.filterMap g.method?).map (fun f => (⟨f.ref, v.cls⟩ : Viewpoint)) =
          (fs.filterMap g'.method?).map fun f => ⟨f.ref, v.cls⟩ := by
      intro fs
      have hkept := congrArg (List.map fun r => (⟨r, v.cls⟩ : Viewpoint)) (hh.filterMap_ref fs)
      rwa [List.map_map, List.map_map] at hkept
    rw [next?_eq_some hm ho hc, hforwarders, hsupertypes, hreferred] at hl
    rw [next?_eq_some hm' ho' hc', hl]
  exact Option.ext fun l => ⟨hle hh hf l, hle hh.symm (fun r => (hf r).symm) l⟩

theorem exists_meets_of_alike {x : MemberRef} (hv : ∃ m d, v.Meets h m d ∧ d.Gives x)
    (hh : Alike h h')
    (ho : ∀ r, (h.method? r).map MethodNode.overrides = (h'.method? r).map MethodNode.overrides) :
    ∃ m d, v.Meets h' m d ∧ d.Gives x := by
  obtain ⟨m, d, ⟨hm, hmo, hne, ⟨c, hc, hd⟩, hdi⟩, hx⟩ := hv
  have hslot : h.method? (m.ref.withOwner v.cls) = some d :=
    Hierarchy.method?_eq_some.mpr ⟨c, hc, hd⟩
  obtain ⟨m', hm', hbare⟩ := hh.exists_method hm
  obtain ⟨d', hd', hbared⟩ := hh.exists_method hslot
  obtain ⟨c', hc', hcd'⟩ := Hierarchy.method?_eq_some.mp hd'
  have hoverrides : d.overrides = d'.overrides := by
    simpa [hslot, hd'] using ho (m.ref.withOwner v.cls)
  have href : m.ref = m'.ref := MethodNode.ref_eq hbare
  have howner : m.owner = m'.owner := congrArg MemberRef.owner href
  have hkey : m.key = m'.key := congrArg MemberRef.key href
  refine ⟨m', d', ⟨hm', ?_, howner ▸ hne, ⟨c', hc', hkey ▸ hcd'⟩, ?_⟩, ?_⟩
  · rw [← MethodNode.isOverridable_eq hbare]
    exact hmo
  · rw [← MethodNode.isInheritable_eq hbared]
    exact hdi
  · rw [MethodNode.Gives, ← hoverrides, ← MethodNode.ref_eq hbared]
    exact hx

end Viewpoint

namespace Hierarchy

variable {h h' : Hierarchy}

theorem viewpointGraph_of_alike (hh : Alike h h')
    (hf : ∀ r, (h.method? r).map MethodNode.forwarders = (h'.method? r).map MethodNode.forwarders) :
    Viewpoint.graph h = Viewpoint.graph h' := by
  simp only [Viewpoint.graph, Graph.mk.injEq]
  exact funext fun v => Viewpoint.next?_of_alike hh hf

/-- Beyond what class files say, roots depend on the bouncers that are known and
on the roots of other methods. -/
theorem overrideRoots_of_alike (hk : Keyed h) (hh : Alike h h')
    (hf : ∀ r, (h.method? r).map MethodNode.forwarders = (h'.method? r).map MethodNode.forwarders)
    (ho : ∀ r, (h.method? r).map MethodNode.overrides = (h'.method? r).map MethodNode.overrides)
    (r : MemberRef) (cls : String) : h.overrideRoots r cls = h'.overrideRoots r cls := by
  refine ExtTreeSet.ext_mem fun x => ?_
  rw [mem_overrideRoots_iff_meets hk, mem_overrideRoots_iff_meets (hk.of_alike hh),
    viewpointGraph_of_alike hh hf]
  refine exists_congr fun v => and_congr_right fun _ => ⟨fun hx => ?_, fun hx => ?_⟩
  · exact Viewpoint.exists_meets_of_alike hx hh ho
  · exact Viewpoint.exists_meets_of_alike hx hh.symm fun q => (ho q).symm

/-- Where no bouncers are known, it is always the same method that is looked for. -/
theorem AsRead.method_of_steps (hread : h.AsRead) {v w : Viewpoint}
    (hvw : ReflTransGen (Viewpoint.Step h) v w) : w.method = v.method := by
  induction hvw with
  | refl => rfl
  | tail _ hstep ih =>
    cases hstep with
    | @forwarder m _ _ f hm _ _ hf _ =>
      have hnone : m.forwarders = ∅ := congrArg MethodNode.forwarders (hread.untied hm)
      exact absurd (hnone ▸ hf) ExtTreeSet.not_mem_empty
    | supertype => exact ih

end Hierarchy

namespace Resolution.Sample

/-- Two classes that inherit from each other, of which one has a bridge to the
method of the other. -/
def ring : Hierarchy :=
  let path := ClassPath.afterRequests [] [.register (archive
    [plain "Left" (some "Right") [run [.pub] [.op 0xB1]],
      plain "Right" (some "Left") [run [.pub, .bridge, .synthetic]
        [.load .reference 0, .invoke 0xB7 ⟨"Left", "run", "()V"⟩, .op 0xB1]]]) true]
  ((start path).link ["Left", "Right"]).path.hierarchy

theorem keyed_ring : Hierarchy.Keyed ring := by
  unfold ring
  exact (ClassPath.asRead_afterRequests _ _).keyed.of_alike (alike_link (start _) _)

/-- Seen from its own class through the bridge, the method is a root of its
own. -/
theorem mem_overrideRoots_ring : Hierarchy.Keyed ring ∧
    ⟨"Left", "run", "()V"⟩ ∈ ring.overrideRoots ⟨"Left", "run", "()V"⟩ "Left" := by
  refine ⟨keyed_ring, ?_⟩
  obtain ⟨_, _, _, hreach, hroots, _⟩ :=
    Hierarchy.overrideRoots_eq_contributions_iff keyed_ring ⟨"Left", "run", "()V"⟩ "Left"
  have hleft : (ring.class? "Left").any (fun c => (c.method? "run()V").any fun m =>
      m.ref = ⟨"Left", "run", "()V"⟩ ∧ m.isOverridable ∧ m.isInheritable ∧
        m.overrides.isEmpty ∧ m.forwarders.contains ⟨"Right", "run", "()V"⟩) := by
    decide +kernel
  have hright : (ring.method? ⟨"Right", "run", "()V"⟩).any (fun m =>
      m.ref = ⟨"Right", "run", "()V"⟩ ∧ m.isOverridable) := by
    decide +kernel
  obtain ⟨c, hc, hd⟩ := (Option.any_eq_true _ _).mp hleft
  obtain ⟨d, hd, hflags⟩ := (Option.any_eq_true _ _).mp hd
  obtain ⟨href, ho, hdi, hnone, hf⟩ := of_decide_eq_true hflags
  obtain ⟨n, hn, hflags⟩ := (Option.any_eq_true _ _).mp hright
  obtain ⟨hnref, hno⟩ := of_decide_eq_true hflags
  have hmethod : ring.method? ⟨"Left", "run", "()V"⟩ = some d :=
    Hierarchy.method?_eq_some.mpr ⟨c, hc, hd⟩
  apply (hroots _).mpr
  refine ⟨⟨n.ref, "Left"⟩, (hreach _).mpr (.single (.forwarder hmethod ho hc hf hn)), Or.inl ?_⟩
  have howner : n.owner = "Right" := congrArg MemberRef.owner hnref
  have hkey : n.key = "run()V" := congrArg MemberRef.key hnref
  have hne : "Left" ≠ n.owner := by
    rw [howner]
    decide
  refine ⟨n, d, ⟨keyed_ring.method?_ref hn, hno, hne, ⟨c, hc, hkey ▸ hd⟩, hdi⟩, ?_, ?_,
    Or.inl ⟨ExtTreeSet.isEmpty_iff.mp hnone, href.symm⟩⟩
  · exact (congrArg MemberRef.name href).trans (congrArg MemberRef.name hnref).symm
  · exact (congrArg MemberRef.descriptor href).trans (congrArg MemberRef.descriptor hnref).symm

/-- Above a class, one of another archive that has a method of another name under the
key of the method. -/
def sharing : ClassPath :=
  .afterRequests []
    [.register (archive [plain "Base" none [returning [.pub] "m()La" "(I)Lb;"]]) false,
     .register (archive [plain "Child" (some "Base") [returning [.pub] "m" "()La(I)Lb;"]]) true]

set_option maxRecDepth 10000 in
theorem overrides_shared :
    (((start sharing).resolve .asWritten "Child").path.hierarchy.method?
      ⟨"Child", "m", "()La(I)Lb;"⟩).map (fun m => (m.ref, m.overrides.toList)) =
        some (⟨"Child", "m", "()La(I)Lb;"⟩, [⟨"Base", "m()La", "(I)Lb;"⟩]) := by
  rw [resolve_eq_resolving]
  decide +kernel

/-- The method has a root, though no viewpoint that it comes to contributes any, and
has this root when its class is resolved. -/
theorem overrideRoots_sharing :
    Hierarchy.Keyed sharing.hierarchy ∧
    ⟨"Base", "m()La", "(I)Lb;"⟩ ∈
      sharing.hierarchy.overrideRoots ⟨"Child", "m", "()La(I)Lb;"⟩ "Child" ∧
    (∀ v, ReflTransGen (Viewpoint.Step sharing.hierarchy)
        ⟨⟨"Child", "m", "()La(I)Lb;"⟩, "Child"⟩ v →
      ∀ x, ¬ v.Contributes sharing.hierarchy x) ∧
    (((start sharing).resolve .asWritten "Child").path.hierarchy.method?
      ⟨"Child", "m", "()La(I)Lb;"⟩).map (fun m => (m.ref, m.overrides.toList)) =
        some (⟨"Child", "m", "()La(I)Lb;"⟩, [⟨"Base", "m()La", "(I)Lb;"⟩]) := by
  have hread : sharing.hierarchy.AsRead := ClassPath.asRead_afterRequests _ _
  refine ⟨hread.keyed, ?_, fun v hv x hx => ?_, overrides_shared⟩
  · rw [Hierarchy.overrideRoots, Hierarchy.declarationsAbove, Graph.depthFirst, Graph.visit_eq]
    decide +kernel
  · obtain ⟨m, d, ⟨hm, _, hne, ⟨c, hc, hd⟩, _⟩, hname, _, _⟩ := hx
    have hmethod : (sharing.hierarchy.method? ⟨"Child", "m", "()La(I)Lb;"⟩).map
        (fun m => (m.owner, m.name)) = some ("Child", "m") := by decide +kernel
    have hothers : ∀ c ∈ sharing.hierarchy.classes.values, c.name ≠ "Child" →
        ∀ d ∈ c.methods.values, d.name ≠ "m" := by decide +kernel
    rw [hread.method_of_steps hv] at hm
    rw [hm, Option.map_some, Option.some.injEq, Prod.mk.injEq] at hmethod
    refine hothers c (mem_values_iff.mpr ⟨_, hc⟩) ?_ d (mem_values_iff.mpr ⟨_, hd⟩)
      (hname.trans hmethod.2)
    rw [hread.keyed.name_eq hc, ← hmethod.1]
    exact hne

end Resolution.Sample
end Lineage
