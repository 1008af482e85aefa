import Mathlib.Tactic.ByContra
import Lineage.Proofs.Resolution.Runs

/-!
Parents first.

A class is settled when all that is above it has been, unless it is above
itself.  That is noticed: the findings name a class that inherits from itself
just if there is one among those that were to be resolved or above them.
-/

namespace Lineage

open Relation (ReflTransGen TransGen)

namespace Finding

theorem mem_record {known new : List Finding} {f : Finding} :
    f ∈ record known new ↔ f ∈ known ∨ f ∈ new := by
  induction new generalizing known with
  | nil => simp [record]
  | cons g new ih =>
    have hcons : record known (g :: new) = record (if g ∈ known then known else known ++ [g]) new :=
      rfl
    rw [hcons, ih, List.mem_cons]
    by_cases hg : g ∈ known
    · rw [if_pos hg]
      constructor
      · rintro (h | h)
        · exact Or.inl h
        · exact Or.inr (Or.inr h)
      · rintro (h | rfl | h)
        · exact Or.inl h
        · exact Or.inl hg
        · exact Or.inr h
    · rw [if_neg hg, List.mem_append, List.mem_singleton, or_assoc]

/-- None of the findings is that a class inherits from itself. -/
def NoCycle (findings : List Finding) : Prop := ∀ cls, .cyclicHierarchy cls ∉ findings

theorem NoCycle.append {fs gs : List Finding} (hf : NoCycle fs) (hg : NoCycle gs) :
    NoCycle (fs ++ gs) := by
  intro cls hc
  rcases List.mem_append.mp hc with hc | hc
  · exact hf cls hc
  · exact hg cls hc

theorem noCycle_nil : NoCycle [] := fun _ h => absurd h List.not_mem_nil

end Finding

namespace Resolution

open Finding (NoCycle)

/-! ## The passes find no cycles -/

theorem noCycle_landBouncer (cls : String) (bouncer : MemberRef) (h : Hierarchy) :
    NoCycle (landBouncer cls bouncer h).2 := by
  have hstable : Walk.Stable (fun w => NoCycle w.findings) (fun _ => True) fun _ => True :=
    Walk.stable_of_any (fun _ _ hw => hw) (fun w _ _ _ hw => hw.append fun _ hc => by simp at hc)
      (fun w _ _ hw => hw.append fun _ hc => by simp at hc) fun _ _ _ hw => hw
  obtain ⟨w, hw, heq⟩ :=
    hstable.exists_landBouncer h cls bouncer trivial Finding.noCycle_nil
  rw [heq]
  exact hw

theorem noCycle_resolveBounces (cls : String) (h : Hierarchy) :
    NoCycle (resolveBounces cls h).2 :=
  List.foldlRecOn (motive := fun s : Hierarchy × List Finding => NoCycle s.2) _ _
    Finding.noCycle_nil fun _ hs b _ => hs.append (noCycle_landBouncer cls b.1 _)

theorem noCycle_bindContracts (cls : String) (h : Hierarchy) :
    NoCycle (bindContracts cls h).2 := by
  unfold bindContracts
  refine List.foldlRecOn (motive := fun s : Hierarchy × List Finding => NoCycle s.2) _ _
    Finding.noCycle_nil fun s hs contract _ => ?_
  unfold bindContract
  split
  · exact hs
  · refine hs.append fun c hc => ?_
    obtain ⟨root, _, hroot⟩ := List.mem_map.mp hc
    cases hroot

theorem noCycle_resolveComponents (cls : String) (h : Hierarchy) :
    NoCycle (resolveComponents cls h).2 := by
  intro c hc
  unfold resolveComponents at hc
  cases hd : h.class? cls with
  | none => simp [hd] at hc
  | some d =>
    simp only [hd, Option.map_some, Option.getD_some, crowdedComponents, List.mem_filterMap] at hc
    obtain ⟨component, _, hcomponent⟩ := hc
    split at hcomponent <;> cases hcomponent

theorem noCycle_settle (names : Names) (cls : String) (h : Hierarchy) :
    NoCycle (settle names cls h).2 := by
  unfold settle
  split
  · exact Finding.noCycle_nil
  · refine ((noCycle_resolveBounces cls _).append ?_).append (noCycle_resolveComponents cls _)
    split
    · exact Finding.noCycle_nil
    · exact noCycle_bindContracts cls _

/-! ## Cycles are found where a class is met while it is open -/

theorem cyclic_mem_handles (names : Names) (r : Resolution) (events : List (Graph.Event String))
    (c : String) :
    .cyclicHierarchy c ∈ (events.foldl (handle names) r).findings ↔
      .cyclicHierarchy c ∈ r.findings ∨ .cycle c ∈ events := by
  induction events generalizing r with
  | nil => simp
  | cons e events ih =>
    rw [List.foldl_cons, ih]
    cases e with
    | closed cls =>
      have hs := noCycle_settle names cls r.path.hierarchy c
      show .cyclicHierarchy c ∈
        Finding.record r.findings (settle names cls r.path.hierarchy).2 ∨ _ ↔ _
      rw [Finding.mem_record]
      simp only [hs, or_false, List.mem_cons, reduceCtorEq, false_or]
    | cycle cls =>
      show .cyclicHierarchy c ∈ Finding.record r.findings [.cyclicHierarchy cls] ∨ _ ↔ _
      rw [Finding.mem_record]
      simp only [List.mem_cons, Finding.cyclicHierarchy.injEq, Graph.Event.cycle.injEq,
        List.not_mem_nil, or_false, or_assoc]

theorem cyclic_mem_resolve (names : Names) (r : Resolution) (cls c : String) :
    .cyclicHierarchy c ∈ (r.resolve names cls).findings ↔
      .cyclicHierarchy c ∈ r.findings ∨
        .cycle c ∈ (unresolvedGraph r.path.hierarchy).traversal cls :=
  cyclic_mem_handles names _ _ c

theorem findings_unify (r : Resolution) (cls : String) : (r.unify cls).findings = r.findings := by
  unfold unify
  dsimp only
  split <;> rfl

theorem findings_unifyAll (r : Resolution) (classes : List String) :
    (classes.foldl unify r).findings = r.findings :=
  List.foldlRecOn (motive := fun s : Resolution => s.findings = r.findings) _ _ rfl
    fun s hs cls _ => (findings_unify s cls).trans hs

theorem cyclic_mem_allFindings {r : Resolution} {c : String} :
    .cyclicHierarchy c ∈ r.allFindings ↔ .cyclicHierarchy c ∈ r.findings := by
  unfold allFindings
  simp

/-! ## Resolving some classes -/

section ResolveAll

variable {r : Resolution} {names : Names}

theorem isResolved_mono_resolve {a : String} (names : Names) (cls : String)
    (ha : r.path.hierarchy.isResolved a) : (r.resolve names cls).path.hierarchy.isResolved a :=
  (isResolved_handles names _ _ a).mpr (Or.inl ha)

theorem isResolved_mono_resolveAll {a : String} (names : Names) (classes : List String)
    (ha : r.path.hierarchy.isResolved a) :
    (classes.foldl (resolve names) r).path.hierarchy.isResolved a :=
  List.foldlRecOn (motive := fun s : Resolution => s.path.hierarchy.isResolved a) _ _ ha
    fun _ hs cls _ => isResolved_mono_resolve names cls hs

/-- All that can be reached from one of the classes is resolved with them. -/
theorem AtRest.isResolved_resolveAll (hr : AtRest r.path) (names : Names)
    {classes : List String} {n a : String} (hn : n ∈ classes)
    (ha : ReflTransGen r.path.hierarchy.supertypeGraph.Edge n a)
    (hc : (r.path.hierarchy.class? a).isSome) :
    (classes.foldl (resolve names) r).path.hierarchy.isResolved a := by
  induction classes generalizing r with
  | nil => cases hn
  | cons cls classes ih =>
    rw [List.foldl_cons]
    rcases List.mem_cons.mp hn with rfl | hn
    · exact isResolved_mono_resolveAll names classes (hr.isResolved_resolve names ha hc)
    · have halike := alike_resolve names r cls
      rw [halike.supertypeGraph] at ha
      rw [halike.isSome_class?] at hc
      exact ih (hr.resolve names cls) hn ha hc

theorem isResolved_unifyAll (classes : List String) (a : String) :
    (classes.foldl unify r).path.hierarchy.isResolved a = r.path.hierarchy.isResolved a :=
  List.foldlRecOn (motive := fun s : Resolution =>
    s.path.hierarchy.isResolved a = r.path.hierarchy.isResolved a) _ _ rfl
    fun s hs cls _ => ((sameBut_unify s cls).isResolved a).trans hs

theorem AtRest.isResolved_resolveArchive (hr : AtRest r.path) (names : Names)
    {classes : List String} {n a : String} (hn : n ∈ classes)
    (ha : ReflTransGen r.path.hierarchy.supertypeGraph.Edge n a)
    (hc : (r.path.hierarchy.class? a).isSome) :
    (r.resolveArchive names classes).path.hierarchy.isResolved a := by
  rw [(alike_link r classes).supertypeGraph] at ha
  rw [(alike_link r classes).isSome_class?] at hc
  rw [resolveArchive, isResolved_unifyAll]
  exact (hr.link classes).isResolved_resolveAll names hn ha hc

/-- What is named in a finding is above itself, and above one of the classes. -/
theorem transGen_of_cyclic_mem_resolveAll {classes : List String} {c : String}
    (hc : .cyclicHierarchy c ∈ (classes.foldl (resolve names) r).findings) :
    .cyclicHierarchy c ∈ r.findings ∨
      (∃ n ∈ classes, ReflTransGen r.path.hierarchy.supertypeGraph.Edge n c) ∧
        TransGen r.path.hierarchy.supertypeGraph.Edge c c := by
  induction classes generalizing r with
  | nil => exact Or.inl hc
  | cons cls classes ih =>
    rcases ih hc with hc | ⟨⟨n, hn, hreach⟩, hcycle⟩
    · rcases (cyclic_mem_resolve names r cls c).mp hc with hc | hc
      · exact Or.inl hc
      · obtain ⟨hreach, hcycle⟩ := Graph.reaches_of_cycle_mem hc
        refine Or.inr ⟨⟨cls, List.mem_cons_self, ?_⟩, ?_⟩
        · exact ReflTransGen.mono (fun _ _ => edge_of_unresolved) _ _ hreach
        · exact TransGen.mono (fun _ _ => edge_of_unresolved) _ _ hcycle
    · rw [← (alike_resolve names r cls).supertypeGraph] at hreach hcycle
      exact Or.inr ⟨⟨n, List.mem_cons_of_mem cls hn, hreach⟩, hcycle⟩

/-- No class that has been resolved is above itself. -/
def Wellfounded (h : Hierarchy) : Prop :=
  ∀ a, h.isResolved a → ¬ TransGen h.supertypeGraph.Edge a a

theorem AtRest.wellfounded_resolve (hr : AtRest r.path) (cls : String)
    (hw : Wellfounded r.path.hierarchy) (hno : NoCycle (r.resolve names cls).findings) :
    Wellfounded (r.resolve names cls).path.hierarchy := by
  intro a ha hcycle
  rw [← (alike_resolve names r cls).supertypeGraph] at hcycle
  by_cases hu : r.path.hierarchy.isResolved a
  · exact hw a hu hcycle
  · obtain ⟨hreach, hc⟩ := (isResolved_of_resolve names ha).resolve_left hu
    refine Graph.not_transGen_self (fun c hc => ?_) (hr.reflTransGen_unresolved hreach hc hu)
      (hr.transGen_unresolved hcycle hc hu)
    exact hno c ((cyclic_mem_resolve names r cls c).mpr (Or.inr hc))

theorem AtRest.wellfounded_resolveAll (hr : AtRest r.path) {classes : List String}
    (hw : Wellfounded r.path.hierarchy)
    (hno : NoCycle (classes.foldl (resolve names) r).findings) :
    Wellfounded (classes.foldl (resolve names) r).path.hierarchy := by
  induction classes generalizing r with
  | nil => exact hw
  | cons cls classes ih =>
    refine ih (hr.resolve names cls) (hr.wellfounded_resolve cls hw fun c hc => ?_) hno
    refine hno c ?_
    rw [List.foldl_cons]
    refine List.foldlRecOn (motive := fun s : Resolution => .cyclicHierarchy c ∈ s.findings)
      _ _ hc ?_
    exact fun s hs n _ => (cyclic_mem_resolve names s n c).mpr (Or.inl hs)

end ResolveAll

/-! ## Single events -/

/-- The resolution when some events of resolving a class have been dealt
with. -/
def underway (names : Names) (r : Resolution) (cls : String) (events : List (Graph.Event String)) :
    Resolution :=
  events.foldl (handle names) { r with path := r.path.ask (r.path.hierarchy.lineage cls) }

/-- The passes are made over a class when all that is above it has had them,
unless something above it is above itself. -/
theorem AtRest.isResolved_underway {r : Resolution} (hr : AtRest r.path) (names : Names)
    {cls a b : String} {before after : List (Graph.Event String)}
    (hacyclic : ∀ c, TransGen r.path.hierarchy.supertypeGraph.Edge a c →
      ¬ TransGen r.path.hierarchy.supertypeGraph.Edge c c)
    (hs : (unresolvedGraph r.path.hierarchy).traversal cls = before ++ .closed a :: after)
    (hab : TransGen r.path.hierarchy.supertypeGraph.Edge a b)
    (hb : (r.path.hierarchy.class? b).isSome) :
    (r.underway names cls before).path.hierarchy.isResolved b := by
  refine (isResolved_handles names _ before b).mpr ?_
  by_cases hu : r.path.hierarchy.isResolved b
  · exact Or.inl hu
  · have hno : ∀ c, TransGen (unresolvedGraph r.path.hierarchy).Edge a c →
        .cycle c ∉ (unresolvedGraph r.path.hierarchy).traversal cls := by
      intro c hac hcycle
      refine hacyclic c (TransGen.mono (fun _ _ => edge_of_unresolved) _ _ hac) ?_
      exact TransGen.mono (fun _ _ => edge_of_unresolved) _ _ (Graph.reaches_of_cycle_mem hcycle).2
    have hn : ((unresolvedGraph r.path.hierarchy).next b).isSome :=
      (isSome_next_unresolvedGraph _ b).mpr ⟨hb, hu⟩
    exact Or.inr ⟨Graph.closed_mem_before hno hs (hr.transGen_unresolved hab hb hu) hn, hb⟩

/-! ## A whole archive -/

section Archive

variable {names : Names} {classes : List String}

theorem cyclic_mem_resolveArchive {r : Resolution} {c : String} :
    .cyclicHierarchy c ∈ (r.resolveArchive names classes).findings ↔
      .cyclicHierarchy c ∈ (classes.foldl (resolve names) (r.link classes)).findings := by
  unfold resolveArchive
  rw [findings_unifyAll]

theorem transGen_of_cyclic_mem_resolveArchive {r : Resolution} (hr : NoCycle r.findings)
    {c : String} (hc : .cyclicHierarchy c ∈ (r.resolveArchive names classes).findings) :
    (∃ n ∈ classes, ReflTransGen r.path.hierarchy.supertypeGraph.Edge n c) ∧
      TransGen r.path.hierarchy.supertypeGraph.Edge c c := by
  rw [(alike_link r classes).supertypeGraph]
  exact (transGen_of_cyclic_mem_resolveAll (cyclic_mem_resolveArchive.mp hc)).resolve_left (hr c)

/-- A class above itself that can be reached does not go unnoticed. -/
theorem AtRest.exists_cyclic_mem_resolveArchive {r : Resolution} (hr : AtRest r.path)
    (hw : Wellfounded r.path.hierarchy) {n a : String} (hn : n ∈ classes)
    (ha : ReflTransGen r.path.hierarchy.supertypeGraph.Edge n a)
    (hcycle : TransGen r.path.hierarchy.supertypeGraph.Edge a a) :
    ∃ c, .cyclicHierarchy c ∈ (r.resolveArchive names classes).findings := by
  by_contra hno
  have hlinked : Wellfounded (r.link classes).path.hierarchy := by
    intro b hb
    rw [(sameBut_link r classes).isResolved] at hb
    rw [← (alike_link r classes).supertypeGraph]
    exact hw b hb
  have hafter := (hr.link classes).wellfounded_resolveAll hlinked
    fun c hc => hno ⟨c, cyclic_mem_resolveArchive.mpr hc⟩
  obtain ⟨b, hab, _⟩ := TransGen.head'_iff.mp hcycle
  have hc : (r.path.hierarchy.class? a).isSome := isSome_class?_of_edge hab
  rw [(alike_link r classes).supertypeGraph] at ha hcycle
  rw [(alike_link r classes).isSome_class?] at hc
  refine hafter a ((hr.link classes).isResolved_resolveAll names hn ha hc) ?_
  rwa [← (alike_resolveAll names _ classes).supertypeGraph]

theorem wellfounded_start (sources : List ClassTable) (requests : List ClassPath.Request) :
    Wellfounded (start (.afterRequests sources requests)).path.hierarchy := by
  intro a ha
  have hno := (ClassPath.asRead_afterRequests sources requests).isResolved_eq_false a
  exact absurd ha (Bool.eq_false_iff.mp hno)

end Archive

/-! ## Results -/

/-- Resolving a class is a traversal of the supertype relation that comes to an
end, leaves nothing out and nothing open, and takes parents first. -/
structure ParentsFirst (names : Names) (r : Resolution) (cls : String) : Prop where
  /-- The events of the traversal are dealt with one after the other. -/
  resolve_eq : r.resolve names cls =
    r.underway names cls ((unresolvedGraph r.path.hierarchy).traversal cls)
  ends : ∃ p, Graph.Steps (unresolvedGraph r.path.hierarchy) (.start cls)
    ((unresolvedGraph r.path.hierarchy).traversal cls) p ∧ p.tasks = [] ∧ p.opened = []
  resolved : ∀ a, ReflTransGen r.path.hierarchy.supertypeGraph.Edge cls a →
    (r.path.hierarchy.class? a).isSome → (r.resolve names cls).path.hierarchy.isResolved a
  /-- When a class is closed, and the passes are made over it, what is above it
  has been resolved. -/
  above : (∀ c, ReflTransGen r.path.hierarchy.supertypeGraph.Edge cls c →
      ¬ TransGen r.path.hierarchy.supertypeGraph.Edge c c) →
    ∀ before a after,
      (unresolvedGraph r.path.hierarchy).traversal cls = before ++ .closed a :: after →
      ∀ b, TransGen r.path.hierarchy.supertypeGraph.Edge a b →
        (r.path.hierarchy.class? b).isSome →
        (r.underway names cls before).path.hierarchy.isResolved b

/-- The findings of resolving an archive tell whether a class can be reached
that is above itself, and name no others. -/
structure CyclesNoticed (names : Names) (r : Resolution) (classes : List String) : Prop where
  noticed : (∃ c, .cyclicHierarchy c ∈ (r.resolveArchive names classes).allFindings) ↔
    ∃ n ∈ classes, ∃ a, ReflTransGen r.path.hierarchy.supertypeGraph.Edge n a ∧
      TransGen r.path.hierarchy.supertypeGraph.Edge a a
  named : ∀ c, .cyclicHierarchy c ∈ (r.resolveArchive names classes).allFindings →
    TransGen r.path.hierarchy.supertypeGraph.Edge c c

theorem AtRest.parentsFirst {r : Resolution} (hr : AtRest r.path) (names : Names) (cls : String) :
    ParentsFirst names r cls where
  resolve_eq := rfl
  ends := Graph.exists_steps_traversal _ cls
  resolved _ ha hc := hr.isResolved_resolve names ha hc
  above hacyclic before a after hs _ hab hb := by
    refine hr.isResolved_underway names (fun c hac => hacyclic c ?_) hs hab hb
    have ha : .closed a ∈ (unresolvedGraph r.path.hierarchy).traversal cls := by
      rw [hs]
      exact List.mem_append_right _ List.mem_cons_self
    have hreach := (Graph.reaches_of_closed_mem ha).1
    exact (ReflTransGen.mono (fun _ _ => edge_of_unresolved) _ _ hreach).trans hac.to_reflTransGen

theorem cyclesNoticed_start (names : Names) (sources : List ClassTable)
    (requests : List ClassPath.Request) (classes : List String) :
    CyclesNoticed names (start (.afterRequests sources requests)) classes := by
  have hnone : NoCycle (start (.afterRequests sources requests)).findings := Finding.noCycle_nil
  refine { noticed := ⟨?_, ?_⟩, named := fun c hc => ?_ }
  · rintro ⟨c, hc⟩
    obtain ⟨⟨n, hn, hreach⟩, hcycle⟩ :=
      transGen_of_cyclic_mem_resolveArchive hnone (cyclic_mem_allFindings.mp hc)
    exact ⟨n, hn, c, hreach, hcycle⟩
  · rintro ⟨n, hn, a, hreach, hcycle⟩
    obtain ⟨c, hc⟩ := (atRest_start sources requests).exists_cyclic_mem_resolveArchive
      (wellfounded_start sources requests) hn hreach hcycle
    exact ⟨c, cyclic_mem_allFindings.mpr hc⟩
  · exact (transGen_of_cyclic_mem_resolveArchive hnone (cyclic_mem_allFindings.mp hc)).2

/-- Whatever has been done with a resolution, it resolves classes parents first,
and a new one notices cycles. -/
theorem parentsFirst_and_cyclesNoticed (names : Names) (sources : List ClassTable) :
    (∀ operations cls, ParentsFirst names (afterOperations names sources operations) cls) ∧
      ∀ requests classes,
        CyclesNoticed names (start (.afterRequests sources requests)) classes :=
  ⟨fun operations cls => (atRest_afterOperations names sources operations).parentsFirst names cls,
    cyclesNoticed_start names sources⟩

section Sample

open ClassPath.Sample

/-- Once the sample has been registered, resolving the child resolves its
parent, and that before the passes are made over the child; the class that is
its own parent is noticed. -/
theorem parentsFirst_and_cyclesNoticed_sample :
    let r := afterOperations .asWritten [] [.request (.register archive true)]
    (r.resolve .asWritten "Child").path.hierarchy.isResolved "Parent" ∧
      (r.underway .asWritten "Child" [.closed "Parent"]).path.hierarchy.isResolved "Parent" ∧
      ∃ c, .cyclicHierarchy c ∈
        ((start classPath).resolveArchive .asWritten ["Loop"]).allFindings := by
  intro r
  obtain ⟨hfirst, hnoticed⟩ := parentsFirst_and_cyclesNoticed .asWritten []
  have hchild := hfirst [.request (.register archive true)] "Child"
  have hedge : classPath.hierarchy.supertypeGraph.Edge "Child" "Parent" :=
    edge_iff.mpr (Or.inl ⟨rfl, rfl⟩)
  have hparent : (classPath.hierarchy.class? "Parent").isSome := by decide +kernel
  have hacyclic : ∀ c, ReflTransGen classPath.hierarchy.supertypeGraph.Edge "Child" c →
      ¬ TransGen classPath.hierarchy.supertypeGraph.Edge c c := by
    intro c hc hcycle
    rcases Relation.reflTransGen_iff_eq_or_transGen.mp hc with rfl | hc
    · exact absurd (eq_parent_of_transGen hcycle) (by decide)
    · rw [eq_parent_of_transGen hc] at hcycle
      exact not_transGen_parent hcycle
  have htraversal : (unresolvedGraph classPath.hierarchy).traversal "Child" =
      [.closed "Parent"] ++ .closed "Child" :: [] := by
    have hnext : (unresolvedGraph classPath.hierarchy).next "Child" = some ["Parent"] := by
      decide +kernel
    have hnext' : (unresolvedGraph classPath.hierarchy).next "Parent" = some [] := by
      decide +kernel
    rw [Graph.traversal, Graph.run_enter hnext (by decide) (by decide)]
    show Graph.run _ [.enter "Parent", .leave "Child"] ["Child"] [] = _
    rw [Graph.run_enter hnext' (by decide) (by decide)]
    simp [Graph.run]
  refine ⟨hchild.resolved "Parent" (.single hedge) hparent, ?_, ?_⟩
  · exact hchild.above hacyclic _ _ _ htraversal "Parent" (.single hedge) hparent
  · refine (hnoticed [.register archive true] ["Loop"]).noticed.mpr ?_
    exact ⟨"Loop", List.mem_cons_self, "Loop", .refl, .single (edge_iff.mpr (Or.inr ⟨rfl, rfl⟩))⟩

end Sample

end Resolution
end Lineage
