import Lineage.Proofs.Classpath.Requests
import Lineage.Proofs.Graph.Traversal
import Lineage.Proofs.Resolution.Frame

/-!
Resolutions as runs of operations.

Between two operations a resolution is at rest: with a class that has been
resolved all its supertypes have been asked for, and those of them that are
there have been resolved as well.  What has been asked for cannot be registered
any more, so later archives do not disturb this.
-/

namespace Lineage

namespace Hierarchy

theorem AsRead.isResolved_eq_false {h : Hierarchy} (hh : h.AsRead) (a : String) :
    h.isResolved a = false := by
  unfold Hierarchy.isResolved
  cases hc : h.class? a with
  | none => rfl
  | some c => exact hh.resolved_eq_false hc

end Hierarchy

namespace Resolution

open Hierarchy (Alike SameBut)
open Relation (ReflTransGen TransGen)

/-! ## Single steps -/

@[simp]
theorem hierarchy_handle_closed (names : Names) (r : Resolution) (cls : String) :
    (handle names r (.closed cls)).path.hierarchy = (settle names cls r.path.hierarchy).1 := rfl

@[simp]
theorem hierarchy_handle_cycle (names : Names) (r : Resolution) (cls : String) :
    (handle names r (.cycle cls)).path.hierarchy = r.path.hierarchy := rfl

@[simp]
theorem asked_handle (names : Names) (r : Resolution) (e : Graph.Event String) :
    (handle names r e).path.asked = r.path.asked := by
  cases e <;> rfl

theorem alike_handle (names : Names) (r : Resolution) (e : Graph.Event String) :
    Alike r.path.hierarchy (handle names r e).path.hierarchy := by
  cases e with
  | closed cls => exact alike_settle names cls r.path.hierarchy
  | cycle cls => exact .refl _

theorem alike_handles (names : Names) (r : Resolution) (events : List (Graph.Event String)) :
    Alike r.path.hierarchy (events.foldl (handle names) r).path.hierarchy := by
  refine List.foldlRecOn
    (motive := fun s : Resolution => Alike r.path.hierarchy s.path.hierarchy) _ _ (.refl _) ?_
  exact fun s hs e _ => hs.trans (alike_handle names s e)

theorem asked_handles (names : Names) (r : Resolution) (events : List (Graph.Event String)) :
    (events.foldl (handle names) r).path.asked = r.path.asked :=
  List.foldlRecOn (motive := fun s : Resolution => s.path.asked = r.path.asked) _ _ rfl
    fun s hs e _ => (asked_handle names s e).trans hs

/-- The classes that are closed are resolved, and no others. -/
theorem isResolved_handles (names : Names) (r : Resolution) (events : List (Graph.Event String))
    (name : String) :
    (events.foldl (handle names) r).path.hierarchy.isResolved name = true ↔
      r.path.hierarchy.isResolved name = true ∨
        .closed name ∈ events ∧ (r.path.hierarchy.class? name).isSome := by
  induction events generalizing r with
  | nil => simp
  | cons e events ih =>
    rw [List.foldl_cons, ih, ← (alike_handle names r e).isSome_class?]
    cases e with
    | closed cls =>
      rw [hierarchy_handle_closed, isResolved_settle]
      simp only [Bool.or_eq_true, Bool.and_eq_true, beq_iff_eq, List.mem_cons,
        Graph.Event.closed.injEq, eq_comm (a := name)]
      tauto
    | cycle cls => simp

/-! ## Operations -/

theorem alike_resolve (names : Names) (r : Resolution) (cls : String) :
    Alike r.path.hierarchy (r.resolve names cls).path.hierarchy :=
  alike_handles names { r with path := r.path.ask (r.path.hierarchy.lineage cls) } _

theorem sameBut_link (r : Resolution) (classes : List String) :
    SameBut MethodNode.sansForwarders r.path.hierarchy (r.link classes).path.hierarchy :=
  List.foldlRecOn (motive := SameBut MethodNode.sansForwarders r.path.hierarchy) _ _ (.refl _)
    fun h hh cls _ => hh.trans (sameBut_linkBouncers h cls)

theorem sameBut_unify (r : Resolution) (cls : String) :
    SameBut MethodNode.sansUnity r.path.hierarchy (r.unify cls).path.hierarchy := by
  rw [hierarchy_unify]
  exact sameBut_unifyInterface _ _ cls _

theorem alike_link (r : Resolution) (classes : List String) :
    Alike r.path.hierarchy (r.link classes).path.hierarchy :=
  (sameBut_link r classes).alike_of fun _ => rfl

theorem alike_unify (r : Resolution) (cls : String) :
    Alike r.path.hierarchy (r.unify cls).path.hierarchy :=
  (sameBut_unify r cls).alike_of fun _ => rfl

theorem alike_resolveAll (names : Names) (r : Resolution) (classes : List String) :
    Alike r.path.hierarchy (classes.foldl (resolve names) r).path.hierarchy :=
  List.foldlRecOn (motive := fun s : Resolution => Alike r.path.hierarchy s.path.hierarchy) _ _
    (.refl _) fun s hs cls _ => hs.trans (alike_resolve names s cls)

theorem alike_unifyAll (r : Resolution) (classes : List String) :
    Alike r.path.hierarchy (classes.foldl unify r).path.hierarchy :=
  List.foldlRecOn (motive := fun s : Resolution => Alike r.path.hierarchy s.path.hierarchy) _ _
    (.refl _) fun s hs cls _ => hs.trans (alike_unify s cls)

theorem alike_resolveArchive (names : Names) (r : Resolution) (classes : List String) :
    Alike r.path.hierarchy (r.resolveArchive names classes).path.hierarchy :=
  ((alike_link r classes).trans (alike_resolveAll names _ classes)).trans
    (alike_unifyAll _ classes)

theorem mem_asked_unify {r : Resolution} {a : String} (ha : a ∈ r.path.asked) (cls : String) :
    a ∈ (r.unify cls).path.asked := by
  have hasked : a ∈ (r.path.ask [cls]).asked := ClassPath.mem_asked_ask.mpr (Or.inl ha)
  unfold unify
  dsimp only
  split
  · exact ClassPath.mem_asked_ask.mpr (Or.inl hasked)
  · exact hasked

/-- What a resolution is used for. -/
inductive Operation where
  | request (q : ClassPath.Request)
  /-- A class is changed by hand, apart from its supertypes and from what it
  says of its own resolution. -/
  | edit (name : String) (f : ClassNode → ClassNode)
      (keeps : ∀ c, (f c).supertypes = c.supertypes ∧ (f c).resolved = c.resolved)
  | resolve (cls : String)
  | resolveArchive (classes : List String)

def perform (names : Names) (r : Resolution) : Operation → Resolution
  | .request q => { r with path := r.path.serve q }
  | .edit name f _ => { r with path := r.path.update name f }
  | .resolve cls => r.resolve names cls
  | .resolveArchive classes => r.resolveArchive names classes

/-- The resolution over some sources after some operations. -/
def afterOperations (names : Names) (sources : List ClassTable) (operations : List Operation) :
    Resolution :=
  operations.foldl (perform names) (start (.ofSources sources))

/-! ## At rest -/

/-- A class that has been resolved has been asked for, and so have its
supertypes; those that are there have been resolved. -/
structure AtRest (p : ClassPath) : Prop where
  asked : ∀ {a}, p.hierarchy.isResolved a → a ∈ p.asked
  supertypes : ∀ {a b}, p.hierarchy.isResolved a → p.hierarchy.supertypeGraph.Edge a b →
    b ∈ p.asked ∧ ((p.hierarchy.class? b).isSome → p.hierarchy.isResolved b)

theorem isSome_next_supertypeGraph (h : Hierarchy) (a : String) :
    (h.supertypeGraph.next a).isSome = (h.class? a).isSome := by
  simp [Hierarchy.supertypeGraph, Hierarchy.supertypes?]

theorem isSome_class?_of_edge {h : Hierarchy} {a b : String} (hab : h.supertypeGraph.Edge a b) :
    (h.class? a).isSome := by
  rw [← isSome_next_supertypeGraph]
  exact hab.isSome_next

theorem next_unresolvedGraph (h : Hierarchy) (a : String) :
    (unresolvedGraph h).next a = if h.isResolved a then none else h.supertypes? a := by
  cases hc : h.class? a with
  | none => simp [unresolvedGraph, Hierarchy.supertypes?, hc]
  | some c =>
    cases hr : c.resolved <;>
      simp [unresolvedGraph, Hierarchy.isResolved, Hierarchy.supertypes?, Option.filter, hc, hr]

theorem isSome_next_unresolvedGraph (h : Hierarchy) (a : String) :
    ((unresolvedGraph h).next a).isSome ↔ (h.class? a).isSome ∧ ¬ h.isResolved a := by
  rw [next_unresolvedGraph]
  by_cases hr : h.isResolved a <;> simp [hr, Hierarchy.supertypes?]

/-- The graph that is traversed is the supertype relation without the classes
that have been resolved. -/
theorem edge_unresolvedGraph_iff {h : Hierarchy} {a b : String} :
    (unresolvedGraph h).Edge a b ↔ h.supertypeGraph.Edge a b ∧ ¬ h.isResolved a := by
  unfold Graph.Edge
  rw [next_unresolvedGraph]
  by_cases hr : h.isResolved a <;> simp [hr, Hierarchy.supertypeGraph]

theorem edge_of_unresolved {h : Hierarchy} {a b : String} (hab : (unresolvedGraph h).Edge a b) :
    h.supertypeGraph.Edge a b :=
  (edge_unresolvedGraph_iff.mp hab).1

namespace AtRest

variable {p : ClassPath}

/-- All that is above a class that has been resolved has been resolved. -/
theorem isResolved_of_reaches (hp : AtRest p) {a b : String} (ha : p.hierarchy.isResolved a)
    (hab : ReflTransGen p.hierarchy.supertypeGraph.Edge a b)
    (hb : (p.hierarchy.class? b).isSome) : p.hierarchy.isResolved b := by
  induction hab with
  | refl => exact ha
  | tail _ hbc ih => exact (hp.supertypes (ih (isSome_class?_of_edge hbc)) hbc).2 hb

/-- No way to a class that has not been resolved leads over one that has. -/
theorem transGen_unresolved (hp : AtRest p) {a b : String}
    (hab : TransGen p.hierarchy.supertypeGraph.Edge a b)
    (hb : (p.hierarchy.class? b).isSome) (hu : ¬ p.hierarchy.isResolved b) :
    TransGen (unresolvedGraph p.hierarchy).Edge a b := by
  have hway : ∀ {c}, ReflTransGen p.hierarchy.supertypeGraph.Edge c b →
      ¬ p.hierarchy.isResolved c :=
    fun hcb hc => hu (hp.isResolved_of_reaches hc hcb hb)
  induction hab using TransGen.head_induction_on with
  | single hab => exact .single (edge_unresolvedGraph_iff.mpr ⟨hab, hway (.single hab)⟩)
  | head hac hcb ih =>
    refine .head (edge_unresolvedGraph_iff.mpr ⟨hac, hway ?_⟩) ih
    exact .head hac hcb.to_reflTransGen

theorem reflTransGen_unresolved (hp : AtRest p) {a b : String}
    (hab : ReflTransGen p.hierarchy.supertypeGraph.Edge a b)
    (hb : (p.hierarchy.class? b).isSome) (hu : ¬ p.hierarchy.isResolved b) :
    ReflTransGen (unresolvedGraph p.hierarchy).Edge a b := by
  rcases Relation.reflTransGen_iff_eq_or_transGen.mp hab with rfl | hab
  · exact .refl
  · exact (hp.transGen_unresolved hab hb hu).to_reflTransGen

/-! ### Resolving a class -/

variable {r : Resolution}

/-- Resolving a class resolves all that can be reached from it. -/
theorem isResolved_resolve (hr : AtRest r.path) (names : Names) {cls a : String}
    (ha : ReflTransGen r.path.hierarchy.supertypeGraph.Edge cls a)
    (hc : (r.path.hierarchy.class? a).isSome) :
    (r.resolve names cls).path.hierarchy.isResolved a := by
  refine (isResolved_handles names _ _ a).mpr ?_
  by_cases hu : r.path.hierarchy.isResolved a
  · exact Or.inl hu
  · exact Or.inr ⟨Graph.closed_mem_of_reaches (hr.reflTransGen_unresolved ha hc hu)
      ((isSome_next_unresolvedGraph _ a).mpr ⟨hc, hu⟩), hc⟩

theorem isResolved_of_resolve (names : Names) {cls a : String}
    (ha : (r.resolve names cls).path.hierarchy.isResolved a) :
    r.path.hierarchy.isResolved a ∨
      ReflTransGen r.path.hierarchy.supertypeGraph.Edge cls a ∧
        (r.path.hierarchy.class? a).isSome := by
  rcases (isResolved_handles names _ _ a).mp ha with ha | ⟨ha, hc⟩
  · exact Or.inl ha
  · exact Or.inr ⟨ReflTransGen.mono (fun _ _ => edge_of_unresolved) _ _
      (Graph.reaches_of_closed_mem ha).1, hc⟩

theorem mem_asked_resolve (names : Names) {cls a : String} :
    a ∈ (r.resolve names cls).path.asked ↔
      a ∈ r.path.asked ∨ ReflTransGen r.path.hierarchy.supertypeGraph.Edge cls a := by
  have hasked : (r.resolve names cls).path.asked =
      r.path.asked.insertMany (r.path.hierarchy.lineage cls) := asked_handles names _ _
  rw [hasked, Std.ExtTreeSet.mem_insertMany_list, List.contains_iff_mem, Hierarchy.lineage,
    Graph.mem_breadthFirst_iff]

protected theorem resolve (hr : AtRest r.path) (names : Names) (cls : String) :
    AtRest (r.resolve names cls).path where
  asked {a} ha := by
    rw [mem_asked_resolve]
    rcases isResolved_of_resolve names ha with ha | ⟨ha, _⟩
    · exact Or.inl (hr.asked ha)
    · exact Or.inr ha
  supertypes {a b} ha hab := by
    have halike := alike_resolve names r cls
    rw [← halike.supertypeGraph] at hab
    rw [mem_asked_resolve, ← halike.isSome_class?]
    rcases isResolved_of_resolve names ha with ha | ⟨ha, _⟩
    · refine ⟨Or.inl (hr.supertypes ha hab).1, fun hb => ?_⟩
      exact (isResolved_handles names _ _ b).mpr (Or.inl ((hr.supertypes ha hab).2 hb))
    · exact ⟨Or.inr (ha.tail hab), hr.isResolved_resolve names (ha.tail hab)⟩

/-- Resolving some classes asks for all that can be reached from them. -/
theorem mem_asked_resolveAll (names : Names) {classes : List String} {a : String} :
    a ∈ (classes.foldl (resolve names) r).path.asked ↔ a ∈ r.path.asked ∨
      ∃ cls ∈ classes, ReflTransGen r.path.hierarchy.supertypeGraph.Edge cls a := by
  induction classes generalizing r with
  | nil => simp
  | cons cls classes ih =>
    rw [List.foldl_cons, ih, mem_asked_resolve, ← (alike_resolve names r cls).supertypeGraph]
    simp only [List.mem_cons, exists_eq_or_imp, or_assoc]

protected theorem resolveAll (hr : AtRest r.path) (names : Names) (classes : List String) :
    AtRest (classes.foldl (resolve names) r).path :=
  List.foldlRecOn (motive := fun s : Resolution => AtRest s.path) _ _ hr
    fun _ hs cls _ => hs.resolve names cls

/-! ### Other operations -/

/-- What keeps supertypes and marks and forgets no question keeps the rest. -/
theorem of_eq {p q : ClassPath} (hp : AtRest p)
    (hresolved : ∀ a, q.hierarchy.isResolved a = p.hierarchy.isResolved a)
    (hsupertypes : ∀ a, q.hierarchy.supertypes? a = p.hierarchy.supertypes? a)
    (hasked : ∀ a ∈ p.asked, a ∈ q.asked) : AtRest q where
  asked {a} ha := hasked a (hp.asked (hresolved a ▸ ha))
  supertypes {a b} ha hab := by
    have hedge : p.hierarchy.supertypeGraph.Edge a b := by
      obtain ⟨l, hl, hb⟩ := hab
      exact ⟨l, (hsupertypes a).symm.trans hl, hb⟩
    have hsome : (q.hierarchy.class? b).isSome = (p.hierarchy.class? b).isSome := by
      have hb := congrArg Option.isSome (hsupertypes b)
      simpa only [Hierarchy.supertypes?, Option.isSome_map] using hb
    rw [hresolved a] at ha
    rw [hresolved b, hsome]
    exact ⟨hasked b (hp.supertypes ha hedge).1, (hp.supertypes ha hedge).2⟩

protected theorem ask {p : ClassPath} (hp : AtRest p) (names : List String) :
    AtRest (p.ask names) :=
  hp.of_eq (fun _ => rfl) (fun _ => rfl) fun _ ha => ClassPath.mem_asked_ask.mpr (Or.inl ha)

/-- A name that is registered late has not been asked for, so no class that has
been resolved is concerned. -/
protected theorem add {p : ClassPath} (hp : AtRest p) (name : String) (bytes : Bytes)
    (isPrimary : Bool) : AtRest (p.add name bytes isPrimary) := by
  have hresolved : ∀ {a}, (p.add name bytes isPrimary).hierarchy.isResolved a →
      p.hierarchy.isResolved a := by
    intro a ha
    rw [Hierarchy.isResolved, ClassPath.class?_add] at ha
    split at ha
    · cases hb : ClassNode.ofBytes? name bytes isPrimary with
      | none => simp [hb] at ha
      | some c =>
        obtain ⟨s, _, _, rfl⟩ := ClassNode.ofBytes?_eq_some hb
        simp [hb, ClassNode.ofSummary] at ha
    · exact ha
  refine { asked := fun ha => hp.asked (hresolved ha), supertypes := fun {a b} ha hab => ?_ }
  have hedge : p.hierarchy.supertypeGraph.Edge a b := by
    obtain ⟨l, hl, hb⟩ := hab
    refine ⟨l, ?_, hb⟩
    simpa only [Hierarchy.supertypeGraph, Hierarchy.supertypes?,
      ClassPath.class?_add_of_asked (hp.asked (hresolved ha))] using hl
  obtain ⟨hb, hr⟩ := hp.supertypes (hresolved ha) hedge
  refine ⟨hb, ?_⟩
  rw [Hierarchy.isResolved, ClassPath.class?_add_of_asked hb]
  exact hr

protected theorem serve {p : ClassPath} (hp : AtRest p) (q : ClassPath.Request) :
    AtRest (p.serve q) := by
  cases q with
  | register entries isPrimary =>
    exact ClassPath.register_induction entries isPrimary hp
      fun q name bytes hq _ => hq.add name bytes isPrimary
  | ask names => exact hp.ask names

theorem of_asRead {p : ClassPath} (hp : p.hierarchy.AsRead) : AtRest p where
  asked {a} ha := absurd ha (Bool.eq_false_iff.mp (hp.isResolved_eq_false a))
  supertypes {a _} ha _ := absurd ha (Bool.eq_false_iff.mp (hp.isResolved_eq_false a))

protected theorem link (hr : AtRest r.path) (classes : List String) :
    AtRest (r.link classes).path := by
  refine hr.of_eq (sameBut_link r classes).isResolved
    (fun a => ((alike_link r classes).supertypes? a).symm) fun a ha => ?_
  exact ClassPath.mem_asked_ask.mpr (Or.inl ha)

protected theorem unify (hr : AtRest r.path) (cls : String) : AtRest (r.unify cls).path := by
  exact hr.of_eq (sameBut_unify r cls).isResolved
    (fun a => ((alike_unify r cls).supertypes? a).symm) fun a ha => mem_asked_unify ha cls

protected theorem unifyAll (hr : AtRest r.path) (classes : List String) :
    AtRest (classes.foldl unify r).path :=
  List.foldlRecOn (motive := fun s : Resolution => AtRest s.path) _ _ hr
    fun _ hs cls _ => hs.unify cls

protected theorem resolveArchive (hr : AtRest r.path) (names : Names) (classes : List String) :
    AtRest (r.resolveArchive names classes).path :=
  ((hr.link classes).resolveAll names classes).unifyAll classes

/-- Changing a class by hand may be the first question for it. -/
protected theorem update {p : ClassPath} (hp : AtRest p) (name : String)
    {f : ClassNode → ClassNode}
    (hf : ∀ c, (f c).supertypes = c.supertypes ∧ (f c).resolved = c.resolved) :
    AtRest (p.update name f) := by
  refine hp.of_eq (fun a => Hierarchy.isResolved_modifyClass _ name (fun c => (hf c).2) a)
    (fun a => ?_) fun a ha => ClassPath.mem_asked_ask.mpr (Or.inl ha)
  exact p.hierarchy.map_class?_modifyClass name (fun c => (hf c).1) a

protected theorem perform (hr : AtRest r.path) (names : Names) (operation : Operation) :
    AtRest (r.perform names operation).path := by
  cases operation with
  | request q => exact hr.serve q
  | edit name f keeps => exact hr.update name keeps
  | resolve cls => exact hr.resolve names cls
  | resolveArchive classes => exact hr.resolveArchive names classes

end AtRest

theorem atRest_start (sources : List ClassTable) (requests : List ClassPath.Request) :
    AtRest (start (.afterRequests sources requests)).path :=
  .of_asRead (ClassPath.asRead_afterRequests sources requests)

/-- A resolution is at rest whatever has been done with it. -/
theorem atRest_afterOperations (names : Names) (sources : List ClassTable)
    (operations : List Operation) : AtRest (afterOperations names sources operations).path :=
  List.foldlRecOn (motive := fun r : Resolution => AtRest r.path) _ _
    (.of_asRead (ClassPath.asRead_ofSources sources))
    fun _ hr operation _ => hr.perform names operation

/-! ## Runs without changes by hand -/

def Operation.IsEdit : Operation → Prop
  | .edit _ _ _ => True
  | _ => False

/-- What has to be shown of single steps for `P` to hold all along a run, if no
class is changed by hand. -/
structure Persists (names : Names) (P : ClassPath → Prop) : Prop where
  ask : ∀ p l, P p → P (p.ask l)
  add : ∀ p name bytes isPrimary, P p → P (p.add name bytes isPrimary)
  link : ∀ p cls, P p → P { p with hierarchy := linkBouncers p.hierarchy cls }
  settle : ∀ p cls, cls ∈ p.asked → P p →
    P { p with hierarchy := (Resolution.settle names cls p.hierarchy).1 }
  unify : ∀ p loaded cls, (∀ a ∈ scope p.hierarchy loaded cls, a ∈ p.asked) → P p →
    P { p with hierarchy := unifyInterface p.isPrimary loaded cls p.hierarchy }

namespace Persists

variable {names : Names} {P : ClassPath → Prop} {r : Resolution}

theorem of_serve (hP : Persists names P) {p : ClassPath} (hp : P p) (q : ClassPath.Request) :
    P (p.serve q) := by
  cases q with
  | register entries isPrimary =>
    exact ClassPath.register_induction entries isPrimary hp
      fun q name bytes hq _ => hP.add q name bytes isPrimary hq
  | ask names => exact hP.ask p names hp

theorem of_resolve (hP : Persists names P) (hr : P r.path) (cls : String) :
    P (r.resolve names cls).path := by
  have hask := hP.ask _ (r.path.hierarchy.lineage cls) hr
  unfold Resolution.resolve
  refine (List.foldlRecOn (b := { r with path := r.path.ask (r.path.hierarchy.lineage cls) })
    (motive := fun s : Resolution =>
      s.path.asked = (r.path.ask (r.path.hierarchy.lineage cls)).asked ∧ P s.path) _ _
    ⟨rfl, hask⟩ fun s hs e he => ⟨(asked_handle names s e).trans hs.1, ?_⟩).2
  cases e with
  | cycle a => exact hs.2
  | closed a =>
    refine hP.settle s.path a ?_ hs.2
    have hreach := ReflTransGen.mono (fun _ _ => edge_of_unresolved) _ _
      (Graph.reaches_of_closed_mem he).1
    rw [hs.1]
    simp [Hierarchy.lineage, hreach]

theorem of_link (hP : Persists names P) (hr : P r.path) (classes : List String) :
    P (r.link classes).path := by
  have hask := hP.ask _ (classes ++
    (classes.flatMap (bouncesOf r.path.hierarchy)).map fun b => b.2.owner) hr
  refine List.foldlRecOn (motive := fun h => P { r.path.ask _ with hierarchy := h }) classes
    linkBouncers hask fun h hh cls _ => ?_
  exact hP.link { r.path.ask _ with hierarchy := h } cls hh

theorem of_unify (hP : Persists names P) (hr : P r.path) (cls : String) :
    P (r.unify cls).path := by
  have hask := hP.ask _ [cls] hr
  unfold Resolution.unify
  dsimp only
  split
  · refine hP.unify ((r.path.ask [cls]).ask _) (r.path.ask [cls]).loaded cls (fun a ha => ?_)
      (hP.ask _ _ hask)
    obtain ⟨c, hc, hne, _, hanc⟩ := mem_scope.mp ha
    refine ClassPath.mem_asked_ask.mpr (Or.inr (List.mem_flatMap.mpr ⟨c, ?_, ?_⟩))
    · exact List.mem_filter.mpr ⟨hc, bne_iff_ne.mpr hne⟩
    · exact (List.mem_filter.mp hanc).1
  · exact hask

/-- What single steps keep is kept by every operation. -/
theorem perform (hP : Persists names P) (hr : P r.path) {operation : Operation}
    (ho : ¬ operation.IsEdit) : P (r.perform names operation).path := by
  cases operation with
  | request q => exact hP.of_serve hr q
  | edit name f keeps => exact absurd trivial ho
  | resolve cls => exact hP.of_resolve hr cls
  | resolveArchive classes =>
    have hresolved := List.foldlRecOn (motive := fun s : Resolution => P s.path) classes
      (Resolution.resolve names) (hP.of_link hr classes) fun _ hs cls _ => hP.of_resolve hs cls
    exact List.foldlRecOn (motive := fun s : Resolution => P s.path) classes Resolution.unify
      hresolved fun _ hs cls _ => hP.of_unify hs cls

theorem performAll (hP : Persists names P) (hr : P r.path) {operations : List Operation}
    (ho : ∀ operation ∈ operations, ¬ operation.IsEdit) :
    P (operations.foldl (Resolution.perform names) r).path :=
  List.foldlRecOn (motive := fun s : Resolution => P s.path) _ _ hr
    fun _ hs operation hmem => hP.perform hs (ho operation hmem)

theorem afterOperations (hP : Persists names P) {sources : List ClassTable}
    {operations : List Operation} (hstart : P (.ofSources sources))
    (ho : ∀ operation ∈ operations, ¬ operation.IsEdit) :
    P (Resolution.afterOperations names sources operations).path :=
  hP.performAll (r := start (.ofSources sources)) hstart ho

end Persists

end Resolution
end Lineage
