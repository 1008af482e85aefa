import Mathlib.Data.List.Induction
import Lineage.Proofs.Resolution.ParentsFirst
import Lineage.Proofs.Resolution.Roots

/-!
Methods that override each other share a root.

When the methods of a class are linked they take over the roots of the
declarations above them, as they are then.  These declarations have been linked
before, parents first, and from then on roots are only added, so nothing that
comes later takes a method out of its family.
-/

namespace Lineage

open Std (ExtTreeSet)
open Relation (ReflTransGen TransGen)

/-- The method has the other one, or a root of it, among its roots. -/
def MethodNode.Linked (m k : MethodNode) : Prop :=
  k.ref ∈ m.overrides ∨ ∃ x, x ∈ m.overrides ∧ x ∈ k.overrides

namespace Hierarchy

/-! ## The roots that are found -/

theorem mem_foldl_roots {ds : List MethodNode} {init : MemberSet} {x : MemberRef} :
    x ∈ ds.foldl (fun roots d => roots ∪ d.roots) init ↔ x ∈ init ∨ ∃ d ∈ ds, x ∈ d.roots := by
  induction ds generalizing init with
  | nil => simp
  | cons d ds ih =>
    rw [List.foldl_cons, ih, ExtTreeSet.mem_union_iff]
    simp only [List.mem_cons, exists_eq_or_imp, or_assoc]

/-- Seen from above, a method that can be overridden stays in view. -/
theorem reaches_viewpoint {h : Hierarchy} {r : MemberRef} {m : MethodNode} {a b : String}
    (hm : h.method? r = some m) (hmo : m.isOverridable)
    (hab : ReflTransGen h.supertypeGraph.Edge a b) :
    ReflTransGen (Viewpoint.graph h).Edge ⟨r, a⟩ ⟨r, b⟩ := by
  refine ReflTransGen.lift (Viewpoint.mk r) (fun c d hcd => ?_) a b hab
  obtain ⟨l, hl, hd⟩ := hcd
  obtain ⟨node, hnode, rfl⟩ := Option.map_eq_some_iff.mp hl
  have hnext : (Viewpoint.graph h).next ⟨r, c⟩ =
      some ((m.forwarders.toList.filterMap h.method?).map (fun f => ⟨f.ref, c⟩) ++
        node.supertypes.map (Viewpoint.mk r)) := by
    simp only [Viewpoint.graph, Viewpoint.next?, hm, hnode, Option.bind_eq_bind,
      Option.bind_some, hmo, if_true]
  exact ⟨_, hnext, List.mem_append_right _ (List.mem_map.mpr ⟨d, hd, rfl⟩)⟩

/-- A method takes over the roots of what it overrides. -/
theorem mem_overrideRoots {h : Hierarchy} (hk : Keyed h) {r : MemberRef} {m k : MethodNode}
    {a b : String} (hm : h.method? r = some m) (hmo : m.isOverridable)
    (hab : ReflTransGen h.supertypeGraph.Edge a b) (hb : h.method? (r.withOwner b) = some k)
    (hki : k.isInheritable) (hne : b ≠ r.owner) {x : MemberRef} (hx : x ∈ k.roots) :
    x ∈ h.overrideRoots r a := by
  have hmet : Viewpoint.met? h ⟨r, b⟩ = some k := by
    obtain ⟨c, hc, hck⟩ := method?_eq_some.mp hb
    have hc : h.class? b = some c := hc
    have hck : c.method? r.key = some k := hck
    have howner : k.owner = b := (hk.slot_eq hb).1
    simp [Viewpoint.met?, hm, hc, hck, hmo, hki, howner, hne]
  have hmem : k ∈ h.declarationsAbove r a := by
    refine List.mem_filterMap.mpr ⟨⟨r, b⟩, ?_, hmet⟩
    exact Graph.mem_depthFirst_iff.mpr (reaches_viewpoint hm hmo hab)
  exact mem_foldl_roots.mpr (Or.inr ⟨k, hmem, hx⟩)

end Hierarchy

theorem MethodNode.linked_of_roots {m k : MethodNode} (h : ∀ x ∈ k.roots, x ∈ m.overrides) :
    m.Linked k := by
  by_cases hk : k.overrides.isEmpty
  · refine Or.inl (h k.ref ?_)
    rw [MethodNode.roots, if_pos hk]
    exact ExtTreeSet.mem_insert_self
  · have hne : k.overrides ≠ ∅ := fun he => hk (ExtTreeSet.isEmpty_iff.mpr he)
    refine Or.inr ⟨k.overrides.min hne, h _ ?_, ExtTreeSet.min_mem⟩
    rw [MethodNode.roots, if_neg hk]
    exact ExtTreeSet.min_mem

/-- Roots that are added on either side keep methods together. -/
theorem MethodNode.Linked.of_grown {m m' k k' : MethodNode} (h : m.Linked k)
    (hm : ∀ x ∈ m.overrides, x ∈ m'.overrides) (hb : k'.bare = k.bare)
    (hk : ∀ x ∈ k.overrides, x ∈ k'.overrides) : m'.Linked k' := by
  rcases h with h | ⟨x, hxm, hxk⟩
  · refine Or.inl ?_
    rw [ref_eq hb]
    exact hm k.ref h
  · exact Or.inr ⟨x, hm x hxm, hk x hxk⟩

namespace Resolution

open Hierarchy (Alike Grows Keyed)

/-! ## Linking a class -/

/-- What one step of a fold brings about holds in the end, if no step undoes
it. -/
theorem foldl_of_mem {α β : Type} {P Q : β → Prop} {step : β → α → β} {as : List α} {a : α}
    {b : β} (ha : a ∈ as) (hP : P b) (hstep : ∀ b, P b → ∀ a ∈ as, P (step b a))
    (hbegin : ∀ b, P b → Q (step b a)) (hkeep : ∀ b, P b → Q b → ∀ a ∈ as, Q (step b a)) :
    Q (as.foldl step b) := by
  obtain ⟨before, after, rfl⟩ := List.append_of_mem ha
  have hbefore : P (before.foldl step b) :=
    List.foldlRecOn (motive := P) _ _ hP fun b hb c hc =>
      hstep b hb c (List.mem_append_left _ hc)
  rw [List.foldl_append, List.foldl_cons]
  have hboth : P (step (before.foldl step b) a) ∧ Q (step (before.foldl step b) a) :=
    ⟨hstep _ hbefore a (List.mem_append_right _ List.mem_cons_self), hbegin _ hbefore⟩
  refine (List.foldlRecOn (motive := fun b => P b ∧ Q b) after step hboth ?_).2
  intro b hb c hc
  have hc : c ∈ before ++ a :: after := List.mem_append_right _ (List.mem_cons_of_mem a hc)
  exact ⟨hstep b hb.1 c hc, hkeep b hb.1 hb.2 c hc⟩

/-- Every method of the class is linked to what it overrides in the classes
above, the class itself apart. -/
def Bound (h : Hierarchy) (cls : String) : Prop :=
  ∀ (m k : MethodNode) (b : String), h.method? m.ref = some m → m.owner = cls →
    m.isOverridable → TransGen h.supertypeGraph.Edge cls b → b ≠ cls →
    h.method? (m.ref.withOwner b) = some k → k.isInheritable → m.Linked k

theorem linked_linkMethod {h : Hierarchy} (hk : Keyed h) {r : MemberRef} {m k : MethodNode}
    {b : String} (hm : h.method? r = some m) (hmo : m.isOverridable)
    (hab : ReflTransGen h.supertypeGraph.Edge r.owner b) (hne : b ≠ r.owner)
    (hb : h.method? (r.withOwner b) = some k) (hki : k.isInheritable) :
    ∃ n, (linkMethod r.owner h r).method? r = some n ∧ n.Linked k := by
  have hn : (linkMethod r.owner h r).method? r =
      some { m with
        overrides := h.overrideRoots r r.owner
        parent := h.nearestParent? r r.owner } := by
    simp [linkMethod, hm]
  refine ⟨_, hn, MethodNode.linked_of_roots fun x hx => ?_⟩
  exact Hierarchy.mem_overrideRoots hk hm hmo hab hb hki hne hx

/-- While the methods of a class are being linked, other classes are as they
were. -/
structure Working (cls : String) (h h' : Hierarchy) : Prop where
  alike : Alike h h'
  method?_eq : ∀ q, q.owner ≠ cls → h'.method? q = h.method? q

theorem bound_linkMethods {h : Hierarchy} (hk : Keyed h) (cls : String) :
    Bound (linkMethods cls h) cls := by
  intro m k b hm rfl hmo hab hne hb hki
  have halike := alike_linkMethods m.owner h
  rw [← halike.supertypeGraph] at hab
  rw [method?_linkMethods_of_ne hk hne] at hb
  obtain ⟨m₀, hm₀, hbare⟩ := halike.symm.exists_method hm
  have href : m₀.ref = m.ref := (MethodNode.ref_eq hbare).symm
  have hmem : m.ref ∈ methodsOf h m.owner := (mem_methodsOf hk).mpr ⟨rfl, m₀, hm₀, href⟩
  have hbegin : ∀ h', Working m.owner h h' →
      ∃ n, (linkMethod m.owner h' m.ref).method? m.ref = some n ∧ n.Linked k := by
    rintro h' ⟨ha, hother⟩
    obtain ⟨m', hm', hbare'⟩ := ha.exists_method hm₀
    have hmo' : m'.isOverridable := by
      rw [← MethodNode.isOverridable_eq hbare', ← MethodNode.isOverridable_eq hbare]
      exact hmo
    rw [ha.supertypeGraph] at hab
    rw [← hother (m.ref.withOwner b) hne] at hb
    exact linked_linkMethod (hk.of_alike ha) hm' hmo' hab.to_reflTransGen hne hb hki
  have hlinked : ∃ n, (linkMethods m.owner h).method? m.ref = some n ∧ n.Linked k := by
    refine foldl_of_mem (P := Working m.owner h)
      (Q := fun h' => ∃ n, h'.method? m.ref = some n ∧ n.Linked k) hmem
      ⟨.refl h, fun _ _ => rfl⟩ ?_ hbegin ?_
    · rintro h' ⟨ha, hother⟩ r hr
      obtain ⟨ho, _⟩ := (mem_methodsOf hk).mp hr
      refine ⟨ha.trans (alike_linkMethod m.owner h' r), fun q hq => ?_⟩
      rw [method?_linkMethod_of_ne fun hrq => hq (hrq.symm.trans ho), hother q hq]
    · rintro h' hh' ⟨m', hm', hl⟩ r hr
      obtain ⟨ho, n, hn, hnr⟩ := (mem_methodsOf hk).mp hr
      by_cases hkey : r.key = m.ref.key
      · have hsame : r = m.ref := by
          rw [h.method?_congr ho hkey, hm₀] at hn
          cases hn
          rw [← hnr, href]
        rw [hsame]
        exact hbegin h' hh'
      · refine ⟨m', ?_, hl⟩
        rw [linkMethod, Hierarchy.method?_modifyMethod, if_neg fun hslot => hkey hslot.2]
        exact hm'
  obtain ⟨n, hn, hl⟩ := hlinked
  rw [hm] at hn
  cases hn
  exact hl

/-- Neither a class nor what is above it may lose roots. -/
theorem Bound.of_grows {P : String → Prop} {h h' : Hierarchy} {cls : String} (hb : Bound h cls)
    (hg : Grows P h h') (ha : Alike h h') (hcls : P cls)
    (habove : ∀ b, TransGen h.supertypeGraph.Edge cls b → (h.class? b).isSome → P b) :
    Bound h' cls := by
  intro m k b hm howner hmo hab hne hkb hki
  rw [← ha.supertypeGraph] at hab
  have hPm : P m.ref.owner := by
    show P m.owner
    rw [howner]
    exact hcls
  have hPb : P (m.ref.withOwner b).owner := by
    obtain ⟨c, hc, _⟩ := Hierarchy.method?_eq_some.mp hkb
    have hsome : (h'.class? b).isSome := Option.isSome_iff_exists.mpr ⟨c, hc⟩
    exact habove b hab (ha.isSome_class? b ▸ hsome)
  obtain ⟨m₀, hm₀, hbare, hroots⟩ := hg.exists_before ha hPm hm
  obtain ⟨k₀, hk₀, hbare', hroots'⟩ := hg.exists_before ha hPb hkb
  have href : m.ref = m₀.ref := MethodNode.ref_eq hbare
  have howner₀ : m₀.owner = cls := (congrArg MemberRef.owner href).symm.trans howner
  rw [MethodNode.isOverridable_eq hbare] at hmo
  rw [MethodNode.isInheritable_eq hbare'] at hki
  rw [href] at hm₀ hk₀
  exact (hb m₀ k₀ b hm₀ howner₀ hmo hab hne hk₀ hki).of_grown hroots hbare' hroots'

theorem bound_settle {h : Hierarchy} (hk : Keyed h) (names : Names) {cls : String}
    (hc : (h.class? cls).isSome) : Bound (settle names cls h).1 cls := by
  obtain ⟨c, hc⟩ := Option.isSome_iff_exists.mp hc
  have halike := (alike_nameEnums names cls h).trans (alike_resolveBounces cls _)
  refine (bound_linkMethods (hk.of_alike halike) cls).of_grows
    (grows_settle_linkedAt (fun _ => True) hc) ?_ trivial fun _ _ _ => trivial
  exact (alike_linkedAt names cls h).symm.trans (alike_settle names cls h)

/-! ## Linking classes parents first -/

/-- Nothing above the class is above itself. -/
def AcyclicAbove (h : Hierarchy) (cls : String) : Prop :=
  ∀ b, TransGen h.supertypeGraph.Edge cls b → ¬ TransGen h.supertypeGraph.Edge b b

/-- The class has been linked, and what is above it has been resolved. -/
structure Placed (h : Hierarchy) (cls : String) : Prop where
  bound : Bound h cls
  above : ∀ b, TransGen h.supertypeGraph.Edge cls b → (h.class? b).isSome → h.isResolved b

/-- Settling another class leaves a class where it is. -/
theorem Placed.settle {h : Hierarchy} {cls a : String} (hp : Placed h cls) (hk : Keyed h)
    (names : Names) (hne : cls ≠ a) (ha : ¬ h.isResolved a) :
    Placed (settle names a h).1 cls := by
  have halike := alike_settle names a h
  refine { bound := ?_, above := fun b hab hb => ?_ }
  · refine hp.bound.of_grows (grows_settle hk names a) halike hne fun b hab hb hba => ha ?_
    rw [← hba]
    exact hp.above b hab hb
  · rw [← halike.supertypeGraph] at hab
    rw [← halike.isSome_class?] at hb
    rw [isResolved_settle, hp.above b hab hb, Bool.true_or]

/-- All classes that have been resolved are linked, where cycles do not stand in
the way. -/
def Families (h : Hierarchy) : Prop :=
  ∀ cls, h.isResolved cls → AcyclicAbove h cls → Bound h cls

section Run

variable {r : Resolution} {names : Names}

theorem alike_underway (names : Names) (r : Resolution) (cls : String)
    (events : List (Graph.Event String)) :
    Alike r.path.hierarchy (r.underway names cls events).path.hierarchy :=
  alike_handles names { r with path := r.path.ask (r.path.hierarchy.lineage cls) } events

theorem underway_append (cls : String) (before : List (Graph.Event String))
    (e : Graph.Event String) :
    r.underway names cls (before ++ [e]) = handle names (r.underway names cls before) e := by
  unfold underway
  rw [List.foldl_append, List.foldl_cons, List.foldl_nil]

/-- Each class is settled once. -/
theorem not_isResolved_underway (names : Names) {cls a : String}
    {before after : List (Graph.Event String)}
    (hs : (unresolvedGraph r.path.hierarchy).traversal cls = before ++ .closed a :: after) :
    ¬ (r.underway names cls before).path.hierarchy.isResolved a := by
  intro ha
  have hmem : .closed a ∈ (unresolvedGraph r.path.hierarchy).traversal cls := by
    rw [hs]
    exact List.mem_append_right _ List.mem_cons_self
  rcases (isResolved_handles names _ before a).mp ha with ha | ⟨ha, _⟩
  · exact ((isSome_next_unresolvedGraph _ a).mp (Graph.reaches_of_closed_mem hmem).2).2 ha
  · exact (Graph.ordered_traversal _ cls before a after hs).1 ha

theorem AtRest.placed_underway (hr : AtRest r.path) (hk : Keyed r.path.hierarchy)
    (hf : Families r.path.hierarchy) {cls : String} {before after : List (Graph.Event String)}
    (hs : (unresolvedGraph r.path.hierarchy).traversal cls = before ++ after) {a : String}
    (ha : (r.underway names cls before).path.hierarchy.isResolved a)
    (hacyclic : AcyclicAbove r.path.hierarchy a) :
    Placed (r.underway names cls before).path.hierarchy a := by
  induction before using List.reverseRecOn generalizing after a with
  | nil =>
    refine { bound := hf a ha hacyclic, above := fun b hab hb => ?_ }
    exact hr.isResolved_of_reaches ha hab.to_reflTransGen hb
  | append_singleton before e ih =>
    rw [List.append_assoc, List.singleton_append] at hs
    rw [underway_append] at ha ⊢
    cases e with
    | cycle c => exact ih hs ha hacyclic
    | closed c =>
      have halike := alike_underway names r cls before
      have hkeyed := hk.of_alike halike
      have hc := not_isResolved_underway names hs
      rw [hierarchy_handle_closed] at ha ⊢
      by_cases hold : (r.underway names cls before).path.hierarchy.isResolved a
      · have hne : a ≠ c := fun hac => hc (hac ▸ hold)
        exact (ih hs hold hacyclic).settle hkeyed names hne hc
      · obtain ⟨rfl, hsome⟩ : c = a ∧
            ((r.underway names cls before).path.hierarchy.class? a).isSome := by
          simpa [isResolved_settle, hold] using ha
        have hsettled := alike_settle names c (r.underway names cls before).path.hierarchy
        refine { bound := bound_settle hkeyed names hsome, above := fun b hab hb => ?_ }
        rw [← (halike.trans hsettled).supertypeGraph] at hab
        rw [← (halike.trans hsettled).isSome_class?] at hb
        rw [isResolved_settle, hr.isResolved_underway names hacyclic hs hab hb, Bool.true_or]

theorem AtRest.families_resolve (hr : AtRest r.path) (hk : Keyed r.path.hierarchy)
    (hf : Families r.path.hierarchy) (cls : String) :
    Families (r.resolve names cls).path.hierarchy := by
  intro a ha hacyclic
  have hacyclic' : AcyclicAbove r.path.hierarchy a := by
    unfold AcyclicAbove
    rw [(alike_resolve names r cls).supertypeGraph]
    exact hacyclic
  exact (hr.placed_underway hk hf (List.append_nil _).symm ha hacyclic').bound

theorem AtRest.families_resolveAll (hr : AtRest r.path) (hk : Keyed r.path.hierarchy)
    (hf : Families r.path.hierarchy) (classes : List String) :
    Families (classes.foldl (resolve names) r).path.hierarchy := by
  induction classes generalizing r with
  | nil => exact hf
  | cons cls classes ih =>
    refine ih (hr.resolve names cls) ?_ (hr.families_resolve hk hf cls)
    exact hk.of_alike (alike_resolve names r cls)

/-- Passes that take no roots away and resolve nothing keep families
together. -/
theorem Families.of_grows {h h' : Hierarchy} (hf : Families h) (hg : Grows (fun _ => True) h h')
    (ha : Alike h h') (hresolved : ∀ a, h'.isResolved a = h.isResolved a) : Families h' := by
  intro cls hcls hacyclic
  unfold AcyclicAbove at hacyclic
  rw [← ha.supertypeGraph] at hacyclic
  rw [hresolved] at hcls
  exact (hf cls hcls hacyclic).of_grows hg ha trivial fun _ _ _ => trivial

theorem Families.unifyAll (hf : Families r.path.hierarchy) (classes : List String) :
    Families (classes.foldl unify r).path.hierarchy :=
  List.foldlRecOn (motive := fun s : Resolution => Families s.path.hierarchy) _ _ hf
    fun s hs cls _ => hs.of_grows (grows_unify _ s cls) (alike_unify s cls)
      (sameBut_unify s cls).isResolved

theorem AtRest.families_resolveArchive (hr : AtRest r.path) (names : Names)
    (hk : Keyed r.path.hierarchy) (hf : Families r.path.hierarchy) (classes : List String) :
    Families (r.resolveArchive names classes).path.hierarchy := by
  have halike := alike_link r classes
  have hlinked := hf.of_grows (grows_link _ r classes) halike (sameBut_link r classes).isResolved
  refine Families.unifyAll ?_ classes
  exact (hr.link classes).families_resolveAll (hk.of_alike halike) hlinked classes

end Run

/-- The hierarchy of a class path when an archive has been resolved, and some
more classes after it. -/
def resolvedHierarchy (names : Names) (path : ClassPath) (classes more : List String) : Hierarchy :=
  (more.foldl (resolve names) ((start path).resolveArchive names classes)).path.hierarchy

theorem alike_resolvedHierarchy (names : Names) (path : ClassPath) (classes more : List String) :
    Alike path.hierarchy (resolvedHierarchy names path classes more) :=
  (alike_resolveArchive names (start path) classes).trans (alike_resolveAll names _ more)

theorem families_resolvedHierarchy (names : Names) {path : ClassPath} (hp : path.hierarchy.AsRead)
    (classes more : List String) : Families (resolvedHierarchy names path classes more) := by
  have hrest : AtRest (start path).path := .of_asRead hp
  have hnone : Families (start path).path.hierarchy := fun cls hcls _ =>
    absurd hcls (Bool.eq_false_iff.mp (hp.isResolved_eq_false cls))
  have hkeyed := hp.keyed.of_alike (alike_resolveArchive names (start path) classes)
  have harchive := hrest.families_resolveArchive names hp.keyed hnone classes
  exact (hrest.resolveArchive names classes).families_resolveAll hkeyed harchive more

/-- A method and what it overrides share a root, or one is a root of the other,
in every class that has been resolved and has no cycle above it. -/
theorem shares_root_of_overrides (names : Names) (sources : List ClassTable)
    (requests : List ClassPath.Request) (classes more : List String)
    {cls above key : String} {c d : ClassNode} {m k : MethodNode}
    (hacyclic : AcyclicAbove (ClassPath.afterRequests sources requests).hierarchy cls)
    (hc : (resolvedHierarchy names (.afterRequests sources requests) classes more).class? cls =
      some c)
    (hresolved : c.resolved) (hm : c.method? key = some m) (hmo : m.isOverridable)
    (habove : TransGen
      (ClassPath.afterRequests sources requests).hierarchy.supertypeGraph.Edge cls above)
    (hd : (resolvedHierarchy names (.afterRequests sources requests) classes more).class? above =
      some d)
    (hk : d.method? key = some k) (hki : k.isInheritable) :
    k.ref ∈ m.overrides ∨ ∃ x, x ∈ m.overrides ∧ x ∈ k.overrides := by
  have hread := ClassPath.asRead_afterRequests sources requests
  have halike := alike_resolvedHierarchy names (.afterRequests sources requests) classes more
  have hkeyed := hread.keyed.of_alike halike
  have hne : above ≠ cls := fun he => hacyclic cls (he ▸ habove) (he ▸ habove)
  obtain ⟨howner, hkey, href⟩ := hkeyed.of_mem_class hc hm
  have hcls : (resolvedHierarchy names (.afterRequests sources requests) classes
      more).isResolved cls := by
    rw [Hierarchy.isResolved, hc]
    exact hresolved
  have hkref : (resolvedHierarchy names (.afterRequests sources requests) classes more).method?
      (m.ref.withOwner above) = some k := by
    refine Hierarchy.method?_eq_some.mpr ⟨d, hd, ?_⟩
    rw [show (m.ref.withOwner above).key = key from hkey]
    exact hk
  have hbound := families_resolvedHierarchy names hread classes more cls hcls
  unfold AcyclicAbove at hbound hacyclic
  rw [← halike.supertypeGraph] at hbound
  refine hbound hacyclic m k above href howner hmo ?_ hne hkref hki
  rw [← halike.supertypeGraph]
  exact habove

section Sample

open ClassPath.Sample

/-- In the sample the child's method and its parent's stay together. -/
theorem shares_root_of_overrides_sample : ∃ c d m k,
    (resolvedHierarchy .asWritten classPath ["Child"] []).class? "Child" = some c ∧
      (resolvedHierarchy .asWritten classPath ["Child"] []).class? "Parent" = some d ∧
      c.method? "run()V" = some m ∧ d.method? "run()V" = some k ∧
      (k.ref ∈ m.overrides ∨ ∃ x, x ∈ m.overrides ∧ x ∈ k.overrides) := by
  have halike := alike_resolvedHierarchy .asWritten classPath ["Child"] []
  have hloaded : (classPath.hierarchy.class? "Child").isSome := by decide +kernel
  have hresolved : (resolvedHierarchy .asWritten classPath ["Child"] []).isResolved "Child" :=
    (atRest_start [] _).isResolved_resolveArchive .asWritten List.mem_cons_self .refl hloaded
  have hmethod : ∀ owner flag, (classPath.hierarchy.method? ⟨owner, "run", "()V"⟩).any flag →
      ∃ c m, (resolvedHierarchy .asWritten classPath ["Child"] []).class? owner = some c ∧
        c.method? "run()V" = some m ∧ ∃ m₀ : MethodNode, m₀.bare = m.bare ∧ flag m₀ := by
    intro owner flag h
    obtain ⟨m₀, hm₀, hflag⟩ := (Option.any_eq_true _ _).mp h
    obtain ⟨m, hm, hb⟩ := halike.exists_method hm₀
    obtain ⟨c, hc, hcm⟩ := Hierarchy.method?_eq_some.mp hm
    exact ⟨c, m, hc, hcm, m₀, hb, hflag⟩
  obtain ⟨c, m, hc, hm, m₀, hmb, hmo⟩ :=
    hmethod "Child" MethodNode.isOverridable (by decide +kernel)
  obtain ⟨d, k, hd, hk, k₀, hkb, hki⟩ :=
    hmethod "Parent" MethodNode.isInheritable (by decide +kernel)
  rw [MethodNode.isOverridable_eq hmb] at hmo
  rw [MethodNode.isInheritable_eq hkb] at hki
  have hcr : c.resolved := by simpa [Hierarchy.isResolved, hc] using hresolved
  have hacyclic : AcyclicAbove classPath.hierarchy "Child" := by
    intro b hb
    rw [eq_parent_of_transGen hb]
    exact not_transGen_parent
  have habove : TransGen classPath.hierarchy.supertypeGraph.Edge "Child" "Parent" :=
    .single (edge_iff.mpr (Or.inl ⟨rfl, rfl⟩))
  exact ⟨c, d, m, k, hc, hd, hm, hk, shares_root_of_overrides .asWritten [] [.register archive true]
    ["Child"] [] hacyclic hc hcr hm hmo habove hd hk hki⟩

end Sample

end Resolution
end Lineage
