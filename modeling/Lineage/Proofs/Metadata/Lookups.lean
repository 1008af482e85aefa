import Lineage.Proofs.Metadata.Shape
import Lineage.Proofs.Resolution.Hiding

/-!
Lookups made before an archive is resolved.

A lookup changes nothing but what has been asked for, and resolving classes does
not depend on that: it goes by what there is.  Unifying interfaces does depend on
it.  The scope of an interface is made of its instances that have been asked for,
and an instance that the archive does not lead to is one of them only if it was
looked up before.  It may bring a method to be unified along.  So two runs differ
at most in roots and in names that are forced, and they do not differ if every
method that was brought along is met without the lookups, too.
-/

namespace Lineage

open Std (ExtTreeMap ExtTreeSet)
open Relation (ReflTransGen TransGen)

/-! ## Lookups -/

namespace ClassPath

inductive Question where
  | get (name : String)
  | peek (name : String)
  | isInstance (name target : String)

/-- The class path after a question. -/
def consult (p : ClassPath) : Question → ClassPath
  | .get name => (p.get? name).2
  | .peek _ => p
  | .isInstance name target => (p.isInstance name target).2

def consultAll (p : ClassPath) (questions : List Question) : ClassPath :=
  questions.foldl consult p

theorem hierarchy_consult (p : ClassPath) (q : Question) :
    (p.consult q).hierarchy = p.hierarchy ∧ (p.consult q).primary = p.primary := by
  cases q with
  | get name => exact ⟨rfl, rfl⟩
  | peek name => exact ⟨rfl, rfl⟩
  | isInstance name target =>
    rw [consult, isInstance]
    split <;> exact ⟨rfl, rfl⟩

theorem hierarchy_consultAll (p : ClassPath) (questions : List Question) :
    (p.consultAll questions).hierarchy = p.hierarchy ∧
      (p.consultAll questions).primary = p.primary :=
  List.foldlRecOn (motive := fun q : ClassPath =>
      q.hierarchy = p.hierarchy ∧ q.primary = p.primary) _ _ ⟨rfl, rfl⟩
    fun q hq question _ =>
      have hstep := hierarchy_consult q question
      ⟨hstep.1.trans hq.1, hstep.2.trans hq.2⟩

end ClassPath

namespace Resolution

open Hierarchy (Alike Keyed SameBut)

/-! ## Resolving -/

/-- The two differ at most in what has been asked for. -/
structure Twin (r r' : Resolution) : Prop where
  hierarchy : r.path.hierarchy = r'.path.hierarchy
  primary : r.path.primary = r'.path.primary
  findings : r.findings = r'.findings

namespace Twin

variable {r r' : Resolution}

theorem link (ht : Twin r r') (classes : List String) : Twin (r.link classes) (r'.link classes) where
  hierarchy := congrArg (classes.foldl linkBouncers) ht.hierarchy
  primary := ht.primary
  findings := ht.findings

theorem handle (ht : Twin r r') (names : Names) (e : Graph.Event String) :
    Twin (handle names r e) (handle names r' e) := by
  cases e with
  | cycle cls => exact ⟨ht.hierarchy, ht.primary, congrArg (Finding.record · _) ht.findings⟩
  | closed cls =>
    have hsettle := congrArg (settle names cls) ht.hierarchy
    exact
      { hierarchy := congrArg Prod.fst hsettle
        primary := ht.primary
        findings := congrArg₂ Finding.record ht.findings (congrArg Prod.snd hsettle) }

theorem resolve (ht : Twin r r') (names : Names) (cls : String) :
    Twin (r.resolve names cls) (r'.resolve names cls) := by
  unfold Resolution.resolve
  dsimp only
  rw [← ht.hierarchy]
  exact List.foldl_rel ⟨ht.hierarchy, ht.primary, ht.findings⟩ fun e _ _ _ hs => hs.handle names e

theorem resolveAll (ht : Twin r r') (names : Names) (classes : List String) :
    Twin (classes.foldl (Resolution.resolve names) r)
      (classes.foldl (Resolution.resolve names) r') :=
  List.foldl_rel ht fun cls _ _ _ hs => hs.resolve names cls

end Twin

/-! ## What is asked for -/

section Asked

variable {p : ClassPath} {classes : List String} {names : Names} {cls : String}

theorem reached_of_mem_bouncesOf (hp : p.hierarchy.AsRead) (hcls : cls ∈ classes)
    {b : MemberRef × MemberRef} (hb : b ∈ bouncesOf p.hierarchy cls) :
    Reached p.hierarchy classes b.2.owner := by
  obtain ⟨howner, m, bounce, hm, href, hbounce, htarget⟩ := (mem_bouncesOf hp.keyed).mp hb
  have hbounces : Bounces p.hierarchy b.1 b.2 :=
    ⟨m, hm, href, by rw [MethodNode.aim?, hbounce, Option.map_some, htarget]⟩
  exact ⟨cls, hcls, howner ▸ hbounces.reaches hp⟩

/-- Resolving classes asks for what they lead to and for nothing else. -/
theorem mem_asked_resolved_iff (hp : p.hierarchy.AsRead) {a : String} :
    a ∈ (classes.foldl (resolve names) ((start p).link classes)).path.asked ↔
      a ∈ p.asked ∨ Reached p.hierarchy classes a := by
  have halike : Alike p.hierarchy ((start p).link classes).path.hierarchy :=
    alike_link (start p) classes
  rw [AtRest.mem_asked_resolveAll, ← halike.supertypeGraph]
  refine ⟨?_, Or.imp_left fun ha => ClassPath.mem_asked_ask.mpr (Or.inl ha)⟩
  rintro (ha | ha)
  · rcases ClassPath.mem_asked_ask.mp ha with ha | ha
    · exact Or.inl ha
    · refine Or.inr ?_
      rcases List.mem_append.mp ha with ha | ha
      · exact ⟨a, ha, .refl⟩
      · obtain ⟨b, hb, rfl⟩ := List.mem_map.mp ha
        obtain ⟨c, hc, hb⟩ := List.mem_flatMap.mp hb
        exact reached_of_mem_bouncesOf hp hc hb
  · exact Or.inr ha

theorem explored_resolved (names : Names) (hp : p.hierarchy.AsRead) (hcls : cls ∈ classes) :
    Explored (classes.foldl (resolve names) ((start p).link classes)).path cls := by
  have halike : Alike p.hierarchy
      (classes.foldl (resolve names) ((start p).link classes)).path.hierarchy :=
    (alike_link (start p) classes).trans (alike_resolveAll names _ classes)
  intro a ha
  rw [← halike.supertypeGraph] at ha
  exact (mem_asked_resolved_iff hp).mpr (Or.inr ⟨cls, hcls, ha⟩)

end Asked

/-! ## Unifying -/

/-- The interface offers a method with the key of the one at `x`, which can be
overridden, and another instance `a` of the interface leads there. -/
structure Answers (h : Hierarchy) (cls a : String) (x : MemberRef) : Prop where
  offered : ∃ k, Offers h cls k ∧ k.key = x.key
  ne : a ≠ cls
  isInstance : ReflTransGen h.supertypeGraph.Edge a cls
  above : ReflTransGen h.supertypeGraph.Edge a x.owner
  overridable : Overridable h x

theorem Answers.of_alike {h h' : Hierarchy} (ha : Alike h h') {cls a : String} {x : MemberRef}
    (hx : Answers h cls a x) : Answers h' cls a x where
  offered := by
    obtain ⟨k, hk, hkey⟩ := hx.offered
    obtain ⟨k', hk', href⟩ := hk.of_alike ha
    exact ⟨k', hk', (congrArg MemberRef.key href).trans hkey⟩
  ne := hx.ne
  isInstance := ha.supertypeGraph ▸ hx.isInstance
  above := ha.supertypeGraph ▸ hx.above
  overridable := hx.overridable.of_alike ha

/-- What is declared with a key in a class and can be overridden. -/
def sibling? (h : Hierarchy) (key cls : String) : Option MethodNode :=
  ((h.class? cls).bind (·.method? key)).filter MethodNode.isOverridable

theorem siblings_eq_filterMap (h : Hierarchy) (classes : List String) (key : String) :
    siblings h classes key = classes.filterMap (sibling? h key) := by
  rw [siblings, List.filterMap_filterMap, List.filter_filterMap]
  rfl

/-- Classes without siblings do not count. -/
theorem siblings_congr {h : Hierarchy} {key : String} {few many : ExtTreeSet String}
    (hsub : ∀ a ∈ few, a ∈ many) (hall : ∀ a ∈ many, (sibling? h key a).isSome → a ∈ few) :
    siblings h many.toList key = siblings h few.toList key := by
  have hsame : many.filter (fun a => (sibling? h key a).isSome) =
      few.filter fun a => (sibling? h key a).isSome := by
    refine ExtTreeSet.ext_mem fun a => ?_
    simp only [ExtTreeSet.mem_filter, ExtTreeSet.get_eq, exists_prop]
    exact ⟨fun ha => ⟨hall a ha.1 ha.2, ha.2⟩, fun ha => ⟨hsub a ha.1, ha.2⟩⟩
  have hkept : ∀ l : List String, l.filterMap (sibling? h key) =
      (l.filter fun a => (sibling? h key a).isSome).filterMap (sibling? h key) := by
    intro l
    rw [List.filterMap_filter]
    refine congrArg (l.filterMap ·) (funext fun a => ?_)
    cases sibling? h key a <;> rfl
  rw [siblings_eq_filterMap, siblings_eq_filterMap, hkept, hkept few.toList,
    ← ExtTreeSet.toList_filter, ← ExtTreeSet.toList_filter, hsame]

/-- Unifying an interface depends on its siblings only. -/
theorem unifyInterface_congr {isPrimary : String → Bool} {loaded loaded' : List String}
    {cls : String} {h : Hierarchy}
    (hsiblings : ∀ k, Offers h cls k → ∀ g, Alike h g →
      siblings g (scope h loaded cls).toList k.key = siblings g (scope h loaded' cls).toList k.key) :
    unifyInterface isPrimary loaded cls h = unifyInterface isPrimary loaded' cls h := by
  by_cases hoffers : ∃ k, Offers h cls k
  · obtain ⟨_, c, hc, hi, _⟩ := hoffers
    rw [unifyInterface_eq_foldl hc hi, unifyInterface_eq_foldl hc hi]
    refine (List.foldl_rel (r := fun g g' => g = g' ∧ Alike h g) ⟨rfl, .refl h⟩ ?_).1
    rintro k hk g _ ⟨rfl, hg⟩
    refine ⟨?_, hg.trans ((sameBut_unifyMethod _ _ _ _ _).alike_of fun _ => rfl)⟩
    unfold unifyMethod
    rw [hsiblings k ⟨c, hc, hi, hk⟩ g hg]
  · rw [← exists_offers_iff] at hoffers
    rw [unifyInterface_eq_self hoffers, unifyInterface_eq_self hoffers]

section Run

variable {s s' r r' : Resolution} {cls : String}

theorem siblings_scope_eq (hk : Keyed s.path.hierarchy) (hs : Twin s s')
    (hasked : ∀ a ∈ s.path.asked, a ∈ s'.path.asked)
    (hanswers : ∀ a ∈ s'.path.asked, ∀ x, Answers s.path.hierarchy cls a x →
      ∃ b ∈ s.path.asked, Answers s.path.hierarchy cls b x)
    {k : MethodNode} (hoffer : Offers s.path.hierarchy cls k) {g : Hierarchy}
    (hg : Alike s.path.hierarchy g) :
    siblings g (scope s.path.hierarchy s'.path.loaded cls).toList k.key =
      siblings g (scope s.path.hierarchy s.path.loaded cls).toList k.key := by
  refine siblings_congr (fun a ha => ?_) fun a ha hsome => ?_
  · obtain ⟨c, hc, hrest⟩ := mem_scope.mp ha
    rw [ClassPath.mem_loaded, hs.hierarchy] at hc
    exact mem_scope.mpr ⟨c, ClassPath.mem_loaded.mpr ⟨hasked c hc.1, hc.2⟩, hrest⟩
  · obtain ⟨c, hc, hne, hinstance, hca⟩ := mem_scope.mp ha
    obtain ⟨m, hm⟩ := Option.isSome_iff_exists.mp hsome
    obtain ⟨hm, hmo⟩ := Option.filter_eq_some_iff.mp hm
    obtain ⟨d, hd, hdm⟩ := Option.bind_eq_some_iff.mp hm
    obtain ⟨howner, hkey, href⟩ := (hk.of_alike hg).of_mem_class hd hdm
    have hover : Overridable s.path.hierarchy m.ref := Overridable.of_alike hg.symm ⟨m, href, rfl, hmo⟩
    obtain ⟨hreach, hloaded⟩ := Hierarchy.mem_ancestors.mp hca
    have hfound : Answers s.path.hierarchy cls c m.ref :=
      { offered := ⟨k, hoffer, hkey.symm⟩
        ne := hne
        isInstance := Hierarchy.isInstance_iff.mp hinstance
        above := by
          show ReflTransGen _ c m.owner
          rw [howner]
          exact hreach
        overridable := hover }
    obtain ⟨b, hb, hx⟩ := hanswers c (ClassPath.mem_loaded.mp hc).1 m.ref hfound
    have hbelow : TransGen s.path.hierarchy.supertypeGraph.Edge b cls :=
      (Relation.reflTransGen_iff_eq_or_transGen.mp hx.isInstance).resolve_left (Ne.symm hx.ne)
    refine mem_scope.mpr ⟨b, ?_, hx.ne, Hierarchy.isInstance_iff.mpr hx.isInstance, ?_⟩
    · exact ClassPath.mem_loaded.mpr ⟨hb, Hierarchy.isSome_class?_of_transGen hbelow⟩
    · refine Hierarchy.mem_ancestors.mpr ⟨?_, hloaded⟩
      rw [← howner]
      exact hx.above

protected theorem Twin.unify (hk : Keyed s.path.hierarchy) (hs : Twin s s') (ht : Twin r r')
    (hl : Later s r) (hl' : Later s' r') (hexplored : Explored s.path cls)
    (hexplored' : Explored s'.path cls) (hasked : ∀ a ∈ s.path.asked, a ∈ s'.path.asked)
    (hanswers : ∀ a ∈ s'.path.asked, ∀ x, Answers s.path.hierarchy cls a x →
      ∃ b ∈ s.path.asked, Answers s.path.hierarchy cls b x) :
    Twin (r.unify cls) (r'.unify cls) where
  hierarchy := by
    have hprimary : r.path.isPrimary = r'.path.isPrimary := by
      unfold ClassPath.isPrimary
      rw [ht.primary]
    have hscope := hl'.scope_eq hexplored'
    rw [← hs.hierarchy] at hscope
    rw [hierarchy_unify, hierarchy_unify, hl.ask_eq_self hexplored, hl'.ask_eq_self hexplored',
      ← hprimary, ← ht.hierarchy]
    refine unifyInterface_congr fun k hoffer g hg => ?_
    rw [scope_eq_of_alike hl.alike, scope_eq_of_alike hl.alike, hl.scope_eq hexplored, hscope]
    obtain ⟨k', hk', href⟩ := hoffer.of_alike hl.alike.symm
    have hkey : k.key = k'.key := (congrArg MemberRef.key href).symm
    rw [hkey]
    exact (siblings_scope_eq hk hs hasked hanswers hk' (hl.alike.trans hg)).symm
  primary := by rw [primary_unify, primary_unify, ht.primary]
  findings := by rw [findings_unify, findings_unify, ht.findings]

end Run

/-- Class paths that differ at most in what has been asked for lead to the same
resolutions if all that answers to a method does so without that. -/
theorem twin_resolveArchive (names : Names) {p p' : ClassPath} (hp : p.hierarchy.AsRead)
    (hhierarchy : p'.hierarchy = p.hierarchy) (hprimary : p'.primary = p.primary)
    (hasked : ∀ a ∈ p.asked, a ∈ p'.asked) {classes : List String}
    (hanswers : ∀ cls ∈ classes, ∀ a ∈ p'.asked, ∀ x, Answers p.hierarchy cls a x →
      ∃ b, (b ∈ p.asked ∨ Reached p.hierarchy classes b) ∧ Answers p.hierarchy cls b x) :
    Twin ((start p).resolveArchive names classes) ((start p').resolveArchive names classes) := by
  have hp' : p'.hierarchy.AsRead := hhierarchy ▸ hp
  have hstart : Twin (start p) (start p') := ⟨hhierarchy.symm, hprimary.symm, rfl⟩
  have hresolved := (hstart.link classes).resolveAll names classes
  have halike : Alike p.hierarchy
      (classes.foldl (resolve names) ((start p).link classes)).path.hierarchy :=
    (alike_link (start p) classes).trans (alike_resolveAll names _ classes)
  refine (List.foldl_rel (r := fun r r' => Twin r r' ∧ Later _ r ∧ Later _ r')
    ⟨hresolved, .refl _, .refl _⟩ fun cls hcls r r' ⟨ht, hl, hl'⟩ => ?_).1
  have hexplored := explored_resolved names hp hcls
  have hexplored' := explored_resolved names hp' hcls
  refine ⟨Twin.unify (hp.keyed.of_alike halike) hresolved ht hl hl' hexplored hexplored' ?_ ?_,
    hl.unify hexplored, hl'.unify hexplored'⟩
  · intro a ha
    rw [mem_asked_resolved_iff hp] at ha
    rw [mem_asked_resolved_iff hp', hhierarchy]
    exact ha.imp_left (hasked a)
  · intro a ha x hx
    rw [mem_asked_resolved_iff hp', hhierarchy] at ha
    have hread := hx.of_alike halike.symm
    obtain ⟨b, hb, hbx⟩ : ∃ b, (b ∈ p.asked ∨ Reached p.hierarchy classes b) ∧
        Answers p.hierarchy cls b x := by
      rcases ha with ha | ha
      · exact hanswers cls hcls a ha x hread
      · exact ⟨a, Or.inr ha, hread⟩
    exact ⟨b, (mem_asked_resolved_iff hp).mpr hb, hbx.of_alike halike⟩

end Resolution

/-! ## Metadata -/

namespace Metadata

open Hierarchy (SameBut)
open Resolution (Answers Reached Twin)

/-- The entry without the roots of methods and the names that are forced on
them. -/
def ClassEntry.sansUnity (e : ClassEntry) : ClassEntry :=
  { e with methods := e.methods.map fun _ m => { m with overrides := ∅, force := none } }

/-- Metadata without roots and without forced names of methods. -/
def sansUnity (m : Metadata) : Metadata := ⟨m.classes.map fun _ => ClassEntry.sansUnity⟩

theorem ClassEntry.sansUnity_ofNode (c : ClassNode) : (ofNode c).sansUnity =
    { ofNode c.header with
      methods := (c.methods.map fun _ => MethodNode.sansUnity).map fun _ => .ofNode } := by
  have hmethods : (ofNode c).sansUnity.methods =
      (c.methods.map fun _ => MethodNode.sansUnity).map fun _ => .ofNode := by
    refine ExtTreeMap.ext_getElem? fun key => ?_
    simp only [sansUnity, ofNode, ExtTreeMap.getElem?_map, Option.map_map]
    rfl
  rw [← hmethods]
  rfl

/-- Without roots and forced names the entry of a class shows no more than does a
hierarchy without them. -/
theorem map_sansUnity_ofNode {h h' : Hierarchy} (hh : SameBut MethodNode.sansUnity h h')
    (name : String) : ((h.class? name).map ClassEntry.ofNode).map ClassEntry.sansUnity =
      ((h'.class? name).map ClassEntry.ofNode).map ClassEntry.sansUnity := by
  have hview := congrArg (Option.map fun v : ClassNode × ExtTreeMap String MethodNode =>
    { ClassEntry.ofNode v.1 with methods := v.2.map fun _ => MethodEntry.ofNode }) (hh name)
  rw [Option.map_map, Option.map_map] at hview
  rw [Option.map_map, Option.map_map,
    show ClassEntry.sansUnity ∘ ClassEntry.ofNode = _ from funext ClassEntry.sansUnity_ofNode]
  exact hview

theorem getElem?_collect_resolveArchive (names : Names) (p : ClassPath) (classes : List String)
    (name : String) :
    (collect ((Resolution.start p).resolveArchive names classes).path classes).classes[name]? =
      if name ∈ classes then
        (((Resolution.start p).resolveArchive names classes).path.hierarchy.class? name).map
          ClassEntry.ofNode
      else none := by
  rw [getElem?_collect]
  split
  · next hname =>
    rw [ClassPath.peek?, if_pos (Resolution.mem_asked_resolveArchive names _ hname)]
  · rfl

/-- Lookups made after a class path has been filled and before its archive is
resolved change nothing of what is found and of the metadata but roots and forced
names.  They do not change these, either, if each method that answers through a
class that was asked for answers through one that the archive leads to. -/
theorem collect_after_lookups (names : Names) (tables : List ClassTable) (archives : List Entries)
    (classes : List String) (questions : List ClassPath.Question) :
    let cold := ((ClassPath.ofSources tables).registerAll archives).2
    let warm := cold.consultAll questions
    let r := (Resolution.start cold).resolveArchive names classes
    let r' := (Resolution.start warm).resolveArchive names classes
    r'.findings = r.findings ∧
      (collect r'.path classes).sansUnity = (collect r.path classes).sansUnity ∧
      ((∀ cls ∈ classes, ∀ a ∈ warm.asked, ∀ x, Answers cold.hierarchy cls a x →
          ∃ b, Reached cold.hierarchy classes b ∧ Answers cold.hierarchy cls b x) →
        collect r'.path classes = collect r.path classes) := by
  intro cold warm r r'
  have hread := ClassPath.asRead_registerAll tables archives
  have hunasked := ((ClassPath.holds_ofSources tables).registerAll archives).unasked
  obtain ⟨hhierarchy, hprimary⟩ := cold.hierarchy_consultAll questions
  have htwin : Twin (Resolution.start cold) (Resolution.start warm) :=
    ⟨hhierarchy.symm, hprimary.symm, rfl⟩
  have hresolved := (htwin.link classes).resolveAll names classes
  refine ⟨?_, ?_, fun hanswers => ?_⟩
  · show (classes.foldl Resolution.unify _).findings = (classes.foldl Resolution.unify _).findings
    rw [Resolution.findings_unifyAll, Resolution.findings_unifyAll]
    exact hresolved.findings.symm
  · have hsame : SameBut MethodNode.sansUnity r'.path.hierarchy r.path.hierarchy := by
      have hunified : ∀ s : Resolution, SameBut MethodNode.sansUnity s.path.hierarchy
          (classes.foldl Resolution.unify s).path.hierarchy := fun s =>
        List.foldlRecOn (motive := fun t : Resolution =>
          SameBut MethodNode.sansUnity s.path.hierarchy t.path.hierarchy) _ _ (.refl _)
          fun t ht cls _ => ht.trans (Resolution.sameBut_unify t cls)
      refine (hunified _).symm.trans ?_
      rw [← hresolved.hierarchy]
      exact hunified _
    refine congrArg Metadata.mk (ExtTreeMap.ext_getElem? fun name => ?_)
    rw [ExtTreeMap.getElem?_map, ExtTreeMap.getElem?_map, getElem?_collect_resolveArchive,
      getElem?_collect_resolveArchive]
    split
    · exact map_sansUnity_ofNode hsame name
    · rfl
  · have hrun := Resolution.twin_resolveArchive names hread hhierarchy hprimary
      (fun a ha => absurd ha (hunasked a)) fun cls hcls a ha x hx =>
        have ⟨b, hb, hbx⟩ := hanswers cls hcls a ha x hx
        ⟨b, Or.inr hb, hbx⟩
    have hentry : ∀ name : String,
        (collect r'.path classes).classes[name]? = (collect r.path classes).classes[name]? := by
      intro name
      rw [getElem?_collect_resolveArchive, getElem?_collect_resolveArchive, hrun.hierarchy]
    exact congrArg Metadata.mk (ExtTreeMap.ext_getElem? fun name => hentry name)

namespace Sample

open Resolution.Sample (archive base plain run task)

/-- A class outside the primary archive that does the task. -/
def outsider : Assembly.Sketch :=
  plain "Outsider" none [.interface "Task", run [.pub] [.op 0xB1]]

def taskArchives : List Entries := [(archive [task], true), (archive [base, outsider], false)]

def cold : ClassPath := ((ClassPath.ofSources []).registerAll taskArchives).2

/-- The metadata of the task after some lookups. -/
def taskAfter (questions : List ClassPath.Question) : Metadata :=
  collect ((Resolution.start (cold.consultAll questions)).resolveArchive .asWritten ["Task"]).path
    ["Task"]

/-- Looking up a class that has nothing to do with the task leaves the metadata as
it is. -/
theorem taskAfter_base :
    let questions := [.get "Base", .peek "Outsider", .isInstance "Base" "Task"]
    (∀ cls ∈ ["Task"], ∀ a ∈ (cold.consultAll questions).asked, ∀ x,
      Answers cold.hierarchy cls a x → ∃ b, Reached cold.hierarchy ["Task"] b ∧
        Answers cold.hierarchy cls b x) ∧ taskAfter questions = taskAfter [] := by
  intro questions
  have hsupertypes : cold.hierarchy.supertypes? "Base" = some [] := by decide +kernel
  have hreach : ∀ a, ReflTransGen cold.hierarchy.supertypeGraph.Edge "Base" a → a = "Base" := by
    intro a ha
    rcases ReflTransGen.cases_head ha with rfl | ⟨b, ⟨l, hl, hb⟩, _⟩
    · rfl
    · cases hl.symm.trans hsupertypes
      cases hb
  have hasked : ∀ a ∈ (cold.consultAll questions).asked, a = "Base" := by
    intro a ha
    have hunasked := ((ClassPath.holds_ofSources []).registerAll taskArchives).unasked a
    rcases ClassPath.mem_asked_ask.mp ha with ha | ha
    · exact List.mem_singleton.mp ((ClassPath.mem_asked_ask.mp ha).resolve_left hunasked)
    · exact hreach a (Hierarchy.mem_lineage.mp (List.takeWhile_subset _ ha))
  have hanswers : ∀ cls ∈ ["Task"], ∀ a ∈ (cold.consultAll questions).asked, ∀ x,
      Answers cold.hierarchy cls a x → ∃ b, Reached cold.hierarchy ["Task"] b ∧
        Answers cold.hierarchy cls b x := by
    intro cls hcls a ha x hx
    have hinstance := hx.isInstance
    rw [List.mem_singleton.mp hcls, hasked a ha] at hinstance
    exact absurd (hreach "Task" hinstance) (by decide)
  exact ⟨hanswers,
    (collect_after_lookups .asWritten [] taskArchives ["Task"] questions).2.2 hanswers⟩

/-- The name that is forced on the task. -/
def forced? (m : Metadata) : Option (Option String) :=
  ((m.classes["Task"]?).bind fun e => e.methods["run()V"]?).map MethodEntry.force

set_option maxRecDepth 10000 in
/-- A lookup of the class outside fixes the name of the task. -/
theorem taskAfter_outsider : forced? (taskAfter [.get "Outsider"]) = some (some "run") ∧
    forced? (taskAfter []) = some none := by
  simp only [forced?, taskAfter, ClassPath.consultAll, Resolution.resolveArchive,
    Resolution.link, List.foldl_cons, List.foldl_nil, Resolution.resolve_eq_resolving,
    Resolution.unify_eq_unifying]
  decide +kernel

theorem taskAfter_outsider_ne : taskAfter [.get "Outsider"] ≠ taskAfter [] := by
  intro hsame
  obtain ⟨hwarm, hcold⟩ := taskAfter_outsider
  rw [hsame, hcold] at hwarm
  cases hwarm

end Sample

end Metadata
end Lineage
