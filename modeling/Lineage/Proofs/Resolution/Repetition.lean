import Lineage.Proofs.Metadata.Shape
import Lineage.Proofs.Resolution.Changes
import Lineage.Proofs.Resolution.Forwarding
import Lineage.Proofs.Resolution.Unification

/-!
Resolving an archive twice.

The second time everything has been asked for and everything is resolved, so
only the first and the last of the three rounds do something.  Bouncers are
linked to the methods that they have been pointed to in between, which is not
handed on.  And unifying makes the changes that it has made before, since class
files tell them and the scope of an interface is what it was.
-/

namespace Lineage

open Std (ExtTreeMap ExtTreeSet)
open Relation (ReflTransGen)

namespace Resolution

open Hierarchy (Alike SameBut)

/-! ## Resolving what is resolved -/

theorem resolve_eq_self (names : Names) {r : Resolution} {cls : String}
    (hresolved : (r.path.hierarchy.class? cls).isSome → r.path.hierarchy.isResolved cls)
    (hexplored : Explored r.path cls) : r.resolve names cls = r := by
  have hask : r.path.ask (r.path.hierarchy.lineage cls) = r.path :=
    ClassPath.ask_eq_self fun a ha => hexplored a (Graph.mem_breadthFirst_iff.mp ha)
  have hnext : (unresolvedGraph r.path.hierarchy).next cls = none := by
    rw [← Option.not_isSome_iff_eq_none, isSome_next_unresolvedGraph]
    exact fun h => h.2 (hresolved h.1)
  have hevents : (unresolvedGraph r.path.hierarchy).traversal cls = [] := by
    rw [Graph.traversal, Graph.run]
    split
    · rw [Graph.run]
    · next l hl => cases hnext.symm.trans hl
  show ((unresolvedGraph r.path.hierarchy).traversal cls).foldl (handle names)
    { r with path := r.path.ask (r.path.hierarchy.lineage cls) } = r
  rw [hevents, hask, List.foldl_nil]

theorem resolveAll_eq_self (names : Names) {r : Resolution} {classes : List String}
    (h : ∀ cls ∈ classes, ((r.path.hierarchy.class? cls).isSome →
      r.path.hierarchy.isResolved cls) ∧ Explored r.path cls) :
    classes.foldl (resolve names) r = r :=
  List.foldlRecOn (motive := fun s : Resolution => s = r) classes (resolve names) rfl
    fun s hs cls hcls => by
      rw [hs]
      exact resolve_eq_self names (h cls hcls).1 (h cls hcls).2

/-! ## Unifying what has been unified -/

section Unify

variable {s r : Resolution} {classes : List String}

/-- The changes that the interfaces of an archive tell. -/
def archiveChanges (s : Resolution) (classes : List String) : List (MemberRef × Change) :=
  classes.flatMap fun cls =>
    interfaceChanges s.path.isPrimary s.path.loaded cls s.path.hierarchy

theorem Later.hierarchy_unify (hl : Later s r) (hprimary : r.path.primary = s.path.primary)
    {cls : String} (hexplored : Explored s.path cls) :
    (r.unify cls).path.hierarchy = r.path.hierarchy.changeAll
      (interfaceChanges s.path.isPrimary s.path.loaded cls s.path.hierarchy) := by
  have hisPrimary : r.path.isPrimary = s.path.isPrimary := by
    unfold ClassPath.isPrimary
    rw [hprimary]
  rw [Resolution.hierarchy_unify, unifyInterface_eq, interfaceChanges_eq hl.alike,
    hl.ask_eq_self hexplored, hisPrimary]
  unfold interfaceChanges
  rw [hl.scope_eq hexplored]

/-- Unifying some interfaces makes the same changes, now or later. -/
theorem Later.hierarchy_unifyAll (hl : Later s r) (hprimary : r.path.primary = s.path.primary)
    (hexplored : ∀ cls ∈ classes, Explored s.path cls) :
    (classes.foldl Resolution.unify r).path.hierarchy =
      r.path.hierarchy.changeAll (archiveChanges s classes) := by
  induction classes generalizing r with
  | nil => rfl
  | cons cls classes ih =>
    have hcls := hexplored cls List.mem_cons_self
    have hrest := ih (hl.unify hcls) (primary_unify.trans hprimary)
      fun c hc => hexplored c (List.mem_cons_of_mem cls hc)
    rw [List.foldl_cons, hrest, hl.hierarchy_unify hprimary hcls, ← Hierarchy.changeAll_append]
    rfl

theorem Asks.unifyAll (hexplored : ∀ cls ∈ classes, Explored s.path cls) :
    Asks s classes (classes.foldl unify s) := by
  induction classes using List.reverseRecOn with
  | nil => exact .refl s
  | append_singleton classes cls ih =>
    rw [List.foldl_append]
    exact (ih fun c hc => hexplored c (List.mem_append_left _ hc)).unify
      (hexplored cls (by simp))

/-- Unifying an interface once more asks for nothing. -/
theorem Asks.asked_unify (ha : Asks s classes r) (hexplored : ∀ cls ∈ classes, Explored s.path cls)
    {cls : String} (hcls : cls ∈ classes) :
    Asks s classes (r.unify cls) ∧ (r.unify cls).path.asked = r.path.asked := by
  have hunify := ha.unify (hexplored cls hcls)
  have hmem : ∀ c, c ∈ classes ++ [cls] ↔ c ∈ classes := fun c => by
    rw [List.mem_append, List.mem_singleton, or_iff_left_of_imp fun h => h ▸ hcls]
  have hasked := hunify.asked
  simp only [hmem] at hasked
  exact ⟨⟨hunify.alike, hasked⟩, ExtTreeSet.ext_mem fun a => by rw [hasked, ha.asked]⟩

theorem Asks.asked_unifyAll (ha : Asks s classes r)
    (hexplored : ∀ cls ∈ classes, Explored s.path cls) :
    (classes.foldl unify r).path.asked = r.path.asked :=
  (List.foldlRecOn (motive := fun q : Resolution => Asks s classes q ∧
    q.path.asked = r.path.asked) classes unify ⟨ha, rfl⟩ fun _ hq _ hcls =>
      ⟨(hq.1.asked_unify hexplored hcls).1, (hq.1.asked_unify hexplored hcls).2.trans hq.2⟩).2

end Unify

/-! ## The second time -/

section Twice

variable {path : ClassPath} {classes : List String}

/-- What bouncers have been pointed to has been asked for. -/
theorem mem_asked_of_bounce (names : Names) (hp : path.hierarchy.AsRead) {cls : String}
    (hcls : cls ∈ classes) {b : MemberRef × MemberRef}
    (hb : b ∈ bouncesOf ((start path).resolveArchive names classes).path.hierarchy cls) :
    b.2.owner ∈ ((start path).resolveArchive names classes).path.asked := by
  have halike := alike_resolveArchive names (start path) classes
  obtain ⟨rfl, m, bounce, hm, _, hbounce, htarget⟩ :=
    (mem_bouncesOf (hp.keyed.of_alike halike)).mp hb
  have haim : ((start path).resolveArchive names classes).path.hierarchy.aim? b.1 = some b.2 :=
    Hierarchy.aim?_eq_some.mpr ⟨m, hm, by rw [MethodNode.aim?, hbounce, Option.map_some, htarget]⟩
  obtain ⟨m₀, hm₀, hbare⟩ := halike.symm.exists_method hm
  have hbouncer : (m₀.bounce).isSome := by
    have hsome := congrArg (fun n : MethodNode => n.bounce.isSome) hbare
    simp only [MethodNode.bare, Option.isSome_map] at hsome
    rw [← hsome, hbounce]
    rfl
  obtain ⟨bounce₀, hbounce₀⟩ := Option.isSome_iff_exists.mp hbouncer
  have haim₀ : path.hierarchy.aim? b.1 = some bounce₀.target :=
    Hierarchy.aim?_eq_some.mpr ⟨m₀, hm₀, by rw [MethodNode.aim?, hbounce₀, Option.map_some]⟩
  rw [aim?_resolveArchive names hp hcls haim₀] at haim
  have hnamed : ReflTransGen path.hierarchy.supertypeGraph.Edge b.1.owner bounce₀.target.owner := by
    rcases hp.target_of_bounce hm₀ hbounce₀ with howner | hedge
    · rw [howner]
    · exact .single hedge
  rw [← Option.some.inj haim]
  exact mem_asked_of_reaches names hcls (hnamed.trans reaches_destination)

/-- Linking once more asks for nothing. -/
theorem asked_link_resolveArchive (names : Names) (hp : path.hierarchy.AsRead) :
    (((start path).resolveArchive names classes).link classes).path.asked =
      ((start path).resolveArchive names classes).path.asked := by
  unfold link
  dsimp only
  rw [ClassPath.ask_eq_self fun a ha => ?_]
  rcases List.mem_append.mp ha with ha | ha
  · exact mem_asked_resolveArchive names (start path) ha
  · obtain ⟨b, hb, rfl⟩ := List.mem_map.mp ha
    obtain ⟨cls, hcls, hb⟩ := List.mem_flatMap.mp hb
    exact mem_asked_of_bounce names hp hcls hb

/-- Between two resolutions, only the bouncers that methods know have
changed. -/
structure Relinked (r r' : Resolution) : Prop where
  hierarchy : SameBut MethodNode.sansForwarders r.path.hierarchy r'.path.hierarchy
  asked : r'.path.asked = r.path.asked
  findings : r'.findings = r.findings

theorem relinked_resolveArchive (names : Names) (hp : path.hierarchy.AsRead)
    (classes : List String) :
    let once := (start path).resolveArchive names classes
    Relinked once (once.resolveArchive names classes) := by
  intro once
  let s := classes.foldl (resolve names) ((start path).link classes)
  let linked := once.link classes
  have hstart : Alike path.hierarchy s.path.hierarchy :=
    (alike_link (start path) classes).trans (alike_resolveAll names _ classes)
  have halike : Alike path.hierarchy linked.path.hierarchy :=
    (alike_resolveArchive names (start path) classes).trans (alike_link once classes)
  have hasked : linked.path.asked = once.path.asked := asked_link_resolveArchive names hp
  have hexplored : ∀ cls ∈ classes, Explored s.path cls := fun cls hcls a ha => by
    rw [← (alike_resolveAll names _ classes).supertypeGraph] at ha
    exact (AtRest.mem_asked_resolveAll names).mpr (Or.inr ⟨cls, hcls, ha⟩)
  have honce : Asks s classes once := .unifyAll hexplored
  have hlinked : Asks s classes linked :=
    ⟨hstart.symm.trans halike, fun a => by rw [hasked, honce.asked]⟩
  have hprimary : ∀ q : Resolution, q.path.primary = s.path.primary → ∀ cs : List String,
      (cs.foldl unify q).path.primary = s.path.primary := fun q hq cs =>
    List.foldlRecOn (motive := fun q : Resolution => q.path.primary = s.path.primary) cs unify hq
      fun _ hq _ _ => primary_unify.trans hq
  have hsettled : classes.foldl (resolve names) linked = linked := by
    refine resolveAll_eq_self names fun cls hcls => ⟨fun hsome => ?_, fun a ha => ?_⟩
    · rw [← halike.isSome_class?] at hsome
      rw [(sameBut_link once classes).isResolved]
      exact (AtRest.of_asRead hp).isResolved_resolveArchive (r := start path) names hcls .refl hsome
    · rw [← halike.supertypeGraph] at ha
      rw [hasked]
      exact mem_asked_of_reaches names hcls ha
  have htwice : once.resolveArchive names classes = classes.foldl unify linked := by
    rw [resolveArchive, hsettled]
  refine
    { hierarchy := ?_
      asked := ?_
      findings := ?_ }
  · have hfirst : once.path.hierarchy = s.path.hierarchy.changeAll (archiveChanges s classes) :=
      (Later.refl s).hierarchy_unifyAll rfl hexplored
    have hsecond := hlinked.later.hierarchy_unifyAll (hprimary s rfl classes) hexplored
    -- The first run has made all changes that the second one makes.
    have hdone :
        once.path.hierarchy.changeAll (archiveChanges s classes) = once.path.hierarchy := by
      rw [hfirst, Hierarchy.changeAll_changeAll]
    rw [htwice, hsecond]
    have hsame := (sameBut_link once classes).changeAll (archiveChanges s classes)
    rwa [hdone] at hsame
  · rw [htwice, hlinked.asked_unifyAll hexplored, hasked]
  · rw [htwice, findings_unifyAll]
    rfl

end Twice

namespace Relinked

variable {r r' : Resolution}

theorem missing (h : Relinked r r') : r'.path.missing = r.path.missing := by
  have halike : Alike r.path.hierarchy r'.path.hierarchy := h.hierarchy.alike_of fun _ => rfl
  have hnone : ∀ n, (r'.path.hierarchy.class? n).isNone = (r.path.hierarchy.class? n).isNone :=
    fun n => by rw [← Option.not_isSome, ← Option.not_isSome, halike.isSome_class?]
  unfold ClassPath.missing
  simp only [h.asked, hnone]

theorem allFindings (h : Relinked r r') : r'.allFindings = r.allFindings := by
  rw [Resolution.allFindings, Resolution.allFindings, h.findings, h.missing]

/-- An entry does not show the bouncers that methods know. -/
theorem map_ofNode (h : Relinked r r') (name : String) :
    (r'.path.hierarchy.class? name).map Metadata.ClassEntry.ofNode =
      (r.path.hierarchy.class? name).map Metadata.ClassEntry.ofNode := by
  have hname := congrArg (Option.map fun p : ClassNode × ExtTreeMap String MethodNode =>
    Metadata.ClassEntry.ofNode { p.1 with methods := p.2 }) (h.hierarchy name)
  have hentry : ∀ c : ClassNode, Metadata.ClassEntry.ofNode
      { c.header with methods := c.methods.map fun _ => MethodNode.sansForwarders } =
        Metadata.ClassEntry.ofNode c := fun c => by
    have hmethods := map_map_of_eq c.methods (f := fun _ => MethodNode.sansForwarders)
      (g := Metadata.MethodEntry.ofNode) fun _ _ => rfl
    exact congrArg (fun methods => { Metadata.ClassEntry.ofNode c with methods }) hmethods
  simp only [Option.map_map, Function.comp_def, hentry] at hname
  exact hname.symm

theorem collect (h : Relinked r r') (classes : List String) :
    Metadata.collect r'.path classes = Metadata.collect r.path classes := by
  have hpeek : ∀ name, (r'.path.peek? name).map Metadata.ClassEntry.ofNode =
      (r.path.peek? name).map Metadata.ClassEntry.ofNode := fun name => by
    unfold ClassPath.peek?
    rw [h.asked]
    split
    · exact h.map_ofNode name
    · rfl
  have hclasses : (Metadata.collect r'.path classes).classes =
      (Metadata.collect r.path classes).classes := ExtTreeMap.ext_getElem? fun name => by
    rw [Metadata.getElem?_collect, Metadata.getElem?_collect, hpeek]
  exact congrArg Metadata.mk hclasses

end Relinked

/-- Resolving an archive once more changes nothing about what is handed on: not
the metadata, not the findings, and not what is missing. -/
theorem resolveArchive_again (names : Names) (sources : List ClassTable)
    (requests : List ClassPath.Request) (classes : List String) :
    let once := (start (.afterRequests sources requests)).resolveArchive names classes
    let twice := once.resolveArchive names classes
    Metadata.collect twice.path classes = Metadata.collect once.path classes ∧
      twice.findings = once.findings ∧ twice.allFindings = once.allFindings ∧
      twice.path.missing = once.path.missing := by
  intro once twice
  have hrelinked : Relinked once twice :=
    relinked_resolveArchive names (ClassPath.asRead_afterRequests sources requests) classes
  exact ⟨hrelinked.collect classes, hrelinked.findings, hrelinked.allFindings, hrelinked.missing⟩

end Resolution
end Lineage
