import Lineage.Proofs.Resolution.Orders
import Lineage.Proofs.Resolution.Unity

/-!
Unifying the interfaces of an archive, in any order.

Unifying an interface asks for all that is above the classes asked for before,
and so the next interface finds more classes.  Its scope is the same, though.
What was asked for late is above a class asked for before, and if this is not
the interface itself its ancestors are in the scope anyway.  All that is above
the interface itself was asked for when it was resolved.
-/

namespace Lineage

open Std (ExtTreeMap ExtTreeSet)
open Relation (ReflTransGen)

namespace Resolution

open Hierarchy (Alike Keyed SameBut Unified)

/-! ## One step -/

section Step

variable {r : Resolution} {cls : String}

theorem mem_asked_unify_iff {a : String} : a ∈ (r.unify cls).path.asked ↔
    a ∈ (r.path.ask [cls]).asked ∨ (∃ k, Offers r.path.hierarchy cls k) ∧
      ∃ c ∈ (r.path.ask [cls]).loaded, c ≠ cls ∧
        ReflTransGen r.path.hierarchy.supertypeGraph.Edge c a := by
  unfold unify
  dsimp only
  split
  · next hoffers =>
    have hoffers : ∃ k, Offers r.path.hierarchy cls k := exists_offers_iff.mp hoffers
    rw [ClassPath.mem_asked_ask, and_iff_right hoffers]
    simp [ClassPath.ask, Hierarchy.mem_lineage, and_assoc]
  · next hno =>
    rw [exists_offers_iff] at hno
    exact (or_iff_left fun h => hno h.1).symm

theorem registered_unify : (r.unify cls).path.registered = r.path.registered := by
  unfold unify
  dsimp only
  split <;> rfl

theorem primary_unify : (r.unify cls).path.primary = r.path.primary := by
  unfold unify
  dsimp only
  split <;> rfl

/-- Classes above those that were there before do not make the scope of an
interface larger, unless they are new and above the interface itself. -/
theorem scope_eq_of_above {h : Hierarchy} {loaded later : List String}
    (hsub : ∀ c ∈ loaded, c ∈ later)
    (habove : ∀ c ∈ later, ∃ b ∈ loaded, ReflTransGen h.supertypeGraph.Edge b c)
    (hown : ∀ c ∈ later, ReflTransGen h.supertypeGraph.Edge cls c → c ∈ loaded) :
    scope h later cls = scope h loaded cls := by
  refine ExtTreeSet.ext_mem fun a => ?_
  rw [mem_scope, mem_scope]
  constructor
  · rintro ⟨c, hc, hne, hinstance, ha⟩
    obtain ⟨b, hb, hbc⟩ := habove c hc
    by_cases hbcls : b = cls
    · exact ⟨c, hown c hc (hbcls ▸ hbc), hne, hinstance, ha⟩
    · rw [Hierarchy.isInstance_iff] at hinstance
      rw [Hierarchy.mem_ancestors] at ha
      exact ⟨b, hb, hbcls, Hierarchy.isInstance_iff.mpr (hbc.trans hinstance),
        Hierarchy.mem_ancestors.mpr ⟨hbc.trans ha.1, ha.2⟩⟩
  · rintro ⟨c, hc, hrest⟩
    exact ⟨c, hsub c hc, hrest⟩

end Step

/-! ## What is asked for -/

/-- All that can be reached from the class has been asked for. -/
def Explored (p : ClassPath) (cls : String) : Prop :=
  ∀ a, ReflTransGen p.hierarchy.supertypeGraph.Edge cls a → a ∈ p.asked

/-- `r` is `s` later on.  Nothing has been asked for since but what is above a class
asked for before. -/
structure Later (s r : Resolution) : Prop where
  alike : Alike s.path.hierarchy r.path.hierarchy
  asked : ∀ a ∈ s.path.asked, a ∈ r.path.asked
  above : ∀ a ∈ r.path.asked,
    ∃ b ∈ s.path.asked, ReflTransGen s.path.hierarchy.supertypeGraph.Edge b a

namespace Later

variable {s r : Resolution} {cls : String}

theorem refl (s : Resolution) : Later s s where
  alike := .refl _
  asked _ ha := ha
  above a ha := ⟨a, ha, .refl⟩

theorem mem_loaded (hl : Later s r) {a : String} (ha : a ∈ s.path.loaded) :
    a ∈ r.path.loaded := by
  rw [ClassPath.mem_loaded] at ha ⊢
  exact ⟨hl.asked a ha.1, hl.alike.isSome_class? a ▸ ha.2⟩

/-- What is loaded late is above what was loaded before. -/
theorem exists_loaded (hl : Later s r) {a : String} (ha : a ∈ r.path.loaded) :
    ∃ b ∈ s.path.loaded, ReflTransGen s.path.hierarchy.supertypeGraph.Edge b a := by
  rw [ClassPath.mem_loaded, ← hl.alike.isSome_class?] at ha
  obtain ⟨b, hb, hba⟩ := hl.above a ha.1
  exact ⟨b, ClassPath.mem_loaded.mpr ⟨hb, Hierarchy.isSome_class?_of_reaches hba ha.2⟩, hba⟩

theorem ask_eq_self (hl : Later s r) (hexplored : Explored s.path cls) :
    r.path.ask [cls] = r.path := by
  refine ClassPath.ask_eq_self fun a ha => ?_
  rw [List.mem_singleton.mp ha]
  exact hl.asked cls (hexplored cls .refl)

theorem scope_eq (hl : Later s r) (hexplored : Explored s.path cls) :
    scope s.path.hierarchy r.path.loaded cls = scope s.path.hierarchy s.path.loaded cls :=
  scope_eq_of_above (fun _ => hl.mem_loaded) (fun _ => hl.exists_loaded) fun c hc hreach =>
    ClassPath.mem_loaded.mpr ⟨hexplored c hreach,
      hl.alike.isSome_class? c ▸ (ClassPath.mem_loaded.mp hc).2⟩

theorem unify (hl : Later s r) (hexplored : Explored s.path cls) : Later s (r.unify cls) where
  alike := hl.alike.trans (alike_unify r cls)
  asked a ha := mem_asked_unify (hl.asked a ha) cls
  above a ha := by
    rw [mem_asked_unify_iff, hl.ask_eq_self hexplored, ← hl.alike.supertypeGraph] at ha
    rcases ha with ha | ⟨_, c, hc, _, hca⟩
    · exact hl.above a ha
    · obtain ⟨b, hb, hbc⟩ := hl.above c (ClassPath.mem_loaded.mp hc).1
      exact ⟨b, hb, hbc.trans hca⟩

end Later

/-- `r` is `s` when some interfaces have been unified.  If any of them offers a
method, all that is above the classes loaded in `s` has been asked for, and
nothing else has. -/
structure Asks (s : Resolution) (classes : List String) (r : Resolution) : Prop where
  alike : Alike s.path.hierarchy r.path.hierarchy
  asked : ∀ a, a ∈ r.path.asked ↔ a ∈ s.path.asked ∨
    (∃ cls ∈ classes, ∃ k, Offers s.path.hierarchy cls k) ∧
      ∃ c ∈ s.path.loaded, ReflTransGen s.path.hierarchy.supertypeGraph.Edge c a

namespace Asks

variable {s r : Resolution} {cls : String} {classes : List String}

theorem refl (s : Resolution) : Asks s [] s where
  alike := .refl _
  asked a := by simp

theorem later (ha : Asks s classes r) : Later s r where
  alike := ha.alike
  asked a hasked := (ha.asked a).mpr (Or.inl hasked)
  above a hasked := by
    rcases (ha.asked a).mp hasked with hasked | ⟨_, b, hb, hba⟩
    · exact ⟨a, hasked, .refl⟩
    · exact ⟨b, (ClassPath.mem_loaded.mp hb).1, hba⟩

theorem exists_offers_iff (ha : Asks s classes r) :
    (∃ k, Offers r.path.hierarchy cls k) ↔ ∃ k, Offers s.path.hierarchy cls k := by
  constructor <;> rintro ⟨k, hk⟩
  · obtain ⟨m, hm, _⟩ := hk.of_alike ha.alike.symm
    exact ⟨m, hm⟩
  · obtain ⟨m, hm, _⟩ := hk.of_alike ha.alike
    exact ⟨m, hm⟩

protected theorem unify (ha : Asks s classes r) (hexplored : Explored s.path cls) :
    Asks s (classes ++ [cls]) (r.unify cls) where
  alike := ha.alike.trans (alike_unify r cls)
  asked a := by
    rw [mem_asked_unify_iff, ha.later.ask_eq_self hexplored, ha.asked, ha.exists_offers_iff,
      ← ha.alike.supertypeGraph]
    constructor
    · rintro ((hasked | ⟨⟨c, hc, hoffers⟩, hbelow⟩) | ⟨hoffers, c, hc, _, hca⟩)
      · exact Or.inl hasked
      · exact Or.inr ⟨⟨c, List.mem_append_left _ hc, hoffers⟩, hbelow⟩
      · obtain ⟨b, hb, hbc⟩ := ha.later.exists_loaded hc
        exact Or.inr ⟨⟨cls, by simp, hoffers⟩, b, hb, hbc.trans hca⟩
    · rintro (hasked | ⟨⟨c, hc, hoffers⟩, b, hb, hba⟩)
      · exact Or.inl (Or.inl hasked)
      · rcases List.mem_append.mp hc with hc | hc
        · exact Or.inl (Or.inr ⟨⟨c, hc, hoffers⟩, b, hb, hba⟩)
        · rw [List.mem_singleton.mp hc] at hoffers
          by_cases hbcls : b = cls
          · exact Or.inl (Or.inl (hexplored a (hbcls ▸ hba)))
          · exact Or.inr ⟨hoffers, b, ha.later.mem_loaded hb, hbcls, hba⟩

end Asks

/-! ## A run -/

/-- `r` is `s` where the methods of some interfaces have been unified.  Classes
above those loaded in `s` may have been asked for. -/
structure Unifies (s : Resolution) (classes : List String) (r : Resolution) : Prop where
  findings : r.findings = s.findings
  registered : r.path.registered = s.path.registered
  primary : r.path.primary = s.path.primary
  asked : ∀ a, a ∈ r.path.asked ↔ a ∈ s.path.asked ∨
    (∃ cls ∈ classes, ∃ k, Offers s.path.hierarchy cls k) ∧
      ∃ c ∈ s.path.loaded, ReflTransGen s.path.hierarchy.supertypeGraph.Edge c a
  hierarchy : Unified (fun m x => ∃ cls ∈ classes, Gains s.path cls m x)
    (fun m => ∃ cls ∈ classes, Keeps s.path cls m) s.path.hierarchy r.path.hierarchy

namespace Unifies

variable {s r r' : Resolution} {cls : String} {classes classes' : List String}

theorem refl (s : Resolution) : Unifies s [] s where
  findings := rfl
  registered := rfl
  primary := rfl
  asked := (Asks.refl s).asked
  hierarchy := (Unified.refl _).congr (by simp) (by simp)

theorem asks (hu : Unifies s classes r) : Asks s classes r where
  alike := hu.hierarchy.sameBut.alike_of fun _ => rfl
  asked := hu.asked

theorem later (hu : Unifies s classes r) : Later s r := hu.asks.later

theorem hierarchy_unify (hu : Unifies s classes r) (hexplored : Explored s.path cls) :
    (r.unify cls).path.hierarchy =
      unifyInterface s.path.isPrimary s.path.loaded cls r.path.hierarchy := by
  have hprimary : r.path.isPrimary = s.path.isPrimary := by
    unfold ClassPath.isPrimary
    rw [hu.primary]
  rw [Resolution.hierarchy_unify, hu.later.ask_eq_self hexplored, hprimary]
  unfold unifyInterface
  rw [scope_eq_of_alike hu.asks.alike, scope_eq_of_alike hu.asks.alike,
    hu.later.scope_eq hexplored]

protected theorem unify (hu : Unifies s classes r) (hk : Keyed s.path.hierarchy)
    (hexplored : Explored s.path cls) (hclear : Clear s.path cls) :
    Unifies s (classes ++ [cls]) (r.unify cls) where
  findings := (findings_unify r cls).trans hu.findings
  registered := registered_unify.trans hu.registered
  primary := primary_unify.trans hu.primary
  asked := (hu.asks.unify hexplored).asked
  hierarchy := by
    rw [hu.hierarchy_unify hexplored]
    exact (hu.hierarchy.trans (unified_unifyInterface hk hclear hu.hierarchy.sameBut)).congr
      (by simp [or_and_right, exists_or]) (by simp [or_and_right, exists_or])

theorem unifyAll (hk : Keyed s.path.hierarchy) (hexplored : ∀ cls ∈ classes, Explored s.path cls)
    (hclear : ∀ cls ∈ classes, Clear s.path cls) : Unifies s classes (classes.foldl unify s) := by
  induction classes using List.reverseRecOn with
  | nil => exact refl s
  | append_singleton classes cls ih =>
    rw [List.foldl_append]
    have hlast : cls ∈ classes ++ [cls] := by simp
    refine (ih (fun c hc => hexplored c ?_) fun c hc => hclear c ?_).unify hk
      (hexplored cls hlast) (hclear cls hlast) <;> exact List.mem_append_left _ hc

/-- What is told of the classes settles the resolution. -/
theorem eq (hu : Unifies s classes r) (hu' : Unifies s classes' r')
    (hmem : ∀ cls, cls ∈ classes ↔ cls ∈ classes') : r = r' := by
  have hhierarchy := hu.hierarchy.eq
    (hu'.hierarchy.congr (fun m x => by simp only [hmem]) fun m => by simp only [hmem])
  have hasked : r.path.asked = r'.path.asked := ExtTreeSet.ext_mem fun a => by
    rw [hu.asked, hu'.asked]
    simp only [hmem]
  have hregistered := hu.registered.trans hu'.registered.symm
  have hprimary := hu.primary.trans hu'.primary.symm
  have hfindings := hu.findings.trans hu'.findings.symm
  obtain ⟨⟨h, g, p, a⟩, f⟩ := r
  obtain ⟨⟨h', g', p', a'⟩, f'⟩ := r'
  simp_all

end Unifies

/-- The interfaces of an archive may be unified in any order.  Counterparts of
their methods gain these as roots and keep their names if one lies outside the
primary archive, and nothing else changes apart from what is asked for. -/
theorem unifies_resolveArchive (names : Names) (sources : List ClassTable)
    (requests : List ClassPath.Request) {classes order : List String}
    (hperm : order.Perm classes) :
    let fresh := start (.afterRequests sources requests)
    let s := classes.foldl (resolve names) (fresh.link classes)
    (∀ cls ∈ classes, Clear s.path cls) →
      order.foldl unify s = fresh.resolveArchive names classes ∧
        Unifies s classes (fresh.resolveArchive names classes) := by
  intro fresh s hclear
  have halike : Alike fresh.path.hierarchy s.path.hierarchy :=
    (alike_link fresh classes).trans (alike_resolveAll names _ classes)
  have hk : Keyed s.path.hierarchy :=
    (ClassPath.asRead_afterRequests sources requests).keyed.of_alike halike
  have hexplored : ∀ cls ∈ classes, Explored s.path cls := by
    intro cls hcls a ha
    rw [← (alike_resolveAll names _ classes).supertypeGraph] at ha
    exact (AtRest.mem_asked_resolveAll names).mpr (Or.inr ⟨cls, hcls, ha⟩)
  have hordered : Unifies s order (order.foldl unify s) :=
    .unifyAll hk (fun cls hcls => hexplored cls (hperm.mem_iff.mp hcls))
      fun cls hcls => hclear cls (hperm.mem_iff.mp hcls)
  have hgiven : Unifies s classes (classes.foldl unify s) := .unifyAll hk hexplored hclear
  exact ⟨hordered.eq hgiven fun _ => hperm.mem_iff, hgiven⟩

namespace Sample

open Assembly (Sketch)

/-- The class whose method does the task lies outside the primary archive. -/
def jobRequests : List ClassPath.Request :=
  [.register (archive [base]) false, .register (archive [job, task]) true]

def resolvedJob : Resolution :=
  ["Job", "Task"].foldl (resolve .asWritten)
    ((start (.afterRequests [] jobRequests)).link ["Job", "Task"])

/-- All methods have one name. -/
theorem clear_job (cls : String) : Clear resolvedJob.path cls := by
  have hall : ∀ c ∈ (ClassPath.afterRequests [] jobRequests).hierarchy.classes.toList,
      ∀ m ∈ c.2.methods.values, m.name = "run" := by decide +kernel
  have halike : Alike (ClassPath.afterRequests [] jobRequests).hierarchy
      resolvedJob.path.hierarchy :=
    (alike_link (start (.afterRequests [] jobRequests)) _).trans (alike_resolveAll _ _ _)
  have hk := (ClassPath.asRead_afterRequests [] jobRequests).keyed.of_alike halike
  have hname : ∀ {m}, resolvedJob.path.hierarchy.method? m.ref = some m → m.name = "run" := by
    intro m hm
    obtain ⟨n, hn, hb⟩ := halike.symm.exists_method hm
    obtain ⟨c, hc, hcn⟩ := Hierarchy.method?_eq_some.mp hn
    have hrun := hall (m.owner, c) (ExtTreeMap.mem_toList_iff_getElem?_eq_some.mpr hc) n
      (mem_values_iff.mpr ⟨_, hcn⟩)
    exact (congrArg MemberRef.name (MethodNode.ref_eq hb)).trans hrun
  intro k m hoffer hm _
  rw [hname hm.declared, hname (hoffer.declared hk).1]

set_option maxRecDepth 10000 in
/-- In the other order, too, the method gets the task as a root and keeps its
name. -/
theorem unifies_resolveArchive_job :
    Unifies resolvedJob ["Job", "Task"] (["Task", "Job"].foldl unify resolvedJob) ∧
      ((["Task", "Job"].foldl unify resolvedJob).path.hierarchy.method? ⟨"Base", "run", "()V"⟩).map
        (fun m => (m.overrides.toList, m.forcedName)) =
          some ([⟨"Task", "run", "()V"⟩], some "run") := by
  obtain ⟨horder, hunifies⟩ := unifies_resolveArchive .asWritten [] jobRequests
    (List.Perm.swap "Job" "Task" []) fun cls _ => clear_job cls
  have horder : ["Task", "Job"].foldl unify resolvedJob = _ := horder
  rw [horder]
  refine ⟨hunifies, ?_⟩
  simp only [resolveArchive, link, List.foldl_cons, List.foldl_nil, resolve_eq_resolving,
    unify_eq_unifying]
  decide +kernel

/-- An interface with a method whose name runs on like a descriptor. -/
def offering (name : String) : Sketch where
  name := name
  superName := none
  access := .ofModifiers [.pub, .interface, .abstract]
  declarations := [.abstractMethod (.ofModifiers [.pub]) "m()La" "(I)Lb;"]

/-- A class with a method of another name that has the same key. -/
def taker : Sketch :=
  plain "Taker" none
    [.interface "Inner", .interface "Outer",
      .method
        { access := .ofModifiers [.pub]
          name := "m"
          descriptor := "()La(I)Lb;"
          signature := none
          body := some [.op 0x01, .op 0xB0] }]

def takerRequests : List ClassPath.Request :=
  [.register (archive [offering "Outer"]) false,
    .register (archive [offering "Inner", taker]) true]

def resolvedTaker : Resolution :=
  ["Inner", "Taker"].foldl (resolve .asWritten)
    ((start (.afterRequests [] takerRequests)).link ["Inner", "Taker"])

def unifiedTaker : Resolution :=
  (start (.afterRequests [] takerRequests)).resolveArchive .asWritten ["Inner", "Taker"]

set_option maxRecDepth 10000 in
theorem forcedName_taker :
    (resolvedTaker.path.hierarchy.method? ⟨"Taker", "m", "()La(I)Lb;"⟩).map
      (fun m => (m.name, m.forcedName)) = some ("m", none) ∧
    (unifiedTaker.path.hierarchy.method? ⟨"Taker", "m", "()La(I)Lb;"⟩).map
      (fun m => m.forcedName) = some (some "m()La") := by
  simp only [resolvedTaker, unifiedTaker, resolveArchive, link, List.foldl_cons, List.foldl_nil,
    resolve_eq_resolving, unify_eq_unifying]
  decide +kernel

/-- A name is forced on a method of another name that has the same key. -/
theorem not_unifies_taker : ¬ Unifies resolvedTaker ["Inner", "Taker"] unifiedTaker := by
  intro hu
  obtain ⟨hbefore, hafter⟩ := forcedName_taker
  obtain ⟨m, hm, hname⟩ := Option.map_eq_some_iff.mp hbefore
  obtain ⟨m', hm', hforced⟩ := Option.map_eq_some_iff.mp hafter
  obtain ⟨hname, hnone⟩ := Prod.mk.injEq .. ▸ hname
  by_cases hk : (∃ cls ∈ ["Inner", "Taker"], Keeps resolvedTaker.path cls m.ref) ∧ m.pinned = false
  · have hown := hu.hierarchy.forced hm hm' hk.1 hk.2
    rw [hforced, hname] at hown
    exact absurd hown (by decide)
  · have hsame := hu.hierarchy.unforced hm hm' hk
    rw [hforced, hnone] at hsame
    cases hsame

end Sample

end Resolution
end Lineage
