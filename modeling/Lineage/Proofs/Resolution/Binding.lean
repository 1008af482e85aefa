import Lineage.Proofs.Graph.Evaluation
import Lineage.Proofs.Resolution.References
import Lineage.Proofs.Resolution.ParentsFirst

/-!
Where the contracts of a class go.

The contracts that its ancestors leave open are sorted by key.  All contracts of
a key go to one method, the first among the ancestors that implements it, and if
there is none all of them are reported.  Nothing else changes.
-/

namespace Lineage

open Std (ExtTreeMap ExtTreeSet)
open Hierarchy (Alike Keyed SameBut)

namespace Finding

variable {known : List Finding}

theorem record_append (known fs gs : List Finding) :
    record known (fs ++ gs) = record (record known fs) gs := List.foldl_append

theorem nodup_record (hk : known.Nodup) (new : List Finding) : (record known new).Nodup := by
  refine List.foldlRecOn (motive := List.Nodup) _ _ hk fun fs hfs f _ => ?_
  split
  · exact hfs
  · next hf => exact List.nodup_append.mpr ⟨hfs, by simp, by grind⟩

/-- Findings that are known stay in their places. -/
theorem exists_record_eq_append (known new : List Finding) :
    ∃ added, record known new = known ++ added ∧ ∀ f ∈ added, f ∈ new := by
  refine List.foldlRecOn (motive := fun fs => ∃ added, fs = known ++ added ∧ ∀ f ∈ added, f ∈ new)
    _ _ ⟨[], by simp⟩ fun fs hfs f hf => ?_
  obtain ⟨added, rfl, hadded⟩ := hfs
  split
  · exact ⟨added, rfl, hadded⟩
  · refine ⟨added ++ [f], by simp, fun g hg => ?_⟩
    rcases List.mem_append.mp hg with hg | hg
    · exact hadded g hg
    · exact List.mem_singleton.mp hg ▸ hf

end Finding

namespace Resolution

variable {h : Hierarchy} {r : Resolution} {cls key : String} {classes : List String}

/-! ## Passes as steps of a resolution -/

/-- Go on with what a pass makes of the hierarchy, and record what it finds. -/
def advance (r : Resolution) (passed : Hierarchy × List Finding) : Resolution :=
  { r with path := { r.path with hierarchy := passed.1 } }.record passed.2

/-- Bind the contracts of a class. -/
def bindFor (r : Resolution) (cls : String) : Resolution :=
  r.advance (bindContracts cls r.path.hierarchy)

/-- A concrete class has its contracts bound between the linking of its methods
and the passes over its components. -/
theorem handle_closed {names : Names} {c : ClassNode} (hc : r.path.hierarchy.class? cls = some c)
    (hconcrete : c.isAbstract = false) :
    let h := r.path.hierarchy
    let bound := (r.advance (linkedAt names cls h,
      (resolveBounces cls (nameEnums names cls h)).2)).bindFor cls
    let recorded := resolveComponents cls bound.path.hierarchy
    r.handle names (.closed cls) =
      bound.advance (recorded.1.modifyClass cls markResolved, recorded.2) := by
  simp only [handle, settle, hc, hconcrete, bindFor, advance, record, Finding.record_append,
    linkedAt, Bool.false_eq_true, if_false]

/-! ## The states that are reached -/

/-- Classes and methods are found under their own names, and no finding stands
there twice. -/
structure Consistent (r : Resolution) : Prop where
  keyed : Keyed r.path.hierarchy
  nodup : r.findings.Nodup

namespace Consistent

protected theorem start {path : ClassPath} (hp : path.hierarchy.AsRead) :
    Consistent (start path) where
  keyed := hp.keyed
  nodup := List.nodup_nil

protected theorem serve (hr : Consistent r) (q : ClassPath.Request) :
    Consistent { r with path := r.path.serve q } where
  keyed := by
    cases q with
    | register entries isPrimary =>
      exact ClassPath.register_induction (P := fun p => p.hierarchy.Keyed) entries isPrimary
        hr.keyed fun q name bytes hq _ => ClassPath.keyed_add hq name bytes isPrimary
    | ask names => exact hr.keyed
  nodup := hr.nodup

/-- The passes over a class keep the order, whatever they find. -/
protected theorem advance (hr : Consistent r) {passed : Hierarchy × List Finding}
    (halike : Alike r.path.hierarchy passed.1) : Consistent (r.advance passed) where
  keyed := hr.keyed.of_alike halike
  nodup := Finding.nodup_record hr.nodup _

protected theorem handle (hr : Consistent r) (names : Names) (e : Graph.Event String) :
    Consistent (r.handle names e) := by
  cases e with
  | closed cls => exact hr.advance (alike_settle names cls _)
  | cycle cls => exact ⟨hr.keyed, Finding.nodup_record hr.nodup _⟩

protected theorem resolve (hr : Consistent r) (names : Names) (cls : String) :
    Consistent (r.resolve names cls) := by
  unfold resolve
  exact List.foldlRecOn (motive := Consistent) _ _ ⟨hr.keyed, hr.nodup⟩
    fun _ hs e _ => hs.handle names e

protected theorem unify (hr : Consistent r) (cls : String) : Consistent (r.unify cls) where
  keyed := hr.keyed.of_alike (alike_unify r cls)
  nodup := by
    rw [findings_unify]
    exact hr.nodup

protected theorem resolveArchive (hr : Consistent r) (names : Names) (classes : List String) :
    Consistent (r.resolveArchive names classes) := by
  have hlinked : Consistent (r.link classes) :=
    ⟨hr.keyed.of_alike (alike_link r classes), hr.nodup⟩
  have hresolved : Consistent (classes.foldl (resolve names) (r.link classes)) :=
    List.foldlRecOn (motive := Consistent) _ _ hlinked fun _ hs cls _ => hs.resolve names cls
  exact List.foldlRecOn (motive := Consistent) _ _ hresolved fun _ hs cls _ => hs.unify cls

protected theorem perform (hr : Consistent r) (names : Names) {operation : Operation}
    (ho : operation.KeepsMethods) : Consistent (r.perform names operation) := by
  cases operation with
  | request q => exact hr.serve q
  | edit name f keeps => exact ⟨hr.keyed.modifyClass name ho, hr.nodup⟩
  | resolve cls => exact hr.resolve names cls
  | resolveArchive classes => exact hr.resolveArchive names classes

end Consistent

theorem consistent_afterOperations (names : Names) (sources : List ClassTable)
    (operations : List Operation) (ho : ∀ operation ∈ operations, operation.KeepsMethods) :
    Consistent (afterOperations names sources operations) :=
  List.foldlRecOn (motive := Consistent) _ _ (.start (ClassPath.asRead_ofSources sources))
    fun _ hr operation hmem => hr.perform names (ho operation hmem)

/-! ## Implementations and contracts -/

/-- The class declares `m` under the key, and can be relied on for it. -/
def ImplementedBy (h : Hierarchy) (key cls : String) (m : MethodNode) : Prop :=
  ∃ c, h.class? cls = some c ∧ c.method? key = some m ∧
    m.access.has .abstract = false ∧ m.isOverridable

/-- The first of the classes that implements the key does so by `m`. -/
def FirstToImplement (h : Hierarchy) (classes : List String) (key : String) (m : MethodNode) :
    Prop :=
  ∃ before cls after, classes = before ++ cls :: after ∧ ImplementedBy h key cls m ∧
    ∀ b ∈ before, ∀ n, ¬ ImplementedBy h key b n

/-- One of the classes declares `x` under the key, as an abstract method that
overrides nothing. -/
def OpenContract (h : Hierarchy) (classes : List String) (key : String) (x : MemberRef) : Prop :=
  ∃ b ∈ classes, ∃ c k, h.class? b = some c ∧ c.method? key = some k ∧
    k.access.has .abstract ∧ k.overrides = ∅ ∧ k.ref = x

instance (h : Hierarchy) (classes : List String) (key : String) (x : MemberRef) :
    Decidable (OpenContract h classes key x) :=
  decidable_of_iff (∃ b ∈ classes, ∃ c ∈ h.class? b, ∃ k ∈ c.method? key,
    k.access.has .abstract ∧ k.overrides = ∅ ∧ k.ref = x) (by
      simp only [OpenContract, Option.mem_def, ← exists_and_left])

theorem implementedBy_iff {m : MethodNode} : ImplementedBy h key cls m ↔
    ((h.class? cls).bind (·.method? key)).filter implements = some m := by
  simp only [ImplementedBy, implements, Option.filter_eq_some_iff, Option.bind_eq_some_iff,
    Bool.and_eq_true, Bool.not_eq_true']
  constructor
  · intro hm
    obtain ⟨c, hc, hm, himpl⟩ := hm
    exact ⟨⟨c, hc, hm⟩, himpl⟩
  · intro hm
    obtain ⟨⟨c, hc, hm⟩, himpl⟩ := hm
    exact ⟨c, hc, hm, himpl⟩

theorem implementation?_eq_findSome? (h : Hierarchy) (classes : List String) (key : String) :
    implementation? h classes key = classes.findSome? fun cls =>
      ((h.class? cls).bind (·.method? key)).filter implements := by
  induction classes with
  | nil => rfl
  | cons cls classes ih =>
    rw [implementation?_cons, List.findSome?_cons, ih]
    cases ((h.class? cls).bind (·.method? key)).filter implements <;> rfl

theorem implementation?_eq_some {m : MethodNode} :
    implementation? h classes key = some m ↔ FirstToImplement h classes key m := by
  rw [implementation?_eq_findSome?, List.findSome?_eq_some_iff]
  simp only [FirstToImplement, implementedBy_iff, Option.eq_none_iff_forall_ne_some, ne_eq]

theorem implementation?_eq_none :
    implementation? h classes key = none ↔ ∀ b ∈ classes, ∀ n, ¬ ImplementedBy h key b n := by
  rw [implementation?_eq_findSome?, List.findSome?_eq_none_iff]
  simp only [implementedBy_iff, Option.eq_none_iff_forall_ne_some, ne_eq]

theorem FirstToImplement.method? (hk : Keyed h) {m : MethodNode}
    (hm : FirstToImplement h classes key m) : m.key = key ∧ h.method? m.ref = some m := by
  obtain ⟨_, cls, _, _, ⟨c, hc, hcm, _⟩, _⟩ := hm
  exact (hk.of_mem_class hc hcm).2

theorem OpenContract.key_eq (hk : Keyed h) {x : MemberRef} (hx : OpenContract h classes key x) :
    x.key = key := by
  obtain ⟨b, _, c, k, hc, hck, _, _, rfl⟩ := hx
  exact (hk.of_mem_class hc hck).2.1

theorem openContract_iff (hk : Keyed h) {x : MemberRef} : OpenContract h classes key x ↔
    ∃ k, Contract h classes k ∧ k.key = key ∧ k.ref = x := by
  constructor
  · intro hx
    obtain ⟨b, hb, c, k, hc, hck, habstract, hempty, rfl⟩ := hx
    refine ⟨k, ⟨c, List.mem_filterMap.mpr ⟨b, hb, hc⟩, mem_values_iff.mpr ⟨key, hck⟩, ?_⟩,
      (hk.of_mem_class hc hck).2.1, rfl⟩
    simp [isContract, habstract, hempty]
  · intro hx
    obtain ⟨k, ⟨c, hc, hkc, hcontract⟩, rfl, rfl⟩ := hx
    obtain ⟨b, hb, hc⟩ := List.mem_filterMap.mp hc
    obtain ⟨slot, hslot⟩ := mem_values_iff.mp hkc
    have hkey : k.key = slot := (hk.of_mem_class hc hslot).2.1
    obtain ⟨habstract, hempty⟩ := Bool.and_eq_true_iff.mp hcontract
    exact ⟨b, hb, c, k, hc, hkey ▸ hslot, habstract, ExtTreeSet.isEmpty_iff.mp hempty, rfl⟩

/-- A method is given contracts just if it is the first to implement them. -/
theorem gives_iff (hk : Keyed h) {m : MethodNode} {ref x : MemberRef}
    (hm : h.method? ref = some m) : Gives h classes ref x ↔
      FirstToImplement h classes ref.key m ∧ OpenContract h classes ref.key x := by
  rw [openContract_iff hk]
  constructor
  · intro hx
    obtain ⟨k, hcontract, rfl, i, hi, howner, hkey⟩ := hx
    obtain ⟨n, hn, rfl⟩ := Option.map_eq_some_iff.mp hi
    have hfirst := implementation?_eq_some.mp hn
    obtain ⟨hnkey, hself⟩ := hfirst.method? hk
    rw [h.method?_congr howner hkey, hm] at hself
    cases hself
    have hslot : k.key = ref.key := hnkey.symm.trans hkey
    exact ⟨hslot ▸ hfirst, k, hcontract, hslot, rfl⟩
  · intro hx
    obtain ⟨hfirst, k, hcontract, hkey, rfl⟩ := hx
    refine ⟨k, hcontract, rfl, m.ref, ?_, hk.slot_eq hm⟩
    rw [implementer?, hkey, implementation?_eq_some.mpr hfirst, Option.map_some]

/-! ## What is reported -/

theorem isSome_implementation? {h' : Hierarchy} (hh : Alike h h') (classes : List String)
    (key : String) :
    (implementation? h' classes key).isSome = (implementation? h classes key).isSome := by
  have heq := congrArg Option.isSome (implementer?_eq hh classes key)
  simpa only [implementer?, Option.isSome_map] using heq

theorem bindContract_of_some {s : Hierarchy × List Finding} {p : String × MemberSet}
    {m : MethodNode} (hm : implementation? s.1 classes p.1 = some m) :
    bindContract cls classes s p = (s.1.modifyMethod m.ref (·.addOverrides p.2), s.2) := by
  rw [bindContract, hm]

theorem bindContract_of_none {s : Hierarchy × List Finding} {p : String × MemberSet}
    (hnone : implementation? s.1 classes p.1 = none) : bindContract cls classes s p =
      (s.1, s.2 ++ p.2.toList.map (.unresolvedContract cls)) := by
  rw [bindContract, hnone]

/-- The contracts that are reported are those of keys that no class implements. -/
theorem mem_findings_bindContracts (hk : Keyed h) {f : Finding} :
    f ∈ (bindContracts cls h).2 ↔ ∃ key x, f = .unresolvedContract cls x ∧
      OpenContract h (h.ancestors cls) key x ∧
        ∀ b ∈ h.ancestors cls, ∀ n, ¬ ImplementedBy h key b n := by
  have hfold : ∀ (ps : List (String × MemberSet)) (s : Hierarchy × List Finding), Alike h s.1 →
      (f ∈ (ps.foldl (bindContract cls (h.ancestors cls)) s).2 ↔ f ∈ s.2 ∨
        ∃ p ∈ ps, implementation? h (h.ancestors cls) p.1 = none ∧
          ∃ x ∈ p.2, f = .unresolvedContract cls x) := by
    intro ps
    induction ps with
    | nil => simp
    | cons p ps ih =>
      intro s hs
      have hsome := isSome_implementation? hs (h.ancestors cls) p.1
      rw [List.foldl_cons]
      cases hi : implementation? s.1 (h.ancestors cls) p.1 with
      | some m =>
        have hnone : implementation? h (h.ancestors cls) p.1 ≠ none := by
          rw [← Option.isSome_iff_ne_none, ← hsome, hi, Option.isSome_some]
        have hstep : Alike h (s.1.modifyMethod m.ref (·.addOverrides p.2)) :=
          hs.trans (Hierarchy.sameBut_modifyMethod s.1 m.ref
            (f := (·.addOverrides p.2)) fun _ => rfl).alike
        rw [bindContract_of_some hi, ih _ hstep]
        simp only [List.mem_cons, exists_eq_or_imp, hnone, false_and, false_or]
      | none =>
        have hnone : implementation? h (h.ancestors cls) p.1 = none := by
          rw [← Option.not_isSome_iff_eq_none, ← hsome, hi]
          exact Bool.false_ne_true
        have hstep : Alike h (s.1, s.2 ++ p.2.toList.map (.unresolvedContract cls)).1 := hs
        rw [bindContract_of_none hi, ih _ hstep]
        simp only [List.mem_cons, exists_eq_or_imp, hnone, true_and, List.mem_append,
          List.mem_map, ExtTreeSet.mem_toList, or_assoc, @eq_comm _ f]
  unfold bindContracts
  rw [hfold _ (h, []) (.refl h)]
  constructor
  · intro hf
    obtain ⟨p, hp, hnone, x, hx, rfl⟩ := hf.resolve_left List.not_mem_nil
    exact ⟨p.1, x, rfl, (openContract_iff hk).mpr (mem_contracts.mp ⟨p, hp, rfl, hx⟩),
      implementation?_eq_none.mp hnone⟩
  · intro hf
    obtain ⟨key, x, rfl, hx, hnone⟩ := hf
    obtain ⟨p, hp, rfl, hxp⟩ := mem_contracts.mpr ((openContract_iff hk).mp hx)
    exact Or.inr ⟨p, hp, implementation?_eq_none.mpr hnone, x, hxp, rfl⟩

/-! ## Every contract is bound or reported -/

/-- What binding the contracts of a class does to a resolution `r`, of which it
makes `r'` with some findings added. -/
structure PartitionsContracts (cls : String) (r r' : Resolution) (added : List Finding) :
    Prop where
  /-- If an ancestor implements a key, then the first that does takes over all
  open contracts of the key, and none of these is reported. -/
  bound : let h := r.path.hierarchy
    ∀ key, (∃ b ∈ h.ancestors cls, ∃ n, ImplementedBy h key b n) →
      ∃ m m', FirstToImplement h (h.ancestors cls) key m ∧
        r'.path.hierarchy.method? m.ref = some m' ∧
        (∀ x, x ∈ m'.overrides ↔ x ∈ m.overrides ∨ OpenContract h (h.ancestors cls) key x) ∧
        ∀ x, OpenContract h (h.ancestors cls) key x → ∀ c, .unresolvedContract c x ∉ added
  /-- Otherwise each of them is reported once. -/
  reported : let h := r.path.hierarchy
    ∀ key, (∀ b ∈ h.ancestors cls, ∀ n, ¬ ImplementedBy h key b n) →
      ∀ x, OpenContract h (h.ancestors cls) key x →
        r'.findings.count (.unresolvedContract cls x) = 1
  /-- No other method gets roots. -/
  kept : let h := r.path.hierarchy
    ∀ ref n, h.method? ref = some n → ¬ FirstToImplement h (h.ancestors cls) ref.key n →
      ∃ n', r'.path.hierarchy.method? ref = some n' ∧ n'.overrides = n.overrides
  /-- Nothing but roots of methods changes in the hierarchy. -/
  sameBut : SameBut MethodNode.sansRoots r.path.hierarchy r'.path.hierarchy
  path : r'.path = { r.path with hierarchy := r'.path.hierarchy }
  /-- Nothing else is reported. -/
  findings : r'.findings = r.findings ++ added ∧ ∀ f ∈ added, ∃ x,
    f = .unresolvedContract cls x ∧
      OpenContract r.path.hierarchy (r.path.hierarchy.ancestors cls) x.key x

/-- Binding the contracts of a class binds or reports each of them, and does
nothing else. -/
theorem partitionsContracts_bindFor (hr : Consistent r) (cls : String) :
    ∃ added, PartitionsContracts cls r (r.bindFor cls) added := by
  have hk := hr.keyed
  obtain ⟨added, hadded, hnew⟩ := Finding.exists_record_eq_append r.findings
    (bindContracts cls r.path.hierarchy).2
  have hnodup : (r.bindFor cls).findings.Nodup := Finding.nodup_record hr.nodup _
  refine ⟨added, ?_, ?_, ?_, sameBut_bindContracts cls _, rfl, hadded, ?_⟩
  · intro h key himpl
    have hsome : implementation? h (h.ancestors cls) key ≠ none := by
      intro hnone
      obtain ⟨b, hb, n, hn⟩ := himpl
      exact implementation?_eq_none.mp hnone b hb n hn
    obtain ⟨m, hm⟩ := Option.ne_none_iff_exists'.mp hsome
    have hfirst := implementation?_eq_some.mp hm
    obtain ⟨hkey, hself⟩ := hfirst.method? hk
    obtain ⟨m', hm', hroots⟩ := mem_overrides_bindContracts cls hself
    refine ⟨m, m', hfirst, hm', fun x => ?_, fun x hx c hc => ?_⟩
    · have hslot : m.ref.key = key := hkey
      rw [hroots, gives_iff hk hself, hslot, and_iff_right hfirst]
    · obtain ⟨key', y, hy, hopen, hnone⟩ := (mem_findings_bindContracts hk).mp (hnew _ hc)
      cases hy
      have hsame : key' = key := (hopen.key_eq hk).symm.trans (hx.key_eq hk)
      obtain ⟨b, hb, n, hn⟩ := himpl
      exact hnone b hb n (hsame ▸ hn)
  · intro h key hnone x hx
    have hmem : .unresolvedContract cls x ∈ (r.bindFor cls).findings :=
      Finding.mem_record.mpr
        (Or.inr ((mem_findings_bindContracts hk).mpr ⟨key, x, rfl, hx, hnone⟩))
    rw [hnodup.count, if_pos hmem]
  · intro h ref n hn hnot
    obtain ⟨n', hn', hroots⟩ := mem_overrides_bindContracts cls hn
    refine ⟨n', hn', ExtTreeSet.ext_mem fun x => ?_⟩
    rw [hroots, gives_iff hk hn, or_iff_left fun hx => hnot hx.1]
  · intro f hf
    obtain ⟨key, x, rfl, hx, _⟩ := (mem_findings_bindContracts hk).mp (hnew f hf)
    exact ⟨x, rfl, hx.key_eq hk ▸ hx⟩

namespace Sample

def tasks : Assembly.Sketch where
  name := "Tasks"
  superName := none
  access := .ofModifiers [.pub, .interface, .abstract]
  declarations :=
    [.abstractMethod (.ofModifiers [.pub]) "run" "()V",
      .abstractMethod (.ofModifiers [.pub]) "stop" "()V"]

/-- A class that does one of two tasks. -/
def worker : Assembly.Sketch := plain "Worker" none [.interface "Tasks", run [.pub] [.op 0xB1]]

def hired : Resolution :=
  start (.afterRequests [] [.register (archive [tasks, worker]) true])

/-- Of the two contracts one is bound and the other is reported. -/
theorem partitionsContracts_worker : Consistent hired ∧
    (∃ m, (hired.bindFor "Worker").path.hierarchy.method? ⟨"Worker", "run", "()V"⟩ = some m ∧
      ⟨"Tasks", "run", "()V"⟩ ∈ m.overrides) ∧
    (hired.bindFor "Worker").findings.count
      (.unresolvedContract "Worker" ⟨"Tasks", "stop", "()V"⟩) = 1 := by
  have hconsistent : Consistent hired := .start (ClassPath.asRead_afterRequests _ _)
  have hancestors : hired.path.hierarchy.ancestors "Worker" = ["Worker", "Tasks"] := by
    rw [Hierarchy.ancestors, Hierarchy.lineage, Graph.breadthFirst, Graph.visit_eq]
    decide +kernel
  have hdone : (implementation? hired.path.hierarchy ["Worker", "Tasks"] "run()V").map
      MethodNode.ref = some ⟨"Worker", "run", "()V"⟩ := by decide +kernel
  have hundone : implementation? hired.path.hierarchy ["Worker", "Tasks"] "stop()V" = none := by
    decide +kernel
  rw [← hancestors] at hdone hundone
  obtain ⟨m, hm, href⟩ := Option.map_eq_some_iff.mp hdone
  obtain ⟨added, hparts⟩ := partitionsContracts_bindFor hconsistent "Worker"
  refine ⟨hconsistent, ?_, ?_⟩
  · obtain ⟨_, b, _, hsplit, hb, _⟩ := implementation?_eq_some.mp hm
    have hmem : b ∈ hired.path.hierarchy.ancestors "Worker" := by simp [hsplit]
    obtain ⟨n, n', hfirst, hn', hroots, _⟩ := hparts.bound "run()V" ⟨b, hmem, m, hb⟩
    cases hm.symm.trans (implementation?_eq_some.mpr hfirst)
    rw [href] at hn'
    refine ⟨n', hn', (hroots _).mpr (Or.inr ?_)⟩
    rw [hancestors]
    decide +kernel
  · apply hparts.reported "stop()V" (implementation?_eq_none.mp hundone)
    show OpenContract _ (hired.path.hierarchy.ancestors "Worker") _ _
    rw [hancestors]
    decide +kernel

end Sample

end Resolution
end Lineage
