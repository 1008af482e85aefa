import Lineage.Proofs.Hierarchy.Viewpoint
import Lineage.Proofs.Resolution.Frame

/-!
What unifying the methods of an interface comes to.

It gives some methods a root more and makes some methods keep their names.  Which
ones these are is told by class files and by what is loaded, so it does not
matter what else has been unified before, and hierarchies where the same has been
told of all methods are the same.
-/

namespace Lineage

open Std (ExtTreeMap ExtTreeSet)
open Relation (ReflTransGen)

namespace MethodNode

theorem bare_eq_of_sansUnity {m n : MethodNode} (h : m.sansUnity = n.sansUnity) :
    m.bare = n.bare := by
  show m.sansUnity.bare = n.sansUnity.bare
  rw [h]

theorem pinned_eq_of_sansUnity {m n : MethodNode} (h : m.sansUnity = n.sansUnity) :
    m.pinned = n.pinned := by
  show m.sansUnity.pinned = n.sansUnity.pinned
  rw [h]

@[simp]
theorem overrides_force (m : MethodNode) (name : String) :
    (m.force name).overrides = m.overrides := by
  unfold force
  split <;> rfl

theorem eq_of_sansUnity {m n : MethodNode} (h : m.sansUnity = n.sansUnity)
    (ho : m.overrides = n.overrides) (hf : m.forcedName = n.forcedName) : m = n := by
  cases m
  cases n
  simp_all [sansUnity]

end MethodNode

namespace Hierarchy

/-- `h'` is `h` where methods have gained roots as `gains` says, and those of
which `keeps` holds have their own names forced, unless another is pinned. -/
structure Unified (gains : MemberRef → MemberRef → Prop) (keeps : MemberRef → Prop)
    (h h' : Hierarchy) : Prop where
  sameBut : SameBut MethodNode.sansUnity h h'
  overrides : ∀ {r m m'}, h.method? r = some m → h'.method? r = some m' →
    ∀ x, x ∈ m'.overrides ↔ x ∈ m.overrides ∨ gains m.ref x
  forced : ∀ {r m m'}, h.method? r = some m → h'.method? r = some m' →
    keeps m.ref → m.pinned = false → m'.forcedName = some m.name
  unforced : ∀ {r m m'}, h.method? r = some m → h'.method? r = some m' →
    ¬ (keeps m.ref ∧ m.pinned = false) → m'.forcedName = m.forcedName

namespace Unified

variable {gains gains' : MemberRef → MemberRef → Prop} {keeps keeps' : MemberRef → Prop}
  {h h' h'' : Hierarchy}

theorem congr (hh : Unified gains keeps h h') (hg : ∀ r x, gains r x ↔ gains' r x)
    (hk : ∀ r, keeps r ↔ keeps' r) : Unified gains' keeps' h h' := by
  have hgains : gains = gains' := funext fun r => funext fun x => propext (hg r x)
  have hkeeps : keeps = keeps' := funext fun r => propext (hk r)
  exact hgains ▸ hkeeps ▸ hh

theorem refl (h : Hierarchy) : Unified (fun _ _ => False) (fun _ => False) h h where
  sameBut := .refl h
  overrides hm hm' x := by
    cases hm.symm.trans hm'
    rw [or_false]
  forced _ _ hk := hk.elim
  unforced hm hm' _ := by
    cases hm.symm.trans hm'
    rfl

theorem exists_method (hh : Unified gains keeps h h') {r : MemberRef} {m : MethodNode}
    (hm : h.method? r = some m) :
    ∃ m', h'.method? r = some m' ∧ m'.ref = m.ref ∧ m'.pinned = m.pinned := by
  obtain ⟨m', hm', hview⟩ := hh.sameBut.exists_method hm
  exact ⟨m', hm', MethodNode.ref_eq (MethodNode.bare_eq_of_sansUnity hview),
    MethodNode.pinned_eq_of_sansUnity hview⟩

theorem trans (hh : Unified gains keeps h h') (hh' : Unified gains' keeps' h' h'') :
    Unified (fun r x => gains r x ∨ gains' r x) (fun r => keeps r ∨ keeps' r) h h'' where
  sameBut := hh.sameBut.trans hh'.sameBut
  overrides {r m m''} hm hm'' x := by
    obtain ⟨m', hm', href, _⟩ := hh.exists_method hm
    rw [hh'.overrides hm' hm'', hh.overrides hm hm', href, or_assoc]
  forced {r m m''} hm hm'' hk hp := by
    obtain ⟨m', hm', href, hpinned⟩ := hh.exists_method hm
    by_cases hk' : keeps' m'.ref
    · rw [hh'.forced hm' hm'' hk' (hpinned.trans hp)]
      exact congrArg (fun r => some r.name) href
    · rw [hh'.unforced hm' hm'' fun hn => hk' hn.1]
      exact hh.forced hm hm' (hk.resolve_right (href ▸ hk')) hp
  unforced {r m m''} hm hm'' hn := by
    obtain ⟨m', hm', href, hpinned⟩ := hh.exists_method hm
    rw [hh'.unforced hm' hm'' fun hk => hn ⟨Or.inr (href ▸ hk.1), hpinned ▸ hk.2⟩]
    exact hh.unforced hm hm' fun hk => hn ⟨Or.inl hk.1, hk.2⟩

theorem foldl {α : Type} {step : Hierarchy → α → Hierarchy}
    {gains : α → MemberRef → MemberRef → Prop} {keeps : α → MemberRef → Prop} {as : List α}
    (hs : ∀ a ∈ as, ∀ g, SameBut MethodNode.sansUnity h g →
      Unified (gains a) (keeps a) g (step g a)) :
    Unified (fun r x => ∃ a ∈ as, gains a r x) (fun r => ∃ a ∈ as, keeps a r) h
      (as.foldl step h) := by
  induction as generalizing h with
  | nil => exact (refl h).congr (by simp) (by simp)
  | cons a as ih =>
    have hfirst := hs a List.mem_cons_self h (.refl h)
    have hrest := ih fun b hb g hg =>
      hs b (List.mem_cons_of_mem a hb) g (hfirst.sameBut.trans hg)
    exact (hfirst.trans hrest).congr (by simp) (by simp)

/-- What is told of all methods settles the hierarchy. -/
theorem eq (hh : Unified gains keeps h h') (hh' : Unified gains keeps h h'') : h' = h'' := by
  have hsame := hh.sameBut.symm.trans hh'.sameBut
  have hmethod : ∀ r, h'.method? r = h''.method? r := by
    intro r
    cases hm' : h'.method? r with
    | none =>
      have hr := hsame.method? r
      rw [hm', Option.map_none] at hr
      exact (Option.map_eq_none_iff.mp hr.symm).symm
    | some m' =>
      obtain ⟨m'', hm'', hview⟩ := hsame.exists_method hm'
      obtain ⟨m, hm, _⟩ := hh.sameBut.symm.exists_method hm'
      have hoverrides : m'.overrides = m''.overrides := ExtTreeSet.ext_mem fun x => by
        rw [hh.overrides hm hm', hh'.overrides hm hm'']
      have hforced : m'.forcedName = m''.forcedName := by
        by_cases hk : keeps m.ref ∧ m.pinned = false
        · rw [hh.forced hm hm' hk.1 hk.2, hh'.forced hm hm'' hk.1 hk.2]
        · rw [hh.unforced hm hm' hk, hh'.unforced hm hm'' hk]
      rw [hm'', MethodNode.eq_of_sansUnity hview.symm hoverrides hforced]
  have hclass : ∀ name, h'.class? name = h''.class? name := by
    intro name
    cases hc' : h'.class? name with
    | none =>
      have hn := hsame name
      rw [hc', Option.map_none] at hn
      exact (Option.map_eq_none_iff.mp hn.symm).symm
    | some c' =>
      obtain ⟨c'', hc'', hheader⟩ := hsame.exists_class hc'
      have hmethods : c'.methods = c''.methods := by
        refine ExtTreeMap.ext_getElem? fun key => ?_
        have hkey := hmethod ⟨name, key, ""⟩
        simpa [method?, hc', hc'', ClassNode.method?, MemberRef.key] using hkey
      rw [hc'']
      cases c'
      cases c''
      simp_all [ClassNode.header]
  cases h'
  cases h''
  exact congrArg Hierarchy.mk (ExtTreeMap.ext_getElem? hclass)

end Unified

/-- Only references of one owner and one key lead to one method. -/
theorem Keyed.ref_eq_iff {h : Hierarchy} (hk : Keyed h) {i r : MemberRef} {n m : MethodNode}
    (hn : h.method? i = some n) (hi : n.ref = i) (hm : h.method? r = some m) :
    i.owner = r.owner ∧ i.key = r.key ↔ m.ref = i := by
  constructor
  · rintro ⟨ho, hkey⟩
    rw [h.method?_congr ho hkey, hm] at hn
    rw [Option.some.inj hn, hi]
  · rintro rfl
    exact hk.slot_eq hm

theorem unified_addOverrides {h : Hierarchy} (hk : Keyed h) {i : MemberRef} {n : MethodNode}
    (hn : h.method? i = some n) (hi : n.ref = i) (root : MemberRef) :
    Unified (fun r x => i = r ∧ root = x) (fun _ => False) h
      (h.modifyMethod i (·.addOverrides {root})) where
  sameBut := sameBut_modifyMethod h i fun _ => rfl
  overrides {r m m'} hm hm' x := by
    rw [method?_modifyMethod] at hm'
    by_cases hslot : i.owner = r.owner ∧ i.key = r.key
    · rw [if_pos hslot, hm, Option.map_some] at hm'
      have href := (hk.ref_eq_iff hn hi hm).mp hslot
      rw [← Option.some.inj hm', MethodNode.addOverrides]
      simp [href]
    · rw [if_neg hslot, hm] at hm'
      have href := mt (hk.ref_eq_iff hn hi hm).mpr hslot
      rw [← Option.some.inj hm']
      simp [Ne.symm href]
  forced _ _ hk _ := hk.elim
  unforced {r m m'} hm hm' _ := by
    rw [method?_modifyMethod, hm] at hm'
    split at hm' <;> exact (Option.some.inj hm') ▸ rfl

theorem unified_force {h : Hierarchy} (hk : Keyed h) {i : MemberRef} {n : MethodNode}
    (hn : h.method? i = some n) (hi : n.ref = i) :
    Unified (fun _ _ => False) (fun r => i = r) h (h.modifyMethod i (·.force i.name)) where
  sameBut := sameBut_modifyMethod h i fun m => Resolution.sansUnity_force m i.name
  overrides {r m m'} hm hm' x := by
    rw [method?_modifyMethod, hm] at hm'
    rw [or_false]
    split at hm'
    · rw [← Option.some.inj hm', MethodNode.overrides_force]
    · rw [← Option.some.inj hm']
  forced {r m m'} hm hm' href hp := by
    rw [method?_modifyMethod, if_pos ((hk.ref_eq_iff hn hi hm).mpr href.symm), hm,
      Option.map_some, MethodNode.force, hp] at hm'
    rw [← Option.some.inj hm', href]
    rfl
  unforced {r m m'} hm hm' hnot := by
    rw [method?_modifyMethod, hm] at hm'
    by_cases hslot : i.owner = r.owner ∧ i.key = r.key
    · have href := (hk.ref_eq_iff hn hi hm).mp hslot
      have hp : m.pinned = true :=
        eq_true_of_ne_false fun hp => hnot ⟨href.symm, hp⟩
      rw [if_pos hslot, Option.map_some, MethodNode.force, hp] at hm'
      rw [← Option.some.inj hm']
      rfl
    · rw [if_neg hslot] at hm'
      rw [← Option.some.inj hm']

end Hierarchy

namespace Resolution

open Hierarchy (Alike Keyed SameBut Unified)

/-! ## What is unified -/

/-- The class is a loaded instance of the interface, or above one. -/
def InScope (p : ClassPath) (cls a : String) : Prop :=
  ∃ c ∈ p.loaded, c ≠ cls ∧ p.hierarchy.isInstance c cls ∧ a ∈ p.hierarchy.ancestors c

/-- `k` is a method of the interface that instances may implement. -/
def Offers (h : Hierarchy) (cls : String) (k : MethodNode) : Prop :=
  ∃ c, h.class? cls = some c ∧ c.isInterface ∧ k ∈ interfaceMethods c

/-- `m` can be overridden, and a class in the scope of the interface declares
it. -/
structure Candidate (p : ClassPath) (cls : String) (m : MethodNode) : Prop where
  declared : p.hierarchy.method? m.ref = some m
  inScope : InScope p cls m.owner
  overridable : m.isOverridable

/-- `m` is the counterpart of the interface's method `k` in a class in scope. -/
structure Sibling (p : ClassPath) (cls : String) (k m : MethodNode) : Prop
    extends Candidate p cls m where
  name_eq : m.name = k.name
  descriptor_eq : m.descriptor = k.descriptor

/-- Where the key of a method is that of an offered one, so is its name. -/
def Clear (p : ClassPath) (cls : String) : Prop :=
  ∀ k m, Offers p.hierarchy cls k → Candidate p cls m → m.key = k.key → m.name = k.name

/-- The method at `r` is a counterpart of `k`, whose reference is `x`, and stands in
another class than the interface, which is no unrelated interface. -/
def GainsFrom (p : ClassPath) (cls : String) (k : MethodNode) (r x : MemberRef) : Prop :=
  ∃ m, Sibling p cls k m ∧ m.ref = r ∧ k.ref = x ∧ m.owner ≠ cls ∧
    ((∀ c, p.hierarchy.class? m.owner = some c → ¬ c.isInterface) ∨
      p.hierarchy.isInstance m.owner cls)

/-- The method at `r` is a counterpart of `k`, and one of these counterparts lies
outside the primary archive. -/
def KeepsFor (p : ClassPath) (cls : String) (k : MethodNode) (r : MemberRef) : Prop :=
  ∃ m, Sibling p cls k m ∧ m.ref = r ∧ ∃ o, Sibling p cls k o ∧ ¬ p.isPrimary o.owner

/-- The method at `r` gains the interface's method `x`. -/
def Gains (p : ClassPath) (cls : String) (r x : MemberRef) : Prop :=
  ∃ k, Offers p.hierarchy cls k ∧ GainsFrom p cls k r x

/-- The method at `r` has to keep its name for some method of the interface. -/
def Keeps (p : ClassPath) (cls : String) (r : MemberRef) : Prop :=
  ∃ k, Offers p.hierarchy cls k ∧ KeepsFor p cls k r

section

variable {p : ClassPath} {cls : String} {g : Hierarchy}

theorem scope_eq_of_alike {h : Hierarchy} (ha : Alike h g) (loaded : List String) :
    scope g loaded cls = scope h loaded cls := by
  simp only [scope, Hierarchy.isInstance, ha.lineage, ha.ancestors]

/-- The counterparts that are looked up are those by key. -/
theorem mem_siblings_scope (hk : Keyed p.hierarchy) {key : String} {m : MethodNode} :
    m ∈ siblings p.hierarchy (scope p.hierarchy p.loaded cls).toList key ↔
      Candidate p cls m ∧ m.key = key := by
  simp only [mem_siblings, ExtTreeSet.mem_toList, mem_scope]
  constructor
  · rintro ⟨⟨name, hname, c, hc, hm⟩, ho⟩
    obtain ⟨howner, hkey, href⟩ := hk.of_mem_class hc hm
    exact ⟨⟨href, show InScope p cls m.owner by rwa [howner], ho⟩, hkey⟩
  · rintro ⟨⟨href, hscope, ho⟩, rfl⟩
    obtain ⟨c, hc, hm⟩ := Hierarchy.method?_eq_some.mp href
    exact ⟨⟨m.owner, hscope, c, hc, hm⟩, ho⟩

theorem key_eq_of_sibling {k m : MethodNode} (hm : Sibling p cls k m) : m.key = k.key := by
  show m.name ++ m.descriptor = k.name ++ k.descriptor
  rw [hm.name_eq, hm.descriptor_eq]

/-- Where keys are clear they tell the counterparts of a method. -/
theorem Clear.mem_siblings_iff (hclear : Clear p cls) (hk : Keyed p.hierarchy) {k m : MethodNode}
    (hoffer : Offers p.hierarchy cls k) :
    m ∈ siblings p.hierarchy (scope p.hierarchy p.loaded cls).toList k.key ↔
      Sibling p cls k m := by
  rw [mem_siblings_scope hk]
  refine ⟨fun ⟨hm, hkey⟩ => ?_, fun hm => ⟨hm.toCandidate, key_eq_of_sibling hm⟩⟩
  have hname := hclear k m hoffer hm hkey
  have hdescriptor : m.name ++ m.descriptor = k.name ++ k.descriptor := hkey
  rw [hname, String.append_right_inj] at hdescriptor
  exact { hm with name_eq := hname, descriptor_eq := hdescriptor }

/-! ## One method -/

/-- The methods are those that their references lead to, whatever has been told of
them since. -/
def Known (h : Hierarchy) (methods : List MethodNode) : Prop :=
  ∀ i ∈ methods, ∃ n, h.method? i.ref = some n ∧ n.ref = i.ref

theorem known_siblings {h : Hierarchy} (hk : Keyed h) (classes : List String) (key : String) :
    Known h (siblings h classes key) := by
  intro i hi
  obtain ⟨name, _, c, hname, hkey⟩ := (mem_siblings.mp hi).1
  exact ⟨i, (hk.of_mem_class hname hkey).2.2, rfl⟩

section Lists

variable {h : Hierarchy} {methods : List MethodNode}

theorem Known.of_sameBut (hm : Known h methods) (hg : SameBut MethodNode.sansUnity h g) :
    Known g methods := by
  intro i hi
  obtain ⟨n, hn, href⟩ := hm i hi
  obtain ⟨n', hn', hview⟩ := hg.exists_method hn
  exact ⟨n', hn', (MethodNode.ref_eq (MethodNode.bare_eq_of_sansUnity hview)).trans href⟩

theorem unified_addAll (hk : Keyed h) (hm : Known h methods) (root : MemberRef) :
    Unified (fun r x => ∃ i ∈ methods, i.ref = r ∧ root = x) (fun _ => False) h
      (methods.foldl (fun h i => h.modifyMethod i.ref (·.addOverrides {root})) h) := by
  have hfold : Unified (fun r x => ∃ i ∈ methods, i.ref = r ∧ root = x)
      (fun _ => ∃ i ∈ methods, False) h
      (methods.foldl (fun h i => h.modifyMethod i.ref (·.addOverrides {root})) h) := by
    refine Unified.foldl fun i hi g hg => ?_
    obtain ⟨n, hn, href⟩ := hm.of_sameBut hg i hi
    exact Hierarchy.unified_addOverrides (hk.of_alike (hg.alike_of fun _ => rfl)) hn href root
  exact hfold.congr (fun _ _ => Iff.rfl) (by simp)

/-- Where all methods have one name, forcing the name of one outside the primary
archive makes all of them keep theirs. -/
theorem unified_forceExternalName (isPrimary : String → Bool) (hk : Keyed h)
    (hm : Known h methods) (hname : ∀ i ∈ methods, ∀ o ∈ methods, i.name = o.name) :
    Unified (fun _ _ => False)
      (fun r => (∃ i ∈ methods, i.ref = r) ∧ ∃ o ∈ methods, ¬ isPrimary o.owner) h
      (forceExternalName isPrimary methods h) := by
  unfold forceExternalName
  split
  · next outside hfind =>
    have houtside := List.mem_of_find?_eq_some hfind
    have hprimary : ¬ isPrimary outside.owner := by simpa using List.find?_some hfind
    have hfold : Unified (fun _ _ => ∃ i ∈ methods, False) (fun r => ∃ i ∈ methods, i.ref = r) h
        (methods.foldl (fun h i => h.modifyMethod i.ref (·.force outside.name)) h) := by
      refine Unified.foldl fun i hi g hg => ?_
      obtain ⟨n, hn, href⟩ := hm.of_sameBut hg i hi
      rw [hname outside houtside i hi]
      exact Hierarchy.unified_force (hk.of_alike (hg.alike_of fun _ => rfl)) hn href
    exact hfold.congr (by simp) fun r => (and_iff_left ⟨outside, houtside, hprimary⟩).symm
  · next hfind =>
    refine (Unified.refl h).congr (fun _ _ => Iff.rfl) fun r => (false_iff _).mpr ?_
    rintro ⟨_, o, ho, hprimary⟩
    simpa [hprimary] using List.find?_eq_none.mp hfind o ho

end Lists

/-- Unifying a method tells of its counterparts by key, where these have one name
and there is an implementation among them if there are any. -/
theorem unified_unifyMethod (isPrimary : String → Bool) {h : Hierarchy} (hk : Keyed h)
    {classes : List String} {k : MethodNode}
    (hname : ∀ i ∈ siblings h classes k.key, ∀ o ∈ siblings h classes k.key, i.name = o.name)
    (hself : ∀ i ∈ siblings h classes k.key,
      ∃ o ∈ siblings h classes k.key, isImplementation h cls o) :
    Unified
      (fun r x => ∃ i ∈ siblings h classes k.key, i.owner ≠ cls ∧ isImplementation h cls i ∧
        i.ref = r ∧ k.ref = x)
      (fun r => (∃ i ∈ siblings h classes k.key, i.ref = r) ∧
        ∃ o ∈ siblings h classes k.key, ¬ isPrimary o.owner) h
      (unifyMethod isPrimary cls classes h k) := by
  have hknown := known_siblings hk classes k.key
  unfold unifyMethod
  dsimp only
  generalize siblings h classes k.key = methods at hname hself hknown ⊢
  split
  · next hempty =>
    have hnone : methods = [] := by
      refine List.eq_nil_iff_forall_not_mem.mpr fun i hi => ?_
      obtain ⟨o, ho, himpl⟩ := hself i hi
      have hmem : o ∈ methods.filter (isImplementation h cls) := List.mem_filter.mpr ⟨ho, himpl⟩
      rw [List.isEmpty_iff.mp hempty] at hmem
      cases hmem
    subst hnone
    exact (Unified.refl h).congr (by simp) (by simp)
  · have hothers : Known h ((methods.filter (isImplementation h cls)).filter (·.owner != cls)) :=
      fun i hi => hknown i (List.mem_filter.mp (List.mem_filter.mp hi).1).1
    have hadd := unified_addAll hk hothers k.ref
    refine (hadd.trans (unified_forceExternalName isPrimary
      (hk.of_alike (hadd.sameBut.alike_of fun _ => rfl)) (hknown.of_sameBut hadd.sameBut)
      hname)).congr (fun r x => ?_) (by simp)
    simp [and_assoc]

/-! ## One interface -/

/-- What is told of an interface looks the same after something has been
unified. -/
theorem exists_sibling {h : Hierarchy} (ha : Alike h g) {classes : List String} {key : String}
    {i : MethodNode} (hi : i ∈ siblings g classes key) :
    ∃ o ∈ siblings h classes key, o.bare = i.bare := by
  obtain ⟨⟨name, hname, c, hclass, hkey⟩, ho⟩ := mem_siblings.mp hi
  obtain ⟨d, hd, hb⟩ := ha.symm.exists_class hclass
  have hm : (d.method? key).map MethodNode.bare = some i.bare := by
    rw [← ClassNode.method?_bare, ← hb, ClassNode.method?_bare, hkey, Option.map_some]
  obtain ⟨o, hdo, hbare⟩ := Option.map_eq_some_iff.mp hm
  rw [← MethodNode.isOverridable_eq hbare] at ho
  exact ⟨o, mem_siblings.mpr ⟨⟨name, hname, d, hd, hdo⟩, ho⟩, hbare⟩

theorem any_isInterface_eq {h : Hierarchy} (ha : Alike h g) (name : String) :
    (g.class? name).any ClassNode.isInterface = (h.class? name).any ClassNode.isInterface := by
  have hn := congrArg (fun o => o.any ClassNode.isInterface) (ha name)
  simp only [Option.any_map] at hn
  exact hn.symm

theorem isImplementation_eq {h : Hierarchy} (ha : Alike h g) {i o : MethodNode}
    (hb : o.bare = i.bare) : isImplementation h cls o = isImplementation g cls i := by
  have howner : o.owner = i.owner := congrArg MemberRef.owner (MethodNode.ref_eq hb)
  rw [isImplementation, isImplementation, any_isInterface_eq ha, howner, Hierarchy.isInstance,
    Hierarchy.isInstance, ha.lineage]

theorem isImplementation_iff {h : Hierarchy} {m : MethodNode} : isImplementation h cls m ↔
    (∀ c, h.class? m.owner = some c → ¬ c.isInterface) ∨ h.isInstance m.owner cls := by
  unfold isImplementation
  cases h.class? m.owner <;> simp

theorem exists_offers_iff {h : Hierarchy} :
    ((h.class? cls).any fun c => c.isInterface && !(interfaceMethods c).isEmpty) ↔
      ∃ k, Offers h cls k := by
  unfold Offers
  cases h.class? cls with
  | none => simp
  | some c => simp [List.eq_nil_iff_forall_not_mem]

theorem Offers.of_alike {h : Hierarchy} (hg : Alike h g) {k : MethodNode} (hk : Offers h cls k) :
    ∃ m, Offers g cls m ∧ m.ref = k.ref := by
  obtain ⟨c, hc, hi, hmem⟩ := hk
  obtain ⟨hvalue, hflags⟩ := List.mem_filter.mp hmem
  obtain ⟨key, hkey⟩ := mem_values_iff.mp hvalue
  obtain ⟨d, hd, hbare⟩ := hg.exists_class hc
  have hinterface : d.isInterface = c.isInterface := by
    show d.bare.isInterface = c.bare.isInterface
    rw [hbare]
  have hmethod : (d.method? key).map MethodNode.bare = some k.bare := by
    rw [← ClassNode.method?_bare, ← hbare, ClassNode.method?_bare]
    exact congrArg (Option.map MethodNode.bare) hkey
  obtain ⟨m, hm, hmk⟩ := Option.map_eq_some_iff.mp hmethod
  have haccess : m.access = k.access := by
    show m.bare.access = k.bare.access
    rw [hmk]
  refine ⟨m, ⟨d, hd, hinterface ▸ hi, List.mem_filter.mpr ⟨mem_values_iff.mpr ⟨key, hm⟩, ?_⟩⟩, ?_⟩
  · rw [haccess]
    exact hflags
  · exact MethodNode.ref_eq hmk

theorem Offers.declared {h : Hierarchy} (hk : Keyed h) {k : MethodNode} (hoffer : Offers h cls k) :
    h.method? k.ref = some k ∧ k.owner = cls := by
  obtain ⟨c, hc, _, hmem⟩ := hoffer
  obtain ⟨key, hkey⟩ := mem_values_iff.mp (List.mem_filter.mp hmem).1
  obtain ⟨howner, _, href⟩ := hk.of_mem_class hc hkey
  exact ⟨href, howner⟩

/-- If anything answers to a method that the interface offers, so does the method
itself. -/
theorem sibling_self {k m : MethodNode} (hk : Keyed p.hierarchy) (hoffer : Offers p.hierarchy cls k)
    (hm : Sibling p cls k m) : Sibling p cls k k ∧ k.owner = cls := by
  obtain ⟨href, howner⟩ := hoffer.declared hk
  obtain ⟨c, hc, _, hmem⟩ := hoffer
  have hflags := (List.mem_filter.mp hmem).2
  obtain ⟨a, ha, hne, hinstance, _⟩ := hm.inScope
  have hself : cls ∈ p.hierarchy.ancestors a := by
    rw [Hierarchy.mem_ancestors, hc]
    exact ⟨Hierarchy.isInstance_iff.mp hinstance, rfl⟩
  have hover : k.isOverridable := by
    have ho := hm.overridable
    unfold MethodNode.isOverridable at ho ⊢
    rw [hm.name_eq] at ho
    simp only [Bool.and_eq_true] at ho hflags ⊢
    exact ⟨hflags, ho.2⟩
  have hscope : InScope p cls k.owner := by
    rw [howner]
    exact ⟨a, ha, hne, hinstance, hself⟩
  exact ⟨⟨⟨href, hscope, hover⟩, rfl, rfl⟩, howner⟩

theorem Sibling.of_ref {k k' m : MethodNode} (hm : Sibling p cls k m) (href : k.ref = k'.ref) :
    Sibling p cls k' m :=
  { hm with
    name_eq := hm.name_eq.trans (congrArg MemberRef.name href)
    descriptor_eq := hm.descriptor_eq.trans (congrArg MemberRef.descriptor href) }

theorem GainsFrom.of_ref {k k' : MethodNode} {r x : MemberRef} (hg : GainsFrom p cls k r x)
    (href : k.ref = k'.ref) : GainsFrom p cls k' r x := by
  obtain ⟨m, hm, hr, hx, hrest⟩ := hg
  exact ⟨m, hm.of_ref href, hr, href.symm.trans hx, hrest⟩

theorem KeepsFor.of_ref {k k' : MethodNode} {r : MemberRef} (hk : KeepsFor p cls k r)
    (href : k.ref = k'.ref) : KeepsFor p cls k' r := by
  obtain ⟨m, hm, hr, o, ho, hprimary⟩ := hk
  exact ⟨m, hm.of_ref href, hr, o, ho.of_ref href, hprimary⟩

/-- Unifying a method that the interface offers tells of its counterparts, where
keys are clear. -/
theorem unified_counterparts (hk : Keyed p.hierarchy) (hclear : Clear p cls)
    (ha : Alike p.hierarchy g) {k m : MethodNode} (hoffer : Offers p.hierarchy cls k)
    (href : k.ref = m.ref) :
    Unified (GainsFrom p cls m) (KeepsFor p cls m) g
      (unifyMethod p.isPrimary cls (scope p.hierarchy p.loaded cls).toList g m) := by
  have hkey : k.key = m.key := congrArg MemberRef.key href
  have hof : ∀ i ∈ siblings g (scope p.hierarchy p.loaded cls).toList m.key,
      ∃ s, Sibling p cls m s ∧ s.bare = i.bare := by
    intro i hi
    obtain ⟨s, hs, hb⟩ := exists_sibling ha hi
    rw [← hkey] at hs
    exact ⟨s, ((hclear.mem_siblings_iff hk hoffer).mp hs).of_ref href, hb⟩
  have hto : ∀ s, Sibling p cls m s →
      ∃ i ∈ siblings g (scope p.hierarchy p.loaded cls).toList m.key, i.bare = s.bare := by
    intro s hs
    have hs := (hclear.mem_siblings_iff hk hoffer).mpr (hs.of_ref href.symm)
    rw [hkey] at hs
    exact exists_sibling ha.symm hs
  have hname : ∀ {s i : MethodNode}, s.bare = i.bare → s.name = i.name := fun hb =>
    congrArg MemberRef.name (MethodNode.ref_eq hb)
  have howner : ∀ {s i : MethodNode}, s.bare = i.bare → s.owner = i.owner := fun hb =>
    congrArg MemberRef.owner (MethodNode.ref_eq hb)
  refine (unified_unifyMethod p.isPrimary (hk.of_alike ha) (fun i hi o ho => ?_)
    fun i hi => ?_).congr (fun r x => ?_) fun r => ?_
  · obtain ⟨s, hs, hb⟩ := hof i hi
    obtain ⟨t, ht, hb'⟩ := hof o ho
    rw [← hname hb, ← hname hb', hs.name_eq, ht.name_eq]
  · obtain ⟨s, hs, _⟩ := hof i hi
    obtain ⟨hself, hcls⟩ := sibling_self hk hoffer (hs.of_ref href.symm)
    obtain ⟨o, ho, hb⟩ := hto k (hself.of_ref href)
    refine ⟨o, ho, ?_⟩
    rw [isImplementation, ← howner hb.symm, hcls]
    simp [Hierarchy.isInstance]
  · constructor
    · rintro ⟨i, hi, hne, himpl, hr, hx⟩
      obtain ⟨s, hs, hb⟩ := hof i hi
      rw [← isImplementation_eq ha hb, isImplementation_iff] at himpl
      exact ⟨s, hs, (MethodNode.ref_eq hb).trans hr, hx, howner hb ▸ hne, himpl⟩
    · rintro ⟨s, hs, hr, hx, hne, himpl⟩
      obtain ⟨i, hi, hb⟩ := hto s hs
      rw [← isImplementation_iff, isImplementation_eq ha hb.symm] at himpl
      exact ⟨i, hi, (howner hb).symm ▸ hne, himpl, (MethodNode.ref_eq hb).trans hr, hx⟩
  · constructor
    · rintro ⟨⟨i, hi, hr⟩, o, ho, hprimary⟩
      obtain ⟨s, hs, hb⟩ := hof i hi
      obtain ⟨t, ht, hb'⟩ := hof o ho
      exact ⟨s, hs, (MethodNode.ref_eq hb).trans hr, t, ht, (howner hb').symm ▸ hprimary⟩
    · rintro ⟨s, hs, hr, t, ht, hprimary⟩
      obtain ⟨i, hi, hb⟩ := hto s hs
      obtain ⟨o, ho, hb'⟩ := hto t ht
      exact ⟨⟨i, hi, (MethodNode.ref_eq hb).trans hr⟩, o, ho, (howner hb').symm ▸ hprimary⟩

theorem unifyInterface_eq_foldl {isPrimary : String → Bool} {loaded : List String} {h : Hierarchy}
    {c : ClassNode} (hc : h.class? cls = some c) (hi : c.isInterface) :
    unifyInterface isPrimary loaded cls h = (interfaceMethods c).foldl
      (unifyMethod isPrimary cls (scope h loaded cls).toList) h := by
  simp only [unifyInterface, hc, hi, if_true]

/-- Unifying an interface tells of the counterparts of its methods, where keys are
clear. -/
theorem unified_unifyInterface (hk : Keyed p.hierarchy) (hclear : Clear p cls)
    (hg : SameBut MethodNode.sansUnity p.hierarchy g) :
    Unified (Gains p cls) (Keeps p cls) g (unifyInterface p.isPrimary p.loaded cls g) := by
  have ha : Alike p.hierarchy g := hg.alike_of fun _ => rfl
  by_cases hoffers : ∃ m, Offers g cls m
  · obtain ⟨_, d, hd, hi, _⟩ := hoffers
    have hof : ∀ m ∈ interfaceMethods d, ∃ k, Offers p.hierarchy cls k ∧ k.ref = m.ref :=
      fun m hm => Offers.of_alike ha.symm ⟨d, hd, hi, hm⟩
    have hto : ∀ k, Offers p.hierarchy cls k → ∃ m ∈ interfaceMethods d, m.ref = k.ref := by
      intro k hk
      obtain ⟨m, ⟨d', hd', _, hm⟩, href⟩ := hk.of_alike ha
      cases hd.symm.trans hd'
      exact ⟨m, hm, href⟩
    rw [unifyInterface_eq_foldl hd hi, scope_eq_of_alike ha]
    have hfold : Unified (fun r x => ∃ m ∈ interfaceMethods d, GainsFrom p cls m r x)
        (fun r => ∃ m ∈ interfaceMethods d, KeepsFor p cls m r) g
        ((interfaceMethods d).foldl
          (unifyMethod p.isPrimary cls (scope p.hierarchy p.loaded cls).toList) g) := by
      refine Unified.foldl fun m hm h' hh' => ?_
      obtain ⟨k, hoffer, href⟩ := hof m hm
      exact unified_counterparts hk hclear (ha.trans (hh'.alike_of fun _ => rfl)) hoffer href
    refine hfold.congr (fun r x => ⟨?_, ?_⟩) fun r => ⟨?_, ?_⟩
    · rintro ⟨m, hm, hgains⟩
      obtain ⟨k, hoffer, href⟩ := hof m hm
      exact ⟨k, hoffer, hgains.of_ref href.symm⟩
    · rintro ⟨k, hoffer, hgains⟩
      obtain ⟨m, hm, href⟩ := hto k hoffer
      exact ⟨m, hm, hgains.of_ref href.symm⟩
    · rintro ⟨m, hm, hkeeps⟩
      obtain ⟨k, hoffer, href⟩ := hof m hm
      exact ⟨k, hoffer, hkeeps.of_ref href.symm⟩
    · rintro ⟨k, hoffer, hkeeps⟩
      obtain ⟨m, hm, href⟩ := hto k hoffer
      exact ⟨m, hm, hkeeps.of_ref href.symm⟩
  · have hnone : ∀ k, ¬ Offers p.hierarchy cls k := by
      intro k hk
      obtain ⟨m, hm, _⟩ := hk.of_alike ha
      exact hoffers ⟨m, hm⟩
    rw [unifyInterface_eq_self (mt exists_offers_iff.mp hoffers)]
    exact (Unified.refl g).congr (fun _ _ => by simp [Gains, hnone]) (by simp [Keeps, hnone])

end

end Resolution
end Lineage
