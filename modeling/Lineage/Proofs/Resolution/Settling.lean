import Lineage.Proofs.ClassFile.Summary
import Lineage.Proofs.Hierarchy.Viewpoint
import Lineage.Proofs.Resolution.Families

/-!
What settling a class does to the ties of methods.

A method is tied to its roots, to its parent and to its forwarders.  Settling a
class links the methods of that class, which sets their roots and parents from
what they meet above, and binds its contracts, which gives methods of any class
above more roots.  Nothing else is tied or untied.  In a hierarchy without
cycles this happens to a class once, when all that is above it is resolved.
-/

namespace Lineage

open Std (ExtTreeMap ExtTreeSet)
open Relation (ReflTransGen TransGen)

namespace MethodNode

/-- What the class file says of a method, and what it is tied to. -/
def ties (m : MethodNode) : MethodNode :=
  { m.bare with overrides := m.overrides, forwarders := m.forwarders, parent := m.parent }

theorem bare_ties (m : MethodNode) : m.ties.bare = m.bare := by
  cases hb : m.bounce <;> simp [ties, bare, hb, ref]

theorem bare_eq_of_ties {m n : MethodNode} (h : m.ties = n.ties) : m.bare = n.bare := by
  rw [← bare_ties m, h, bare_ties]

theorem overrides_eq_of_ties {m n : MethodNode} (h : m.ties = n.ties) :
    m.overrides = n.overrides := by
  show m.ties.overrides = n.ties.overrides
  rw [h]

theorem forwarders_eq_of_ties {m n : MethodNode} (h : m.ties = n.ties) :
    m.forwarders = n.forwarders := by
  show m.ties.forwarders = n.ties.forwarders
  rw [h]

theorem parent_eq_of_ties {m n : MethodNode} (h : m.ties = n.ties) : m.parent = n.parent := by
  show m.ties.parent = n.ties.parent
  rw [h]

end MethodNode

namespace Hierarchy

theorem Alike.keyed_ref {h h' : Hierarchy} (hh : Alike h h') {r : MemberRef} {m m' : MethodNode}
    (hm : h.method? r = some m) (hm' : h'.method? r = some m') : m'.bare = m.bare := by
  obtain ⟨n, hn, hb⟩ := hh.exists_method hm
  rw [hm'] at hn
  cases hn
  exact hb.symm

theorem method?_modifyClass_of_methods (h : Hierarchy) (name : String)
    {f : ClassNode → ClassNode} (hf : ∀ c, (f c).methods = c.methods) (r : MemberRef) :
    (h.modifyClass name f).method? r = h.method? r := by
  simp only [method?, class?_modifyClass, Option.bind_eq_bind]
  by_cases hn : name = r.owner
  · rw [if_pos hn]
    cases h.class? r.owner with
    | none => rfl
    | some c => simp [ClassNode.method?, hf]
  · rw [if_neg hn]

theorem Keyed.modifyClass {h : Hierarchy} (hk : Keyed h) (name : String)
    {f : ClassNode → ClassNode} (hf : ∀ c, (f c).name = c.name ∧ (f c).methods = c.methods) :
    Keyed (h.modifyClass name f) where
  name_eq {other c} hc := by
    obtain ⟨d, hd, ⟨_, rfl⟩ | ⟨_, rfl⟩⟩ := exists_of_modifyClass hc
    · exact (hf d).1.trans (hk.name_eq hd)
    · exact hk.name_eq hd
  slot_eq {r m} hm :=
    hk.slot_eq (method?_modifyClass_of_methods h name (fun c => (hf c).2) r ▸ hm)

/-- A method that has just been read is tied to nothing. -/
theorem AsRead.untied {h : Hierarchy} (hh : AsRead h) {r : MemberRef} {m : MethodNode}
    (hm : h.method? r = some m) : m.ties = m.bare := by
  obtain ⟨c, hc, hcm⟩ := method?_eq_some.mp hm
  obtain ⟨bytes, isLocal, hb⟩ := hh _ _ hc
  obtain ⟨s, _, _, rfl⟩ := ClassNode.ofBytes?_eq_some hb
  obtain ⟨_, declared, _, rfl⟩ := ClassNode.method?_ofSummary hcm
  rfl

/-- A bouncer that has just been read stays in its class or leads to its
superclass. -/
theorem AsRead.target_of_bounce {h : Hierarchy} (hh : AsRead h) {r : MemberRef} {m : MethodNode}
    {b : Bounce} (hm : h.method? r = some m) (hb : m.bounce = some b) :
    b.target.owner = r.owner ∨ h.supertypeGraph.Edge r.owner b.target.owner := by
  obtain ⟨c, hc, hcm⟩ := method?_eq_some.mp hm
  obtain ⟨bytes, isLocal, hbytes⟩ := hh _ _ hc
  obtain ⟨s, hs, hname, rfl⟩ := ClassNode.ofBytes?_eq_some hbytes
  obtain ⟨_, declared, hd, rfl⟩ := ClassNode.method?_ofSummary hcm
  obtain ⟨target, htarget, rfl⟩ := Option.map_eq_some_iff.mp hb
  rcases ClassFile.owner_of_bouncer hs hd htarget with howner | hsuper
  · exact Or.inl (howner.trans hname)
  · refine Or.inr ⟨_, congrArg (Option.map ClassNode.supertypes) hc, ?_⟩
    exact List.mem_append_left _ (by simp [ClassNode.ofSummary, hsuper])

/-- No class is above itself. -/
def Acyclic (h : Hierarchy) : Prop := ∀ a, ¬ TransGen h.supertypeGraph.Edge a a

theorem Acyclic.of_alike {h h' : Hierarchy} (ha : Acyclic h) (hh : Alike h h') : Acyclic h' := by
  unfold Acyclic
  rw [← hh.supertypeGraph]
  exact ha

/-! ## Looking up -/

theorem mem_overrideRoots_iff {h : Hierarchy} {r x : MemberRef} {c : String} :
    x ∈ h.overrideRoots r c ↔ ∃ d ∈ h.declarationsAbove r c, x ∈ d.roots := by
  rw [overrideRoots, mem_foldl_roots]
  simp

/-- Supertypes that go down in rank never come back. -/
theorem acyclic_of_rank {h : Hierarchy} (rank : String → Nat)
    (hrank : ∀ p ∈ h.classes.toList, ∀ b ∈ p.2.supertypes, rank b < rank p.1) : Acyclic h := by
  have hedge : ∀ {a b}, h.supertypeGraph.Edge a b → rank b < rank a := by
    rintro a b ⟨l, hl, hb⟩
    obtain ⟨c, hc, rfl⟩ := Option.map_eq_some_iff.mp hl
    exact hrank (a, c) (ExtTreeMap.mem_toList_iff_getElem?_eq_some.mpr hc) b hb
  have hway : ∀ {a b}, TransGen h.supertypeGraph.Edge a b → rank b < rank a := by
    intro a b hab
    induction hab with
    | single hab => exact hedge hab
    | tail _ hbc ih => exact Nat.lt_trans (hedge hbc) ih
  exact fun a ha => Nat.lt_irrefl _ (hway ha)

end Hierarchy

theorem MethodNode.mem_roots {m : MethodNode} {x : MemberRef} (hx : x ∈ m.roots) :
    x = m.ref ∨ x ∈ m.overrides := by
  unfold MethodNode.roots at hx
  split at hx
  · simp at hx
    exact Or.inl hx.symm
  · exact Or.inr hx

namespace Resolution

open Hierarchy (Acyclic Alike Keyed SameBut)

/-! ## Linking -/

theorem ties_sansBounce (m : MethodNode) : m.sansBounce.ties = m.ties := by
  cases hb : m.bounce <;>
    simp [MethodNode.sansBounce, MethodNode.ties, MethodNode.bare, hb, MethodNode.ref]

theorem ties_nameEnumMethod (names : Names) (cls : String) (m : MethodNode) :
    (nameEnumMethod names cls m).ties = m.ties := by
  unfold nameEnumMethod
  split
  · split <;> rfl
  · rfl

/-- The hierarchy when all is done to a class that comes before linking. -/
def bouncedAt (names : Names) (cls : String) (h : Hierarchy) : Hierarchy :=
  (resolveBounces cls (nameEnums names cls h)).1

theorem alike_bouncedAt (names : Names) (cls : String) (h : Hierarchy) :
    Alike h (bouncedAt names cls h) :=
  (alike_nameEnums names cls h).trans (alike_resolveBounces cls _)

theorem map_ties_bouncedAt (names : Names) (cls : String) (h : Hierarchy) (r : MemberRef) :
    ((bouncedAt names cls h).method? r).map MethodNode.ties =
      (h.method? r).map MethodNode.ties := by
  have hb := (sameBut_resolveBounces cls (nameEnums names cls h)).map MethodNode.ties
  rw [show MethodNode.ties ∘ MethodNode.sansBounce = MethodNode.ties from
    funext ties_sansBounce] at hb
  exact (hb.method? r).symm.trans (map_method?_nameEnums names cls h (ties_nameEnumMethod names) r)

/-- From `h` on some methods of a class have been linked, one after the
other. -/
inductive Linking (cls : String) (h : Hierarchy) : Hierarchy → Prop
  | refl : Linking cls h h
  | link {g : Hierarchy} {r : MemberRef} (hg : Linking cls h g) (hr : r.owner = cls) :
    Linking cls h (linkMethod cls g r)

/-- A root of some method of the hierarchy. -/
def IsRoot (h : Hierarchy) (x : MemberRef) : Prop :=
  ∃ r m, h.method? r = some m ∧ x ∈ m.overrides

namespace Linking

variable {cls : String} {h g : Hierarchy}

theorem sameBut (hg : Linking cls h g) : SameBut MethodNode.sansLinks h g := by
  induction hg with
  | refl => exact .refl h
  | link _ _ ih => exact ih.trans (sameBut_linkMethod cls _ _)

theorem alike (hg : Linking cls h g) : Alike h g := hg.sameBut.alike_of fun _ => rfl

theorem method?_of_ne (hg : Linking cls h g) {q : MemberRef} (hq : q.owner ≠ cls) :
    g.method? q = h.method? q := by
  induction hg with
  | refl => rfl
  | link _ hr ih => rw [method?_linkMethod_of_ne fun hrq => hq (hrq.symm.trans hr), ih]

/-- What becomes a root of a method is a root already, or a method of the class
or of one above. -/
theorem isRoot_of_mem (hk : Keyed g) {r x : MemberRef} (hx : x ∈ g.overrideRoots r cls) :
    IsRoot g x ∨ x.owner ∈ g.ancestors cls := by
  obtain ⟨d, hd, hx⟩ := Hierarchy.mem_overrideRoots_iff.mp hx
  obtain ⟨v, hv, hmet⟩ := Hierarchy.mem_declarationsAbove.mp hd
  obtain ⟨href, howner, _⟩ := hk.of_met hmet
  rcases MethodNode.mem_roots hx with rfl | hx
  · refine Or.inr (Hierarchy.mem_ancestors.mpr ⟨?_, ?_⟩)
    · show ReflTransGen _ cls d.owner
      rw [howner]
      exact Hierarchy.reaches_cls hv
    · obtain ⟨c, hc, _⟩ := Hierarchy.method?_eq_some.mp href
      exact Option.isSome_iff_exists.mpr ⟨c, hc⟩
  · exact Or.inl ⟨d.ref, d, href, hx⟩

theorem isRoot (hg : Linking cls h g) (hk : Keyed h) {x : MemberRef} (hx : IsRoot g x) :
    IsRoot h x ∨ x.owner ∈ h.ancestors cls := by
  induction hg with
  | refl => exact Or.inl hx
  | link hg hr ih =>
    obtain ⟨q, n, hn, hx⟩ := hx
    obtain ⟨m, hm, ⟨_, rfl⟩ | ⟨_, rfl⟩⟩ := Hierarchy.exists_of_modifyMethod hn
    · rcases isRoot_of_mem (hk.of_alike hg.alike) hx with hx | hx
      · exact ih hx
      · exact Or.inr (hg.alike.ancestors ▸ hx)
    · exact ih ⟨q, n, hm, hx⟩

theorem linkMethods (hk : Keyed h) (cls : String) : Linking cls h (linkMethods cls h) :=
  List.foldlRecOn (motive := Linking cls h) _ _ .refl
    fun _ hg _ hr => hg.link ((mem_methodsOf hk).mp hr).1

/-- Methods keep their forwarders, and all their ties in other classes. -/
theorem exists_before {names : Names} (hg : Linking cls (bouncedAt names cls h) g)
    {r : MemberRef} {m : MethodNode} (hm : g.method? r = some m) :
    ∃ n, h.method? r = some n ∧ m.bare = n.bare ∧ m.forwarders = n.forwarders ∧
      (r.owner ≠ cls → m.ties = n.ties) := by
  obtain ⟨b, hb, hview⟩ := hg.sameBut.symm.exists_method hm
  have hties := map_ties_bouncedAt names cls h r
  rw [hb, Option.map_some] at hties
  obtain ⟨n, hn, hnb⟩ := Option.map_eq_some_iff.mp hties.symm
  have hbare : b.sansLinks.bare = m.sansLinks.bare := by rw [hview]
  have hforwarders : b.sansLinks.forwarders = m.sansLinks.forwarders := by rw [hview]
  refine ⟨n, hn, hbare.symm.trans (MethodNode.bare_eq_of_ties hnb).symm,
    hforwarders.symm.trans (MethodNode.forwarders_eq_of_ties hnb).symm, fun hr => ?_⟩
  rw [hg.method?_of_ne hr, hb] at hm
  cases hm
  exact hnb.symm

end Linking

/-- A method of the class has been linked, with some of the others linked before
it. -/
def Linked (cls : String) (h : Hierarchy) (m : MethodNode) : Prop :=
  ∃ h', Linking cls h h' ∧ m.overrides = h'.overrideRoots m.ref cls ∧
    m.parent = h'.nearestParent? m.ref cls

theorem Linking.exists_linked {cls : String} {h h' : Hierarchy} (hh : Linking cls h h')
    {m : MethodNode} (hm : h.method? m.ref = some m) :
    ∃ n, (linkMethod cls h' m.ref).method? m.ref = some n ∧ Linked cls h n := by
  obtain ⟨m', hm', hb⟩ := hh.alike.exists_method hm
  have hn : (linkMethod cls h' m.ref).method? m.ref =
      some { m' with
        overrides := h'.overrideRoots m.ref cls
        parent := h'.nearestParent? m.ref cls } := by
    simp [linkMethod, hm']
  refine ⟨_, hn, h', hh, ?_, ?_⟩
  · exact congrArg (h'.overrideRoots · cls) (MethodNode.ref_eq hb)
  · exact congrArg (h'.nearestParent? · cls) (MethodNode.ref_eq hb)

theorem linked_linkMethods {h : Hierarchy} (hk : Keyed h) {cls : String} {r : MemberRef}
    {m : MethodNode} (hr : r.owner = cls) (hm : (linkMethods cls h).method? r = some m) :
    Linked cls h m := by
  obtain ⟨m₀, hm₀, hbare⟩ := (alike_linkMethods cls h).symm.exists_method hm
  have href : m.ref = m₀.ref := MethodNode.ref_eq hbare
  have howner : m₀.ref.owner = cls := (hk.slot_eq hm₀).1.trans hr
  have hself := hk.method?_ref hm₀
  have hmem : m₀.ref ∈ methodsOf h cls := (mem_methodsOf hk).mpr ⟨howner, m₀, hself, rfl⟩
  obtain ⟨n, hn, hl⟩ : ∃ n, (linkMethods cls h).method? m₀.ref = some n ∧ Linked cls h n := by
    refine foldl_of_mem (P := Linking cls h)
      (Q := fun h' => ∃ n, h'.method? m₀.ref = some n ∧ Linked cls h n) hmem
      .refl (fun h' hh r hr => hh.link ((mem_methodsOf hk).mp hr).1)
      (fun h' hh => hh.exists_linked hself) ?_
    rintro h' hh ⟨n, hn, hl⟩ q hq
    obtain ⟨ho, k, hkq, hkr⟩ := (mem_methodsOf hk).mp hq
    by_cases hkey : q.key = m₀.ref.key
    · have hsame : q = m₀.ref := by
        rw [h.method?_congr (ho.trans howner.symm) hkey, hself] at hkq
        cases hkq
        exact hkr.symm
      rw [hsame]
      exact hh.exists_linked hself
    · refine ⟨n, ?_, hl⟩
      rw [linkMethod, Hierarchy.method?_modifyMethod, if_neg fun hslot => hkey hslot.2]
      exact hn
  rw [← href, ((hk.of_alike (alike_linkMethods cls h)).method?_ref hm)] at hn
  cases hn
  exact hl

/-! ## Binding -/

/-- The reference to what implements the methods with a key for some classes. -/
def implementer? (h : Hierarchy) (classes : List String) (key : String) : Option MemberRef :=
  (implementation? h classes key).map MethodNode.ref

theorem implementation?_cons (h : Hierarchy) (cls : String) (classes : List String) (key : String) :
    implementation? h (cls :: classes) key =
      (((h.class? cls).bind (·.method? key)).filter implements).or
        (implementation? h classes key) := by
  cases hc : h.class? cls with
  | none => simp [implementation?, hc]
  | some c =>
    simp only [implementation?, List.filterMap_cons, hc, List.findSome?_cons, Option.bind_some]
    cases (c.method? key).filter implements <;> rfl

theorem implements_eq {m n : MethodNode} (h : m.bare = n.bare) : implements m = implements n := by
  show implements m.bare = implements n.bare
  rw [h]

theorem implementer?_eq {h h' : Hierarchy} (hh : Alike h h') (classes : List String)
    (key : String) : implementer? h' classes key = implementer? h classes key := by
  induction classes with
  | nil => rfl
  | cons cls classes ih =>
    unfold implementer? at ih ⊢
    rw [implementation?_cons, implementation?_cons, Option.map_or, Option.map_or, ih]
    congr 1
    cases hc : h.class? cls with
    | none =>
      have hs := hh.isSome_class? cls
      rw [hc, Option.isSome_none, eq_comm, Option.isSome_eq_false_iff, Option.isNone_iff_eq_none]
        at hs
      rw [hs]
    | some c =>
      obtain ⟨c', hc', hb⟩ := hh.exists_class hc
      rw [hc', Option.bind_some, Option.bind_some]
      have hm := congrArg (ClassNode.method? · key) hb
      simp only [ClassNode.method?_bare] at hm
      cases hn : c.method? key with
      | none =>
        rw [hn, Option.map_none, eq_comm, Option.map_eq_none_iff] at hm
        rw [hm]
      | some n =>
        rw [hn, Option.map_some] at hm
        obtain ⟨n', hn', hbn⟩ := Option.map_eq_some_iff.mp hm.symm
        rw [hn']
        simp only [Option.filter_some, implements_eq hbn]
        split
        · exact congrArg some (MethodNode.ref_eq hbn)
        · rfl

theorem exists_of_implementer? {h : Hierarchy} (hk : Keyed h) {cls key : String} {r : MemberRef}
    (hr : implementer? h (h.ancestors cls) key = some r) :
    r.owner ∈ h.ancestors cls ∧
      ∃ m, h.method? r = some m ∧ m.ref = r ∧ implements m := by
  obtain ⟨m, hm, rfl⟩ := Option.map_eq_some_iff.mp hr
  obtain ⟨c, hc, hmc⟩ := List.exists_of_findSome?_eq_some hm
  obtain ⟨b, hb, hc⟩ := List.mem_filterMap.mp hc
  obtain ⟨hmc, himpl⟩ := Option.filter_eq_some_iff.mp hmc
  obtain ⟨howner, _, href⟩ := hk.of_mem_class hc hmc
  refine ⟨?_, m, href, rfl, himpl⟩
  show m.owner ∈ h.ancestors cls
  rw [howner]
  exact hb

/-- An abstract method of one of the classes that overrides nothing. -/
def Contract (h : Hierarchy) (classes : List String) (k : MethodNode) : Prop :=
  ∃ c ∈ classes.filterMap h.class?, k ∈ c.methods.values ∧ isContract k

theorem mem_contracts {h : Hierarchy} {classes : List String} {key : String} {x : MemberRef} :
    (∃ p ∈ (contracts h classes).toList, p.1 = key ∧ x ∈ p.2) ↔
      ∃ k, Contract h classes k ∧ k.key = key ∧ k.ref = x := by
  have hfold : ∀ (ms : List MethodNode) (cs : ExtTreeMap String MemberSet),
      x ∈ ((ms.foldl (fun cs m => cs.alter m.key fun roots =>
        some ((roots.getD ∅).insert m.ref)) cs)[key]?).getD ∅ ↔
        x ∈ (cs[key]?).getD ∅ ∨ ∃ k ∈ ms, k.key = key ∧ k.ref = x := by
    intro ms
    induction ms with
    | nil => simp
    | cons m ms ih =>
      intro cs
      rw [List.foldl_cons, ih, ExtTreeMap.getElem?_alter]
      by_cases hkey : m.key = key
      · simp only [hkey, Std.LawfulEqOrd.compare_eq_iff_eq, if_true, Option.getD_some,
          ExtTreeSet.mem_insert, List.mem_cons, exists_eq_or_imp, true_and]
        tauto
      · simp only [hkey, Std.LawfulEqOrd.compare_eq_iff_eq, if_false, List.mem_cons,
          exists_eq_or_imp, false_and, false_or]
  have htable : (∃ p ∈ (contracts h classes).toList, p.1 = key ∧ x ∈ p.2) ↔
      x ∈ ((contracts h classes)[key]?).getD ∅ := by
    constructor
    · rintro ⟨⟨_, roots⟩, hp, rfl, hx⟩
      rw [ExtTreeMap.mem_toList_iff_getElem?_eq_some.mp hp]
      exact hx
    · intro hx
      cases hr : (contracts h classes)[key]? with
      | none => simp [hr] at hx
      | some roots =>
        rw [hr] at hx
        exact ⟨(key, roots), ExtTreeMap.mem_toList_iff_getElem?_eq_some.mpr hr, rfl, hx⟩
  rw [htable, contracts, hfold]
  simp only [ExtTreeMap.getElem?_empty, Option.getD_none,
    ExtTreeSet.not_mem_empty, false_or, List.mem_flatMap, List.mem_filter, Contract]

/-- The method at `r` implements the methods with a key for some classes. -/
def Implements (h : Hierarchy) (classes : List String) (key : String) (r : MemberRef) : Prop :=
  ∃ i, implementer? h classes key = some i ∧ i.owner = r.owner ∧ i.key = r.key

/-- One of the classes has a contract `x` that the method at `r` implements for
them. -/
def Gives (h : Hierarchy) (classes : List String) (r x : MemberRef) : Prop :=
  ∃ k, Contract h classes k ∧ k.ref = x ∧ Implements h classes k.key r

theorem bindContract_step {h : Hierarchy} (cls : String) {classes : List String} {r : MemberRef}
    {s : Hierarchy × List Finding} (ha : Alike h s.1) (p : String × MemberSet) {m : MethodNode}
    (hm : s.1.method? r = some m) :
    Alike h (bindContract cls classes s p).1 ∧
      ∃ m', (bindContract cls classes s p).1.method? r = some m' ∧
        ∀ x, x ∈ m'.overrides ↔ x ∈ m.overrides ∨ x ∈ p.2 ∧ Implements h classes p.1 r := by
  have himpl := implementer?_eq ha classes p.1
  unfold bindContract
  unfold Implements
  rw [← himpl, implementer?]
  cases hi : implementation? s.1 classes p.1 with
  | none =>
    refine ⟨ha, m, hm, fun x => ?_⟩
    simp
  | some i =>
    refine ⟨ha.trans ?_, ?_⟩
    · exact (Hierarchy.sameBut_modifyMethod s.1 i.ref
        (f := (·.addOverrides p.2)) fun _ => rfl).alike
    · have hstep := s.1.method?_modifyMethod i.ref r (·.addOverrides p.2)
      by_cases hslot : i.ref.owner = r.owner ∧ i.ref.key = r.key
      · rw [if_pos hslot, hm, Option.map_some] at hstep
        refine ⟨_, hstep, fun x => ?_⟩
        simp [MethodNode.addOverrides, hslot]
      · rw [if_neg hslot, hm] at hstep
        refine ⟨m, hstep, fun x => ?_⟩
        simp [hslot]

/-- Binding the contracts of a class gives methods just those that they
implement for it. -/
theorem mem_overrides_bindContracts {h : Hierarchy} (cls : String) {r : MemberRef}
    {m : MethodNode} (hm : h.method? r = some m) :
    ∃ m', (bindContracts cls h).1.method? r = some m' ∧
      ∀ x, x ∈ m'.overrides ↔ x ∈ m.overrides ∨ Gives h (h.ancestors cls) r x := by
  have hfold : ∀ (ps : List (String × MemberSet)) (s : Hierarchy × List Finding) (n : MethodNode),
      Alike h s.1 → s.1.method? r = some n →
      ∃ n', (ps.foldl (bindContract cls (h.ancestors cls)) s).1.method? r = some n' ∧
        ∀ x, x ∈ n'.overrides ↔
          x ∈ n.overrides ∨ ∃ p ∈ ps, x ∈ p.2 ∧ Implements h (h.ancestors cls) p.1 r := by
    intro ps
    induction ps with
    | nil => exact fun s n _ hn => ⟨n, hn, fun x => by simp⟩
    | cons p ps ih =>
      intro s n ha hn
      obtain ⟨ha', n₁, hn₁, hx₁⟩ := bindContract_step cls ha p hn
      obtain ⟨n₂, hn₂, hx₂⟩ := ih _ n₁ ha' hn₁
      refine ⟨n₂, hn₂, fun x => ?_⟩
      rw [hx₂, hx₁, or_assoc]
      simp only [List.mem_cons, exists_eq_or_imp]
  obtain ⟨m', hm', hx⟩ := hfold (contracts h (h.ancestors cls)).toList (h, []) m (.refl h) hm
  refine ⟨m', hm', fun x => (hx x).trans (or_congr_right ⟨?_, ?_⟩)⟩
  · rintro ⟨p, hp, hxp, hi⟩
    obtain ⟨k, hk, hkey, hkx⟩ := mem_contracts.mp ⟨p, hp, rfl, hxp⟩
    exact ⟨k, hk, hkx, hkey ▸ hi⟩
  · rintro ⟨k, hk, hkx, hi⟩
    obtain ⟨p, hp, hkey, hxp⟩ := mem_contracts.mpr ⟨k, hk, rfl, hkx⟩
    exact ⟨p, hp, hxp, hkey ▸ hi⟩

/-! ## All passes over a class -/

/-- Settling the class gives the method at `r` the contract `x` as a root. -/
def Bestows (names : Names) (h : Hierarchy) (cls : String) (r x : MemberRef) : Prop :=
  (∃ c, h.class? cls = some c ∧ c.isAbstract = false) ∧
    Gives (linkedAt names cls h) (h.ancestors cls) r x

/-- What settling a class makes of a method `m` at `r`. -/
structure Settled (names : Names) (cls : String) (h : Hierarchy) (r : MemberRef)
    (m m' : MethodNode) : Prop where
  bare : m'.bare = m.bare
  forwarders : m'.forwarders = m.forwarders
  /-- Methods of other classes keep what they are tied to and get contracts. -/
  other : r.owner ≠ cls →
    m'.parent = m.parent ∧ ∀ x, x ∈ m'.overrides ↔ x ∈ m.overrides ∨ Bestows names h cls r x
  /-- Methods of the class are tied to what they meet above. -/
  own : r.owner = cls →
    ∃ g, Linking cls (bouncedAt names cls h) g ∧ m'.parent = g.nearestParent? m.ref cls ∧
      ∀ x, x ∈ m'.overrides ↔ x ∈ g.overrideRoots m.ref cls ∨ Bestows names h cls r x

/-- Binding contracts adds roots to methods that have been linked. -/
theorem exists_before_boundAt {names : Names} {cls : String} {h : Hierarchy} {c : ClassNode}
    (hc : h.class? cls = some c) {r : MemberRef} {m' : MethodNode}
    (hm' : (boundAt names cls c.isAbstract h).method? r = some m') :
    ∃ l, (linkedAt names cls h).method? r = some l ∧ m'.sansRoots = l.sansRoots ∧
      ∀ x, x ∈ m'.overrides ↔ x ∈ l.overrides ∨ Bestows names h cls r x := by
  unfold boundAt at hm'
  cases ha : c.isAbstract with
  | true =>
    rw [ha, if_pos rfl] at hm'
    refine ⟨m', hm', rfl, fun x => (or_iff_left ?_).symm⟩
    rintro ⟨⟨c', hc', ha'⟩, _⟩
    rw [hc] at hc'
    cases hc'
    rw [ha] at ha'
    cases ha'
  | false =>
    rw [ha, if_neg Bool.false_ne_true] at hm'
    obtain ⟨l, hl, hml⟩ :=
      (sameBut_bindContracts cls (linkedAt names cls h)).symm.exists_method hm'
    obtain ⟨n, hn, hx⟩ := mem_overrides_bindContracts cls hl
    rw [hm'] at hn
    cases hn
    rw [← (alike_linkedAt names cls h).ancestors] at hx
    refine ⟨l, hl, hml.symm, fun x => (hx x).trans (or_congr_right ?_)⟩
    exact ⟨fun hg => ⟨⟨c, hc, ha⟩, hg⟩, fun hb => hb.2⟩

theorem settled_settle {names : Names} {cls : String} {h : Hierarchy} (hk : Keyed h)
    (hc : (h.class? cls).isSome) {r : MemberRef} {m' : MethodNode}
    (hm' : (settle names cls h).1.method? r = some m') :
    ∃ m, h.method? r = some m ∧ Settled names cls h r m m' := by
  obtain ⟨c, hc⟩ := Option.isSome_iff_exists.mp hc
  rw [settle_fst hc,
    Hierarchy.method?_modifyClass_of_methods _ _ (f := markResolved) fun _ => rfl,
    Hierarchy.method?_modifyClass_of_methods _ _ (f := nameAccessors) fun _ => rfl] at hm'
  obtain ⟨l, hl, hml, hroots⟩ := exists_before_boundAt hc hm'
  have hparent : m'.parent = l.parent := by
    show m'.sansRoots.parent = l.sansRoots.parent
    rw [hml]
  have hbare : m'.bare = l.bare := by
    show m'.sansRoots.bare = l.sansRoots.bare
    rw [hml]
  have hforwarders : m'.forwarders = l.forwarders := by
    show m'.sansRoots.forwarders = l.sansRoots.forwarders
    rw [hml]
  obtain ⟨m, hm, hlm, hlf, hne⟩ :=
    (Linking.linkMethods (hk.of_alike (alike_bouncedAt names cls h)) cls).exists_before hl
  refine ⟨m, hm, hbare.trans hlm, hforwarders.trans hlf, fun hr => ?_, fun hr => ?_⟩
  · refine ⟨hparent.trans (MethodNode.parent_eq_of_ties (hne hr)), fun x => ?_⟩
    rw [hroots, MethodNode.overrides_eq_of_ties (hne hr)]
  · obtain ⟨g, hg, ho, hp⟩ :=
      linked_linkMethods (hk.of_alike (alike_bouncedAt names cls h)) hr hl
    rw [MethodNode.ref_eq hlm] at ho hp
    exact ⟨g, hg, hparent.trans hp, fun x => by rw [hroots, ho]⟩

/-- Settling a class leaves forwarders as they are. -/
theorem map_forwarders_settle {h : Hierarchy} (hk : Keyed h) (names : Names) (cls : String)
    (r : MemberRef) : ((settle names cls h).1.method? r).map MethodNode.forwarders =
      (h.method? r).map MethodNode.forwarders := by
  cases hc : h.class? cls with
  | none => rw [settle_of_none hc]
  | some c =>
    cases hm' : (settle names cls h).1.method? r with
    | none =>
      have hsome := (alike_settle names cls h).isSome_method? r
      rw [hm', Option.isSome_none, Option.isSome_eq_false_iff, Option.isNone_iff_eq_none] at hsome
      rw [hsome]
    | some m' =>
      obtain ⟨m, hm, hs⟩ := settled_settle hk (Option.isSome_of_eq_some hc) hm'
      rw [hm, Option.map_some, Option.map_some, hs.forwarders]

namespace Bestows

variable {names : Names} {h : Hierarchy} {cls : String} {r x : MemberRef}

/-- What is bestowed is an abstract method of the class or of one above it. -/
theorem exists_contract (hb : Bestows names h cls r x) (hk : Keyed h) :
    x.owner ∈ h.ancestors cls ∧
      ∃ k, h.method? x = some k ∧ k.ref = x ∧ k.access.has .abstract := by
  obtain ⟨_, k, ⟨c, hc, hkc, hcontract⟩, rfl, _⟩ := hb
  have halike := alike_linkedAt names cls h
  obtain ⟨b, hb, hc⟩ := List.mem_filterMap.mp hc
  obtain ⟨key, hkey⟩ := mem_values_iff.mp hkc
  obtain ⟨howner, _, href⟩ := (hk.of_alike halike).of_mem_class hc hkey
  obtain ⟨k', hk', hbare⟩ := halike.symm.exists_method href
  have habstract : k.bare.access.has .abstract := (Bool.and_eq_true_iff.mp hcontract).1
  rw [hbare] at habstract
  refine ⟨?_, k', hk', (MethodNode.ref_eq hbare).symm, habstract⟩
  show k.owner ∈ h.ancestors cls
  rw [howner]
  exact hb

/-- It is bestowed on a method of one of these classes that implements it. -/
theorem exists_implementation (hb : Bestows names h cls r x) (hk : Keyed h) :
    r.owner ∈ h.ancestors cls ∧ ∃ m, h.method? r = some m ∧ implements m := by
  obtain ⟨_, k, _, _, i, hi, howner, hkey⟩ := hb
  rw [implementer?_eq (alike_linkedAt names cls h)] at hi
  obtain ⟨hi, n, hn, _, himpl⟩ := exists_of_implementer? hk hi
  rw [h.method?_congr howner hkey] at hn
  exact ⟨howner ▸ hi, n, hn, himpl⟩

/-- Nothing is bestowed on itself. -/
theorem ne (hb : Bestows names h cls r x) (hk : Keyed h) {m : MethodNode}
    (hm : h.method? r = some m) : x ≠ m.ref := by
  rintro rfl
  obtain ⟨_, k, hk', _, habstract⟩ := hb.exists_contract hk
  obtain ⟨_, n, hn, himpl⟩ := hb.exists_implementation hk
  cases hm.symm.trans hn
  cases (hk.method?_ref hm).symm.trans hk'
  simp [Resolution.implements, habstract] at himpl

end Bestows

/-- What becomes a root when a class is settled is a method of the class or of
one above. -/
theorem isRoot_settle {names : Names} {cls : String} {h : Hierarchy} (hk : Keyed h)
    (hc : (h.class? cls).isSome) {x : MemberRef} (hx : IsRoot (settle names cls h).1 x) :
    IsRoot h x ∨ x.owner ∈ h.ancestors cls := by
  obtain ⟨r, m', hm', hx⟩ := hx
  obtain ⟨m, hm, hsettled⟩ := settled_settle hk hc hm'
  by_cases hr : r.owner = cls
  · obtain ⟨g, hg, _, hroots⟩ := hsettled.own hr
    rcases (hroots x).mp hx with hx | hx
    · have halike := alike_bouncedAt names cls h
      have hx := Linking.isRoot_of_mem (hk.of_alike (halike.trans hg.alike)) hx
      rw [← hg.alike.ancestors] at hx
      rcases hx.elim (hg.isRoot (hk.of_alike halike)) Or.inr with ⟨q, n, hn, hx⟩ | hx
      · have hties := map_ties_bouncedAt names cls h q
        rw [hn, Option.map_some] at hties
        obtain ⟨n₀, hn₀, hb⟩ := Option.map_eq_some_iff.mp hties.symm
        refine Or.inl ⟨q, n₀, hn₀, ?_⟩
        rw [MethodNode.overrides_eq_of_ties hb]
        exact hx
      · rw [halike.ancestors]
        exact Or.inr hx
    · exact Or.inr (hx.exists_contract hk).1
  · rcases ((hsettled.other hr).2 x).mp hx with hx | hx
    · exact Or.inl ⟨r, m, hm, hx⟩
    · exact Or.inr (hx.exists_contract hk).1

/-! ## Settling classes parents first -/

/-- The class has not been resolved, and all that is above it has been. -/
structure Ready (h : Hierarchy) (cls : String) : Prop where
  loaded : (h.class? cls).isSome
  unresolved : ¬ h.isResolved cls
  above : ∀ b, TransGen h.supertypeGraph.Edge cls b → (h.class? b).isSome → h.isResolved b

theorem Ready.isResolved_settle_iff {h : Hierarchy} {cls : String} (hr : Ready h cls)
    (names : Names) {a : String} :
    (settle names cls h).1.isResolved a ↔ h.isResolved a ∨ a = cls := by
  rw [Resolution.isResolved_settle, Bool.or_eq_true, Bool.and_eq_true, beq_iff_eq]
  exact or_congr_right ⟨fun ha => ha.1.symm, fun ha => ⟨ha.symm, ha ▸ hr.loaded⟩⟩

/-- All that a class that is ready can reach is resolved once it is settled. -/
theorem Ready.isResolved_settle {h : Hierarchy} {cls : String} (hr : Ready h cls) (names : Names)
    {a : String} (ha : a ∈ h.ancestors cls) : (settle names cls h).1.isResolved a := by
  obtain ⟨hreach, hloaded⟩ := Hierarchy.mem_ancestors.mp ha
  rw [hr.isResolved_settle_iff]
  rcases Relation.reflTransGen_iff_eq_or_transGen.mp hreach with rfl | hreach
  · exact Or.inr rfl
  · exact Or.inl (hr.above a hreach hloaded)

/-- Methods of classes that have not been resolved have no roots. -/
def Fresh (h : Hierarchy) : Prop :=
  ∀ r m, h.method? r = some m → ¬ h.isResolved r.owner → m.overrides = ∅

theorem Fresh.settle {h : Hierarchy} (hf : Fresh h) (hk : Keyed h) (names : Names) {cls : String}
    (hready : Ready h cls) : Fresh (settle names cls h).1 := by
  intro r m' hm' hr
  obtain ⟨m, hm, hs⟩ := settled_settle hk hready.loaded hm'
  have hnew := hr
  rw [hready.isResolved_settle_iff, not_or] at hnew
  obtain ⟨hold, hne⟩ := hnew
  refine ExtTreeSet.ext_mem fun x => ?_
  rw [(hs.other hne).2, hf r m hm hold, or_iff_left]
  exact fun hb => hr (hready.isResolved_settle names (hb.exists_implementation hk).1)

section Induction

variable {r : Resolution} {names : Names} {P : Hierarchy → Prop}

/-- What settling a class keeps is kept by resolving classes. -/
theorem resolve_induction (hP : P r.path.hierarchy) (cls : String)
    (step : ∀ h a, Alike r.path.hierarchy h → P h →
      ReflTransGen r.path.hierarchy.supertypeGraph.Edge cls a → P (settle names a h).1) :
    P (r.resolve names cls).path.hierarchy := by
  unfold resolve
  refine (List.foldlRecOn (b := { r with path := r.path.ask (r.path.hierarchy.lineage cls) })
    (motive := fun s : Resolution => Alike r.path.hierarchy s.path.hierarchy ∧
      P s.path.hierarchy) _ _ ⟨.refl _, hP⟩ fun s hs e he =>
        ⟨hs.1.trans (alike_handle names s e), ?_⟩).2
  cases e with
  | cycle a => exact hs.2
  | closed a =>
    exact step _ a hs.1 hs.2 (ReflTransGen.mono (fun _ _ => edge_of_unresolved) _ _
      (Graph.reaches_of_closed_mem he).1)

theorem resolveAll_induction (names : Names) (hP : P r.path.hierarchy) (classes : List String)
    (step : ∀ h a, Alike r.path.hierarchy h → P h →
      (∃ n ∈ classes, ReflTransGen r.path.hierarchy.supertypeGraph.Edge n a) →
      P (settle names a h).1) :
    P (classes.foldl (resolve names) r).path.hierarchy := by
  induction classes generalizing r with
  | nil => exact hP
  | cons cls classes ih =>
    have halike := alike_resolve names r cls
    refine ih (resolve_induction hP cls fun h a ha hPh hreach =>
      step h a ha hPh ⟨cls, List.mem_cons_self, hreach⟩) fun h a ha hPh => ?_
    rintro ⟨n, hn, hreach⟩
    rw [← halike.supertypeGraph] at hreach
    exact step h a (halike.trans ha) hPh ⟨n, List.mem_cons_of_mem cls hn, hreach⟩

/-- What settling a class that is ready keeps is kept by resolving classes, if
there are no cycles. -/
theorem AtRest.resolve_induction (hr : AtRest r.path) (hacyclic : Acyclic r.path.hierarchy)
    (hP : P r.path.hierarchy) (cls : String)
    (step : ∀ h a, Alike r.path.hierarchy h → P h → Ready h a →
      ReflTransGen r.path.hierarchy.supertypeGraph.Edge cls a → P (settle names a h).1) :
    P (r.resolve names cls).path.hierarchy := by
  have hevents : ∀ before after,
      (unresolvedGraph r.path.hierarchy).traversal cls = before ++ after →
      P (r.underway names cls before).path.hierarchy := by
    intro before
    induction before using List.reverseRecOn with
    | nil => exact fun _ _ => hP
    | append_singleton before e ih =>
      intro after hs
      rw [List.append_assoc, List.singleton_append] at hs
      rw [underway_append]
      cases e with
      | cycle c => exact ih _ hs
      | closed a =>
        have halike := alike_underway names r cls before
        have hmem : .closed a ∈ (unresolvedGraph r.path.hierarchy).traversal cls := by
          rw [hs]
          exact List.mem_append_right _ List.mem_cons_self
        obtain ⟨hreach, hnext⟩ := Graph.reaches_of_closed_mem hmem
        refine step _ a halike (ih _ hs) { loaded := ?_, unresolved := ?_, above := ?_ }
          (ReflTransGen.mono (fun _ _ => edge_of_unresolved) _ _ hreach)
        · rw [← halike.isSome_class?]
          exact ((isSome_next_unresolvedGraph _ a).mp hnext).1
        · exact not_isResolved_underway names hs
        · intro b hab hb
          rw [← halike.supertypeGraph] at hab
          rw [← halike.isSome_class?] at hb
          exact hr.isResolved_underway names (fun c _ => hacyclic c) hs hab hb
  exact hevents _ [] (List.append_nil _).symm

theorem AtRest.resolveAll_induction (hr : AtRest r.path) (hacyclic : Acyclic r.path.hierarchy)
    (hP : P r.path.hierarchy) (classes : List String)
    (step : ∀ h a, Alike r.path.hierarchy h → P h → Ready h a →
      (∃ n ∈ classes, ReflTransGen r.path.hierarchy.supertypeGraph.Edge n a) →
      P (settle names a h).1) :
    P (classes.foldl (resolve names) r).path.hierarchy := by
  induction classes generalizing r with
  | nil => exact hP
  | cons cls classes ih =>
    have halike := alike_resolve names r cls
    refine ih (hr.resolve names cls) (hacyclic.of_alike halike) ?_ fun h a ha hPh hready => ?_
    · exact hr.resolve_induction hacyclic hP cls fun h a ha hPh hready hreach =>
        step h a ha hPh hready ⟨cls, List.mem_cons_self, hreach⟩
    · rintro ⟨n, hn, hreach⟩
      rw [← halike.supertypeGraph] at hreach
      exact step h a (halike.trans ha) hPh hready ⟨n, List.mem_cons_of_mem cls hn, hreach⟩

end Induction

/-! ## Small classes -/

namespace Sample

open Assembly (CodeStep Declaration Sketch)

def run (access : List Modifier) (steps : List CodeStep) : Declaration :=
  .method
    { access := .ofModifiers access
      name := "run"
      descriptor := "()V"
      signature := none
      body := some steps }

/-- A method that returns nothing but null. -/
def returning (access : List Modifier) (name descriptor : String) : Declaration :=
  .method
    { access := .ofModifiers access
      name
      descriptor
      signature := none
      body := some [.op 0x01, .op 0xB0] }

def plain (name : String) (superName : Option String) (declarations : List Declaration) : Sketch :=
  { name, superName, access := .ofModifiers [.pub], declarations }

def archive (classes : List Sketch) : List (String × Bytes) :=
  classes.map fun c => (c.name, c.assemble)

def base : Sketch := plain "Base" none [run [.pub] [.op 0xB1]]

def child : Sketch := plain "Child" (some "Base") [run [.pub] [.op 0xB1]]

end Sample

end Resolution
end Lineage
