import Lineage.Proofs.Resolution.Settling

/-!
Where roots come from.

Without bouncers a method has two sources of roots.  What it overrides gives it
its roots when the method is linked, and a class that takes over an abstract
method gives it that method.  Both can be told from class files alone.  A method
that is overridden may get roots later, of which those that override it by then
learn nothing.
-/

namespace Lineage

open Std (ExtTreeMap ExtTreeSet)
open Relation (ReflTransGen TransGen)

namespace Hierarchy

/-- The method at `r` overrides the one at `s`. -/
def Overrides (h : Hierarchy) (r s : MemberRef) : Prop :=
  TransGen h.supertypeGraph.Edge r.owner s.owner ∧ s.key = r.key ∧
    (∃ m, h.method? r = some m ∧ m.ref = r ∧ m.isOverridable) ∧
    ∃ k, h.method? s = some k ∧ k.ref = s ∧ k.isInheritable

theorem Overrides.trans {h : Hierarchy} {r s t : MemberRef} (hrs : h.Overrides r s)
    (hst : h.Overrides s t) : h.Overrides r t :=
  ⟨hrs.1.trans hst.1, hst.2.1.trans hrs.2.1, hrs.2.2.1, hst.2.2.2⟩

theorem Overrides.of_alike {h h' : Hierarchy} {r s : MemberRef} (hrs : h.Overrides r s)
    (hh : Alike h h') : h'.Overrides r s := by
  obtain ⟨habove, hkey, ⟨m, hm, hr, hmo⟩, k, hk, hs, hki⟩ := hrs
  obtain ⟨m', hm', hmb⟩ := hh.exists_method hm
  obtain ⟨k', hk', hkb⟩ := hh.exists_method hk
  refine ⟨hh.supertypeGraph ▸ habove, hkey, ⟨m', hm', ?_, ?_⟩, k', hk', ?_, ?_⟩
  · rw [← MethodNode.ref_eq hmb, hr]
  · rw [← MethodNode.isOverridable_eq hmb, hmo]
  · rw [← MethodNode.ref_eq hkb, hs]
  · rw [← MethodNode.isInheritable_eq hkb, hki]

/-- Hierarchies that are alike give a method the same roots, if what it overrides
has the same in both. -/
theorem exists_mem_roots_iff {h h' : Hierarchy} (hh : Alike h h') {r x : MemberRef}
    (hroots : ∀ k k', h.method? k.ref = some k → h'.method? k.ref = some k' →
      h.Overrides r k.ref → k'.roots = k.roots) :
    (∃ k, h.method? k.ref = some k ∧ h.Overrides r k.ref ∧ x ∈ k.roots) ↔
      ∃ k, h'.method? k.ref = some k ∧ h'.Overrides r k.ref ∧ x ∈ k.roots := by
  constructor
  · rintro ⟨k, hk, hover, hx⟩
    obtain ⟨k', hk', hb⟩ := hh.exists_method hk
    rw [← hroots k k' hk hk' hover] at hx
    rw [MethodNode.ref_eq hb] at hk' hover
    exact ⟨k', hk', hover.of_alike hh, hx⟩
  · rintro ⟨k', hk', hover, hx⟩
    obtain ⟨k, hk, hb⟩ := hh.symm.exists_method hk'
    rw [MethodNode.ref_eq hb] at hk hk' hover
    replace hover := hover.of_alike hh.symm
    rw [hroots k k' hk hk' hover] at hx
    exact ⟨k, hk, hover, hx⟩

/-- Where no method has forwarders, the declarations that a method meets are
those that it overrides. -/
theorem overrides_of_met {h : Hierarchy} (hk : Keyed h)
    (hnone : ∀ r m f, h.method? r = some m → f ∉ m.forwarders) {r : MemberRef} {m d : MethodNode}
    (hm : h.method? r = some m) (hr : m.ref = r) (hd : d ∈ h.declarationsAbove r r.owner) :
    h.method? d.ref = some d ∧ h.Overrides r d.ref := by
  obtain ⟨v, hv, hmet⟩ := mem_declarationsAbove.mp hd
  have hmethod : v.method = r := by
    clear hmet hd
    induction hv with
    | refl => rfl
    | tail _ hstep ih =>
      obtain ⟨n, hn, ⟨f, hf, _⟩ | ⟨_, hmethod⟩⟩ := edge_viewpoint hstep
      · exact absurd hf (hnone _ n f hn)
      · exact hmethod.trans ih
  obtain ⟨href, howner, hkey, hne, hdi, n, hn, hno⟩ := hk.of_met hmet
  rw [hmethod] at hkey hne hn
  cases hm.symm.trans hn
  refine ⟨href, ?_, hkey, ⟨m, hm, hr, hno⟩, d, href, rfl, hdi⟩
  have hreach := reaches_cls hv
  rw [← howner] at hreach
  exact (Relation.reflTransGen_iff_eq_or_transGen.mp hreach).resolve_left hne

/-- What a method overrides gives it its roots. -/
theorem Overrides.mem_overrideRoots {h : Hierarchy} (hk : Keyed h) (hacyclic : Acyclic h)
    {r s : MemberRef} (hrs : h.Overrides r s) {k : MethodNode} (hs : h.method? s = some k)
    {x : MemberRef} (hx : x ∈ k.roots) : x ∈ h.overrideRoots r r.owner := by
  obtain ⟨habove, hkey, ⟨m, hm, _, hmo⟩, k', hk', _, hki⟩ := hrs
  cases hs.symm.trans hk'
  have hslot : h.method? (r.withOwner s.owner) = some k := by
    rw [← hs]
    exact h.method?_congr rfl hkey.symm
  refine Hierarchy.mem_overrideRoots hk hm hmo habove.to_reflTransGen hslot hki ?_ hx
  exact fun he => hacyclic r.owner (he ▸ habove)

theorem mem_overrideRoots_iff_of_unforwarded {h : Hierarchy} (hk : Keyed h)
    (hacyclic : Acyclic h) (hnone : ∀ r m f, h.method? r = some m → f ∉ m.forwarders)
    {r x : MemberRef} {m : MethodNode} (hm : h.method? r = some m) (hr : m.ref = r) :
    x ∈ h.overrideRoots r r.owner ↔
      ∃ k, h.method? k.ref = some k ∧ h.Overrides r k.ref ∧ x ∈ k.roots := by
  constructor
  · intro hx
    obtain ⟨d, hd, hx⟩ := mem_overrideRoots_iff.mp hx
    obtain ⟨href, hover⟩ := overrides_of_met hk hnone hm hr hd
    exact ⟨d, href, hover, hx⟩
  · rintro ⟨k, href, hover, hx⟩
    exact hover.mem_overrideRoots hk hacyclic href hx

end Hierarchy

theorem MethodNode.exists_mem_roots (m : MethodNode) : ∃ x, x ∈ m.roots := by
  unfold MethodNode.roots
  split
  · exact ⟨m.ref, ExtTreeSet.mem_insert_self⟩
  · next hne =>
    have hne : m.overrides ≠ ∅ := fun he => hne (ExtTreeSet.isEmpty_iff.mpr he)
    exact ⟨m.overrides.min hne, ExtTreeSet.min_mem⟩

theorem MethodNode.roots_eq {m n : MethodNode} (hb : m.bare = n.bare)
    (ho : m.overrides = n.overrides) : m.roots = n.roots := by
  unfold MethodNode.roots
  rw [ho, MethodNode.ref_eq hb]

namespace Resolution

open Hierarchy (Acyclic Alike Keyed SameBut)

/-- The class has to have `x` implemented, an abstract method of its own or from
above that overrides nothing, and the method at `r` does that. -/
def Binds (h : Hierarchy) (cls : String) (r x : MemberRef) : Prop :=
  (∃ c, h.class? cls = some c ∧ c.isAbstract = false) ∧ x.owner ∈ h.ancestors cls ∧
    (∃ k, h.method? x = some k ∧ k.ref = x ∧ k.access.has .abstract) ∧
    (∀ s, ¬ h.Overrides x s) ∧ implementer? h (h.ancestors cls) x.key = some r

theorem Binds.of_alike {h h' : Hierarchy} {cls : String} {r x : MemberRef}
    (hb : Binds h cls r x) (hh : Alike h h') : Binds h' cls r x := by
  obtain ⟨⟨c, hc, hca⟩, habove, ⟨k, hk, hx, hka⟩, hnone, himpl⟩ := hb
  obtain ⟨c', hc', hcb⟩ := hh.exists_class hc
  obtain ⟨k', hk', hkb⟩ := hh.exists_method hk
  have habstract : c'.bare.isAbstract = false := by
    rw [← hcb]
    exact hca
  have haccess : k'.bare.access.has .abstract := by
    rw [← hkb]
    exact hka
  refine ⟨⟨c', hc', habstract⟩, hh.ancestors ▸ habove, ⟨k', hk', ?_, haccess⟩, ?_, ?_⟩
  · rw [← MethodNode.ref_eq hkb, hx]
  · exact fun s hs => hnone s (hs.of_alike hh.symm)
  · rw [implementer?_eq hh, ← hh.ancestors]
    exact himpl

/-- Settling a class adds what that class binds. -/
theorem Ready.exists_binds_settle {h : Hierarchy} {cls : String} (hready : Ready h cls)
    (names : Names) {r x : MemberRef} :
    (∃ c, (settle names cls h).1.isResolved c ∧ Binds (settle names cls h).1 c r x) ↔
      (∃ c, h.isResolved c ∧ Binds h c r x) ∨ Binds h cls r x := by
  have halike := alike_settle names cls h
  simp only [hready.isResolved_settle_iff]
  constructor
  · rintro ⟨c, hc | rfl, hb⟩
    · exact Or.inl ⟨c, hc, hb.of_alike halike.symm⟩
    · exact Or.inr (hb.of_alike halike.symm)
  · rintro (⟨c, hc, hb⟩ | hb)
    · exact ⟨c, Or.inl hc, hb.of_alike halike⟩
    · exact ⟨cls, Or.inr rfl, hb.of_alike halike⟩

theorem Binds.not_abstract {h : Hierarchy} (hk : Keyed h) {cls : String} {r x : MemberRef}
    (hb : Binds h cls r x) {m : MethodNode} (hm : h.method? r = some m) :
    m.access.has .abstract = false := by
  obtain ⟨_, n, hn, _, himpl⟩ := exists_of_implementer? hk hb.2.2.2.2
  cases hm.symm.trans hn
  simp only [implements, Bool.and_eq_true, Bool.not_eq_true'] at himpl
  exact himpl.1

/-! ## Settling classes -/

/-- All that settling classes keeps of where roots come from. -/
structure Traced (h : Hierarchy) : Prop where
  acyclic : Acyclic h
  keyed : Keyed h
  unforwarded : ∀ r m f, h.method? r = some m → f ∉ m.forwarders
  fresh : Fresh h
  above : ∀ {a b}, h.isResolved a → TransGen h.supertypeGraph.Edge a b → (h.class? b).isSome →
    h.isResolved b
  bound : ∀ {cls r x m}, h.isResolved cls → Binds h cls r x → h.method? r = some m →
    x ∈ m.overrides
  linked : ∀ {r m k}, h.method? r = some m → h.isResolved r.owner → h.method? k.ref = some k →
    h.Overrides r k.ref → m.Linked k
  source : ∀ {r m x}, h.method? r = some m → m.ref = r → x ∈ m.overrides →
    (∃ cls, h.isResolved cls ∧ Binds h cls r x) ∨
      ∃ k, h.method? k.ref = some k ∧ h.Overrides r k.ref ∧ (x = k.ref ∨ x ∈ k.overrides)

namespace Traced

variable {names : Names} {h g : Hierarchy} {cls : String}

theorem unforwarded_of_linking (ht : Traced h) (hg : Linking cls (bouncedAt names cls h) g) :
    ∀ r m f, g.method? r = some m → f ∉ m.forwarders := by
  intro r m f hm hf
  obtain ⟨n, hn, _, hforwarders, _⟩ := hg.exists_before hm
  exact ht.unforwarded r n f hn (hforwarders ▸ hf)

/-- The roots that a method is linked to are those that what it overrides has
before. -/
theorem mem_overrideRoots_iff (ht : Traced h) (hg : Linking cls (bouncedAt names cls h) g)
    {r x : MemberRef} {m : MethodNode} (hm : h.method? r = some m) (hr : m.ref = r)
    (howner : r.owner = cls) :
    x ∈ g.overrideRoots r cls ↔
      ∃ k, h.method? k.ref = some k ∧ h.Overrides r k.ref ∧ x ∈ k.roots := by
  have halike := (alike_bouncedAt names cls h).trans hg.alike
  obtain ⟨m', hm', hbare⟩ := halike.exists_method hm
  have hr' : m'.ref = r := (MethodNode.ref_eq hbare).symm.trans hr
  have hne : ∀ {s}, h.Overrides r s → s.owner ≠ cls := by
    rintro s ⟨habove, _⟩ he
    rw [he, ← howner] at habove
    exact ht.acyclic r.owner habove
  subst howner
  rw [Hierarchy.mem_overrideRoots_iff_of_unforwarded (ht.keyed.of_alike halike)
    (ht.acyclic.of_alike halike) (ht.unforwarded_of_linking hg) hm' hr']
  refine (Hierarchy.exists_mem_roots_iff halike fun k k' hk hk' hover => ?_).symm
  obtain ⟨n, hn, hkn, _, hties⟩ := hg.exists_before hk'
  cases hk.symm.trans hn
  exact MethodNode.roots_eq hkn (MethodNode.overrides_eq_of_ties (hties (hne hover)))

/-- A method that has been linked has roots just if it overrides something,
unless it implements something itself. -/
theorem nonempty_iff (ht : Traced h) {k : MethodNode} (hk : h.method? k.ref = some k)
    (hresolved : h.isResolved k.owner) (habstract : k.access.has .abstract) :
    (∃ x, x ∈ k.overrides) ↔ ∃ s, h.Overrides k.ref s := by
  constructor
  · rintro ⟨x, hx⟩
    rcases ht.source hk rfl hx with ⟨cls, _, hb⟩ | ⟨d, _, hover, _⟩
    · rw [hb.not_abstract ht.keyed hk] at habstract
      cases habstract
    · exact ⟨d.ref, hover⟩
  · rintro ⟨s, hover⟩
    obtain ⟨d, hd, rfl, _⟩ := hover.2.2.2
    rcases ht.linked hk hresolved hd hover with hx | ⟨x, hx, _⟩
    · exact ⟨d.ref, hx⟩
    · exact ⟨x, hx⟩

/-- When the contracts of a class are bound, its abstract methods and those
above have roots if they override something. -/
theorem isEmpty_linkedAt (ht : Traced h) (hready : Ready h cls) {k k' : MethodNode}
    (hk : h.method? k.ref = some k) (hk' : (linkedAt names cls h).method? k.ref = some k')
    (habove : k.owner ∈ h.ancestors cls) (habstract : k.access.has .abstract) :
    k'.overrides.isEmpty ↔ ∀ s, ¬ h.Overrides k.ref s := by
  have hkb := ht.keyed.of_alike (alike_bouncedAt names cls h)
  have hnonempty : (∃ x, x ∈ k'.overrides) ↔ ∃ s, h.Overrides k.ref s := by
    by_cases howner : k.owner = cls
    · obtain ⟨g, hg, hroots, _⟩ := linked_linkMethods hkb (r := k.ref) howner hk'
      have hbare := (alike_linkedAt names cls h).keyed_ref hk hk'
      rw [hroots, MethodNode.ref_eq hbare]
      simp only [ht.mem_overrideRoots_iff hg hk rfl howner]
      constructor
      · rintro ⟨x, d, _, hover, _⟩
        exact ⟨d.ref, hover⟩
      · rintro ⟨s, hover⟩
        obtain ⟨d, hd, rfl, _⟩ := hover.2.2.2
        obtain ⟨x, hx⟩ := d.exists_mem_roots
        exact ⟨x, d, hd, hover, hx⟩
    · obtain ⟨n, hn, _, _, hties⟩ := (Linking.linkMethods hkb cls).exists_before hk'
      cases hk.symm.trans hn
      rw [MethodNode.overrides_eq_of_ties (hties howner)]
      obtain ⟨hreach, hloaded⟩ := Hierarchy.mem_ancestors.mp habove
      have hstrict := (Relation.reflTransGen_iff_eq_or_transGen.mp hreach).resolve_left howner
      exact ht.nonempty_iff hk (hready.above k.owner hstrict hloaded) habstract
  rw [ExtTreeSet.isEmpty_iff, ← not_exists, ← hnonempty, not_exists]
  exact ⟨fun he x hx => ExtTreeSet.not_mem_empty (he ▸ hx), fun hno =>
    ExtTreeSet.ext_mem fun x => iff_of_false (hno x) ExtTreeSet.not_mem_empty⟩

theorem implements_linkedAt_iff (ht : Traced h) (names : Names) (cls : String) {r : MemberRef}
    {m : MethodNode} (hm : h.method? r = some m) (hr : m.ref = r) (key : String) :
    Implements (linkedAt names cls h) (h.ancestors cls) key r ↔
      implementer? h (h.ancestors cls) key = some r := by
  unfold Implements
  rw [implementer?_eq (alike_linkedAt names cls h)]
  constructor
  · rintro ⟨i, hi, howner, hkey⟩
    obtain ⟨_, n, hn, rfl, _⟩ := exists_of_implementer? ht.keyed hi
    rw [h.method?_congr howner hkey, hm] at hn
    cases hn
    rw [hi, hr]
  · exact fun hi => ⟨r, hi, rfl, rfl⟩

/-- What settling a class bestows can be told from class files. -/
theorem bestows_iff (ht : Traced h) (hready : Ready h cls) {r x : MemberRef} {m : MethodNode}
    (hm : h.method? r = some m) (hr : m.ref = r) :
    Bestows names h cls r x ↔ Binds h cls r x := by
  have halike := alike_linkedAt names cls h
  have hkl := ht.keyed.of_alike halike
  have hsame := ht.implements_linkedAt_iff names cls hm hr
  unfold Bestows Gives Binds
  refine and_congr_right fun _ => ?_
  constructor
  · rintro ⟨k', ⟨c, hc, hkc, hcontract⟩, rfl, himpl⟩
    obtain ⟨b, hb, hc⟩ := List.mem_filterMap.mp hc
    obtain ⟨key, hkey⟩ := mem_values_iff.mp hkc
    obtain ⟨howner, _, hk'⟩ := hkl.of_mem_class hc hkey
    obtain ⟨k, hk, hbare⟩ := halike.symm.exists_method hk'
    have href : k'.ref = k.ref := MethodNode.ref_eq hbare
    obtain ⟨habstract, hempty⟩ := Bool.and_eq_true_iff.mp hcontract
    have habstract : k'.bare.access.has .abstract := habstract
    rw [hbare] at habstract
    rw [href] at hk hk' ⊢
    have habove : k.owner ∈ h.ancestors cls := by
      rw [show k.owner = k'.owner from (congrArg MemberRef.owner href).symm, howner]
      exact hb
    refine ⟨habove, ⟨k, hk, rfl, habstract⟩, ?_, ?_⟩
    · exact (ht.isEmpty_linkedAt hready hk hk' habove habstract).mp hempty
    · rw [← hsame, ← href]
      exact himpl
  · rintro ⟨habove, ⟨k, hk, rfl, habstract⟩, hnone, himpl⟩
    obtain ⟨k', hk', hbare⟩ := halike.exists_method hk
    have href : k.ref = k'.ref := MethodNode.ref_eq hbare
    have hempty := (ht.isEmpty_linkedAt hready hk hk' habove habstract).mpr hnone
    obtain ⟨c, hc, hkc⟩ := Hierarchy.method?_eq_some.mp hk'
    have habstract' : k.bare.access.has .abstract := habstract
    rw [hbare] at habstract'
    refine ⟨k', ⟨c, List.mem_filterMap.mpr ⟨_, habove, hc⟩, mem_values_iff.mpr ⟨_, hkc⟩, ?_⟩,
      href.symm, ?_⟩
    · exact Bool.and_eq_true_iff.mpr ⟨habstract', hempty⟩
    · rw [hsame]
      rw [href] at himpl
      exact himpl

/-- What settling a class makes of the roots of a method. -/
structure Rooted (h : Hierarchy) (cls : String) (r : MemberRef) (m m' : MethodNode) : Prop where
  bare : m'.bare = m.bare
  other : r.owner ≠ cls → ∀ x, x ∈ m'.overrides ↔ x ∈ m.overrides ∨ Binds h cls r x
  own : r.owner = cls → ∀ x, x ∈ m'.overrides ↔
    (∃ k, h.method? k.ref = some k ∧ h.Overrides r k.ref ∧ x ∈ k.roots) ∨ Binds h cls r x

theorem rooted_settle (ht : Traced h) (names : Names) (hready : Ready h cls) {r : MemberRef}
    {m' : MethodNode} (hm' : (settle names cls h).1.method? r = some m') (hr : m'.ref = r) :
    ∃ m, h.method? r = some m ∧ m.ref = r ∧ Rooted h cls r m m' := by
  obtain ⟨m, hm, hs⟩ := settled_settle ht.keyed hready.loaded hm'
  have hr : m.ref = r := (MethodNode.ref_eq hs.bare).symm.trans hr
  refine ⟨m, hm, hr, hs.bare, fun howner x => ?_, fun howner x => ?_⟩
  · rw [(hs.other howner).2, ht.bestows_iff hready hm hr]
  · obtain ⟨g, hg, _, hroots⟩ := hs.own howner
    rw [hroots, ht.bestows_iff hready hm hr, hr, ht.mem_overrideRoots_iff hg hm hr howner]

/-- Methods of classes above are not linked any more. -/
theorem exists_grown (ht : Traced h) (names : Names) (hready : Ready h cls) {k : MethodNode}
    (hk : h.method? k.ref = some k) (howner : k.owner ≠ cls) :
    ∃ k', (settle names cls h).1.method? k.ref = some k' ∧ k'.bare = k.bare ∧
      ∀ x, x ∈ k'.overrides ↔ x ∈ k.overrides ∨ Binds h cls k.ref x := by
  obtain ⟨k', hk', hb⟩ := (alike_settle names cls h).exists_method hk
  obtain ⟨n, hn, _, hrooted⟩ := ht.rooted_settle names hready hk' (MethodNode.ref_eq hb).symm
  cases hk.symm.trans hn
  exact ⟨k', hk', hb.symm, hrooted.other howner⟩

theorem isResolved_of_mem (ht : Traced h) {a : String} (hc : h.isResolved cls)
    (ha : a ∈ h.ancestors cls) : h.isResolved a := by
  obtain ⟨hreach, hloaded⟩ := Hierarchy.mem_ancestors.mp ha
  rcases Relation.reflTransGen_iff_eq_or_transGen.mp hreach with rfl | hreach
  · exact hc
  · exact ht.above hc hreach hloaded

/-- A method that has been linked is above no class that is ready. -/
theorem ne_of_overrides (ht : Traced h) (hready : Ready h cls) {r s : MemberRef}
    (hr : h.isResolved r.owner ∨ r.owner = cls) (hover : h.Overrides r s) : s.owner ≠ cls := by
  rintro rfl
  rcases hr with hr | hr
  · exact hready.unresolved (ht.above hr hover.1 hready.loaded)
  · exact ht.acyclic r.owner (by simpa [hr] using hover.1)

/-- No resolved class has something implemented by a class that is ready. -/
theorem ne_of_binds (ht : Traced h) (hready : Ready h cls) {c : String} {r x : MemberRef}
    (hc : h.isResolved c) (hb : Binds h c r x) : r.owner ≠ cls := by
  rintro rfl
  have habove := (exists_of_implementer? ht.keyed hb.2.2.2.2).1
  exact hready.unresolved (ht.isResolved_of_mem hc habove)

theorem isResolved_of_mem_overrides (ht : Traced h) {r x : MemberRef} {m : MethodNode}
    (hm : h.method? r = some m) (hx : x ∈ m.overrides) : h.isResolved r.owner := by
  by_contra hr
  rw [ht.fresh r m hm hr] at hx
  exact ExtTreeSet.not_mem_empty hx

/-! What settling a class keeps, one field after the other. -/

theorem above_settle (ht : Traced h) (names : Names) (hready : Ready h cls) {a b : String}
    (ha : (settle names cls h).1.isResolved a)
    (hab : TransGen (settle names cls h).1.supertypeGraph.Edge a b)
    (hb : ((settle names cls h).1.class? b).isSome) : (settle names cls h).1.isResolved b := by
  have halike := alike_settle names cls h
  rw [← halike.supertypeGraph] at hab
  rw [← halike.isSome_class?] at hb
  rw [hready.isResolved_settle_iff] at ha ⊢
  rcases ha with ha | rfl
  · exact Or.inl (ht.above ha hab hb)
  · exact Or.inl (hready.above b hab hb)

theorem bound_settle (ht : Traced h) (names : Names) (hready : Ready h cls) {c : String}
    {r x : MemberRef} {m' : MethodNode} (hc : (settle names cls h).1.isResolved c)
    (hb : Binds (settle names cls h).1 c r x)
    (hm' : (settle names cls h).1.method? r = some m') : x ∈ m'.overrides := by
  have halike := alike_settle names cls h
  obtain ⟨_, n, hn, hr, _⟩ := exists_of_implementer? (ht.keyed.of_alike halike) hb.2.2.2.2
  cases hm'.symm.trans hn
  obtain ⟨m, hm, _, hrooted⟩ := ht.rooted_settle names hready hm' hr
  rcases (hready.exists_binds_settle names).mp ⟨c, hc, hb⟩ with ⟨c, hc, hold⟩ | hnew
  · have howner : r.owner ≠ cls := ht.ne_of_binds hready hc hold
    exact (hrooted.other howner x).mpr (Or.inl (ht.bound hc hold hm))
  · by_cases howner : r.owner = cls
    · exact (hrooted.own howner x).mpr (Or.inr hnew)
    · exact (hrooted.other howner x).mpr (Or.inr hnew)

theorem linked_settle (ht : Traced h) (names : Names) (hready : Ready h cls) {r : MemberRef}
    {m' k' : MethodNode} (hm' : (settle names cls h).1.method? r = some m')
    (hresolved : (settle names cls h).1.isResolved r.owner)
    (hk' : (settle names cls h).1.method? k'.ref = some k')
    (hover : (settle names cls h).1.Overrides r k'.ref) : m'.Linked k' := by
  obtain ⟨n, hn, hr, _⟩ := hover.2.2.1
  cases hm'.symm.trans hn
  obtain ⟨m, hm, _, hrooted⟩ := ht.rooted_settle names hready hm' hr
  obtain ⟨k, hk, href, hkrooted⟩ := ht.rooted_settle names hready hk' rfl
  replace hover := hover.of_alike (alike_settle names cls h).symm
  rw [hready.isResolved_settle_iff] at hresolved
  have hne : k'.ref.owner ≠ cls := ht.ne_of_overrides hready hresolved hover
  have hkept : ∀ x ∈ k.overrides, x ∈ k'.overrides := fun x hx =>
    (hkrooted.other hne x).mpr (Or.inl hx)
  rw [← href] at hk hover
  by_cases howner : r.owner = cls
  · refine (MethodNode.linked_of_roots fun x hx => ?_).of_grown (fun _ hx => hx)
      hkrooted.bare hkept
    exact (hrooted.own howner x).mpr (Or.inl ⟨k, hk, hover, hx⟩)
  · have hlinked := ht.linked hm (hresolved.resolve_right howner) hk hover
    exact hlinked.of_grown (fun x hx => (hrooted.other howner x).mpr (Or.inl hx))
      hkrooted.bare hkept

theorem source_settle (ht : Traced h) (names : Names) (hready : Ready h cls) {r x : MemberRef}
    {m' : MethodNode} (hm' : (settle names cls h).1.method? r = some m') (hr : m'.ref = r)
    (hx : x ∈ m'.overrides) :
    (∃ c, (settle names cls h).1.isResolved c ∧ Binds (settle names cls h).1 c r x) ∨
      ∃ k', (settle names cls h).1.method? k'.ref = some k' ∧
        (settle names cls h).1.Overrides r k'.ref ∧ (x = k'.ref ∨ x ∈ k'.overrides) := by
  obtain ⟨m, hm, hr, hrooted⟩ := ht.rooted_settle names hready hm' hr
  have hgrown : ∀ {k}, h.isResolved r.owner ∨ r.owner = cls → h.method? k.ref = some k →
      h.Overrides r k.ref → x = k.ref ∨ x ∈ k.overrides →
      ∃ k', (settle names cls h).1.method? k'.ref = some k' ∧
        (settle names cls h).1.Overrides r k'.ref ∧ (x = k'.ref ∨ x ∈ k'.overrides) := by
    intro k howner hk hover hx
    obtain ⟨k', hk', hb, hroots⟩ :=
      ht.exists_grown names hready hk (ht.ne_of_overrides hready howner hover)
    have href : k'.ref = k.ref := MethodNode.ref_eq hb
    rw [← href] at hk' hover hx
    exact ⟨k', hk', hover.of_alike (alike_settle names cls h),
      hx.imp_right fun hx => (hroots x).mpr (Or.inl hx)⟩
  rw [hready.exists_binds_settle names]
  by_cases howner : r.owner = cls
  · rcases (hrooted.own howner x).mp hx with ⟨k, hk, hover, hx⟩ | hb
    · exact Or.inr (hgrown (Or.inr howner) hk hover (MethodNode.mem_roots hx))
    · exact Or.inl (Or.inr hb)
  · rcases (hrooted.other howner x).mp hx with hx | hb
    · rcases ht.source hm hr hx with hb | ⟨k, hk, hover, hkx⟩
      · exact Or.inl (Or.inl hb)
      · exact Or.inr (hgrown (Or.inl (ht.isResolved_of_mem_overrides hm hx)) hk hover hkx)
    · exact Or.inl (Or.inr hb)

protected theorem settle (ht : Traced h) (names : Names) (hready : Ready h cls) :
    Traced (settle names cls h).1 where
  acyclic := ht.acyclic.of_alike (alike_settle names cls h)
  keyed := ht.keyed.of_alike (alike_settle names cls h)
  unforwarded r m' f hm' hf := by
    obtain ⟨m, hm, hs⟩ := settled_settle ht.keyed hready.loaded hm'
    exact ht.unforwarded r m f hm (hs.forwarders ▸ hf)
  fresh := ht.fresh.settle ht.keyed names hready
  above := ht.above_settle names hready
  bound := ht.bound_settle names hready
  linked := ht.linked_settle names hready
  source := ht.source_settle names hready

end Traced

theorem Traced.of_asRead {h : Hierarchy} (hh : h.AsRead) (hacyclic : Acyclic h) : Traced h := by
  have hnone : ∀ {a}, ¬ h.isResolved a := fun {a} =>
    Bool.eq_false_iff.mp (hh.isResolved_eq_false a)
  have hempty : ∀ {r m}, h.method? r = some m → m.overrides = ∅ ∧ m.forwarders = ∅ := by
    intro r m hm
    have huntied := hh.untied hm
    exact ⟨congrArg MethodNode.overrides huntied, congrArg MethodNode.forwarders huntied⟩
  exact
    { acyclic := hacyclic
      keyed := hh.keyed
      unforwarded := fun r m f hm hf => ExtTreeSet.not_mem_empty ((hempty hm).2 ▸ hf)
      fresh := fun r m hm _ => (hempty hm).1
      above := fun ha => absurd ha hnone
      bound := fun hc => absurd hc hnone
      linked := fun _ hr => absurd hr hnone
      source := fun hm _ hx => absurd ((hempty hm).1 ▸ hx) ExtTreeSet.not_mem_empty }

end Resolution
end Lineage
