import Lineage.Proofs.Resolution.Runs

/-!
Roots are never lost.

Every pass adds to the roots of methods or leaves them alone.  There is one
exception: linking the methods of a class sets their roots anew.
-/

namespace Lineage

open Std (ExtTreeMap ExtTreeSet)

namespace Hierarchy

/-- In `h'` the methods of the classes in `P` are still there, with all the
roots that they have in `h`. -/
def Grows (P : String → Prop) (h h' : Hierarchy) : Prop :=
  ∀ r m, P r.owner → h.method? r = some m →
    ∃ m', h'.method? r = some m' ∧ m'.bare = m.bare ∧ ∀ x ∈ m.overrides, x ∈ m'.overrides

namespace Grows

variable {P Q : String → Prop} {h h' h'' : Hierarchy}

theorem refl (h : Hierarchy) : Grows P h h := fun _ m _ hm => ⟨m, hm, rfl, fun _ hx => hx⟩

theorem trans (hh : Grows P h h') (hh' : Grows P h' h'') : Grows P h h'' := by
  intro r m hP hm
  obtain ⟨m', hm', hb, hr⟩ := hh r m hP hm
  obtain ⟨m'', hm'', hb', hr'⟩ := hh' r m' hP hm'
  exact ⟨m'', hm'', hb'.trans hb, fun x hx => hr' x (hr x hx)⟩

theorem mono (hh : Grows P h h') (hPQ : ∀ cls, Q cls → P cls) : Grows Q h h' :=
  fun r m hQ hm => hh r m (hPQ _ hQ) hm

/-- A method that is there afterwards was there before, with no roots that it
has lost. -/
theorem exists_before (hh : Grows P h h') (ha : Alike h h') {r : MemberRef} {m' : MethodNode}
    (hP : P r.owner) (hm' : h'.method? r = some m') :
    ∃ m, h.method? r = some m ∧ m'.bare = m.bare ∧ ∀ x ∈ m.overrides, x ∈ m'.overrides := by
  obtain ⟨m, hm, _⟩ := ha.symm.exists_method hm'
  obtain ⟨n, hn, hb, hr⟩ := hh r m hP hm
  rw [hm'] at hn
  cases hn
  exact ⟨m, hm, hb, hr⟩

/-- A fold grows if each of its steps does. -/
theorem foldl {α σ : Type} (hierarchy : σ → Hierarchy) {step : σ → α → σ}
    (hs : ∀ s a, Grows P (hierarchy s) (hierarchy (step s a))) (s : σ) (as : List α) :
    Grows P (hierarchy s) (hierarchy (as.foldl step s)) := by
  induction as generalizing s with
  | nil => exact refl _
  | cons a as ih => exact (hs s a).trans (ih (step s a))

end Grows

theorem SameBut.grows {β : Type} {view : MethodNode → β} {h h' : Hierarchy} (P : String → Prop)
    (hh : SameBut view h h')
    (hv : ∀ {m n}, view m = view n → m.bare = n.bare ∧ m.overrides = n.overrides) :
    Grows P h h' := by
  intro r m _ hm
  obtain ⟨m', hm', hview⟩ := hh.exists_method hm
  obtain ⟨hb, hr⟩ := hv hview
  refine ⟨m', hm', hb, fun x hx => ?_⟩
  rw [hr]
  exact hx

theorem grows_modifyMethod (P : String → Prop) (h : Hierarchy) (r : MemberRef)
    {f : MethodNode → MethodNode}
    (hf : ∀ m, (f m).bare = m.bare ∧ ∀ x ∈ m.overrides, x ∈ (f m).overrides) :
    Grows P h (h.modifyMethod r f) := by
  intro s m _ hm
  rw [method?_modifyMethod]
  by_cases hslot : r.owner = s.owner ∧ r.key = s.key
  · rw [if_pos hslot, hm]
    exact ⟨f m, rfl, hf m⟩
  · rw [if_neg hslot]
    exact ⟨m, hm, rfl, fun _ hx => hx⟩

theorem grows_modifyClass (P : String → Prop) (h : Hierarchy) (name : String)
    {f : ClassNode → ClassNode} (hf : ∀ c, (f c).methods = c.methods) :
    Grows P h (h.modifyClass name f) := by
  intro r m _ hm
  obtain ⟨c, hc, hcm⟩ := method?_eq_some.mp hm
  refine ⟨m, ?_, rfl, fun _ hx => hx⟩
  rw [method?_eq_some, class?_modifyClass, hc]
  by_cases hn : name = r.owner
  · rw [if_pos hn]
    refine ⟨f c, rfl, ?_⟩
    rw [ClassNode.method?, hf]
    exact hcm
  · rw [if_neg hn]
    exact ⟨c, rfl, hcm⟩

end Hierarchy

namespace Resolution

open Hierarchy (Grows SameBut)

variable (P : String → Prop)

theorem bare_eq_of_sansBounce {m n : MethodNode} (h : m.sansBounce = n.sansBounce) :
    m.bare = n.bare ∧ m.overrides = n.overrides := by
  have hoverrides : ∀ m : MethodNode, m.sansBounce.overrides = m.overrides := fun _ => rfl
  rw [← bare_sansBounce m, ← bare_sansBounce n, ← hoverrides m, ← hoverrides n, h]
  exact ⟨rfl, rfl⟩

theorem bare_eq_of_sansForwarders {m n : MethodNode} (h : m.sansForwarders = n.sansForwarders) :
    m.bare = n.bare ∧ m.overrides = n.overrides := by
  have hbare : ∀ m : MethodNode, m.sansForwarders.bare = m.bare := fun _ => rfl
  have hoverrides : ∀ m : MethodNode, m.sansForwarders.overrides = m.overrides := fun _ => rfl
  rw [← hbare m, ← hbare n, ← hoverrides m, ← hoverrides n, h]
  exact ⟨rfl, rfl⟩

theorem addOverrides_grows (m : MethodNode) (roots : MemberSet) :
    (m.addOverrides roots).bare = m.bare ∧
      ∀ x ∈ m.overrides, x ∈ (m.addOverrides roots).overrides :=
  ⟨rfl, fun _ hx => ExtTreeSet.mem_union_iff.mpr (Or.inl hx)⟩

theorem force_grows (m : MethodNode) (name : String) :
    (m.force name).bare = m.bare ∧ ∀ x ∈ m.overrides, x ∈ (m.force name).overrides := by
  unfold MethodNode.force
  split
  · exact ⟨rfl, fun _ hx => hx⟩
  · exact ⟨rfl, fun _ hx => hx⟩

/-! ## Passes over one class -/

theorem grows_nameEnums (names : Names) (cls : String) (h : Hierarchy) :
    Grows P h (nameEnums names cls h) := by
  intro r m _ hm
  have hr : ((nameEnums names cls h).method? r).map (fun m => (m.bare, m.overrides)) =
      (h.method? r).map fun m => (m.bare, m.overrides) :=
    map_method?_nameEnums names cls h
      (fun cls m => by rw [bare_nameEnumMethod, overrides_nameEnumMethod]) r
  rw [hm, Option.map_some] at hr
  obtain ⟨m', hm', hview⟩ := Option.map_eq_some_iff.mp hr
  obtain ⟨hb, ho⟩ := Prod.mk.inj hview
  refine ⟨m', hm', hb, fun x hx => ?_⟩
  rw [ho]
  exact hx

theorem grows_resolveBounces (cls : String) (h : Hierarchy) :
    Grows P h (resolveBounces cls h).1 :=
  (sameBut_resolveBounces cls h).grows P bare_eq_of_sansBounce

theorem mem_methodsOf {h : Hierarchy} (hk : h.Keyed) {cls : String} {r : MemberRef} :
    r ∈ methodsOf h cls ↔ r.owner = cls ∧ ∃ m, h.method? r = some m ∧ m.ref = r := by
  unfold methodsOf
  constructor
  · intro hr
    cases hc : h.class? cls with
    | none => simp [hc] at hr
    | some c =>
      simp only [hc, Option.map_some, Option.getD_some, List.mem_map, mem_values_iff] at hr
      obtain ⟨m, ⟨key, hm⟩, rfl⟩ := hr
      obtain ⟨ho, _, href⟩ := hk.of_mem_class hc hm
      exact ⟨ho, m, href, rfl⟩
  · rintro ⟨rfl, m, hm, hr⟩
    obtain ⟨c, hc, hcm⟩ := Hierarchy.method?_eq_some.mp hm
    simp only [hc, Option.map_some, Option.getD_some, List.mem_map, mem_values_iff]
    exact ⟨m, ⟨r.key, hcm⟩, hr⟩

theorem mem_bouncesOf {h : Hierarchy} (hk : h.Keyed) {cls : String}
    {b : MemberRef × MemberRef} :
    b ∈ bouncesOf h cls ↔ b.1.owner = cls ∧ ∃ m bounce, h.method? b.1 = some m ∧ m.ref = b.1 ∧
      m.bounce = some bounce ∧ bounce.target = b.2 := by
  unfold bouncesOf
  constructor
  · intro hb
    cases hc : h.class? cls with
    | none => simp [hc] at hb
    | some c =>
      simp only [hc, Option.map_some, Option.getD_some, List.mem_filterMap, mem_values_iff,
        Option.map_eq_some_iff] at hb
      obtain ⟨m, ⟨key, hm⟩, bounce, hbounce, rfl⟩ := hb
      obtain ⟨ho, _, href⟩ := hk.of_mem_class hc hm
      exact ⟨ho, m, bounce, href, rfl, hbounce, rfl⟩
  · obtain ⟨r, t⟩ := b
    rintro ⟨rfl, m, bounce, hm, hr, hb, rfl⟩
    obtain ⟨c, hc, hcm⟩ := Hierarchy.method?_eq_some.mp hm
    simp only [hc, Option.map_some, Option.getD_some, List.mem_filterMap, mem_values_iff,
      Option.map_eq_some_iff]
    exact ⟨m, ⟨r.key, hcm⟩, bounce, hb, by rw [hr]⟩

theorem method?_linkMethod_of_ne {h : Hierarchy} {cls : String} {r q : MemberRef}
    (hq : r.owner ≠ q.owner) : (linkMethod cls h r).method? q = h.method? q := by
  rw [linkMethod, Hierarchy.method?_modifyMethod, if_neg fun hslot => hq hslot.1]

/-- Only the class whose methods are linked is changed. -/
theorem method?_linkMethods_of_ne {h : Hierarchy} (hk : h.Keyed) {cls : String} {q : MemberRef}
    (hq : q.owner ≠ cls) : (linkMethods cls h).method? q = h.method? q := by
  unfold linkMethods
  refine List.foldlRecOn (motive := fun h' : Hierarchy => h'.method? q = h.method? q) _ _ rfl ?_
  intro h' hh r hr
  obtain ⟨rfl, _⟩ := (mem_methodsOf hk).mp hr
  rw [method?_linkMethod_of_ne (Ne.symm hq), hh]

theorem grows_linkMethods {h : Hierarchy} (hk : h.Keyed) (cls : String) :
    Grows (· ≠ cls) h (linkMethods cls h) := by
  intro r m hr hm
  rw [method?_linkMethods_of_ne hk hr]
  exact ⟨m, hm, rfl, fun _ hx => hx⟩

theorem grows_bindContracts (cls : String) (h : Hierarchy) : Grows P h (bindContracts cls h).1 := by
  unfold bindContracts
  refine Grows.foldl Prod.fst (fun s contract => ?_) (h, []) _
  unfold bindContract
  split
  · exact Hierarchy.grows_modifyMethod P s.1 _ fun m => addOverrides_grows m _
  · exact .refl _

/-- What comes after linking the methods of a class takes no roots away. -/
theorem grows_settle_linkedAt {names : Names} {cls : String} {h : Hierarchy} {c : ClassNode}
    (hc : h.class? cls = some c) : Grows P (linkedAt names cls h) (settle names cls h).1 := by
  have hbound : Grows P (linkedAt names cls h) (boundAt names cls c.isAbstract h) := by
    unfold boundAt
    split
    · exact .refl _
    · exact grows_bindContracts P cls _
  rw [settle_fst hc]
  have hnamed := Hierarchy.grows_modifyClass P (boundAt names cls c.isAbstract h) cls
    (f := nameAccessors) fun _ => rfl
  exact (hbound.trans hnamed).trans
    (Hierarchy.grows_modifyClass P _ cls (f := markResolved) fun _ => rfl)

/-- The passes over a class take no roots away from others. -/
theorem grows_settle {h : Hierarchy} (hk : h.Keyed) (names : Names) (cls : String) :
    Grows (· ≠ cls) h (settle names cls h).1 := by
  cases hc : h.class? cls with
  | none =>
    rw [settle_of_none hc]
    exact .refl h
  | some c =>
    have hbefore := (grows_nameEnums (· ≠ cls) names cls h).trans
      (grows_resolveBounces (· ≠ cls) cls (nameEnums names cls h))
    have halike := (alike_nameEnums names cls h).trans (alike_resolveBounces cls _)
    have hlink := grows_linkMethods (hk.of_alike halike) cls
    exact (hbefore.trans hlink).trans (grows_settle_linkedAt (· ≠ cls) hc)

/-! ## Passes over an archive -/

theorem grows_unifyInterface (isPrimary : String → Bool) (loaded : List String) (cls : String)
    (h : Hierarchy) : Grows P h (unifyInterface isPrimary loaded cls h) := by
  refine unifyInterface_induction (.refl h) (fun g _ _ m i hg _ _ _ _ _ => hg.trans ?_)
    fun g _ _ i o hg _ _ _ => hg.trans ?_
  · exact Hierarchy.grows_modifyMethod P g i.ref fun n => addOverrides_grows n _
  · exact Hierarchy.grows_modifyMethod P g i.ref fun n => force_grows n o.name

theorem grows_unify (r : Resolution) (cls : String) :
    Grows P r.path.hierarchy (r.unify cls).path.hierarchy := by
  rw [hierarchy_unify]
  exact grows_unifyInterface P _ _ cls _

theorem grows_unifyAll (r : Resolution) (classes : List String) :
    Grows P r.path.hierarchy (classes.foldl unify r).path.hierarchy :=
  Grows.foldl (fun s : Resolution => s.path.hierarchy) (fun s cls => grows_unify P s cls) r classes

theorem grows_link (r : Resolution) (classes : List String) :
    Grows P r.path.hierarchy (r.link classes).path.hierarchy :=
  (sameBut_link r classes).grows P bare_eq_of_sansForwarders

end Resolution
end Lineage
