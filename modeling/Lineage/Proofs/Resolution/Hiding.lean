import Lineage.Proofs.Resolution.Forwarding
import Lineage.Proofs.Resolution.Unification

/-!
Static methods among the roots.

A static method takes no part in overriding, so it has no roots itself.  But a
method of a class below that has its key looks up past it, and what is looked up
there has only to be neither final nor private.  So a static method that is
hidden in this way comes to be a root of the method that hides it, and this is
the only way: in classes whose abstract methods are neither static nor private
all other roots and parents are methods that can be overridden.
-/

namespace Lineage

open Std (ExtTreeMap ExtTreeSet)
open Relation (ReflTransGen TransGen)

namespace MethodNode

/-- The method has a name, and if it is abstract it can be overridden as far as
its modifiers go. -/
structure WellFormed (m : MethodNode) : Prop where
  name_ne : m.name ≠ ""
  abstract : m.access.has .abstract → m.access.has .static = false ∧ m.access.has .priv = false

theorem WellFormed.of_bare {m n : MethodNode} (hm : m.WellFormed) (hb : m.bare = n.bare) :
    n.WellFormed := by
  have hname : m.bare.name = n.bare.name := congrArg MethodNode.name hb
  have haccess : m.bare.access = n.bare.access := congrArg MethodNode.access hb
  change m.name = n.name at hname
  change m.access = n.access at haccess
  exact ⟨hname ▸ hm.name_ne, haccess ▸ hm.abstract⟩

/-- A method with the key of one that can be overridden and has a name is no
constructor and no class initialiser either. -/
theorem startsWith_eq_false_of_key {m e : MethodNode} (hkey : m.key = e.key) (hname : e.name ≠ "")
    (he : e.isOverridable) : m.name.startsWith "<" = false := by
  have hopen : e.name.startsWith "<" = false := by
    simp only [isOverridable, Bool.and_eq_true, Bool.not_eq_true'] at he
    exact he.2
  rw [Bool.eq_false_iff, ne_eq, String.startsWith_string_iff] at hopen ⊢
  rintro ⟨rest, hrest⟩
  have hchars : m.name.toList ++ m.descriptor.toList = e.name.toList ++ e.descriptor.toList := by
    rw [← String.toList_append, ← String.toList_append]
    exact congrArg String.toList hkey
  rw [← hrest] at hchars
  cases hcs : e.name.toList with
  | nil => exact hname (String.toList_eq_nil_iff.mp hcs)
  | cons c cs =>
    rw [hcs] at hchars hopen
    have hc : '<' = c := (List.cons.inj hchars).1
    exact hopen ⟨cs, by rw [← hc]; rfl⟩

end MethodNode

namespace Hierarchy

/-- What is looked up for a method that cannot be overridden comes to nothing. -/
theorem not_mem_overrideRoots_of_not_overridable {h : Hierarchy} {r x : MemberRef}
    {m : MethodNode} {c : String} (hm : h.method? r = some m) (hno : m.isOverridable = false) :
    x ∉ h.overrideRoots r c := by
  intro hx
  obtain ⟨d, hd, _⟩ := mem_overrideRoots_iff.mp hx
  obtain ⟨v, hv, hmet⟩ := mem_declarationsAbove.mp hd
  rcases ReflTransGen.cases_head hv with rfl | ⟨w, ⟨l, hl, _⟩, _⟩
  · simp [Viewpoint.met?, hm, hno] at hmet
  · simp [Viewpoint.graph, Viewpoint.next?, hm, hno] at hl

end Hierarchy

namespace Resolution

open Hierarchy (Alike Keyed SameBut)

/-- The reference leads to a method that bears it and can be overridden. -/
def Overridable (h : Hierarchy) (x : MemberRef) : Prop :=
  ∃ d, h.method? x = some d ∧ d.ref = x ∧ d.isOverridable

/-- `e` can be overridden and has the key of `d`, which is declared in another
class above and which subclasses may override as far as its own modifiers go. -/
structure Hides (h : Hierarchy) (e d : MethodNode) : Prop where
  method : h.method? e.ref = some e
  hidden : h.method? d.ref = some d
  key_eq : d.key = e.key
  above : TransGen h.supertypeGraph.Edge e.owner d.owner
  owner_ne : d.owner ≠ e.owner
  overridable : e.isOverridable
  inheritable : d.isInheritable

/-! ## Methods that cannot be overridden have no roots -/

/-- Only methods that can be overridden have roots. -/
def Unrooted (h : Hierarchy) : Prop :=
  ∀ r m, h.method? r = some m → m.isOverridable = false → m.overrides = ∅

theorem Unrooted.settle {h : Hierarchy} (hh : Unrooted h) (hk : Keyed h) (names : Names)
    (cls : String) : Unrooted (settle names cls h).1 := by
  intro r m' hm' hno
  cases hc : h.class? cls with
  | none =>
    rw [settle_of_none hc] at hm'
    exact hh r m' hm' hno
  | some c =>
    obtain ⟨m, hm, hs⟩ := settled_settle hk (Option.isSome_of_eq_some hc) hm'
    have hno₀ : m.isOverridable = false := (MethodNode.isOverridable_eq hs.bare).symm.trans hno
    have hbestows : ∀ x, ¬ Bestows names h cls r x := by
      intro x hb
      obtain ⟨_, n, hn, himpl⟩ := hb.exists_implementation hk
      cases hm.symm.trans hn
      simp [implements, hno₀] at himpl
    refine ExtTreeSet.ext_mem fun x => iff_of_false (fun hx => ?_) ExtTreeSet.not_mem_empty
    by_cases hr : r.owner = cls
    · obtain ⟨g, hg, _, hroots⟩ := hs.own hr
      rcases (hroots x).mp hx with hx | hx
      · have ha := (alike_bouncedAt names cls h).trans hg.alike
        obtain ⟨n, hn, hb⟩ := ha.exists_method (hk.method?_ref hm)
        exact Hierarchy.not_mem_overrideRoots_of_not_overridable hn
          ((MethodNode.isOverridable_eq hb).symm.trans hno₀) hx
      · exact hbestows x hx
    · rcases ((hs.other hr).2 x).mp hx with hx | hx
      · rw [hh r m hm hno₀] at hx
        exact ExtTreeSet.not_mem_empty hx
      · exact hbestows x hx

/-! ## What is hidden becomes a root -/

/-- Once the class of `e` is resolved the method `d` is a root of it. -/
def Takes (e d : MethodNode) (h : Hierarchy) : Prop :=
  h.isResolved e.owner → ∀ m, h.method? e.ref = some m → d.ref ∈ m.overrides

/-- What is looked up for `e` meets `d`, as long as that has no roots itself. -/
theorem Hides.mem_overrideRoots {h₀ g : Hierarchy} {e d d' : MethodNode} (hhides : Hides h₀ e d)
    (hk : Keyed h₀) (hag : Alike h₀ g) (hd' : g.method? d.ref = some d')
    (hnone : d'.overrides = ∅) : d.ref ∈ g.overrideRoots e.ref e.owner := by
  obtain ⟨e', he', hbe⟩ := hag.exists_method hhides.method
  have hbd := hag.keyed_ref hhides.hidden hd'
  have habove : ReflTransGen g.supertypeGraph.Edge e.owner d.owner := by
    rw [← hag.supertypeGraph]
    exact hhides.above.to_reflTransGen
  have hslot : g.method? (e.ref.withOwner d.owner) = some d' := by
    rw [← hd']
    exact g.method?_congr rfl hhides.key_eq.symm
  refine Hierarchy.mem_overrideRoots (hk.of_alike hag) he' ?_ habove hslot ?_ hhides.owner_ne ?_
  · rw [← MethodNode.isOverridable_eq hbe]
    exact hhides.overridable
  · rw [MethodNode.isInheritable_eq hbd]
    exact hhides.inheritable
  · rw [MethodNode.roots, hnone, if_pos ExtTreeSet.isEmpty_empty, ← MethodNode.ref_eq hbd]
    exact ExtTreeSet.mem_insert_self

theorem Takes.settle {h₀ h : Hierarchy} {e d : MethodNode} (hh : Takes e d h)
    (hhides : Hides h₀ e d) (hno : d.isOverridable = false) (hk : Keyed h₀) (ha : Alike h₀ h)
    (hunrooted : Unrooted h) (names : Names) (cls : String) :
    Takes e d (settle names cls h).1 := by
  intro hresolved m' hm'
  have hkh := hk.of_alike ha
  rw [isResolved_settle] at hresolved
  cases hc : h.class? cls with
  | none =>
    have hkept : h.isResolved e.owner := by
      rcases Bool.or_eq_true_iff.mp hresolved with hr | hr
      · exact hr
      · obtain ⟨hcls, hloaded⟩ := Bool.and_eq_true_iff.mp hr
        rw [← beq_iff_eq.mp hcls, hc] at hloaded
        cases hloaded
    rw [settle_of_none hc] at hm'
    exact hh hkept m' hm'
  | some c =>
    obtain ⟨m, hm, hs⟩ := settled_settle hkh (Option.isSome_of_eq_some hc) hm'
    by_cases hr : e.owner = cls
    · obtain ⟨g, hg, _, hroots⟩ := hs.own hr
      have hag := ha.trans ((alike_bouncedAt names cls h).trans hg.alike)
      obtain ⟨d', hd', hbd⟩ := hag.exists_method hhides.hidden
      obtain ⟨n, hn, _, _, hties⟩ := hg.exists_before hd'
      -- linking the class of `e` leaves the class of `d` alone
      have hsame := hties fun hd => hhides.owner_ne (hd.trans hr.symm)
      have hnone : d'.overrides = ∅ := by
        rw [MethodNode.overrides_eq_of_ties hsame]
        refine hunrooted d.ref n hn ?_
        rw [← MethodNode.isOverridable_eq (MethodNode.bare_eq_of_ties hsame),
          ← MethodNode.isOverridable_eq hbd]
        exact hno
      have href : m.ref = e.ref := MethodNode.ref_eq (ha.keyed_ref hhides.method hm)
      rw [hroots, href, ← hr]
      exact Or.inl (hhides.mem_overrideRoots hk hag hd' hnone)
    · have hkept : h.isResolved e.owner := by
        have hne : ¬ cls = e.owner := fun h => hr h.symm
        simpa [hne] using hresolved
      exact ((hs.other hr).2 _).mpr (Or.inl (hh hkept m hm))

/-! ## All other roots can be overridden -/

/-- What is bestowed has the key of the method that implements it. -/
theorem Bestows.key_eq {names : Names} {h : Hierarchy} {cls : String} {r x : MemberRef}
    (hb : Bestows names h cls r x) (hk : Keyed h) : x.key = r.key := by
  obtain ⟨_, k, _, rfl, i, hi, _, hkey⟩ := hb
  obtain ⟨m, hm, rfl⟩ := Option.map_eq_some_iff.mp hi
  obtain ⟨c, hc, hmc⟩ := List.exists_of_findSome?_eq_some hm
  obtain ⟨b, _, hc⟩ := List.mem_filterMap.mp hc
  obtain ⟨_, hmk, _⟩ := (hk.of_alike (alike_linkedAt names cls h)).of_mem_class hc
    (Option.filter_eq_some_iff.mp hmc).1
  exact hmk.symm.trans hkey

/-- All roots and parents of methods are in `P`. -/
def Tied (P : MemberRef → Prop) (h : Hierarchy) : Prop :=
  ∀ r m x, h.method? r = some m → x ∈ m.overrides ∨ m.parent = some x → P x

/-- Classes that have been read, those in `S` among them well-formed and all that
can be reached from `classes` in `S`, where no static method is hidden. -/
structure Orderly (h₀ : Hierarchy) (classes : List String) (S : String → Prop) : Prop where
  read : h₀.AsRead
  loaded : ∀ {a}, Reached h₀ classes a → S a
  wellFormed : ∀ {r m}, h₀.method? r = some m → S r.owner → m.WellFormed
  unhidden : ∀ {e d}, Hides h₀ e d → Reached h₀ classes e.owner → d.access.has .static = false

theorem Tied.modifyMethod {P : MemberRef → Prop} {h : Hierarchy} (ht : Tied P h) (r : MemberRef)
    {f : MethodNode → MethodNode}
    (hf : ∀ n x, x ∈ (f n).overrides ∨ (f n).parent = some x →
      (x ∈ n.overrides ∨ n.parent = some x) ∨ P x) : Tied P (h.modifyMethod r f) := by
  intro q m x hm hx
  obtain ⟨n, hn, ⟨_, rfl⟩ | ⟨_, rfl⟩⟩ := Hierarchy.exists_of_modifyMethod hm
  · exact (hf n x hx).elim (ht q n x hn) id
  · exact ht q m x hn hx

theorem Reached.trans {h : Hierarchy} {classes : List String} {a b : String}
    (ha : Reached h classes a) (hab : ReflTransGen h.supertypeGraph.Edge a b) :
    Reached h classes b := by
  obtain ⟨n, hn, hna⟩ := ha
  exact ⟨n, hn, hna.trans hab⟩

/-- A bouncer that leads to a method is of one of the classes, or the method
itself, and below the method's class or in it. -/
theorem reaches_of_forwards {h : Hierarchy} (hh : h.AsRead) {classes : List String}
    {f r : MemberRef} (hr : Reached h classes r.owner)
    (hf : ReflTransGen (Forwards h classes) f r) :
    Reached h classes f.owner ∧ ReflTransGen h.supertypeGraph.Edge f.owner r.owner := by
  induction hf using ReflTransGen.head_induction_on with
  | refl => exact ⟨hr, .refl⟩
  | @head f g hfg _ ih =>
    obtain ⟨hcls, m, b, hm, href, hb, howner, _⟩ := hfg
    have hbounces : Bounces h f b.target := ⟨m, hm, href, by rw [MethodNode.aim?, hb]; rfl⟩
    have hstep := hbounces.reaches hh
    rw [howner] at hstep
    exact ⟨⟨f.owner, hcls, .refl⟩, hstep.trans ih.2⟩

namespace Orderly

variable {h₀ h g : Hierarchy} {classes : List String} {S : String → Prop}

/-- What has the key of a method that can be overridden can be overridden, too,
if its modifiers let it. -/
theorem overridable (ho : Orderly h₀ classes S) {e d : MethodNode} {r : MemberRef}
    (he : h₀.method? r = some e) (hS : S r.owner) (heo : e.isOverridable)
    (hd : h₀.method? d.ref = some d) (hkey : d.key = e.key) (hstatic : d.access.has .static = false)
    (hpriv : d.access.has .priv = false) : Overridable h₀ d.ref := by
  have hname := MethodNode.startsWith_eq_false_of_key hkey (ho.wellFormed he hS).name_ne heo
  exact ⟨d, hd, rfl, by rw [MethodNode.isOverridable, hstatic, hpriv, hname]; rfl⟩

theorem overridable_of_met (ho : Orderly h₀ classes S) (ha : Alike h₀ g)
    (hf : Forwarded h₀ classes g) {r : MemberRef} (hr : Reached h₀ classes r.owner)
    {d : MethodNode} (hd : d ∈ g.declarationsAbove r r.owner) : Overridable h₀ d.ref := by
  have hk := ho.read.keyed
  obtain ⟨v, hv, hmet⟩ := Hierarchy.mem_declarationsAbove.mp hd
  obtain ⟨href, howner, hkey, hne, hdi, e, he, heo⟩ := (hk.of_alike ha).of_met hmet
  obtain ⟨d₀, hd₀, hbd⟩ := ha.symm.exists_method href
  obtain ⟨e₀, he₀, hbe⟩ := ha.symm.exists_method he
  obtain ⟨heowner, hekey⟩ := hk.slot_eq he₀
  have hdref : d₀.ref = d.ref := (MethodNode.ref_eq hbd).symm
  have hdowner : d₀.owner = d.owner := congrArg MemberRef.owner hdref
  have hdkey : d₀.key = d.key := congrArg MemberRef.key hdref
  obtain ⟨hreached, hbelow⟩ := reaches_of_forwards ho.read hr (forwards_of_reaches ha hf hv)
  have habove : ReflTransGen h₀.supertypeGraph.Edge e₀.owner d₀.owner := by
    rw [heowner, hdowner, howner]
    refine hbelow.trans ?_
    rw [ha.supertypeGraph]
    exact Hierarchy.reaches_cls hv
  have hneowner : d₀.owner ≠ e₀.owner := by
    rw [heowner, hdowner]
    exact hne
  have hhides : Hides h₀ e₀ d₀ :=
    { method := hk.method?_ref he₀
      hidden := hk.method?_ref hd₀
      key_eq := (hdkey.trans hkey).trans hekey.symm
      above := (Relation.reflTransGen_iff_eq_or_transGen.mp habove).resolve_left hneowner
      owner_ne := hneowner
      overridable := (MethodNode.isOverridable_eq hbe).symm.trans heo
      inheritable := (MethodNode.isInheritable_eq hbd).symm.trans hdi }
  have hpriv : d₀.access.has .priv = false := by
    have hi := hhides.inheritable
    simp only [MethodNode.isInheritable, Bool.and_eq_true, Bool.not_eq_true'] at hi
    exact hi.2
  rw [← hdref]
  exact ho.overridable he₀ (ho.loaded hreached) hhides.overridable hhides.hidden hhides.key_eq
    (ho.unhidden hhides (heowner ▸ hreached)) hpriv

/-- Where roots can be overridden, so can what a method gets when it is linked. -/
theorem overridable_of_looked_up (ho : Orderly h₀ classes S) (ha : Alike h₀ g)
    (hf : Forwarded h₀ classes g) (ht : Tied (Overridable h₀) g) {r x : MemberRef}
    (hr : Reached h₀ classes r.owner)
    (hx : x ∈ g.overrideRoots r r.owner ∨ g.nearestParent? r r.owner = some x) :
    Overridable h₀ x := by
  rcases hx with hx | hx
  · obtain ⟨d, hd, hx⟩ := Hierarchy.mem_overrideRoots_iff.mp hx
    rcases MethodNode.mem_roots hx with rfl | hx
    · exact ho.overridable_of_met ha hf hr hd
    · exact ht d.ref d x (reaches_of_met ho.read.keyed ha hf hd).1 (Or.inl hx)
  · obtain ⟨d, hd, rfl⟩ := exists_met_of_nearestParent? hx
    exact ho.overridable_of_met ha hf hr hd

theorem tied_linking (ho : Orderly h₀ classes S) (ha : Alike h₀ h)
    (ht : Tied (Overridable h₀) h) (hf : Forwarded h₀ classes h) {names : Names} {cls : String}
    (hcls : Reached h₀ classes cls) (hg : Linking cls (bouncedAt names cls h) g) :
    Tied (Overridable h₀) g := by
  induction hg with
  | refl =>
    intro r m x hm hx
    have hmap := map_ties_bouncedAt names cls h r
    rw [hm, Option.map_some] at hmap
    obtain ⟨n, hn, hties⟩ := Option.map_eq_some_iff.mp hmap.symm
    rw [← MethodNode.overrides_eq_of_ties hties, ← MethodNode.parent_eq_of_ties hties] at hx
    exact ht r n x hn hx
  | @link g q hg hq ih =>
    have hag := ha.trans ((alike_bouncedAt names cls h).trans hg.alike)
    have hfg := Upward.forwarded_of_linking hf hg
    subst hq
    exact ih.modifyMethod q fun _ _ hx => Or.inr (ho.overridable_of_looked_up hag hfg ih hcls hx)

theorem overridable_of_bestows (ho : Orderly h₀ classes S) (ha : Alike h₀ h) {names : Names}
    {cls : String} (hcls : Reached h₀ classes cls) {r x : MemberRef}
    (hb : Bestows names h cls r x) : Overridable h₀ x := by
  have hk := ho.read.keyed
  have hkh := hk.of_alike ha
  obtain ⟨hxo, k, hkx, rfl, habstract⟩ := hb.exists_contract hkh
  obtain ⟨hro, n, hn, himpl⟩ := hb.exists_implementation hkh
  obtain ⟨k₀, hk₀, hbk⟩ := ha.symm.exists_method hkx
  obtain ⟨n₀, hn₀, hbn⟩ := ha.symm.exists_method hn
  have hkref : k₀.ref = k.ref := (MethodNode.ref_eq hbk).symm
  have hno : n₀.isOverridable := by
    rw [← MethodNode.isOverridable_eq hbn]
    exact (Bool.and_eq_true_iff.mp himpl).2
  have hloaded : ∀ {a}, a ∈ h.ancestors cls → S a := by
    intro a hmem
    rw [← ha.ancestors] at hmem
    exact ho.loaded (hcls.trans (Hierarchy.mem_ancestors.mp hmem).1)
  have habstract₀ : k₀.access.has .abstract := by
    show k₀.bare.access.has .abstract
    rw [← hbk]
    exact habstract
  obtain ⟨hstatic, hpriv⟩ := (ho.wellFormed hk₀ (hloaded hxo)).abstract habstract₀
  have hkey : k₀.key = n₀.key :=
    (congrArg MemberRef.key hkref).trans ((hb.key_eq hkh).trans (hk.slot_eq hn₀).2.symm)
  rw [← hkref]
  exact ho.overridable hn₀ (hloaded hro) hno (hk.method?_ref hk₀) hkey hstatic hpriv

theorem tied_settle (ho : Orderly h₀ classes S) (ha : Alike h₀ h)
    (ht : Tied (Overridable h₀) h) (hf : Forwarded h₀ classes h) (names : Names) {cls : String}
    (hcls : Reached h₀ classes cls) :
    Tied (Overridable h₀) (settle names cls h).1 := by
  intro r m' x hm' hx
  cases hc : h.class? cls with
  | none =>
    rw [settle_of_none hc] at hm'
    exact ht r m' x hm' hx
  | some c =>
    have hkh := ho.read.keyed.of_alike ha
    obtain ⟨m, hm, hs⟩ := settled_settle hkh (Option.isSome_of_eq_some hc) hm'
    by_cases hr : r.owner = cls
    · obtain ⟨g, hg, hparent, hroots⟩ := hs.own hr
      have hag := ha.trans ((alike_bouncedAt names cls h).trans hg.alike)
      have hfg := Upward.forwarded_of_linking hf hg
      have hmo : m.ref.owner = cls := (hkh.slot_eq hm).1.trans hr
      rw [hroots, hparent, or_right_comm, ← hmo] at hx
      rcases hx with hx | hx
      · exact ho.overridable_of_looked_up hag hfg (ho.tied_linking ha ht hf hcls hg)
          (hmo ▸ hcls) hx
      · exact ho.overridable_of_bestows ha (hmo ▸ hcls) hx
    · obtain ⟨hparent, hroots⟩ := hs.other hr
      rw [hroots, hparent, or_right_comm] at hx
      rcases hx with hx | hx
      · exact ht r m x hm hx
      · exact ho.overridable_of_bestows ha hcls hx

/-- A method of an interface has a counterpart that can be overridden, so it can
be overridden itself. -/
theorem overridable_of_sibling (ho : Orderly h₀ classes S) (ha : Alike h₀ h) (hag : Alike h₀ g)
    {cls : String} {c : ClassNode} (hc : h.class? cls = some c) {m i : MethodNode}
    (hm : m ∈ interfaceMethods c) {names : List String} (hi : i ∈ siblings g names m.key)
    (hS : ∀ a ∈ names, S a) : Overridable h₀ m.ref := by
  have hk := ho.read.keyed
  obtain ⟨hvalue, hflags⟩ := List.mem_filter.mp hm
  obtain ⟨key, hkey⟩ := mem_values_iff.mp hvalue
  obtain ⟨_, _, hmref⟩ := (hk.of_alike ha).of_mem_class hc hkey
  obtain ⟨m₀, hm₀, hbm⟩ := ha.symm.exists_method hmref
  obtain ⟨⟨a, hmem, d, hd, hdi⟩, hio⟩ := mem_siblings.mp hi
  obtain ⟨howner, hikey, hiref⟩ := (hk.of_alike hag).of_mem_class hd hdi
  obtain ⟨i₀, hi₀, hbi⟩ := hag.symm.exists_method hiref
  have hmr : m₀.ref = m.ref := (MethodNode.ref_eq hbm).symm
  have hir : i₀.ref = i.ref := (MethodNode.ref_eq hbi).symm
  have haccess : m.bare.access = m₀.bare.access := congrArg MethodNode.access hbm
  change m.access = m₀.access at haccess
  rw [haccess, Bool.and_eq_true, Bool.not_eq_true', Bool.not_eq_true'] at hflags
  have hSi : S i.ref.owner := by
    show S i.owner
    rw [howner]
    exact hS a hmem
  have hkeys : m₀.key = i₀.key :=
    (congrArg MemberRef.key hmr).trans (hikey.symm.trans (congrArg MemberRef.key hir).symm)
  rw [← hmr]
  exact ho.overridable hi₀ hSi ((MethodNode.isOverridable_eq hbi).symm.trans hio)
    (hk.method?_ref hm₀) hkeys hflags.1 hflags.2

theorem tied_unify (ho : Orderly h₀ classes S) {r : Resolution} (ha : Alike h₀ r.path.hierarchy)
    (ht : Tied (Overridable h₀) r.path.hierarchy) (cls : String)
    (hS : ∀ a ∈ (r.unify cls).path.asked, S a) :
    Tied (Overridable h₀) (r.unify cls).path.hierarchy := by
  rw [hierarchy_unify]
  by_cases hoffers : ∃ k, Offers r.path.hierarchy cls k
  · refine (unifyInterface_induction (P := fun g =>
      SameBut MethodNode.sansUnity r.path.hierarchy g ∧ Tied (Overridable h₀) g) ⟨.refl _, ht⟩
      (fun g g' c m i hg hg' hc hm hi _ => ⟨hg.1.trans ?_, hg.2.modifyMethod i.ref ?_⟩)
      fun g _ _ i o hg _ _ _ => ⟨hg.1.trans ?_, hg.2.modifyMethod i.ref ?_⟩).2
    · exact Hierarchy.sameBut_modifyMethod g i.ref fun _ => rfl
    · have hover := ho.overridable_of_sibling ha (ha.trans (hg'.1.alike_of fun _ => rfl)) hc hm hi
        fun a hmem => hS a <| by
          obtain ⟨b, hb, hne, _, hab⟩ := mem_scope.mp (ExtTreeSet.mem_toList.mp hmem)
          exact mem_asked_unify_iff.mpr
            (Or.inr ⟨hoffers, b, hb, hne, (Hierarchy.mem_ancestors.mp hab).1⟩)
      rintro n x (hx | hx)
      · rcases ExtTreeSet.mem_union_iff.mp hx with hx | hx
        · exact Or.inl (Or.inl hx)
        · rcases ExtTreeSet.mem_insert.mp hx with hx | hx
          · rw [← Std.LawfulEqOrd.eq_of_compare hx]
            exact Or.inr hover
          · exact absurd hx ExtTreeSet.not_mem_empty
      · exact Or.inl (Or.inr hx)
    · exact Hierarchy.sameBut_modifyMethod g i.ref fun n => sansUnity_force n o.name
    · intro n x hx
      unfold MethodNode.force at hx
      split at hx <;> exact Or.inl hx
  · rw [unifyInterface_eq_self (by rwa [exists_offers_iff])]
    exact ht

theorem tied_unifyAll (ho : Orderly h₀ classes S) {r : Resolution} (ha : Alike h₀ r.path.hierarchy)
    (ht : Tied (Overridable h₀) r.path.hierarchy) (order : List String)
    (hS : ∀ a ∈ (order.foldl unify r).path.asked, S a) :
    Tied (Overridable h₀) (order.foldl unify r).path.hierarchy := by
  induction order generalizing r with
  | nil => exact ht
  | cons cls order ih =>
    refine ih (ha.trans (alike_unify r cls)) (ho.tied_unify ha ht cls fun a hmem => hS a ?_) hS
    exact List.foldlRecOn (motive := fun s : Resolution => a ∈ s.path.asked) order unify hmem
      fun s hs other _ => mem_asked_unify hs other

/-- Resolving an archive ties methods only to methods that can be overridden. -/
theorem tied_resolveArchive {path : ClassPath} (names : Names)
    (ho : Orderly path.hierarchy classes
      (· ∈ ((start path).resolveArchive names classes).path.asked)) :
    Tied (Overridable path.hierarchy)
      ((start path).resolveArchive names classes).path.hierarchy := by
  have hlink := alike_link (start path) classes
  have hstart : Tied (Overridable path.hierarchy)
      ((start path).link classes).path.hierarchy := by
    intro q m x hm hx
    obtain ⟨hroots, hparent⟩ := unrooted_link (r := start path) ho.read hm
    rw [hroots, hparent] at hx
    rcases hx with hx | hx
    · exact absurd hx ExtTreeSet.not_mem_empty
    · cases hx
  have hresolved := resolveAll_induction (r := (start path).link classes)
    (P := fun h => Forwarded path.hierarchy classes h ∧ Tied (Overridable path.hierarchy) h) names
    ⟨forwarded_link (r := start path) ho.read classes, hstart⟩ classes
    fun h a ha hh hreach => ⟨?_, ?_⟩
  · exact ho.tied_unifyAll (hlink.trans (alike_resolveAll names _ classes)) hresolved.2 classes
      fun _ hmem => hmem
  · exact hh.1.settle (ho.read.keyed.of_alike (hlink.trans ha)) names a
  · rw [← hlink.supertypeGraph] at hreach
    exact ho.tied_settle (hlink.trans ha) hh.2 hh.1 names hreach

end Orderly

/-! ## Static methods among roots and parents -/

section Archive

variable {path : ClassPath} {classes : List String}

theorem Overridable.of_alike {h h' : Hierarchy} (ha : Alike h h') {x : MemberRef}
    (hx : Overridable h x) : Overridable h' x := by
  obtain ⟨d, hd, href, hdo⟩ := hx
  obtain ⟨d', hd', hb⟩ := ha.exists_method hd
  exact ⟨d', hd', (MethodNode.ref_eq hb).symm.trans href,
    (MethodNode.isOverridable_eq hb).symm.trans hdo⟩

theorem mem_overrides_of_hides (names : Names) (hp : path.hierarchy.AsRead) {e d m : MethodNode}
    (hhides : Hides path.hierarchy e d) (hno : d.isOverridable = false)
    (hreached : Reached path.hierarchy classes e.owner)
    (hm : ((start path).resolveArchive names classes).path.hierarchy.method? e.ref = some m) :
    d.ref ∈ m.overrides := by
  have hlink : Alike path.hierarchy ((start path).link classes).path.hierarchy :=
    alike_link (start path) classes
  have hresolved := resolveAll_induction (r := (start path).link classes)
    (P := fun h => Unrooted h ∧ Takes e d h) names
    ⟨fun _ _ hn _ => (unrooted_link (r := start path) hp hn).1,
      fun hres => absurd hres (not_isResolved_link (r := start path) hp classes e.owner)⟩ classes
    fun h a ha hh _ => ⟨hh.1.settle (hp.keyed.of_alike (hlink.trans ha)) names a,
      hh.2.settle hhides hno hp.keyed (hlink.trans ha) hh.1 names a⟩
  obtain ⟨n, hn, hreach⟩ := hreached
  have hloaded : (path.hierarchy.class? e.owner).isSome := by
    obtain ⟨c, hc, _⟩ := Hierarchy.method?_eq_some.mp hhides.method
    exact Option.isSome_of_eq_some hc
  have hend := (AtRest.of_asRead hp).isResolved_resolveArchive (r := start path) names hn hreach
    hloaded
  rw [resolveArchive, isResolved_unifyAll] at hend
  obtain ⟨m₀, hm₀, _⟩ := (hlink.trans (alike_resolveAll names _ classes)).exists_method
    hhides.method
  obtain ⟨m', hm', _, hroots⟩ := grows_unifyAll (fun _ => True) _ classes e.ref m₀ trivial hm₀
  cases hm.symm.trans hm'
  exact hroots _ (hresolved.2 hend m₀ hm₀)

/-- Where all roots can be overridden, so can what is hidden. -/
theorem isOverridable_of_hides (names : Names) (hp : path.hierarchy.AsRead) {e d : MethodNode}
    (hhides : Hides path.hierarchy e d) (hreached : Reached path.hierarchy classes e.owner)
    (hlaw : ∀ m, Loads ((start path).resolveArchive names classes).path m → ∀ x ∈ m.overrides,
      Overridable ((start path).resolveArchive names classes).path.hierarchy x) :
    d.isOverridable := by
  have halike : Alike path.hierarchy
      ((start path).resolveArchive names classes).path.hierarchy :=
    alike_resolveArchive names (start path) classes
  have hkeyed := hp.keyed.of_alike halike
  by_contra hno
  rw [Bool.not_eq_true] at hno
  obtain ⟨m, hm, _⟩ := halike.exists_method hhides.method
  obtain ⟨n, hn, hreach⟩ := hreached
  have hasked := mem_asked_of_reaches names hn hreach
  have hloads : Loads ((start path).resolveArchive names classes).path m := by
    refine (loads_iff hkeyed).mpr ⟨hkeyed.method?_ref hm, ?_⟩
    rw [(hkeyed.slot_eq hm).1]
    exact hasked
  obtain ⟨d', hd', _, hover⟩ :=
    hlaw m hloads d.ref (mem_overrides_of_hides names hp hhides hno ⟨n, hn, hreach⟩ hm)
  rw [MethodNode.isOverridable_eq (halike.keyed_ref hhides.hidden hd'), hno] at hover
  cases hover

end Archive

/-- After resolving an archive whose abstract methods are neither static nor
private, roots and parents can all be overridden if and only if no method that
can be overridden hides a static method that is neither final nor private. -/
theorem roots_overridable_iff (names : Names) (sources : List ClassTable)
    (requests : List ClassPath.Request) (classes : List String) :
    let read := (ClassPath.afterRequests sources requests).hierarchy
    let path := ((start (.afterRequests sources requests)).resolveArchive names classes).path
    (∀ m, Loads path m → m.WellFormed) →
      ((∀ m, Loads path m → ∀ x, x ∈ m.overrides ∨ m.parent = some x →
          Overridable path.hierarchy x) ↔
        ∀ e d, Hides read e d → Reached read classes e.owner → d.access.has .static = false) := by
  intro read path hform
  have hp := ClassPath.asRead_afterRequests sources requests
  have halike : Alike read path.hierarchy :=
    alike_resolveArchive names (start (.afterRequests sources requests)) classes
  have hkeyed := hp.keyed.of_alike halike
  have hasked : ∀ {a}, Reached read classes a → a ∈ path.asked := fun ⟨_, hn, hreach⟩ =>
    mem_asked_of_reaches names hn hreach
  constructor
  · intro hlaw e d hhides hreached
    have hover := isOverridable_of_hides names hp hhides hreached
      fun m hloads x hx => hlaw m hloads x (Or.inl hx)
    simp only [MethodNode.isOverridable, Bool.and_eq_true, Bool.not_eq_true'] at hover
    exact hover.1.1
  · intro hunhidden m hloads x hx
    have horderly : Orderly read classes (· ∈ path.asked) :=
      { read := hp
        loaded := hasked
        wellFormed := by
          intro r n hn hr
          obtain ⟨n', hn', hb⟩ := halike.exists_method hn
          refine (hform n' ((loads_iff hkeyed).mpr ⟨hkeyed.method?_ref hn', ?_⟩)).of_bare hb.symm
          rw [(hkeyed.slot_eq hn').1]
          exact hr
        unhidden := fun hhides hreached => hunhidden _ _ hhides hreached }
    have hm := ((loads_iff hkeyed).mp hloads).1
    exact (horderly.tied_resolveArchive names m.ref m x hm hx).of_alike halike

namespace Sample

/-- A class and one that overrides its method. -/
def family : ClassPath := .afterRequests [] [.register (archive [base, child]) true]

/-- In a class and one that overrides its method all roots can be overridden. -/
theorem roots_overridable_family :
    let path := ((start family).resolveArchive .asWritten ["Base", "Child"]).path
    (∀ m, Loads path m → m.WellFormed) ∧ ∀ m, Loads path m →
      ∀ x, x ∈ m.overrides ∨ m.parent = some x → Overridable path.hierarchy x := by
  intro path
  have hall : ∀ c ∈ family.hierarchy.classes.toList, ∀ m ∈ c.2.methods.values,
      m.name ≠ "" ∧ m.access.has .static = false ∧ m.access.has .priv = false := by decide +kernel
  have hread := ClassPath.asRead_afterRequests [] [.register (archive [base, child]) true]
  have halike : Alike family.hierarchy path.hierarchy :=
    alike_resolveArchive .asWritten (start family) ["Base", "Child"]
  have hform : ∀ m, Loads path m → m.WellFormed := by
    intro m hloads
    obtain ⟨hm, _⟩ := (loads_iff (hread.keyed.of_alike halike)).mp hloads
    obtain ⟨n, hn, hb⟩ := halike.symm.exists_method hm
    obtain ⟨hname, haccess⟩ := forall_method hall hn
    exact MethodNode.WellFormed.of_bare ⟨hname, fun _ => haccess⟩ hb.symm
  refine ⟨hform, (roots_overridable_iff .asWritten [] [.register (archive [base, child]) true]
    ["Base", "Child"] hform).mpr fun _ _ hhides _ => ?_⟩
  exact (forall_method hall hhides.hidden).2.1

/-- A class with a static method, and one below with a method of the same key
that is not static. -/
def masked : ClassPath :=
  .afterRequests [] [.register (archive
    [plain "Base" none [run [.pub, .static] [.op 0xB1]], child]) true]

/-- The static method is a root of the one that hides it. -/
theorem static_root_masked :
    ¬ ∀ m, Loads ((start masked).resolveArchive .asWritten ["Base", "Child"]).path m →
      ∀ x, x ∈ m.overrides ∨ m.parent = some x →
        Overridable ((start masked).resolveArchive .asWritten ["Base", "Child"]).path.hierarchy
          x := by
  have hread : masked.hierarchy.AsRead := ClassPath.asRead_afterRequests _ _
  have hchild : (masked.hierarchy.method? ⟨"Child", "run", "()V"⟩).any (fun m =>
      m.ref = ⟨"Child", "run", "()V"⟩ ∧ m.isOverridable) := by decide +kernel
  have hbase : (masked.hierarchy.method? ⟨"Base", "run", "()V"⟩).any (fun m =>
      m.ref = ⟨"Base", "run", "()V"⟩ ∧ m.isInheritable ∧ m.isOverridable = false) := by
    decide +kernel
  have hsuper : masked.hierarchy.supertypes? "Child" = some ["Base"] := by decide +kernel
  obtain ⟨e, he, hce⟩ := (Option.any_eq_true _ _).mp hchild
  obtain ⟨d, hd, hcd⟩ := (Option.any_eq_true _ _).mp hbase
  obtain ⟨heref, heo⟩ := of_decide_eq_true hce
  obtain ⟨hdref, hdi, hdo⟩ := of_decide_eq_true hcd
  have heowner : e.owner = "Child" := congrArg MemberRef.owner heref
  have hdowner : d.owner = "Base" := congrArg MemberRef.owner hdref
  have hhides : Hides masked.hierarchy e d :=
    { method := heref ▸ he
      hidden := hdref ▸ hd
      key_eq := by
        show d.ref.key = e.ref.key
        rw [hdref, heref]
        rfl
      above := by
        rw [heowner, hdowner]
        exact .single ⟨_, hsuper, List.mem_cons_self⟩
      owner_ne := by
        rw [heowner, hdowner]
        decide
      overridable := heo
      inheritable := hdi }
  intro hlaw
  have hover := isOverridable_of_hides .asWritten hread hhides
    ⟨"Child", by decide, heowner ▸ .refl⟩ fun m hloads x hx => hlaw m hloads x (Or.inl hx)
  rw [hdo] at hover
  cases hover

end Sample

end Resolution
end Lineage
