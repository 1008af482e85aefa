import Lineage.Proofs.Resolution.Parents

/-!
References that are noted about methods.

Resolution notes of a method its roots, the bouncers that forward to it, its
parent, and where it lands if it is a bouncer.  Each pass takes what it notes
from the references of methods that it has met and from what has been noted of
those, so every reference that is noted leads to a method which bears it, in a
class that has been asked for.  What has been asked for is not replaced later on.
-/

namespace Lineage

open Std (ExtTreeMap ExtTreeSet)
open Relation (ReflTransGen)

namespace MethodNode

/-- All references that have been noted about the method are in `P`. -/
structure Notes (P : MemberRef → Prop) (m : MethodNode) : Prop where
  overrides : ∀ r ∈ m.overrides, P r
  forwarders : ∀ r ∈ m.forwarders, P r
  parent : ∀ r, m.parent = some r → P r
  landing : ∀ b r, m.bounce = some b → b.landing = some r → P r

namespace Notes

variable {P Q : MemberRef → Prop} {m : MethodNode}

theorem mono (hm : m.Notes P) (hPQ : ∀ r, P r → Q r) : m.Notes Q where
  overrides r hr := hPQ r (hm.overrides r hr)
  forwarders r hr := hPQ r (hm.forwarders r hr)
  parent r hr := hPQ r (hm.parent r hr)
  landing b r hb hr := hPQ r (hm.landing b r hb hr)

/-- Nothing has been noted of a method that has just been read. -/
theorem ofSummary (owner : String) (m : ClassFile.MethodSummary) :
    (MethodNode.ofSummary owner m).Notes P where
  overrides _ hr := absurd hr ExtTreeSet.not_mem_empty
  forwarders _ hr := absurd hr ExtTreeSet.not_mem_empty
  parent _ hr := nomatch hr
  landing b r hb hr := by
    obtain ⟨_, _, rfl⟩ := Option.map_eq_some_iff.mp hb
    cases hr

theorem of_mem_roots (hm : m.Notes P) (hr : P m.ref) {x : MemberRef} (hx : x ∈ m.roots) : P x := by
  rcases MethodNode.mem_roots hx with rfl | hx
  · exact hr
  · exact hm.overrides x hx

theorem addForwarder (hm : m.Notes P) {r : MemberRef} (hr : P r) : (m.addForwarder r).Notes P where
  overrides := hm.overrides
  forwarders x hx := by
    rcases ExtTreeSet.mem_insert.mp hx with hx | hx
    · exact Std.LawfulEqOrd.eq_of_compare hx ▸ hr
    · exact hm.forwarders x hx
  parent := hm.parent
  landing := hm.landing

theorem addOverrides (hm : m.Notes P) {roots : MemberSet} (hr : ∀ x ∈ roots, P x) :
    (m.addOverrides roots).Notes P where
  overrides x hx := (ExtTreeSet.mem_union_iff.mp hx).elim (hm.overrides x) (hr x)
  forwarders := hm.forwarders
  parent := hm.parent
  landing := hm.landing

theorem retarget (hm : m.Notes P) (target : MemberRef) : (m.retarget target).Notes P where
  overrides := hm.overrides
  forwarders := hm.forwarders
  parent := hm.parent
  landing b r hb hr := by
    obtain ⟨bounce, hbounce, rfl⟩ := Option.map_eq_some_iff.mp hb
    exact hm.landing bounce r hbounce hr

theorem land (hm : m.Notes P) {root : MemberRef} (hroot : P root) : (m.land root).Notes P where
  overrides := hm.overrides
  forwarders := hm.forwarders
  parent := hm.parent
  landing b r hb hr := by
    obtain ⟨_, _, rfl⟩ := Option.map_eq_some_iff.mp hb
    exact Option.some.inj hr ▸ hroot

theorem force (hm : m.Notes P) (name : String) : (m.force name).Notes P := by
  unfold MethodNode.force
  split
  · exact hm
  · exact ⟨hm.overrides, hm.forwarders, hm.parent, hm.landing⟩

theorem nameEnumMethod (hm : m.Notes P) (names : Names) (cls : String) :
    (Resolution.nameEnumMethod names cls m).Notes P := by
  unfold Resolution.nameEnumMethod
  split
  · split
    · exact ⟨hm.overrides, hm.forwarders, hm.parent, hm.landing⟩
    · exact hm
  · exact hm

end Notes

end MethodNode

namespace Hierarchy

/-- All references that have been noted about methods are in `P`. -/
def Notes (P : MemberRef → Prop) (h : Hierarchy) : Prop := ∀ r m, h.method? r = some m → m.Notes P

/-- `P` holds of the methods of all classes in `S`. -/
def Covers (S : String → Prop) (P : MemberRef → Prop) (h : Hierarchy) : Prop :=
  ∀ r m, h.method? r = some m → S r.owner → P m.ref

/-- The class and all that is above it. -/
def Above (h : Hierarchy) (cls : String) : String → Prop :=
  ReflTransGen h.supertypeGraph.Edge cls

variable {S : String → Prop} {P : MemberRef → Prop} {h h' : Hierarchy} {cls : String}

namespace Notes

theorem modifyMethod (hn : h.Notes P) (r : MemberRef) {f : MethodNode → MethodNode}
    (hf : ∀ m : MethodNode, m.Notes P → (f m).Notes P) : (h.modifyMethod r f).Notes P := by
  intro q m hm
  obtain ⟨n, hnode, ⟨_, rfl⟩ | ⟨_, rfl⟩⟩ := exists_of_modifyMethod hm
  · exact hf n (hn q n hnode)
  · exact hn q m hnode

theorem modifyClass (hn : h.Notes P) (name : String) {f : ClassNode → ClassNode}
    (hf : ∀ c key m, (f c).method? key = some m →
      ∃ n, c.method? key = some n ∧ (n.Notes P → m.Notes P)) :
    (h.modifyClass name f).Notes P := by
  intro r m hm
  obtain ⟨c, hc, hcm⟩ := method?_eq_some.mp hm
  obtain ⟨d, hd, ⟨_, rfl⟩ | ⟨_, rfl⟩⟩ := exists_of_modifyClass hc
  · obtain ⟨n, hdn, hnm⟩ := hf d r.key m hcm
    exact hnm (hn r n (method?_eq_some.mpr ⟨d, hd, hdn⟩))
  · exact hn r m (method?_eq_some.mpr ⟨c, hd, hcm⟩)

end Notes

namespace Covers

theorem of_alike (hc : Covers S P h) (ha : Alike h h') : Covers S P h' := by
  intro r m hm hS
  obtain ⟨n, hn, hb⟩ := ha.symm.exists_method hm
  rw [MethodNode.ref_eq hb]
  exact hc r n hn hS

theorem of_mem_class (hc : Covers S P h) (hk : Keyed h) {name key : String} {c : ClassNode}
    {m : MethodNode} (hS : S name) (hname : h.class? name = some c) (hm : c.method? key = some m) :
    P m.ref := by
  obtain ⟨howner, _, href⟩ := hk.of_mem_class hname hm
  exact hc m.ref m href (show S m.owner by rwa [howner])

theorem of_mem_declarationsAbove (hc : Covers (h.Above cls) P h) (hk : Keyed h) {r : MemberRef}
    {d : MethodNode} (hd : d ∈ h.declarationsAbove r cls) : P d.ref ∧ h.method? d.ref = some d := by
  obtain ⟨v, hv, hmet⟩ := mem_declarationsAbove.mp hd
  obtain ⟨href, howner, _⟩ := hk.of_met hmet
  have habove : h.Above cls d.owner := by
    rw [howner]
    exact reaches_cls hv
  exact ⟨hc d.ref d href habove, href⟩

theorem of_mem_overrideRoots (hc : Covers (h.Above cls) P h) (hk : Keyed h) (hn : h.Notes P)
    {r x : MemberRef} (hx : x ∈ h.overrideRoots r cls) : P x := by
  obtain ⟨d, hd, hx⟩ := mem_overrideRoots_iff.mp hx
  obtain ⟨hP, href⟩ := hc.of_mem_declarationsAbove hk hd
  exact (hn d.ref d href).of_mem_roots hP hx

theorem of_nearestParent? (hc : Covers (h.Above cls) P h) (hk : Keyed h) {r p : MemberRef}
    (hp : h.nearestParent? r cls = some p) : P p := by
  obtain ⟨d, hd, rfl⟩ := Option.map_eq_some_iff.mp hp
  exact (hc.of_mem_declarationsAbove hk (List.mem_of_find?_eq_some hd)).1

end Covers

theorem above_eq (ha : Alike h h') (cls : String) : h'.Above cls = h.Above cls := by
  rw [Above, Above, ha.supertypeGraph]

end Hierarchy

namespace ClassPath

/-- The reference is borne by the method that it leads to, in a class that has
been asked for. -/
def Present (p : ClassPath) (r : MemberRef) : Prop :=
  ∃ c m, p.peek? r.owner = some c ∧ c.method? r.key = some m ∧ m.ref = r

theorem present_iff {p : ClassPath} {r : MemberRef} :
    p.Present r ↔ r.owner ∈ p.asked ∧ ∃ m, p.hierarchy.method? r = some m ∧ m.ref = r := by
  constructor
  · rintro ⟨c, m, hc, hm, hr⟩
    unfold peek? at hc
    split at hc
    · next ha => exact ⟨ha, m, Hierarchy.method?_eq_some.mpr ⟨c, hc, hm⟩, hr⟩
    · cases hc
  · rintro ⟨ha, m, hm, hr⟩
    obtain ⟨c, hc, hcm⟩ := Hierarchy.method?_eq_some.mp hm
    exact ⟨c, m, by rw [peek?, if_pos ha, hc], hcm, hr⟩

end ClassPath

namespace Resolution

open ClassPath (present_iff)
open Hierarchy (Alike Covers Keyed Notes)

variable {P : MemberRef → Prop} {h : Hierarchy} {cls : String}

/-! ## Passes -/

theorem notes_linkBouncers (hk : Keyed h) (hc : Covers (· = cls) P h) (hn : h.Notes P) :
    (linkBouncers h cls).Notes P := by
  unfold linkBouncers
  refine List.foldlRecOn (motive := Notes P) _ _ hn fun g hg b hb => ?_
  obtain ⟨howner, m, _, hm, href, _⟩ := (mem_bouncesOf hk).mp hb
  have hP := hc b.1 m hm howner
  rw [href] at hP
  exact hg.modifyMethod b.2 fun _ hm => hm.addForwarder hP

theorem notes_nameEnums (hn : h.Notes P) (names : Names) (cls : String) :
    (nameEnums names cls h).Notes P := by
  refine hn.modifyClass cls fun c key m hm => ?_
  unfold nameEnum at hm
  split at hm
  · simp only [ClassNode.method?, ExtTreeMap.getElem?_map, Option.map_eq_some_iff] at hm
    obtain ⟨n, hn, rfl⟩ := hm
    exact ⟨n, hn, fun hnotes => hnotes.nameEnumMethod names c.name⟩
  · exact ⟨m, hm, id⟩

theorem notes_retarget (hn : h.Notes P) (cls : String) (bouncer target : MemberRef) :
    (retarget cls h bouncer target).Notes P := by
  unfold retarget
  split
  · exact hn
  · split
    · exact hn.modifyMethod bouncer fun _ hm => hm.retarget _
    · exact hn

/-- A walk finds no roots but references of methods above, and what has been
noted of those. -/
theorem stable_notes (hk : Keyed h) (hc : Covers (h.Above cls) P h) :
    Walk.Stable (fun w => Alike h w.hierarchy ∧ w.hierarchy.Notes P) (h.Above cls) P where
  seen _ _ hw := hw
  ambiguous _ _ _ _ hw := hw
  unwalkable _ _ _ hw := hw
  land w bouncer root hroot hw := by
    refine ⟨hw.1.trans ?_, hw.2.modifyMethod bouncer fun _ hm => hm.land hroot⟩
    exact (Hierarchy.sameBut_modifyMethod w.hierarchy bouncer fun m =>
      sansBounce_land m root).alike_of bare_sansBounce
  landing w via m b root hw hm hb hr := (hw.2 via m hm).landing b root hb hr
  declared w c node key d hw habove hclass hd :=
    (hc.of_alike hw.1).of_mem_class (hk.of_alike hw.1) habove hclass hd
  roots w r c hw habove root hr := by
    have hcovers : Covers (w.hierarchy.Above c) P w.hierarchy := by
      intro q m hm hq
      rw [Hierarchy.above_eq hw.1] at hq
      exact hc.of_alike hw.1 q m hm (habove.trans hq)
    exact hcovers.of_mem_overrideRoots (hk.of_alike hw.1) hw.2 hr
  supertypes w c node hw habove hclass s hs := by
    refine habove.tail ?_
    rw [hw.1.supertypeGraph]
    exact ⟨_, congrArg (Option.map ClassNode.supertypes) hclass, hs⟩

theorem notes_resolveBounces (hk : Keyed h) (hc : Covers (h.Above cls) P h) (hn : h.Notes P) :
    (resolveBounces cls h).1.Notes P := by
  unfold resolveBounces
  refine (List.foldlRecOn (motive := fun s : Hierarchy × List Finding =>
    Alike h s.1 ∧ s.1.Notes P) _ _ ⟨.refl h, hn⟩ fun s hs b _ => ?_).2
  have hretarget : Alike h (retarget cls s.1 b.1 b.2) :=
    hs.1.trans ((sameBut_retarget s.1 cls b.1 b.2).alike_of bare_sansBounce)
  obtain ⟨w, hw, heq⟩ := (stable_notes hk hc).exists_landBouncer (retarget cls s.1 b.1 b.2) cls
    b.1 .refl ⟨hretarget, notes_retarget hs.2 cls b.1 b.2⟩
  unfold resolveBouncer
  rw [heq]
  exact hw

theorem notes_linkMethods (hk : Keyed h) (hc : Covers (h.Above cls) P h) (hn : h.Notes P) :
    (linkMethods cls h).Notes P := by
  unfold linkMethods
  refine (List.foldlRecOn (motive := fun g => Alike h g ∧ g.Notes P) _ _ ⟨.refl h, hn⟩
    fun g hg r _ => ⟨hg.1.trans (alike_linkMethod cls g r), ?_⟩).2
  have hk' := hk.of_alike hg.1
  have hc' : Covers (g.Above cls) P g := Hierarchy.above_eq hg.1 cls ▸ hc.of_alike hg.1
  exact hg.2.modifyMethod r fun m hm =>
    { overrides := fun x hx => hc'.of_mem_overrideRoots hk' hg.2 hx
      forwarders := hm.forwarders
      parent := fun p hp => hc'.of_nearestParent? hk' hp
      landing := hm.landing }

theorem notes_bindContracts (hk : Keyed h) (hc : Covers (h.Above cls) P h) (hn : h.Notes P) :
    (bindContracts cls h).1.Notes P := by
  unfold bindContracts
  refine List.foldlRecOn (motive := fun s : Hierarchy × List Finding => s.1.Notes P) _ _ hn
    fun s hs contract hcontract => ?_
  have hroots : ∀ x ∈ contract.2, P x := by
    intro x hx
    obtain ⟨k, ⟨c, hmem, hkc, _⟩, _, rfl⟩ := mem_contracts.mp ⟨contract, hcontract, rfl, hx⟩
    obtain ⟨name, hname, hclass⟩ := List.mem_filterMap.mp hmem
    obtain ⟨key, hkey⟩ := mem_values_iff.mp hkc
    exact hc.of_mem_class hk (Hierarchy.mem_ancestors.mp hname).1 hclass hkey
  unfold bindContract
  split
  · exact Notes.modifyMethod hs _ fun _ hm => hm.addOverrides hroots
  · exact hs

theorem notes_settle (names : Names) (hk : Keyed h) (hc : Covers (h.Above cls) P h)
    (hn : h.Notes P) : (settle names cls h).1.Notes P := by
  cases hclass : h.class? cls with
  | none =>
    rw [settle_of_none hclass]
    exact hn
  | some c =>
    have hlater : ∀ {g : Hierarchy}, Alike h g → Covers (g.Above cls) P g := fun ha =>
      Hierarchy.above_eq ha cls ▸ hc.of_alike ha
    have hnamed := alike_nameEnums names cls h
    have hbounced := hnamed.trans (alike_resolveBounces cls _)
    have hlinked := alike_linkedAt names cls h
    have hnotes : (linkedAt names cls h).Notes P :=
      notes_linkMethods (hk.of_alike hbounced) (hlater hbounced)
        (notes_resolveBounces (hk.of_alike hnamed) (hlater hnamed) (notes_nameEnums hn names cls))
    have hbound : (boundAt names cls c.isAbstract h).Notes P := by
      unfold boundAt
      split
      · exact hnotes
      · exact notes_bindContracts (hk.of_alike hlinked) (hlater hlinked) hnotes
    rw [settle_fst hclass]
    exact (hbound.modifyClass cls (f := nameAccessors) fun _ _ m hm => ⟨m, hm, id⟩).modifyClass
      cls fun _ _ m hm => ⟨m, hm, id⟩

theorem notes_unifyInterface (isPrimary : String → Bool) (loaded : List String) (hk : Keyed h)
    (hc : Covers (· = cls) P h) (hn : h.Notes P) :
    (unifyInterface isPrimary loaded cls h).Notes P := by
  refine unifyInterface_induction hn (fun g _ c m i hg _ hclass hm _ _ => ?_)
    fun g _ _ i o hg _ _ _ => ?_
  · obtain ⟨key, hkey⟩ := mem_values_iff.mp (List.mem_filter.mp hm).1
    have hroot : ∀ x ∈ ({m.ref} : MemberSet), P x := by
      simpa using hc.of_mem_class hk rfl hclass hkey
    exact hg.modifyMethod i.ref fun _ hi => hi.addOverrides hroot
  · exact hg.modifyMethod i.ref fun _ hm => hm.force o.name

/-! ## Operations -/

/-- What has been noted of methods leads to methods. -/
structure Sound (p : ClassPath) : Prop where
  keyed : Keyed p.hierarchy
  notes : p.hierarchy.Notes p.Present

/-- A change by hand that leaves methods alone. -/
def Operation.KeepsMethods : Operation → Prop
  | .edit _ f _ => ∀ c, (f c).name = c.name ∧ (f c).methods = c.methods
  | _ => True

namespace Sound

variable {p q : ClassPath} {r : Resolution}

theorem covers (hp : Sound p) {S : String → Prop} (hS : ∀ name, S name → name ∈ p.asked) :
    Covers S p.Present p.hierarchy := by
  intro r m hm hr
  obtain ⟨howner, _⟩ := hp.keyed.slot_eq hm
  refine present_iff.mpr ⟨?_, m, hp.keyed.method?_ref hm, rfl⟩
  show m.owner ∈ p.asked
  rw [howner]
  exact hS _ hr

/-- A class path that is like one before, and where no more has been noted than
what led to methods there. -/
theorem of_alike (hp : Sound p) (ha : Alike p.hierarchy q.hierarchy)
    (hasked : ∀ name ∈ p.asked, name ∈ q.asked) (hn : q.hierarchy.Notes p.Present) : Sound q where
  keyed := hp.keyed.of_alike ha
  notes r m hm := by
    refine (hn r m hm).mono fun x hx => ?_
    obtain ⟨howner, n, hn, href⟩ := present_iff.mp hx
    obtain ⟨n', hn', hb⟩ := ha.exists_method hn
    exact present_iff.mpr ⟨hasked _ howner, n', hn', by rw [← MethodNode.ref_eq hb, href]⟩

protected theorem ask (hp : Sound p) (names : List String) : Sound (p.ask names) :=
  hp.of_alike (.refl _) (fun _ ha => ClassPath.mem_asked_ask.mpr (Or.inl ha)) hp.notes

/-- A class that comes late has nothing noted of it, and nothing has been noted
that leads to it. -/
protected theorem add (hp : Sound p) (name : String) (bytes : Bytes) (isPrimary : Bool) :
    Sound (p.add name bytes isPrimary) := by
  have hold : ∀ r, ¬ (name = r.owner ∧ name ∉ p.asked) →
      (p.add name bytes isPrimary).hierarchy.method? r = p.hierarchy.method? r := by
    intro r hr
    rw [Hierarchy.method?, Hierarchy.method?, ClassPath.class?_add, if_neg hr]
  have hnew : ∀ r m, name = r.owner ∧ name ∉ p.asked →
      (p.add name bytes isPrimary).hierarchy.method? r = some m →
      m.Notes (p.add name bytes isPrimary).Present := by
    intro r m hr hm
    obtain ⟨c, hc, hcm⟩ := Hierarchy.method?_eq_some.mp hm
    rw [ClassPath.class?_add, if_pos hr] at hc
    obtain ⟨s, _, _, rfl⟩ := ClassNode.ofBytes?_eq_some hc
    obtain ⟨_, declared, _, rfl⟩ := ClassNode.method?_ofSummary hcm
    exact .ofSummary _ _
  have hpresent : ∀ x, p.Present x → (p.add name bytes isPrimary).Present x := by
    intro x hx
    obtain ⟨howner, m, hm, href⟩ := present_iff.mp hx
    refine present_iff.mpr ⟨howner, m, ?_, href⟩
    rw [hold x fun hn => hn.2 (hn.1 ▸ howner)]
    exact hm
  refine ⟨ClassPath.keyed_add hp.keyed name bytes isPrimary, fun r m hm => ?_⟩
  by_cases hn : name = r.owner ∧ name ∉ p.asked
  · exact hnew r m hn hm
  · exact (hp.notes r m (hold r hn ▸ hm)).mono hpresent

protected theorem serve (hp : Sound p) (q : ClassPath.Request) : Sound (p.serve q) := by
  cases q with
  | register entries isPrimary =>
    exact ClassPath.register_induction entries isPrimary hp
      fun q name bytes hq _ => hq.add name bytes isPrimary
  | ask names => exact hp.ask names

protected theorem update (hp : Sound p) (name : String) {f : ClassNode → ClassNode}
    (hf : ∀ c, (f c).name = c.name ∧ (f c).methods = c.methods) : Sound (p.update name f) := by
  have hmethod : ∀ r, (p.update name f).hierarchy.method? r = p.hierarchy.method? r :=
    Hierarchy.method?_modifyClass_of_methods p.hierarchy name fun c => (hf c).2
  have hpresent : ∀ x, p.Present x → (p.update name f).Present x := by
    intro x hx
    obtain ⟨howner, m, hm, href⟩ := present_iff.mp hx
    exact present_iff.mpr
      ⟨ClassPath.mem_asked_ask.mpr (Or.inl howner), m, (hmethod x).trans hm, href⟩
  exact ⟨hp.keyed.modifyClass name hf,
    fun r m hm => (hp.notes r m (hmethod r ▸ hm)).mono hpresent⟩

protected theorem resolve (hr : Sound r.path) (names : Names) (cls : String) :
    Sound (r.resolve names cls).path := by
  have hask := hr.ask (r.path.hierarchy.lineage cls)
  refine hask.of_alike (alike_resolve names r cls) (fun name hname => ?_) ?_
  · rw [AtRest.mem_asked_resolve]
    rcases ClassPath.mem_asked_ask.mp hname with hname | hname
    · exact Or.inl hname
    · exact Or.inr (Graph.mem_breadthFirst_iff.mp hname)
  · unfold resolve
    dsimp only
    refine (List.foldlRecOn (b := { r with path := r.path.ask (r.path.hierarchy.lineage cls) })
      (motive := fun s => Alike r.path.hierarchy s.path.hierarchy ∧
        s.path.hierarchy.Notes (r.path.ask (r.path.hierarchy.lineage cls)).Present) _ _
      ⟨.refl _, hask.notes⟩ fun s hs e he => ⟨hs.1.trans (alike_handle names s e), ?_⟩).2
    cases e with
    | cycle a => exact hs.2
    | closed a =>
      have hreach := ReflTransGen.mono (fun _ _ => edge_of_unresolved) _ _
        (Graph.reaches_of_closed_mem he).1
      have hcovers := hask.covers (S := r.path.hierarchy.Above a) fun name hname =>
        ClassPath.mem_asked_ask.mpr (Or.inr (Graph.mem_breadthFirst_iff.mpr (hreach.trans hname)))
      refine notes_settle names (hr.keyed.of_alike hs.1) ?_ hs.2
      rw [Hierarchy.above_eq hs.1]
      exact hcovers.of_alike hs.1

protected theorem link (hr : Sound r.path) (classes : List String) :
    Sound (r.link classes).path := by
  have hask := hr.ask (classes ++
    (classes.flatMap (bouncesOf r.path.hierarchy)).map fun b => b.2.owner)
  refine hask.of_alike (alike_link r classes) (fun _ hname => hname) ?_
  refine (List.foldlRecOn (motive := fun g => Alike r.path.hierarchy g ∧ g.Notes _) _ _
    ⟨.refl _, hask.notes⟩ fun g hg cls hcls => ⟨hg.1.trans ?_, ?_⟩).2
  · exact (sameBut_linkBouncers g cls).alike_of fun _ => rfl
  · have hcovers := hask.covers (S := (· = cls)) fun name hname =>
      ClassPath.mem_asked_ask.mpr (Or.inr (List.mem_append_left _ (hname ▸ hcls)))
    exact notes_linkBouncers (hr.keyed.of_alike hg.1) (hcovers.of_alike hg.1) hg.2

protected theorem unify (hr : Sound r.path) (cls : String) : Sound (r.unify cls).path := by
  have hask := hr.ask [cls]
  have hcovers := hask.covers (S := (· = cls)) fun name hname =>
    ClassPath.mem_asked_ask.mpr (Or.inr (List.mem_singleton.mpr hname))
  refine hask.of_alike (alike_unify r cls) (fun name hname => ?_) ?_
  · unfold unify
    dsimp only
    split
    · exact ClassPath.mem_asked_ask.mpr (Or.inl hname)
    · exact hname
  · rw [hierarchy_unify]
    exact notes_unifyInterface _ _ hr.keyed hcovers hask.notes

protected theorem resolveArchive (hr : Sound r.path) (names : Names) (classes : List String) :
    Sound (r.resolveArchive names classes).path := by
  have hresolved : Sound (classes.foldl (resolve names) (r.link classes)).path :=
    List.foldlRecOn (motive := fun s : Resolution => Sound s.path) _ _ (hr.link classes)
      fun _ hs cls _ => hs.resolve names cls
  exact List.foldlRecOn (motive := fun s : Resolution => Sound s.path) _ _ hresolved
    fun _ hs cls _ => hs.unify cls

protected theorem perform (hr : Sound r.path) (names : Names) {operation : Operation}
    (ho : operation.KeepsMethods) : Sound (r.perform names operation).path := by
  cases operation with
  | request q => exact hr.serve q
  | edit name f keeps => exact hr.update name ho
  | resolve cls => exact hr.resolve names cls
  | resolveArchive classes => exact hr.resolveArchive names classes

end Sound

/-- Whatever has been done, every root, forwarder and parent of a method and
every landing of a bouncer leads to the method that bears it, in a class that has
been asked for. -/
theorem notes_present (names : Names) (sources : List ClassTable) (operations : List Operation)
    (ho : ∀ operation ∈ operations, operation.KeepsMethods) :
    let path := (afterOperations names sources operations).path
    ∀ r m, path.hierarchy.method? r = some m → m.Notes path.Present := by
  have hread := ClassPath.asRead_ofSources sources
  have hstart : Sound (start (.ofSources sources)).path := by
    refine { keyed := hread.keyed, notes := fun r m hm => ?_ }
    obtain ⟨c, hc, hcm⟩ := Hierarchy.method?_eq_some.mp hm
    obtain ⟨bytes, isLocal, hb⟩ := hread _ _ hc
    obtain ⟨s, _, _, rfl⟩ := ClassNode.ofBytes?_eq_some hb
    obtain ⟨_, declared, _, rfl⟩ := ClassNode.method?_ofSummary hcm
    exact .ofSummary _ _
  exact (List.foldlRecOn (motive := fun r : Resolution => Sound r.path) _ _ hstart
    fun _ hr operation hmem => hr.perform names (ho operation hmem)).notes

namespace Sample

/-- Classes are loaded and resolved, one of them first, and then a flag is set by
hand. -/
def operations : List Operation :=
  [.request (.register narrowed true), .resolve "Base", .resolveArchive ["Base", "Child"],
    .edit "Base" (fun c => { c with isRecord := true }) fun _ => ⟨rfl, rfl⟩]

set_option maxRecDepth 10000 in
theorem noted_operations :
    ((afterOperations .asWritten [] operations).path.hierarchy.method? narrow).map
        (fun m => (m.overrides.toList, m.forwarders.toList, m.parent)) =
      some ([wide], [bridging], some wide) := by
  simp only [afterOperations, operations, perform, resolveArchive, link, List.foldl_cons,
    List.foldl_nil, resolve_eq_resolving, unify_eq_unifying]
  decide +kernel

/-- After these operations a root, a forwarder and a parent have been noted of the
child's method, and all of them lead to methods. -/
theorem notes_present_operations : (∀ operation ∈ operations, operation.KeepsMethods) ∧
    let path := (afterOperations .asWritten [] operations).path
    ∃ m, path.hierarchy.method? narrow = some m ∧ wide ∈ m.overrides ∧ bridging ∈ m.forwarders ∧
      m.parent = some wide ∧ path.Present wide ∧ path.Present bridging := by
  have hkeep : ∀ operation ∈ operations, operation.KeepsMethods := by
    simp [operations, Operation.KeepsMethods]
  refine ⟨hkeep, ?_⟩
  intro path
  obtain ⟨m, hm, hnoted⟩ := Option.map_eq_some_iff.mp noted_operations
  obtain ⟨hoverrides, hnoted⟩ := Prod.mk.inj hnoted
  obtain ⟨hforwarders, hparent⟩ := Prod.mk.inj hnoted
  have hforwarder : bridging ∈ m.forwarders := by
    rw [← ExtTreeSet.mem_toList, hforwarders]
    exact List.mem_cons_self
  have hroot : wide ∈ m.overrides := by
    rw [← ExtTreeSet.mem_toList, hoverrides]
    exact List.mem_cons_self
  have hnotes := notes_present .asWritten [] operations hkeep narrow m hm
  exact ⟨m, hm, hroot, hforwarder, hparent, hnotes.parent wide hparent,
    hnotes.forwarders bridging hforwarder⟩

end Sample

end Resolution
end Lineage
