import Mathlib.Data.List.Find
import Lineage.Proofs.Graph.Evaluation
import Lineage.Proofs.Resolution.Bridges

/-!
The two ends of a bouncer.

A bouncer names the method that it forwards to, and that method knows the
bouncer.  The back end is set once, before anything is resolved, at the method
that the class file names.  The front end is moved later on, when the class of
the bouncer is settled: from the class that the instruction names to the one
above it that declares the method.  Moving it again changes nothing, so it does
not matter how often a class is settled.  The back end stays behind, so the two
ends meet just where there is nothing to be moved.
-/

namespace Lineage

open Std (ExtTreeMap ExtTreeSet)
open Relation (ReflTransGen TransGen)

namespace MethodNode

/-- What a bouncer points to. -/
def aim? (m : MethodNode) : Option MemberRef := m.bounce.map Bounce.target

theorem aim?_land (m : MethodNode) (root : MemberRef) : (m.land root).aim? = m.aim? := by
  rw [aim?, land, Option.map_map]
  rfl

theorem aim?_retarget (m : MethodNode) (target : MemberRef) :
    (m.retarget target).aim? = m.aim?.map fun _ => target := by
  rw [aim?, aim?, retarget, Option.map_map, Option.map_map]
  rfl

end MethodNode

namespace Hierarchy

variable {h h' : Hierarchy}

/-- What the bouncer at `r` points to. -/
def aim? (h : Hierarchy) (r : MemberRef) : Option MemberRef :=
  (h.method? r).bind MethodNode.aim?

theorem aim?_eq_some {r t : MemberRef} :
    h.aim? r = some t ↔ ∃ m, h.method? r = some m ∧ m.aim? = some t :=
  Option.bind_eq_some_iff

/-- Where a view keeps what bouncers point to, they point to it still. -/
theorem aim?_eq_of_map {r : MemberRef}
    (hr : (h.method? r).map MethodNode.aim? = (h'.method? r).map MethodNode.aim?) :
    h.aim? r = h'.aim? r := by
  have hjoin := congrArg (fun o => o.bind id) hr
  rw [Option.bind_map, Option.bind_map] at hjoin
  exact hjoin

/-! ## Declarations -/

theorem Alike.declaration? (hh : Alike h h') : h.declaration? = h'.declaration? := by
  funext r
  rw [Hierarchy.declaration?, Hierarchy.declaration?, hh.supertypeGraph]
  exact List.find?_congr fun q _ => hh.isSome_method? q

/-- A method that is declared where it is looked for is found there. -/
theorem declaration?_of_isSome {r : MemberRef} (hr : (h.method? r).isSome) :
    h.declaration? r = some r := by
  have hfirst : ∃ l, h.supertypeGraph.depthFirst r.owner = r.owner :: l := by
    unfold Graph.depthFirst
    cases hn : h.supertypeGraph.next r.owner with
    | none => exact ⟨_, Graph.visit_cons_of_none List.not_mem_nil hn⟩
    | some l => exact ⟨_, Graph.visit_cons_of_some List.not_mem_nil hn⟩
  obtain ⟨l, hl⟩ := hfirst
  rw [declaration?, hl, List.map_cons]
  exact List.find?_cons_of_pos hr

theorem exists_of_declaration? {r d : MemberRef} (hd : h.declaration? r = some d) :
    (h.method? d).isSome ∧ ReflTransGen h.supertypeGraph.Edge r.owner d.owner := by
  obtain ⟨a, ha, rfl⟩ := List.mem_map.mp (List.mem_of_find?_eq_some hd)
  refine ⟨?_, Graph.mem_depthFirst_iff.mp ha⟩
  unfold declaration? at hd
  exact List.find?_some (p := fun q => (h.method? q).isSome) hd

end Hierarchy

namespace Resolution

open Hierarchy (Alike Keyed SameBut)

/-! ## Where a bouncer is pointed to -/

/-- Where a bouncer of a class comes to point when it first points to `target`. -/
def destination (h : Hierarchy) (cls : String) (target : MemberRef) : MemberRef :=
  if target.owner = cls then target else (h.declaration? target).getD target

section Destination

variable {h h' : Hierarchy} {cls : String} {t : MemberRef}

theorem destination_eq (ha : Alike h h') : destination h = destination h' := by
  funext cls t
  rw [destination, destination, ha.declaration?]

theorem destination_of_isSome (ht : (h.method? t).isSome) : destination h cls t = t := by
  rw [destination, Hierarchy.declaration?_of_isSome ht, Option.getD_some, ite_self]

theorem destination_destination :
    destination h cls (destination h cls t) = destination h cls t := by
  by_cases ho : t.owner = cls
  · rw [destination, destination, if_pos ho, if_pos ho]
  · cases hd : h.declaration? t with
    | none => rw [destination, destination, if_neg ho, hd, Option.getD_none, if_neg ho, hd]; rfl
    | some d =>
      have hself : destination h cls t = d := by rw [destination, if_neg ho, hd, Option.getD_some]
      rw [hself, destination_of_isSome (Hierarchy.exists_of_declaration? hd).1]

/-- It points to the class of the bouncer, or to one above the class that is
named. -/
theorem reaches_destination :
    ReflTransGen h.supertypeGraph.Edge t.owner (destination h cls t).owner := by
  unfold destination
  split
  · exact .refl
  · cases hd : h.declaration? t with
    | none => exact .refl
    | some d => exact (Hierarchy.exists_of_declaration? hd).2

end Destination

/-! ## Moving the front end -/

section Retarget

variable {g : Hierarchy} {cls : String} {b t q : MemberRef}

theorem aim?_retarget_of_ne (hslot : ¬ (b.owner = q.owner ∧ b.key = q.key)) :
    (retarget cls g b t).aim? q = g.aim? q := by
  unfold retarget
  split
  · rfl
  · split
    · rw [Hierarchy.aim?, Hierarchy.method?_modifyMethod, if_neg hslot]
      rfl
    · rfl

/-- A bouncer that points where it is to be moved from, or has been moved
already, points where it is to go. -/
theorem aim?_retarget (hslot : b.owner = q.owner ∧ b.key = q.key)
    (hq : g.aim? q = some t ∨ g.aim? q = some (destination g cls t)) :
    (retarget cls g b t).aim? q = some (destination g cls t) := by
  unfold retarget
  unfold destination at hq ⊢
  by_cases ho : t.owner = cls
  · rw [if_pos ho] at hq ⊢
    rw [if_pos ho]
    exact hq.elim id id
  · rw [if_neg ho] at hq ⊢
    rw [if_neg ho]
    cases hd : g.declaration? t with
    | none =>
      rw [hd] at hq
      exact hq.elim id id
    | some d =>
      obtain ⟨s, hs⟩ : ∃ s, g.aim? q = some s := hq.elim (⟨_, ·⟩) (⟨_, ·⟩)
      obtain ⟨m, hm, hms⟩ := Hierarchy.aim?_eq_some.mp hs
      refine Hierarchy.aim?_eq_some.mpr ⟨m.retarget d, ?_, ?_⟩
      · show (g.modifyMethod b (·.retarget d)).method? q = _
        rw [Hierarchy.method?_modifyMethod, if_pos hslot, hm]
        rfl
      · rw [MethodNode.aim?_retarget, hms]
        rfl

end Retarget

theorem aim?_landBouncer (cls : String) (bouncer : MemberRef) (g : Hierarchy) (q : MemberRef) :
    (landBouncer cls bouncer g).1.aim? q = g.aim? q :=
  (Hierarchy.aim?_eq_of_map
    ((sameBut_landBouncer_of MethodNode.aim?_land g cls bouncer).method? q)).symm

/-! ## Settling a class -/

section Settle

variable {h : Hierarchy} {cls : String} {q t : MemberRef}

theorem aim?_resolveBounces_of_ne (hk : Keyed h) (hq : q.owner ≠ cls) :
    (resolveBounces cls h).1.aim? q = h.aim? q := by
  unfold resolveBounces
  refine List.foldlRecOn (motive := fun s : Hierarchy × List Finding => s.1.aim? q = h.aim? q)
    _ _ rfl fun s hs b hb => ?_
  obtain ⟨ho, _⟩ := (mem_bouncesOf hk).mp hb
  rw [resolveBouncer, aim?_landBouncer,
    aim?_retarget_of_ne fun hslot => hq (hslot.1.symm.trans ho), hs]

theorem aim?_resolveBounces (hk : Keyed h) (hq : q.owner = cls) (ht : h.aim? q = some t) :
    (resolveBounces cls h).1.aim? q = some (destination h cls t) := by
  obtain ⟨m, hm, hmt⟩ := Hierarchy.aim?_eq_some.mp ht
  obtain ⟨bounce, hbounce, htarget⟩ := Option.map_eq_some_iff.mp hmt
  obtain ⟨hmo, hmk⟩ := hk.slot_eq hm
  have hlisted : (m.ref, t) ∈ bouncesOf h cls :=
    (mem_bouncesOf hk).mpr ⟨hmo.trans hq, m, bounce, hk.method?_ref hm, rfl, hbounce, htarget⟩
  -- A bouncer that is found where `q` leads to is the one there, and points to `t`.
  have hstep : ∀ s : Hierarchy × List Finding, ∀ b ∈ bouncesOf h cls, Alike h s.1 →
      (s.1.aim? q = some t ∨ s.1.aim? q = some (destination h cls t)) →
      ((b.1.owner = q.owner ∧ b.1.key = q.key) →
        (resolveBouncer cls s b).1.aim? q = some (destination h cls t)) ∧
      (¬ (b.1.owner = q.owner ∧ b.1.key = q.key) →
        (resolveBouncer cls s b).1.aim? q = s.1.aim? q) := by
    intro s b hb ha hs
    rw [resolveBouncer, aim?_landBouncer]
    refine ⟨fun hslot => ?_, aim?_retarget_of_ne⟩
    obtain ⟨_, n, bounce', hn, _, hbounce', hb'⟩ := (mem_bouncesOf hk).mp hb
    rw [h.method?_congr hslot.1 hslot.2, hm] at hn
    cases hn
    have htarget' : b.2 = t := by
      rw [← hb', ← htarget, Option.some.inj (hbounce'.symm.trans hbounce)]
    rw [htarget', destination_eq ha]
    exact aim?_retarget hslot (destination_eq ha ▸ hs)
  unfold resolveBounces
  refine foldl_of_mem (P := fun s : Hierarchy × List Finding => Alike h s.1 ∧
      (s.1.aim? q = some t ∨ s.1.aim? q = some (destination h cls t)))
    (Q := fun s : Hierarchy × List Finding => s.1.aim? q = some (destination h cls t)) hlisted
    ⟨.refl h, Or.inl ht⟩ (fun s hs b hb => ⟨?_, ?_⟩) (fun s hs => ?_) fun s hs hend b hb => ?_
  · exact hs.1.trans (((sameBut_retarget s.1 cls b.1 b.2).trans
      (sameBut_landBouncer _ cls b.1)).alike_of bare_sansBounce)
  · by_cases hslot : b.1.owner = q.owner ∧ b.1.key = q.key
    · exact Or.inr ((hstep s b hb hs.1 hs.2).1 hslot)
    · rw [(hstep s b hb hs.1 hs.2).2 hslot]
      exact hs.2
  · exact (hstep s _ hlisted hs.1 hs.2).1 ⟨hmo, hmk⟩
  · by_cases hslot : b.1.owner = q.owner ∧ b.1.key = q.key
    · exact (hstep s b hb hs.1 hs.2).1 hslot
    · rw [(hstep s b hb hs.1 hs.2).2 hslot]
      exact hend

theorem aim?_nameEnums (names : Names) (cls : String) (h : Hierarchy) (q : MemberRef) :
    (nameEnums names cls h).aim? q = h.aim? q := by
  refine Hierarchy.aim?_eq_of_map (map_method?_nameEnums names cls h (fun cls m => ?_) q)
  unfold nameEnumMethod
  split
  · split <;> rfl
  · rfl

/-- What comes after the bouncers have been dealt with leaves them alone. -/
theorem aim?_settle_of_some (names : Names) {c : ClassNode} (hc : h.class? cls = some c)
    (q : MemberRef) : (settle names cls h).1.aim? q = (bouncedAt names cls h).aim? q := by
  have hlinked : (linkedAt names cls h).aim? q = (bouncedAt names cls h).aim? q :=
    (Hierarchy.aim?_eq_of_map
      (((sameBut_linkMethods cls (bouncedAt names cls h)).map MethodNode.aim?).method? q)).symm
  have hbound : (boundAt names cls c.isAbstract h).aim? q = (linkedAt names cls h).aim? q := by
    unfold boundAt
    split
    · rfl
    · exact (Hierarchy.aim?_eq_of_map
        (((sameBut_bindContracts cls (linkedAt names cls h)).map MethodNode.aim?).method? q)).symm
  rw [settle_fst hc, Hierarchy.aim?,
    Hierarchy.method?_modifyClass_of_methods _ _ (f := markResolved) fun _ => rfl,
    Hierarchy.method?_modifyClass_of_methods _ _ (f := nameAccessors) fun _ => rfl]
  exact hbound.trans hlinked

theorem aim?_settle (hk : Keyed h) (names : Names) (cls : String) (ht : h.aim? q = some t) :
    (settle names cls h).1.aim? q =
      some (if q.owner = cls then destination h cls t else t) := by
  have hnamed := alike_nameEnums names cls h
  have ht' : (nameEnums names cls h).aim? q = some t := (aim?_nameEnums names cls h q).trans ht
  cases hc : h.class? cls with
  | none =>
    have hq : q.owner ≠ cls := by
      rintro rfl
      obtain ⟨m, hm, _⟩ := Hierarchy.aim?_eq_some.mp ht
      obtain ⟨c, hc', _⟩ := Hierarchy.method?_eq_some.mp hm
      rw [hc] at hc'
      cases hc'
    rw [settle_of_none hc, if_neg hq, ht]
  | some c =>
    rw [aim?_settle_of_some names hc, bouncedAt]
    by_cases hq : q.owner = cls
    · rw [if_pos hq, aim?_resolveBounces (hk.of_alike hnamed) hq ht', destination_eq hnamed]
    · rw [if_neg hq, aim?_resolveBounces_of_ne (hk.of_alike hnamed) hq, ht']

end Settle

/-! ## Resolving an archive -/

/-- Every bouncer points where it did at first or where it is to go, and where
it is to go if its class has been resolved. -/
def Aiming (h₀ h : Hierarchy) : Prop :=
  ∀ q t, h₀.aim? q = some t →
    (h.aim? q = some t ∨ h.aim? q = some (destination h₀ q.owner t)) ∧
      (h.isResolved q.owner → h.aim? q = some (destination h₀ q.owner t))

theorem Aiming.settle {h₀ h : Hierarchy} (hh : Aiming h₀ h) (hk : Keyed h₀) (ha : Alike h₀ h)
    (names : Names) (cls : String) : Aiming h₀ (settle names cls h).1 := by
  intro q t ht
  obtain ⟨hq, hresolved⟩ := hh q t ht
  have hkh := hk.of_alike ha
  by_cases ho : q.owner = cls
  · have hend : (Resolution.settle names cls h).1.aim? q = some (destination h₀ q.owner t) := by
      rcases hq with hq | hq
      · rw [aim?_settle hkh names cls hq, if_pos ho, ← destination_eq ha, ho]
      · rw [aim?_settle hkh names cls hq, if_pos ho, ← destination_eq ha, ho,
          destination_destination]
    exact ⟨Or.inr hend, fun _ => hend⟩
  · have hkept : ∀ s, h.aim? q = some s → (Resolution.settle names cls h).1.aim? q = some s := by
      intro s hs
      rw [aim?_settle hkh names cls hs, if_neg ho]
    refine ⟨hq.imp (hkept _) (hkept _), fun hr => hkept _ (hresolved ?_)⟩
    rw [isResolved_settle] at hr
    simpa [Ne.symm ho] using hr

section Archive

variable {path : ClassPath} {classes : List String}

theorem aiming_link (hp : path.hierarchy.AsRead) :
    Aiming path.hierarchy ((start path).link classes).path.hierarchy := by
  intro q t ht
  have hsame := sameBut_link (start path) classes
  have hq : ((start path).link classes).path.hierarchy.aim? q = some t :=
    (Hierarchy.aim?_eq_of_map ((hsame.map MethodNode.aim?).method? q)).symm.trans ht
  exact ⟨Or.inl hq, fun hr =>
    absurd hr (not_isResolved_link (r := start path) hp classes q.owner)⟩

/-- Every bouncer of one of the classes comes to point where it is to go. -/
theorem aim?_resolveArchive (names : Names) (hp : path.hierarchy.AsRead) {q t : MemberRef}
    (hq : q.owner ∈ classes) (ht : path.hierarchy.aim? q = some t) :
    ((start path).resolveArchive names classes).path.hierarchy.aim? q =
      some (destination path.hierarchy q.owner t) := by
  have hlink := alike_link (start path) classes
  have hresolve := resolveAll_induction (P := Aiming path.hierarchy) names
    (aiming_link hp) classes
    fun h a ha hh _ => hh.settle hp.keyed (hlink.trans ha) names a
  have hrest : AtRest (start path).path := .of_asRead hp
  have hloaded : (path.hierarchy.class? q.owner).isSome := by
    obtain ⟨m, hm, _⟩ := Hierarchy.aim?_eq_some.mp ht
    obtain ⟨c, hc, _⟩ := Hierarchy.method?_eq_some.mp hm
    exact Option.isSome_of_eq_some hc
  have hresolved := hrest.isResolved_resolveArchive (r := start path) names hq .refl hloaded
  rw [resolveArchive, isResolved_unifyAll] at hresolved
  have hend := (hresolve q t ht).2 hresolved
  refine (List.foldlRecOn (motive := fun s : Resolution => s.path.hierarchy.aim? q =
    some (destination path.hierarchy q.owner t)) _ _ hend fun s hs cls _ => ?_)
  have hunify := ((sameBut_unify s cls).map MethodNode.aim?).method? q
  exact (Hierarchy.aim?_eq_of_map hunify).symm.trans hs

/-- The bouncers that a method knows are those that are linked to it at first. -/
theorem map_forwarders_resolveArchive (names : Names) (hp : path.hierarchy.AsRead)
    (classes : List String) (q : MemberRef) :
    (((start path).resolveArchive names classes).path.hierarchy.method? q).map
        MethodNode.forwarders =
      (((start path).link classes).path.hierarchy.method? q).map MethodNode.forwarders := by
  have hlink := alike_link (start path) classes
  have hresolve := resolveAll_induction (r := (start path).link classes)
    (P := fun h => (h.method? q).map MethodNode.forwarders =
      (((start path).link classes).path.hierarchy.method? q).map MethodNode.forwarders) names rfl
    classes
    fun h a ha hh _ => ?_
  · refine List.foldlRecOn (motive := fun s : Resolution =>
      (s.path.hierarchy.method? q).map MethodNode.forwarders =
        (((start path).link classes).path.hierarchy.method? q).map MethodNode.forwarders) _ _
      hresolve fun s hs cls _ => ?_
    exact (((sameBut_unify s cls).map MethodNode.forwarders).method? q).symm.trans hs
  · rw [← hh]
    exact map_forwarders_settle (hp.keyed.of_alike (hlink.trans ha)) names a q

theorem mem_forwarders_resolveArchive (names : Names) (hp : path.hierarchy.AsRead)
    {q f : MemberRef} {m : MethodNode}
    (hm : ((start path).resolveArchive names classes).path.hierarchy.method? q = some m) :
    f ∈ m.forwarders ↔ Forwards path.hierarchy classes f q := by
  have hmap := map_forwarders_resolveArchive names hp classes q
  rw [hm, Option.map_some] at hmap
  obtain ⟨n, hn, hforwarders⟩ := Option.map_eq_some_iff.mp hmap.symm
  rw [← hforwarders]
  exact ⟨forwarded_link (r := start path) hp classes q n f hn,
    fun hf => mem_forwarders_link (r := start path) hf hn⟩

/-- Whatever can be reached from one of the classes has been asked for in the
end. -/
theorem mem_asked_of_reaches (names : Names) {cls a : String} (hcls : cls ∈ classes)
    (ha : ReflTransGen path.hierarchy.supertypeGraph.Edge cls a) :
    a ∈ ((start path).resolveArchive names classes).path.asked := by
  have hresolved : a ∈ (classes.foldl (resolve names) ((start path).link classes)).path.asked := by
    refine (AtRest.mem_asked_resolveAll names).mpr (Or.inr ⟨cls, hcls, ?_⟩)
    rw [← (alike_link (start path) classes).supertypeGraph]
    exact ha
  exact List.foldlRecOn (motive := fun s : Resolution => a ∈ s.path.asked) _ _ hresolved
    fun s hs other _ => mem_asked_unify hs other

end Archive

/-! ## Where the ends meet -/

/-- The method at `b` is a bouncer that points to `t`. -/
def Bounces (h : Hierarchy) (b t : MemberRef) : Prop :=
  ∃ m, h.method? b = some m ∧ m.ref = b ∧ m.aim? = some t

/-- The method is declared in a class that is loaded. -/
def Loads (p : ClassPath) (m : MethodNode) : Prop :=
  ∃ name c key, p.peek? name = some c ∧ c.method? key = some m

theorem loads_iff {p : ClassPath} (hk : Keyed p.hierarchy) {m : MethodNode} :
    Loads p m ↔ p.hierarchy.method? m.ref = some m ∧ m.owner ∈ p.asked := by
  constructor
  · rintro ⟨name, c, key, hc, hm⟩
    unfold ClassPath.peek? at hc
    split at hc
    · next hasked =>
      obtain ⟨howner, _, href⟩ := hk.of_mem_class hc hm
      exact ⟨href, howner ▸ hasked⟩
    · cases hc
  · rintro ⟨hm, hasked⟩
    obtain ⟨c, hc, hcm⟩ := Hierarchy.method?_eq_some.mp hm
    exact ⟨m.owner, c, m.ref.key, by rw [ClassPath.peek?, if_pos hasked]; exact hc, hcm⟩

/-- A method that is loaded knows the bouncer at `b` if and only if the bouncer
points to it. -/
def EndsMeet (p : ClassPath) (b : MemberRef) : Prop :=
  ∀ m, Loads p m → (b ∈ m.forwarders ↔ p.hierarchy.aim? b = some m.ref)

/-- The reference leads to a method that bears it. -/
def Declares (h : Hierarchy) (r : MemberRef) : Prop := ∃ m, h.method? r = some m ∧ m.ref = r

section Ends

variable {path : ClassPath} {classes : List String} {b t : MemberRef}

theorem Bounces.aim? {h : Hierarchy} (hb : Bounces h b t) : h.aim? b = some t := by
  obtain ⟨m, hm, _, hmt⟩ := hb
  exact Hierarchy.aim?_eq_some.mpr ⟨m, hm, hmt⟩

theorem Bounces.forwards_iff {h : Hierarchy} (hb : Bounces h b t) (hcls : b.owner ∈ classes)
    {r : MemberRef} : Forwards h classes b r ↔ t.owner = r.owner ∧ t.key = r.key := by
  obtain ⟨m, hm, href, hmt⟩ := hb
  obtain ⟨bounce, hbounce, rfl⟩ := Option.map_eq_some_iff.mp hmt
  constructor
  · rintro ⟨_, m', bounce', hm', _, hbounce', hslot⟩
    cases hm.symm.trans hm'
    cases hbounce.symm.trans hbounce'
    exact hslot
  · exact fun hslot => ⟨hcls, m, bounce, hm, href, hbounce, hslot⟩

theorem Bounces.reaches {h : Hierarchy} (hb : Bounces h b t) (hh : h.AsRead) :
    ReflTransGen h.supertypeGraph.Edge b.owner t.owner := by
  obtain ⟨m, hm, _, hmt⟩ := hb
  obtain ⟨bounce, hbounce, rfl⟩ := Option.map_eq_some_iff.mp hmt
  rcases hh.target_of_bounce hm hbounce with howner | hedge
  · rw [howner]
  · exact .single hedge

/-- A bouncer's method knows it where the class file says, and the bouncer
points to where that is declared. -/
theorem Bounces.ends (hb : Bounces path.hierarchy b t) (hp : path.hierarchy.AsRead)
    (names : Names) (hcls : b.owner ∈ classes) :
    let p := ((start path).resolveArchive names classes).path
    p.hierarchy.aim? b = some (destination path.hierarchy b.owner t) ∧
      ∀ r m, p.hierarchy.method? r = some m →
        (b ∈ m.forwarders ↔ t.owner = r.owner ∧ t.key = r.key) := by
  refine ⟨aim?_resolveArchive names hp hcls hb.aim?, fun r m hm => ?_⟩
  rw [mem_forwarders_resolveArchive names hp hm, hb.forwards_iff hcls]

/-- The ends meet just where the method is declared by the class that the
instruction names, or by none. -/
theorem Bounces.endsMeet_iff (hb : Bounces path.hierarchy b t) (hp : path.hierarchy.AsRead)
    (names : Names) (hcls : b.owner ∈ classes) :
    EndsMeet ((start path).resolveArchive names classes).path b ↔
      Declares path.hierarchy t ∨ path.hierarchy.method? t = none ∧
        ¬ Declares path.hierarchy (destination path.hierarchy b.owner t) := by
  have halike := alike_resolveArchive names (start path) classes
  have hkeyed := hp.keyed.of_alike halike
  obtain ⟨haim, hforwarders⟩ := hb.ends hp names hcls
  have hloads : ∀ {r m m'}, path.hierarchy.method? r = some m →
      ((start path).resolveArchive names classes).path.hierarchy.method? r = some m' →
      ReflTransGen path.hierarchy.supertypeGraph.Edge b.owner r.owner →
      Loads ((start path).resolveArchive names classes).path m' := by
    intro r m m' hm hm' hr
    refine (loads_iff hkeyed).mpr ⟨hkeyed.method?_ref hm', ?_⟩
    rw [(hkeyed.slot_eq hm').1]
    exact mem_asked_of_reaches names hcls hr
  constructor
  · intro hmeet
    cases hm : path.hierarchy.method? t with
    | some m =>
      obtain ⟨m', hm', hbare⟩ := halike.exists_method hm
      have hpoints := (hmeet m' (hloads hm hm' (hb.reaches hp))).mp
        ((hforwarders t m' hm').mpr ⟨rfl, rfl⟩)
      rw [haim, destination_of_isSome (Option.isSome_of_eq_some hm)] at hpoints
      exact Or.inl ⟨m, hm, (MethodNode.ref_eq hbare).trans (Option.some.inj hpoints).symm⟩
    | none =>
      refine Or.inr ⟨rfl, ?_⟩
      rintro ⟨m, hm₀, href⟩
      obtain ⟨m', hm', hbare⟩ := halike.exists_method hm₀
      have hknown := (hmeet m' (hloads hm₀ hm' ((hb.reaches hp).trans reaches_destination))).mpr
        (haim.trans (congrArg some ((MethodNode.ref_eq hbare).symm.trans href).symm))
      obtain ⟨ho, hkey⟩ := (hforwarders _ m' hm').mp hknown
      rw [path.hierarchy.method?_congr ho hkey, hm₀] at hm
      cases hm
  · intro hdeclared m hloaded
    obtain ⟨hm, _⟩ := (loads_iff hkeyed).mp hloaded
    obtain ⟨m₀, hm₀, hbare⟩ := halike.symm.exists_method hm
    rw [hforwarders m.ref m hm, haim, Option.some.injEq]
    rcases hdeclared with ⟨n, hn, href⟩ | ⟨hnone, hno⟩
    · rw [destination_of_isSome (Option.isSome_of_eq_some hn)]
      refine ⟨fun hslot => ?_, fun heq => by rw [heq]; exact ⟨rfl, rfl⟩⟩
      rw [path.hierarchy.method?_congr hslot.1 hslot.2] at hn
      cases hn.symm.trans hm₀
      exact href.symm.trans (MethodNode.ref_eq hbare).symm
    · refine ⟨fun hslot => ?_, fun heq => absurd ⟨m₀, heq ▸ hm₀, ?_⟩ hno⟩
      · rw [path.hierarchy.method?_congr hslot.1 hslot.2] at hnone
        cases hnone.symm.trans hm₀
      · exact (MethodNode.ref_eq hbare).symm.trans heq.symm

end Ends

/-- After resolving an archive every bouncer of its classes points to where the
method is declared that its class file names, while that method knows the
bouncer in the place that is named.  So the two ends meet just where the class
that the instruction names declares the method, or no class does. -/
theorem bouncer_ends_meet_iff (names : Names) (sources : List ClassTable)
    (requests : List ClassPath.Request) (classes : List String) (b t : MemberRef)
    (hcls : b.owner ∈ classes)
    (hb : Bounces (ClassPath.afterRequests sources requests).hierarchy b t) :
    let read := (ClassPath.afterRequests sources requests).hierarchy
    let path := ((start (.afterRequests sources requests)).resolveArchive names classes).path
    path.hierarchy.aim? b = some (destination read b.owner t) ∧
      (∀ r m, path.hierarchy.method? r = some m →
        (b ∈ m.forwarders ↔ t.owner = r.owner ∧ t.key = r.key)) ∧
      (EndsMeet path b ↔
        Declares read t ∨ read.method? t = none ∧ ¬ Declares read (destination read b.owner t)) := by
  intro read path
  have hp := ClassPath.asRead_afterRequests sources requests
  obtain ⟨haim, hforwarders⟩ := hb.ends hp names hcls
  exact ⟨haim, hforwarders, hb.endsMeet_iff hp names hcls⟩

namespace Sample

theorem bounces_of_any {h : Hierarchy} {b t : MemberRef}
    (hb : (h.method? b).any fun m => m.ref = b ∧ m.aim? = some t) : Bounces h b t := by
  obtain ⟨m, hm, hmt⟩ := (Option.any_eq_true _ _).mp hb
  exact ⟨m, hm, of_decide_eq_true hmt⟩

/-- The bridge to a method of its superclass is known there. -/
theorem ends_meet_bridged :
    Bounces bridged.hierarchy ⟨"Bridge", "run", "()V"⟩ ⟨"Base", "run", "()V"⟩ ∧
      EndsMeet ((start bridged).resolveArchive .asWritten ["Base", "Bridge"]).path
        ⟨"Bridge", "run", "()V"⟩ := by
  have hb : Bounces bridged.hierarchy ⟨"Bridge", "run", "()V"⟩ ⟨"Base", "run", "()V"⟩ :=
    bounces_of_any (by decide +kernel)
  have hdeclared : (bridged.hierarchy.method? ⟨"Base", "run", "()V"⟩).any (fun m =>
      m.ref = ⟨"Base", "run", "()V"⟩) := by decide +kernel
  obtain ⟨m, hm, href⟩ := (Option.any_eq_true _ _).mp hdeclared
  obtain ⟨_, _, hmeet⟩ := bouncer_ends_meet_iff .asWritten []
    [.register (archive [base, bridge]) true] ["Base", "Bridge"] ⟨"Bridge", "run", "()V"⟩
    ⟨"Base", "run", "()V"⟩ (by decide) hb
  exact ⟨hb, hmeet.mpr (Or.inl ⟨m, hm, of_decide_eq_true href⟩)⟩

/-- A class between the one with a bridge and the one that declares the
method. -/
def stairs : ClassPath :=
  .afterRequests [] [.register (archive
    [base, plain "Mid" (some "Base") [],
      plain "Child" (some "Mid") [run [.pub, .bridge, .synthetic]
        [.load .reference 0, .invoke 0xB7 ⟨"Mid", "run", "()V"⟩, .op 0xB1]]]) true]

/-- The bridge is moved to the method two classes above, which does not know
it. -/
theorem not_endsMeet_stairs :
    Bounces stairs.hierarchy ⟨"Child", "run", "()V"⟩ ⟨"Mid", "run", "()V"⟩ ∧
      ¬ EndsMeet ((start stairs).resolveArchive .asWritten ["Base", "Child", "Mid"]).path
        ⟨"Child", "run", "()V"⟩ := by
  have hb : Bounces stairs.hierarchy ⟨"Child", "run", "()V"⟩ ⟨"Mid", "run", "()V"⟩ :=
    bounces_of_any (by decide +kernel)
  have hmid : stairs.hierarchy.method? ⟨"Mid", "run", "()V"⟩ = none := by decide +kernel
  have hdestination : destination stairs.hierarchy "Child" ⟨"Mid", "run", "()V"⟩ =
      ⟨"Base", "run", "()V"⟩ := by
    rw [destination, Hierarchy.declaration?, Graph.depthFirst, Graph.visit_eq]
    decide +kernel
  have hdeclared : (stairs.hierarchy.method? ⟨"Base", "run", "()V"⟩).any (fun m =>
      m.ref = ⟨"Base", "run", "()V"⟩) := by decide +kernel
  obtain ⟨m, hm, href⟩ := (Option.any_eq_true _ _).mp hdeclared
  refine ⟨hb, fun hmeet => ?_⟩
  have hread : stairs.hierarchy.AsRead := ClassPath.asRead_afterRequests _ _
  rcases (hb.endsMeet_iff hread .asWritten (by decide)).mp hmeet with ⟨n, hn, _⟩ | ⟨_, hno⟩
  · cases hmid.symm.trans hn
  · refine hno ⟨m, ?_, ?_⟩
    · exact (congrArg stairs.hierarchy.method? hdestination).trans hm
    · exact (of_decide_eq_true href).trans hdestination.symm

end Sample

end Resolution
end Lineage
