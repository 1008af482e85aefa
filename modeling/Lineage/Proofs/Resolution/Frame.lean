import Lineage.Proofs.Hierarchy.Frame
import Lineage.Resolution.Basic

/-!
What each pass leaves alone.

No pass changes what class files say, so a hierarchy stays alike all through a
resolution.  Beyond that every pass changes only some parts of methods, and the
views below show the others.
-/

namespace Lineage

open Std (ExtTreeMap ExtTreeSet)

namespace MethodNode

/-! ## Views -/

/-- All but where a bouncer leads to. -/
def sansBounce (m : MethodNode) : MethodNode := { m with bounce := m.bare.bounce }

/-- All but the roots and the parent. -/
def sansLinks (m : MethodNode) : MethodNode := { m with overrides := ∅, parent := none }

def sansRoots (m : MethodNode) : MethodNode := { m with overrides := ∅ }

def sansForwarders (m : MethodNode) : MethodNode := { m with forwarders := ∅ }

/-- All but the roots and the name that is forced. -/
def sansUnity (m : MethodNode) : MethodNode := { m with overrides := ∅, forcedName := none }

end MethodNode

namespace Hierarchy

/-- A view that shows all that class files say. -/
theorem SameBut.alike_of {view : MethodNode → MethodNode} {h h' : Hierarchy}
    (hh : SameBut view h h') (hv : ∀ m, (view m).bare = m.bare) : Alike h h' := by
  have hb := hh.map MethodNode.bare
  rw [show MethodNode.bare ∘ view = MethodNode.bare from funext hv] at hb
  exact hb.alike

/-- The class is there and has been resolved. -/
def isResolved (h : Hierarchy) (name : String) : Bool := (h.class? name).any ClassNode.resolved

theorem SameBut.isResolved {β : Type} {view : MethodNode → β} {h h' : Hierarchy}
    (hh : SameBut view h h') (name : String) : h'.isResolved name = h.isResolved name := by
  have hn := congrArg (fun o => o.any fun p => p.1.resolved) (hh name)
  simp only [Option.any_map] at hn
  exact hn.symm

theorem isResolved_modifyClass (h : Hierarchy) (name : String) {f : ClassNode → ClassNode}
    (hf : ∀ c, (f c).resolved = c.resolved) (other : String) :
    (h.modifyClass name f).isResolved other = h.isResolved other := by
  rw [isResolved, class?_modifyClass]
  by_cases hn : name = other
  · rw [if_pos hn, Option.any_map]
    exact congrArg (fun g => (h.class? other).any g) (funext hf)
  · rw [if_neg hn]
    rfl

end Hierarchy

namespace Resolution

open Hierarchy (Alike SameBut)

/-! ## Walks -/

namespace Walk

variable {α β : Type}

/-- From states in `P`, what `x` answers is in `Q`, and it stays in `P`. -/
def Yields (P : Walk → Prop) (Q : α → Prop) (x : StateM Walk α) : Prop :=
  ∀ w, P w → Q (x.run w).1 ∧ P (x.run w).2

/-- From states in `P`, whatever `x` finds is in `Q`, and it stays in `P`. -/
def Finds (P : Walk → Prop) (Q : α → Prop) (x : StateM Walk (Option α)) : Prop :=
  Yields P (fun found => ∀ a ∈ found, Q a) x

/-- What has to be shown for walks from classes in `S` to stay in `P` and to find
no roots but those in `Q`. -/
structure Stable (P : Walk → Prop) (S : String → Prop) (Q : MemberRef → Prop) : Prop where
  seen : ∀ w v, P w → P { w with seen := v :: w.seen }
  ambiguous : ∀ w bouncer candidates chosen, P w →
    P { w with findings := w.findings ++ [.ambiguousBounce bouncer candidates chosen] }
  unwalkable : ∀ w bouncer via, P w →
    P { w with findings := w.findings ++ [.unwalkableBounce bouncer via] }
  land : ∀ w bouncer root, Q root → P w →
    P { w with hierarchy := w.hierarchy.modifyMethod bouncer (·.land root) }
  landing : ∀ w via m b root, P w → w.hierarchy.method? via = some m → m.bounce = some b →
    b.landing = some root → Q root
  declared : ∀ w cls c key d, P w → S cls → w.hierarchy.class? cls = some c →
    c.method? key = some d → Q d.ref
  roots : ∀ w r cls, P w → S cls → ∀ root ∈ w.hierarchy.overrideRoots r cls, Q root
  supertypes : ∀ w cls c, P w → S cls → w.hierarchy.class? cls = some c → ∀ s ∈ c.supertypes, S s

/-- A property that does not tell roots from each other. -/
theorem stable_of_any {P : Walk → Prop} (hseen : ∀ w v, P w → P { w with seen := v :: w.seen })
    (hambiguous : ∀ w bouncer candidates chosen, P w →
      P { w with findings := w.findings ++ [.ambiguousBounce bouncer candidates chosen] })
    (hunwalkable : ∀ w bouncer via, P w →
      P { w with findings := w.findings ++ [.unwalkableBounce bouncer via] })
    (hland : ∀ w bouncer root, P w →
      P { w with hierarchy := w.hierarchy.modifyMethod bouncer (·.land root) }) :
    Stable P (fun _ => True) fun _ => True where
  seen := hseen
  ambiguous := hambiguous
  unwalkable := hunwalkable
  land w bouncer root _ := hland w bouncer root
  landing _ _ _ _ _ _ _ _ _ := trivial
  declared _ _ _ _ _ _ _ _ _ := trivial
  roots _ _ _ _ _ _ _ := trivial
  supertypes _ _ _ _ _ _ _ _ := trivial

variable {P : Walk → Prop} {S : String → Prop} {Q : MemberRef → Prop}

theorem Yields.pure {R : α → Prop} {a : α} (ha : R a) : Yields P R (pure a : StateM Walk α) :=
  fun _ hw => ⟨ha, hw⟩

theorem Yields.get : Yields P P (get : StateM Walk Walk) := fun _ hw => ⟨hw, hw⟩

theorem Yields.modify {f : Walk → Walk} (hf : ∀ w, P w → P (f w)) :
    Yields P (fun _ => True) (modify f : StateM Walk Unit) :=
  fun w hw => ⟨trivial, hf w hw⟩

theorem Yields.bind {Q : α → Prop} {R : β → Prop} {x : StateM Walk α} {f : α → StateM Walk β}
    (hx : Yields P Q x) (hf : ∀ a, Q a → Yields P R (f a)) : Yields P R (x >>= f) :=
  fun w hw => hf _ (hx w hw).1 _ (hx w hw).2

theorem Yields.none {R : α → Prop} : Finds P R (Pure.pure Option.none) := .pure fun _ h => nomatch h

theorem Yields.some {R : α → Prop} {a : α} (ha : R a) :
    Finds P R (Pure.pure (Option.some a)) :=
  .pure fun _ h => Option.some.inj h ▸ ha

theorem Yields.firstSome {R : β → Prop} {step : α → StateM Walk (Option β)} :
    ∀ {as : List α}, (∀ a ∈ as, Finds P R (step a)) → Finds P R (firstSome step as)
  | [], _ => .none
  | a :: as, hs => by
    unfold Walk.firstSome
    refine .bind (hs a List.mem_cons_self) fun found hfound => ?_
    cases found with
    | some b => exact .some (hfound b rfl)
    | none => exact Yields.firstSome fun b hb => hs b (List.mem_cons_of_mem a hb)

theorem Stable.yields_enter (hP : Stable P S Q) (v : Viewpoint) :
    Yields P (fun _ => True) (enter v) := by
  unfold enter
  refine .bind .get fun w _ => ?_
  split
  · exact .pure trivial
  · exact .bind (.modify fun w hw => hP.seen w v hw) fun _ _ => .pure trivial

theorem Stable.yields_settle (hP : Stable P S Q) (bouncer : MemberRef) {declared : MethodNode}
    {cls : String} (hd : Q declared.ref) (hc : S cls) :
    Yields P Q (settle bouncer declared cls) := by
  unfold settle
  refine .bind .get fun w hw => ?_
  have hroots : ∀ root ∈ (w.hierarchy.overrideRoots declared.ref cls).toList, Q root :=
    fun root hr => hP.roots w declared.ref cls hw hc root (ExtTreeSet.mem_toList.mp hr)
  generalize (w.hierarchy.overrideRoots declared.ref cls).toList = roots at hroots
  split
  · exact .pure hd
  · exact .pure (hroots _ List.mem_cons_self)
  · exact .bind (.modify fun w hw => hP.ambiguous w _ _ _ hw) fun _ _ =>
      .pure (hroots _ List.mem_cons_self)

theorem Stable.finds_through (hP : Stable P S Q)
    {walk : MemberRef → String → StateM Walk (Option MemberRef)} {cls : String}
    (hw : ∀ method, Finds P Q (walk method cls)) (declared via : MemberRef) :
    Finds P Q (through walk declared cls via) := by
  unfold through
  refine .bind .get fun w hwP => ?_
  split
  · exact .none
  · next forwarder hf =>
    split
    · exact .none
    · next bounce hb =>
      split
      · next root hr => exact .some (hP.landing w via forwarder bounce root hwP hf hb hr)
      · refine .bind (hw forwarder.ref) fun found hfound => ?_
        split
        · next root hr =>
          have hroot : Q root := hfound root (Option.filter_eq_some_iff.mp hr).1
          exact .bind (.modify fun w hw => hP.land w via root hroot hw) fun _ _ => .some hroot
        · exact .bind (.modify fun w hw => hP.unwalkable w _ _ hw) fun _ _ => .none

theorem Stable.finds_walk (hP : Stable P S Q) (fuel : Nat) (method : MemberRef) {cls : String}
    (hc : S cls) : Finds P Q (walk fuel method cls) := by
  induction fuel generalizing method cls with
  | zero => exact .none
  | succ fuel ih =>
    unfold walk
    refine .bind (hP.yields_enter _) fun new _ => ?_
    split
    · exact .none
    · refine .bind .get fun w hw => ?_
      split
      · exact .none
      · next c hclass =>
        -- Whatever the class itself yields, the walk ends there or goes on upwards.
        have hup : ∀ {x : StateM Walk (Option MemberRef)}
            {next : Option MemberRef → StateM Walk (Option MemberRef)},
            Finds P Q x → next none = Walk.firstSome (walk fuel method) c.supertypes →
            (∀ root, next (some root) = Pure.pure (some root)) → Finds P Q (x >>= next) := by
          intro x next hx hnone hsome
          refine .bind hx fun found hfound => ?_
          cases found with
          | some root =>
            rw [hsome]
            exact .some (hfound root rfl)
          | none =>
            rw [hnone]
            exact .firstSome fun s hs => ih method (hP.supertypes w cls c hw hc hclass s hs)
        dsimp only
        split
        · exact hup .none rfl fun _ => rfl
        · next d hd =>
          have hdeclared : Q d.ref :=
            hP.declared w cls c method.key d hw hc hclass (Option.filter_eq_some_iff.mp hd).1
          split
          · refine hup (.firstSome fun via _ => ?_) rfl fun _ => rfl
            exact hP.finds_through (fun r => ih r hc) _ via
          · exact hup (.bind (hP.yields_settle _ hdeclared hc) fun root hroot => .some hroot) rfl
              fun _ => rfl

/-- Landing a bouncer comes to some state of the walk. -/
theorem Stable.exists_landBouncer (hP : Stable P S Q) (h : Hierarchy) (cls : String)
    (bouncer : MemberRef) (hc : S cls)
    (hstart : P { hierarchy := h, findings := [], seen := [] }) :
    ∃ w, P w ∧ landBouncer cls bouncer h = (w.hierarchy, w.findings) := by
  have hwalk := hP.finds_walk (viewpointCount h + 1) bouncer hc _ hstart
  unfold landBouncer
  generalize (Walk.walk (viewpointCount h + 1) bouncer cls).run
    { hierarchy := h, findings := [], seen := [] } = answer at hwalk ⊢
  obtain ⟨found, w⟩ := answer
  cases found with
  | none => exact ⟨w, hwalk.2, rfl⟩
  | some root =>
    by_cases hr : root.owner = cls
    · exact ⟨w, hwalk.2, by simp only [hr, if_true]⟩
    · exact ⟨_, hP.land w bouncer root (hwalk.1 root rfl) hwalk.2, by simp only [hr, if_false]⟩

end Walk

/-! ## Passes -/

theorem sameBut_linkBouncers (h : Hierarchy) (cls : String) :
    SameBut MethodNode.sansForwarders h (linkBouncers h cls) := by
  unfold linkBouncers
  refine List.foldlRecOn (motive := SameBut MethodNode.sansForwarders h) _ _ (.refl h) ?_
  intro h' hh b _
  exact hh.trans (Hierarchy.sameBut_modifyMethod h' b.2 fun _ => rfl)

@[simp]
theorem sansBounce_land (m : MethodNode) (root : MemberRef) :
    (m.land root).sansBounce = m.sansBounce := by
  cases hb : m.bounce with
  | none => simp [MethodNode.sansBounce, MethodNode.land, MethodNode.bare, hb]
  | some b => simp [MethodNode.sansBounce, MethodNode.land, MethodNode.bare, hb, MethodNode.ref]

@[simp]
theorem sansBounce_retarget (m : MethodNode) (target : MemberRef) :
    (m.retarget target).sansBounce = m.sansBounce := by
  cases hb : m.bounce with
  | none => simp [MethodNode.sansBounce, MethodNode.retarget, MethodNode.bare, hb]
  | some b =>
    simp [MethodNode.sansBounce, MethodNode.retarget, MethodNode.bare, hb, MethodNode.ref]

theorem sameBut_retarget (h : Hierarchy) (cls : String) (bouncer target : MemberRef) :
    SameBut MethodNode.sansBounce h (retarget cls h bouncer target) := by
  unfold retarget
  split
  · exact .refl h
  · split
    · exact Hierarchy.sameBut_modifyMethod h bouncer fun m => sansBounce_retarget m _
    · exact .refl h

/-- A view that does not show landings is kept when a bouncer lands. -/
theorem sameBut_landBouncer_of {β : Type} {view : MethodNode → β}
    (hv : ∀ m root, view (m.land root) = view m) (h : Hierarchy) (cls : String)
    (bouncer : MemberRef) : SameBut view h (landBouncer cls bouncer h).1 := by
  have hstable : Walk.Stable (fun w => SameBut view h w.hierarchy) (fun _ => True)
      fun _ => True := by
    refine Walk.stable_of_any (fun _ _ hw => hw) (fun _ _ _ _ hw => hw) (fun _ _ _ hw => hw) ?_
    intro w b root hw
    exact hw.trans (Hierarchy.sameBut_modifyMethod w.hierarchy b fun m => hv m root)
  obtain ⟨w, hw, heq⟩ := hstable.exists_landBouncer h cls bouncer trivial (.refl h)
  rw [heq]
  exact hw

theorem sameBut_landBouncer (h : Hierarchy) (cls : String) (bouncer : MemberRef) :
    SameBut MethodNode.sansBounce h (landBouncer cls bouncer h).1 :=
  sameBut_landBouncer_of sansBounce_land h cls bouncer

theorem sameBut_resolveBounces (cls : String) (h : Hierarchy) :
    SameBut MethodNode.sansBounce h (resolveBounces cls h).1 := by
  unfold resolveBounces
  refine List.foldlRecOn (motive := fun s : Hierarchy × List Finding =>
    SameBut MethodNode.sansBounce h s.1) _ _ (.refl h) ?_
  intro s hs b _
  exact (hs.trans (sameBut_retarget s.1 cls b.1 b.2)).trans (sameBut_landBouncer _ cls b.1)

theorem sameBut_linkMethod (cls : String) (h : Hierarchy) (m : MemberRef) :
    SameBut MethodNode.sansLinks h (linkMethod cls h m) :=
  Hierarchy.sameBut_modifyMethod h m fun _ => rfl

theorem sameBut_linkMethods (cls : String) (h : Hierarchy) :
    SameBut MethodNode.sansLinks h (linkMethods cls h) := by
  unfold linkMethods
  refine List.foldlRecOn (motive := SameBut MethodNode.sansLinks h) _ _ (.refl h) ?_
  intro h' hh m _
  exact hh.trans (sameBut_linkMethod cls h' m)

theorem sameBut_bindContracts (cls : String) (h : Hierarchy) :
    SameBut MethodNode.sansRoots h (bindContracts cls h).1 := by
  unfold bindContracts
  refine List.foldlRecOn (motive := fun s : Hierarchy × List Finding =>
    SameBut MethodNode.sansRoots h s.1) _ _ (.refl h) ?_
  intro s hs contract _
  unfold bindContract
  split
  · exact hs.trans (Hierarchy.sameBut_modifyMethod s.1 _ fun _ => rfl)
  · exact hs

@[simp]
theorem bare_nameEnumField (names : Names) (cls : String) (f : FieldNode) :
    (nameEnumField names cls f).bare = f.bare := by
  unfold nameEnumField
  split
  · split <;> rfl
  · rfl

@[simp]
theorem bare_nameEnumMethod (names : Names) (cls : String) (m : MethodNode) :
    (nameEnumMethod names cls m).bare = m.bare := by
  unfold nameEnumMethod
  split
  · split <;> rfl
  · rfl

theorem overrides_nameEnumMethod (names : Names) (cls : String) (m : MethodNode) :
    (nameEnumMethod names cls m).overrides = m.overrides := by
  unfold nameEnumMethod
  split
  · split <;> rfl
  · rfl

@[simp]
theorem bare_nameEnum (names : Names) (c : ClassNode) : (nameEnum names c).bare = c.bare := by
  unfold nameEnum
  split
  · simp only [ClassNode.bare, ClassNode.mk.injEq, true_and, and_true]
    exact ⟨map_map_of_eq c.fields fun _ => bare_nameEnumField names c.name,
      map_map_of_eq c.methods fun _ => bare_nameEnumMethod names c.name⟩
  · rfl

theorem alike_nameEnums (names : Names) (cls : String) (h : Hierarchy) :
    Alike h (nameEnums names cls h) :=
  Hierarchy.alike_modifyClass h cls (bare_nameEnum names)

theorem isResolved_nameEnums (names : Names) (cls : String) (h : Hierarchy) (name : String) :
    (nameEnums names cls h).isResolved name = h.isResolved name := by
  refine Hierarchy.isResolved_modifyClass h cls (fun c => ?_) name
  unfold nameEnum
  split <;> rfl

/-- Parts of methods that have nothing to do with names are kept. -/
theorem map_method?_nameEnums {β : Type} {view : MethodNode → β} (names : Names) (cls : String)
    (h : Hierarchy) (hv : ∀ cls m, view (nameEnumMethod names cls m) = view m) (r : MemberRef) :
    ((nameEnums names cls h).method? r).map view = (h.method? r).map view := by
  have hc : ∀ c : ClassNode, ((nameEnum names c).method? r.key).map view =
      (c.method? r.key).map view := by
    intro c
    unfold nameEnum
    split
    · simp only [ClassNode.method?, ExtTreeMap.getElem?_map, Option.map_map]
      exact congrArg (fun e => c.methods[r.key]?.map e) (funext (hv c.name))
    · rfl
  simp only [nameEnums, Hierarchy.method?, Hierarchy.class?_modifyClass, Option.bind_eq_bind]
  by_cases ho : cls = r.owner
  · rw [if_pos ho]
    cases h.class? r.owner with
    | none => rfl
    | some c => exact hc c
  · rw [if_neg ho]

@[simp]
theorem sansUnity_force (m : MethodNode) (name : String) :
    (m.force name).sansUnity = m.sansUnity := by
  unfold MethodNode.force
  split <;> rfl

theorem mem_scope {h : Hierarchy} {loaded : List String} {cls a : String} :
    a ∈ scope h loaded cls ↔
      ∃ c ∈ loaded, c ≠ cls ∧ h.isInstance c cls ∧ a ∈ h.ancestors c := by
  have hfold : ∀ (l : List String) (s : ExtTreeSet String),
      a ∈ l.foldl (fun s c => s.insertMany (h.ancestors c)) s ↔
        a ∈ s ∨ ∃ c ∈ l, a ∈ h.ancestors c := by
    intro l
    induction l with
    | nil => simp
    | cons c l ih =>
      intro s
      rw [List.foldl_cons, ih, ExtTreeSet.mem_insertMany_list, List.contains_iff_mem]
      simp only [List.mem_cons, exists_eq_or_imp, or_assoc]
  rw [scope, hfold]
  simp [and_assoc]

theorem mem_siblings {h : Hierarchy} {classes : List String} {key : String} {m : MethodNode} :
    m ∈ siblings h classes key ↔
      (∃ name ∈ classes, ∃ c, h.class? name = some c ∧ c.method? key = some m) ∧
        m.isOverridable := by
  simp only [siblings, List.mem_filter, List.mem_filterMap]
  refine and_congr_left fun _ => ⟨?_, ?_⟩
  · rintro ⟨c, ⟨name, hname, hc⟩, hm⟩
    exact ⟨name, hname, c, hc, hm⟩
  · rintro ⟨name, hname, c, hc, hm⟩
    exact ⟨c, ⟨name, hname, hc⟩, hm⟩

/-- Unifying a method gives it to its counterparts in other classes and forces
the name of one of them on the others.  It does nothing else. -/
theorem unifyMethod_induction {P : Hierarchy → Prop} {isPrimary : String → Bool} {cls : String}
    {classes : List String} {g : Hierarchy} {m : MethodNode} (hg : P g)
    (hadd : ∀ g' i, P g' → i ∈ siblings g classes m.key → i.owner ≠ cls →
      P (g'.modifyMethod i.ref (·.addOverrides {m.ref})))
    (hforce : ∀ g' i o, P g' → i ∈ siblings g classes m.key → o ∈ siblings g classes m.key →
      P (g'.modifyMethod i.ref (·.force o.name))) :
    P (unifyMethod isPrimary cls classes g m) := by
  unfold unifyMethod
  dsimp only
  split
  · exact hg
  · have hadded := List.foldlRecOn (motive := P) (((siblings g classes m.key).filter
        (isImplementation g cls)).filter (·.owner != cls))
        (fun g i => g.modifyMethod i.ref (·.addOverrides {m.ref})) hg fun g' hg' i hi => by
          obtain ⟨hi, hne⟩ := List.mem_filter.mp hi
          exact hadd g' i hg' (List.mem_filter.mp hi).1 (bne_iff_ne.mp hne)
    unfold forceExternalName
    split
    · next o ho =>
      exact List.foldlRecOn (motive := P) _ _ hadded fun g' hg' i hi =>
        hforce g' i o hg' hi (List.mem_of_find?_eq_some ho)
    · exact hadded

theorem sameBut_unifyMethod (isPrimary : String → Bool) (cls : String) (classes : List String)
    (g : Hierarchy) (m : MethodNode) :
    SameBut MethodNode.sansUnity g (unifyMethod isPrimary cls classes g m) := by
  refine unifyMethod_induction (.refl g) (fun g' i hg _ _ => hg.trans ?_)
    fun g' i o hg _ _ => hg.trans ?_
  · exact Hierarchy.sameBut_modifyMethod g' i.ref fun _ => rfl
  · exact Hierarchy.sameBut_modifyMethod g' i.ref fun n => sansUnity_force n o.name

/-- Unifying an interface does this to each of its methods. -/
theorem unifyInterface_induction {P : Hierarchy → Prop} {isPrimary : String → Bool}
    {loaded : List String} {cls : String} {h : Hierarchy} (hP : P h)
    (hadd : ∀ g g' c m i, P g → P g' → h.class? cls = some c → m ∈ interfaceMethods c →
      i ∈ siblings g' (scope h loaded cls).toList m.key → i.owner ≠ cls →
      P (g.modifyMethod i.ref (·.addOverrides {m.ref})))
    (hforce : ∀ g g' key i o, P g → P g' → i ∈ siblings g' (scope h loaded cls).toList key →
      o ∈ siblings g' (scope h loaded cls).toList key →
      P (g.modifyMethod i.ref (·.force o.name))) :
    P (unifyInterface isPrimary loaded cls h) := by
  unfold unifyInterface
  split
  · next c hc =>
    split
    · exact List.foldlRecOn (motive := P) _ _ hP fun g hg m hm =>
        unifyMethod_induction hg (fun g' i hg' => hadd g' g c m i hg' hg hc hm)
          fun g' i o hg' => hforce g' g m.key i o hg' hg
    · exact hP
  · exact hP

theorem sameBut_unifyInterface (isPrimary : String → Bool) (loaded : List String) (cls : String)
    (h : Hierarchy) : SameBut MethodNode.sansUnity h (unifyInterface isPrimary loaded cls h) := by
  refine unifyInterface_induction (.refl h) (fun g _ _ m i hg _ _ _ _ _ => hg.trans ?_)
    fun g _ _ i o hg _ _ _ => hg.trans ?_
  · exact Hierarchy.sameBut_modifyMethod g i.ref fun _ => rfl
  · exact Hierarchy.sameBut_modifyMethod g i.ref fun n => sansUnity_force n o.name

/-- Where an interface has no methods to unify nothing changes. -/
theorem unifyInterface_eq_self {isPrimary : String → Bool} {loaded : List String} {cls : String}
    {h : Hierarchy}
    (hno : ¬ (h.class? cls).any fun c => c.isInterface && !(interfaceMethods c).isEmpty) :
    unifyInterface isPrimary loaded cls h = h := by
  unfold unifyInterface
  cases hc : h.class? cls with
  | none => rfl
  | some c =>
    cases hi : c.isInterface with
    | false => simp [hi]
    | true =>
      have hnil : interfaceMethods c = [] := by simpa [hc, hi] using hno
      simp [hi, hnil]

theorem hierarchy_unify (r : Resolution) (cls : String) : (r.unify cls).path.hierarchy =
    unifyInterface r.path.isPrimary (r.path.ask [cls]).loaded cls r.path.hierarchy := by
  unfold unify
  dsimp only
  split
  · rfl
  · next hno => exact (unifyInterface_eq_self hno).symm

/-! ## All passes over a class -/

/-- The hierarchy when the methods of the class have been linked. -/
def linkedAt (names : Names) (cls : String) (h : Hierarchy) : Hierarchy :=
  linkMethods cls (resolveBounces cls (nameEnums names cls h)).1

/-- The hierarchy when the contracts of the class have been bound, if it has to
have them bound. -/
def boundAt (names : Names) (cls : String) (isAbstract : Bool) (h : Hierarchy) : Hierarchy :=
  if isAbstract then linkedAt names cls h else (bindContracts cls (linkedAt names cls h)).1

theorem settle_of_none {names : Names} {cls : String} {h : Hierarchy}
    (hc : h.class? cls = none) : settle names cls h = (h, []) := by
  simp [settle, hc]

theorem settle_fst {names : Names} {cls : String} {h : Hierarchy} {c : ClassNode}
    (hc : h.class? cls = some c) :
    (settle names cls h).1 = ((boundAt names cls c.isAbstract h).modifyClass cls
      nameAccessors).modifyClass cls markResolved := by
  cases ha : c.isAbstract <;>
    simp [settle, hc, ha, boundAt, linkedAt, resolveComponents]

@[simp]
theorem bare_sansBounce (m : MethodNode) : m.sansBounce.bare = m.bare := by
  cases hb : m.bounce <;> simp [MethodNode.sansBounce, MethodNode.bare, hb, MethodNode.ref]

theorem alike_resolveBounces (cls : String) (h : Hierarchy) : Alike h (resolveBounces cls h).1 :=
  (sameBut_resolveBounces cls h).alike_of bare_sansBounce

theorem alike_linkMethod (cls : String) (h : Hierarchy) (m : MemberRef) :
    Alike h (linkMethod cls h m) :=
  (sameBut_linkMethod cls h m).alike_of fun _ => rfl

theorem alike_linkMethods (cls : String) (h : Hierarchy) : Alike h (linkMethods cls h) :=
  (sameBut_linkMethods cls h).alike_of fun _ => rfl

theorem alike_linkedAt (names : Names) (cls : String) (h : Hierarchy) :
    Alike h (linkedAt names cls h) :=
  ((alike_nameEnums names cls h).trans (alike_resolveBounces cls _)).trans (alike_linkMethods cls _)

theorem alike_boundAt (names : Names) (cls : String) (isAbstract : Bool) (h : Hierarchy) :
    Alike h (boundAt names cls isAbstract h) := by
  unfold boundAt
  split
  · exact alike_linkedAt names cls h
  · exact (alike_linkedAt names cls h).trans ((sameBut_bindContracts cls _).alike_of fun _ => rfl)

@[simp]
theorem bare_nameAccessors (c : ClassNode) : (nameAccessors c).bare = c.bare := by
  simp [nameAccessors, ClassNode.bare, nameAccessor]

theorem alike_settle (names : Names) (cls : String) (h : Hierarchy) :
    Alike h (settle names cls h).1 := by
  cases hc : h.class? cls with
  | none =>
    rw [settle_of_none hc]
    exact .refl h
  | some c =>
    rw [settle_fst hc]
    exact ((alike_boundAt names cls c.isAbstract h).trans
      (Hierarchy.alike_modifyClass _ cls bare_nameAccessors)).trans
      (Hierarchy.alike_modifyClass _ cls fun _ => rfl)

theorem isResolved_boundAt (names : Names) (cls : String) (isAbstract : Bool) (h : Hierarchy)
    (name : String) : (boundAt names cls isAbstract h).isResolved name = h.isResolved name := by
  have hl : (linkedAt names cls h).isResolved name = h.isResolved name := by
    rw [linkedAt, (sameBut_linkMethods cls _).isResolved, (sameBut_resolveBounces cls _).isResolved,
      isResolved_nameEnums]
  unfold boundAt
  split
  · exact hl
  · rw [(sameBut_bindContracts cls _).isResolved, hl]

/-- A class that is there is resolved afterwards, and no other is. -/
theorem isResolved_settle (names : Names) (cls : String) (h : Hierarchy) (name : String) :
    (settle names cls h).1.isResolved name =
      (h.isResolved name || (cls == name && (h.class? name).isSome)) := by
  cases hc : h.class? cls with
  | none =>
    rw [settle_of_none hc]
    by_cases hn : cls = name
    · simp [← hn, hc]
    · simp [hn]
  | some c =>
    have hkept : ∀ d, (nameAccessors d).resolved = d.resolved := fun _ => rfl
    have hr := (Hierarchy.isResolved_modifyClass _ cls hkept name).trans
      (isResolved_boundAt names cls c.isAbstract h name)
    rw [settle_fst hc, Hierarchy.isResolved, Hierarchy.class?_modifyClass]
    by_cases hn : cls = name
    · subst hn
      have hs := ((alike_boundAt names cls c.isAbstract h).trans
        (Hierarchy.alike_modifyClass _ cls bare_nameAccessors)).isSome_class? cls
      rw [hc] at hs
      obtain ⟨d, hd⟩ := Option.isSome_iff_exists.mp hs.symm
      simp [hd, markResolved, hc]
    · rw [if_neg hn, ← Hierarchy.isResolved, hr]
      simp [hn]

end Resolution
end Lineage
