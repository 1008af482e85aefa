import Lineage.Proofs.Hierarchy.Agreement
import Lineage.Proofs.Resolution.Frame

/-!
Walks through hierarchies that agree.

A walk enters no viewpoint twice and goes on from one only if its class and its
method are there, so it never runs out of fuel.  Two walks that begin at the
same viewpoint in hierarchies that agree there enter the same viewpoints and
come to the same answer, however much fuel each of them has got beyond that.
-/

namespace Lineage

open Std (ExtTreeMap ExtTreeSet)

namespace Resolution
namespace Walk

open Hierarchy (Agree SameBut)

/-! ## The viewpoints that are left -/

/-- All viewpoints that can be walked from. -/
def points (h : Hierarchy) : List Viewpoint :=
  (h.classes.values.flatMap fun c => c.methods.values.map MethodNode.ref).flatMap fun m =>
    h.classes.keys.map fun name => ⟨m, name⟩

theorem length_flatMap_refs (classes : List ClassNode) :
    (classes.flatMap fun c => c.methods.values.map MethodNode.ref).length =
      classes.foldr (fun c total => c.methods.size + total) 0 := by
  induction classes with
  | nil => rfl
  | cons c classes ih =>
    rw [List.flatMap_cons, List.length_append, List.length_map, ih, List.foldr_cons,
      values_eq_map_toList, List.length_map, ExtTreeMap.length_toList]

theorem length_points (h : Hierarchy) : (points h).length = viewpointCount h := by
  rw [points, viewpointCount, ← length_flatMap_refs, List.length_flatMap]
  simp only [List.length_map, ExtTreeMap.length_keys, List.map_const', List.sum_replicate_nat]

/-- How many viewpoints are left to walk from. -/
def left (h : Hierarchy) (seen : List Viewpoint) : Nat := (points h).countP (· ∉ seen)

theorem left_lt (h : Hierarchy) (seen : List Viewpoint) : left h seen < viewpointCount h + 1 := by
  rw [← length_points]
  exact Nat.lt_succ_of_le List.countP_le_length

theorem left_cons_le (h : Hierarchy) (seen : List Viewpoint) (v : Viewpoint) :
    left h (v :: seen) ≤ left h seen := by
  refine List.countP_mono_left fun w _ hw => ?_
  simp only [List.mem_cons, not_or, decide_eq_true_eq] at hw ⊢
  exact hw.2

/-- The reference is that of a method which it leads to. -/
def Known (h : Hierarchy) (r : MemberRef) : Prop := (h.method? r).map MethodNode.ref = some r

theorem mem_points {h : Hierarchy} {r : MemberRef} {name : String} (hr : Known h r)
    (hn : (h.class? name).isSome) : ⟨r, name⟩ ∈ points h := by
  obtain ⟨m, hm, href⟩ := Option.map_eq_some_iff.mp hr
  obtain ⟨c, hc, hcm⟩ := Hierarchy.method?_eq_some.mp hm
  refine List.mem_flatMap.mpr ⟨r, List.mem_flatMap.mpr ⟨c, mem_values_iff.mpr ⟨_, hc⟩, ?_⟩, ?_⟩
  · exact List.mem_map.mpr ⟨m, mem_values_iff.mpr ⟨_, hcm⟩, href⟩
  · exact List.mem_map.mpr ⟨name, Hierarchy.mem_keys_of_class? hn, rfl⟩

theorem left_cons_lt {h : Hierarchy} {seen : List Viewpoint} {r : MemberRef} {name : String}
    (hr : Known h r) (hn : (h.class? name).isSome) (hseen : ⟨r, name⟩ ∉ seen) :
    left h (⟨r, name⟩ :: seen) < left h seen := by
  refine Graph.countP_lt_countP (fun w hw => ?_) (mem_points hr hn) ?_ ?_
  · simp only [List.mem_cons, not_or, decide_eq_true_eq] at hw ⊢
    exact hw.2
  · simp
  · simpa using hseen

theorem ref_of_sansBounce {m n : MethodNode} (h : m.sansBounce = n.sansBounce) :
    m.ref = n.ref := by
  show m.sansBounce.ref = n.sansBounce.ref
  rw [h]

theorem Known.of_sameBut {h h' : Hierarchy} {r : MemberRef} (hr : Known h r)
    (hh : SameBut MethodNode.sansBounce h h') : Known h' r := by
  obtain ⟨m, hm, href⟩ := Option.map_eq_some_iff.mp hr
  obtain ⟨m', hm', hview⟩ := hh.exists_method hm
  rw [Known, hm', Option.map_some, ref_of_sansBounce hview, href]

theorem Known.of_agree {S : String → Prop} {h h' : Hierarchy} {r : MemberRef} (hr : Known h r)
    (hh : Agree S h h') (hS : S r.owner) : Known h' r := by
  rw [Known, ← hh.method?_eq hS]
  exact hr

theorem isSome_class?_of_sameBut {h h' : Hierarchy}
    (hh : SameBut MethodNode.sansBounce h h') (name : String) :
    (h.class? name).isSome = (h'.class? name).isSome :=
  (hh.alike_of bare_sansBounce).isSome_class? name

/-! ## Two walks side by side -/

/-- Two walks that began in `h` and in `h'` have come to the same, and have got
fuel enough for the viewpoints that are left. -/
structure Abreast (S : String → Prop) (h h' : Hierarchy) (n n' : Nat) (w w' : Walk) : Prop where
  agree : Agree S w.hierarchy w'.hierarchy
  findings : w.findings = w'.findings
  seen : w.seen = w'.seen
  since : SameBut MethodNode.sansBounce h w.hierarchy
  since' : SameBut MethodNode.sansBounce h' w'.hierarchy
  fuel : left h w.seen < n
  fuel' : left h' w'.seen < n'

/-- From states in `R` the two walks come to the same answer, and stay in
`R`. -/
def Twin {α : Type} (R : Walk → Walk → Prop) (x y : StateM Walk α) : Prop :=
  ∀ w w', R w w' → (x.run w).1 = (y.run w').1 ∧ R (x.run w).2 (y.run w').2

section

variable {α β : Type} {R : Walk → Walk → Prop}

theorem Twin.pure (a : α) : Twin R (pure a) (pure a) := fun _ _ hw => ⟨rfl, hw⟩

theorem Twin.bind {x y : StateM Walk α} {f g : α → StateM Walk β} (hx : Twin R x y)
    (hf : ∀ a, Twin R (f a) (g a)) : Twin R (x >>= f) (y >>= g) := by
  intro w w' hw
  obtain ⟨ha, hw⟩ := hx w w' hw
  show (f (x.run w).1 (x.run w).2).1 = (g (y.run w').1 (y.run w').2).1 ∧
    R (f (x.run w).1 (x.run w).2).2 (g (y.run w').1 (y.run w').2).2
  rw [← ha]
  exact hf _ _ _ hw

/-- What is read from the states may differ, as long as it does not show. -/
theorem Twin.get {f g : Walk → StateM Walk β}
    (hf : ∀ w w', R w w' → ((f w).run w).1 = ((g w').run w').1 ∧
      R ((f w).run w).2 ((g w').run w').2) : Twin R (get >>= f) (get >>= g) := hf

theorem Twin.firstSome {step step' : α → StateM Walk (Option β)} {as : List α}
    (hs : ∀ a ∈ as, Twin R (step a) (step' a)) :
    Twin R (firstSome step as) (firstSome step' as) := by
  induction as with
  | nil => exact .pure _
  | cons a as ih =>
    unfold Walk.firstSome
    refine .bind (hs a List.mem_cons_self) fun r => ?_
    cases r with
    | some b => exact .pure _
    | none => exact ih fun b hb => hs b (List.mem_cons_of_mem a hb)

end

section

variable {S : String → Prop} {h h' : Hierarchy} {n n' : Nat}

theorem twin_report (f : Finding) :
    Twin (Abreast S h h' n n') (report f) (report f) := fun _ _ hw =>
  ⟨rfl, { hw with findings := congrArg (· ++ [f]) hw.findings }⟩

theorem inside_land {m : MethodNode} (hm : m.Inside S) (root : MemberRef) :
    (m.land root).Inside S where
  forwarders := hm.forwarders
  target b hb := by
    obtain ⟨b', hb', rfl⟩ := Option.map_eq_some_iff.mp hb
    exact hm.target b' hb'

theorem bare_land (m : MethodNode) (root : MemberRef) : (m.land root).bare = m.bare := by
  rw [← bare_sansBounce, sansBounce_land, bare_sansBounce]

theorem twin_land (bouncer root : MemberRef) :
    Twin (Abreast S h h' n n') (land bouncer root) (land bouncer root) := by
  intro w w' hw
  have hland : ∀ g : Hierarchy,
      SameBut MethodNode.sansBounce g (g.modifyMethod bouncer (·.land root)) := fun g =>
    Hierarchy.sameBut_modifyMethod g bouncer fun m => sansBounce_land m root
  have hagree := hw.agree.modifyMethod bouncer (fun m => bare_land m root)
    fun m hm => inside_land hm root
  exact ⟨rfl,
    { hw with
      agree := hagree
      since := hw.since.trans (hland _)
      since' := hw.since'.trans (hland _) }⟩

theorem twin_settle (bouncer : MemberRef) {declared : MethodNode} {cls : String}
    (hd : S declared.owner) (hc : S cls) :
    Twin (Abreast S h h' n n') (settle bouncer declared cls) (settle bouncer declared cls) := by
  unfold settle
  refine .get fun w w' hw => ?_
  rw [hw.agree.overrideRoots_eq (r := declared.ref) hd hc]
  refine (?_ : Twin (Abreast S h h' n n') _ _) w w' hw
  split
  · exact .pure _
  · exact .pure _
  · exact .bind (twin_report _) fun _ => .pure _

theorem twin_through {walk walk' : MemberRef → String → StateM Walk (Option MemberRef)}
    {cls : String} (hwalk : ∀ method, Known h method → S method.owner →
      Twin (Abreast S h h' n n') (walk method cls) (walk' method cls))
    (declared : MemberRef) {via : MemberRef} (hvia : S via.owner) :
    Twin (Abreast S h h' n n') (through walk declared cls via)
      (through walk' declared cls via) := by
  unfold through
  refine .get fun w w' hw => ?_
  rw [← hw.agree.method?_eq hvia]
  refine (?_ : Twin (Abreast S h h' n n') _ _) w w' hw
  split
  · exact .pure _
  · next forwarder hf =>
    have hknown : Known h forwarder.ref := by
      refine Known.of_sameBut ?_ hw.since.symm
      rw [Known, hw.agree.keyed.method?_ref hf, Option.map_some]
    have howner : S forwarder.ref.owner := by
      rw [show forwarder.ref.owner = via.owner from (hw.agree.keyed.slot_eq hf).1]
      exact hvia
    split
    · exact .pure _
    · split
      · exact .pure _
      · refine .bind (hwalk _ hknown howner) fun found => ?_
        split
        · exact .bind (twin_land via _) fun _ => .pure _
        · exact .bind (twin_report _) fun _ => .pure _

/-- What a walk does in a class that it has entered. -/
def look (walk : MemberRef → String → StateM Walk (Option MemberRef)) (method : MemberRef)
    (cls : String) (c : ClassNode) : StateM Walk (Option MemberRef) := do
  let declared := (c.method? method.key).filter fun d => d.isInheritable || cls == method.owner
  let found ← match declared with
    | none => pure none
    | some d =>
      if d.isBouncer then firstSome (through walk d.ref cls) d.forwarders.toList
      else some <$> settle method d cls
  match found with
  | some root => return some root
  | none => firstSome (walk method) c.supertypes

theorem run_bind {α β : Type} (x : StateM Walk α) (f : α → StateM Walk β) (w : Walk) :
    (x >>= f).run w = (f (x.run w).1).run (x.run w).2 := rfl

theorem run_enter (v : Viewpoint) (w : Walk) :
    (enter v).run w =
      if v ∈ w.seen then (false, w) else (true, { w with seen := v :: w.seen }) := by
  unfold enter
  rw [run_bind]
  show StateT.run (if v ∈ w.seen then _ else _) w = _
  split <;> rfl

theorem run_walk_succ (fuel : Nat) (method : MemberRef) (cls : String) (w : Walk) :
    (walk (fuel + 1) method cls).run w =
      if ⟨method, cls⟩ ∈ w.seen then (none, w)
      else
        match w.hierarchy.class? cls with
        | none => (none, { w with seen := ⟨method, cls⟩ :: w.seen })
        | some c =>
          (look (walk fuel) method cls c).run { w with seen := ⟨method, cls⟩ :: w.seen } := by
  unfold walk
  rw [run_bind, run_enter]
  split
  · rfl
  · show StateT.run (match w.hierarchy.class? cls with | none => _ | some c => _) _ = _
    split <;> rfl

theorem twin_look {walk walk' : MemberRef → String → StateM Walk (Option MemberRef)}
    {method : MemberRef} {cls : String} {c : ClassNode}
    (hdeclared : ∀ d, c.method? method.key = some d → S d.owner ∧ ∀ f ∈ d.forwarders, S f.owner)
    (hcls : S cls) (hup : ∀ s ∈ c.supertypes, S s)
    (hvia : ∀ r, Known h r → S r.owner →
      Twin (Abreast S h h' n n') (walk r cls) (walk' r cls))
    (hwalk : ∀ s, S s → Twin (Abreast S h h' n n') (walk method s) (walk' method s)) :
    Twin (Abreast S h h' n n') (look walk method cls c) (look walk' method cls c) := by
  have hnext : ∀ found : Option MemberRef, Twin (Abreast S h h' n n')
      (match found with
        | some root => return some root
        | none => firstSome (walk method) c.supertypes)
      (match found with
        | some root => return some root
        | none => firstSome (walk' method) c.supertypes) := by
    intro found
    cases found with
    | some root => exact .pure _
    | none => exact .firstSome fun s hs => hwalk s (hup s hs)
  unfold look
  dsimp only
  split
  · exact .bind (.pure _) hnext
  · next d hd =>
    obtain ⟨howner, hforwarders⟩ := hdeclared d (Option.filter_eq_some_iff.mp hd).1
    split
    · refine .bind (.firstSome fun via hv => ?_) hnext
      exact twin_through hvia d.ref (hforwarders via (ExtTreeSet.mem_toList.mp hv))
    · exact .bind (.bind (twin_settle method howner hcls) fun _ => .pure _) hnext

/-- A viewpoint that is entered was one of those left, in both hierarchies. -/
theorem Abreast.enter {w w' : Walk} (hw : Abreast S h h' (n + 1) (n' + 1) w w')
    {method : MemberRef} {cls : String} (hm : Known h method) (ho : S method.owner) (hc : S cls)
    (hloaded : (w.hierarchy.class? cls).isSome) (hseen : ⟨method, cls⟩ ∉ w.seen) :
    Abreast S h h' n n' { w with seen := ⟨method, cls⟩ :: w.seen }
      { w' with seen := ⟨method, cls⟩ :: w.seen } where
  agree := hw.agree
  findings := hw.findings
  seen := rfl
  since := hw.since
  since' := hw.since'
  fuel := by
    rw [← isSome_class?_of_sameBut hw.since] at hloaded
    have hlt := left_cons_lt hm hloaded hseen
    have hfuel := hw.fuel
    show left h (⟨method, cls⟩ :: w.seen) < n
    omega
  fuel' := by
    have hknown : Known h' method :=
      ((hm.of_sameBut hw.since).of_agree hw.agree ho).of_sameBut hw.since'.symm
    rw [hw.agree.class?_eq hc, ← isSome_class?_of_sameBut hw.since'] at hloaded
    have hlt := left_cons_lt hknown hloaded hseen
    have hfuel := hw.fuel'
    rw [← hw.seen] at hfuel
    show left h' (⟨method, cls⟩ :: w.seen) < n'
    omega

/-- Walks in hierarchies that agree, with fuel for the viewpoints that are
left. -/
theorem twin_walk {method : MemberRef} {cls : String} (hm : Known h method) (ho : S method.owner)
    (hc : S cls) :
    Twin (Abreast S h h' n n') (walk n method cls) (walk n' method cls) := by
  induction n generalizing n' method cls with
  | zero => exact fun w w' hw => absurd hw.fuel (Nat.not_lt_zero _)
  | succ n ih =>
    cases n' with
    | zero => exact fun w w' hw => absurd hw.fuel' (Nat.not_lt_zero _)
    | succ n' =>
      intro w w' hw
      rw [run_walk_succ, run_walk_succ, ← hw.seen, ← hw.agree.class?_eq hc]
      split
      · exact ⟨rfl, hw⟩
      · next hseen =>
        split
        · refine ⟨rfl, { hw with seen := rfl, fuel := ?_, fuel' := ?_ }⟩
          · exact Nat.lt_of_le_of_lt (left_cons_le h w.seen _) hw.fuel
          · exact Nat.lt_of_le_of_lt (left_cons_le h' w.seen _) (hw.seen ▸ hw.fuel')
        · next c hsome =>
          have hdeclared : ∀ d, c.method? method.key = some d →
              S d.owner ∧ ∀ f ∈ d.forwarders, S f.owner := by
            intro d hd
            obtain ⟨hown, _, href⟩ := hw.agree.keyed.of_mem_class hsome hd
            have hd' : S d.owner := by rwa [hown]
            exact ⟨hd', (hw.agree.inside hd' href).forwarders⟩
          have hup : ∀ s ∈ c.supertypes, S s := fun s hs =>
            hw.agree.closed hc
              ⟨c.supertypes, congrArg (Option.map ClassNode.supertypes) hsome, hs⟩
          obtain ⟨hanswer, hend⟩ := twin_look hdeclared hc hup (fun r hr hS => ih hr hS hc)
            (fun s hs => ih hm ho hs) _ _ (hw.enter hm ho hc (by rw [hsome]; rfl) hseen)
          exact ⟨hanswer, { hend with
            fuel := Nat.lt_succ_of_lt hend.fuel
            fuel' := Nat.lt_succ_of_lt hend.fuel' }⟩

end

end Walk
end Resolution
end Lineage
