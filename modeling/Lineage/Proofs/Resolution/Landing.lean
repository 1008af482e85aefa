import Lineage.Proofs.Graph.Seeking
import Lineage.Proofs.Resolution.Binding
import Lineage.Proofs.Resolution.Contributions
import Lineage.Proofs.Resolution.Forwarding
import Lineage.Proofs.Resolution.Walks

/-!
Where a bouncer lands.

The walk for a bouncer whose forwarders do not lead on goes depth first through
the classes above, as far as the first declaration that ends it.  The bouncer
lands at the least root of this declaration.  The walk goes by keys: what ends it
may have another name than the bouncer.
-/

namespace Lineage

open Std (ExtTreeSet)
open Relation (ReflTransGen)

namespace Resolution

open Hierarchy (Alike Keyed SameBut)

namespace Walk

variable {g : Hierarchy} {a : String} {b r : MemberRef} {c : ClassNode}

/-- The root that is chosen where a walk ends at the declaration `d`. -/
def chosenRoot (h : Hierarchy) (d : MemberRef) : MemberRef :=
  (h.overrideRoots d d.owner).toList.headD d

/-- What is reported where the walk for `bouncer` ends at the declaration `d`. -/
def choices (h : Hierarchy) (bouncer d : MemberRef) : List Finding :=
  if 2 ≤ (h.overrideRoots d d.owner).toList.length then
    [.ambiguousBounce bouncer (h.overrideRoots d d.owner).toList (chosenRoot h d)]
  else []

theorem choices_eq (h : Hierarchy) (bouncer d : MemberRef) : choices h bouncer d =
    if 2 ≤ (h.overrideRoots d d.owner).size then
      [.ambiguousBounce bouncer (h.overrideRoots d d.owner).toList (chosenRoot h d)]
    else [] := by
  rw [← ExtTreeSet.length_toList, choices]

/-- The declaration at which a walk for the bouncer `b` ends when it comes to
the class: one that is no bouncer and that subclasses may override. -/
def endsAt? (h : Hierarchy) (b : MemberRef) (a : String) : Option MemberRef :=
  ((h.method? (b.withOwner a)).filter fun d => !d.isBouncer && d.isInheritable).map MethodNode.ref

/-! ## Single steps -/

theorem run_firstSome_cons {α β : Type} (step : α → StateM Walk (Option β)) (x : α) (xs : List α)
    (w : Walk) : (firstSome step (x :: xs)).run w =
      match ((step x).run w).1 with
      | some y => (some y, ((step x).run w).2)
      | none => (firstSome step xs).run ((step x).run w).2 := by
  rw [firstSome, run_bind]
  cases ((step x).run w).1 <;> rfl

theorem run_settle {d : MethodNode} (hd : d.owner = a) (w : Walk) :
    (settle b d a).run w = (chosenRoot w.hierarchy d.ref,
      { w with findings := w.findings ++ choices w.hierarchy b d.ref }) := by
  have howner : d.ref.owner = a := hd
  have hget : (get : StateM Walk Walk).run w = (w, w) := rfl
  rw [settle, run_bind, hget, chosenRoot, choices, chosenRoot, howner]
  dsimp only
  cases (w.hierarchy.overrideRoots d.ref a).toList with
  | nil => simp; rfl
  | cons root more =>
    cases more with
    | nil => simp; rfl
    | cons other more => simp; rfl

theorem run_look_of_ends (hk : Keyed g) (hc : g.class? a = some c) (hr : endsAt? g b a = some r)
    (walk : MemberRef → String → StateM Walk (Option MemberRef)) {w : Walk}
    (hw : w.hierarchy = g) : (look walk b a c).run w =
      (some (chosenRoot g r), { w with findings := w.findings ++ choices g b r }) := by
  obtain ⟨d, hd, rfl⟩ := Option.map_eq_some_iff.mp hr
  obtain ⟨hd, hflags⟩ := Option.filter_eq_some_iff.mp hd
  obtain ⟨hbouncer, hinheritable⟩ := Bool.and_eq_true_iff.mp hflags
  obtain ⟨c', hc', hcd⟩ := Hierarchy.method?_eq_some.mp hd
  cases hc.symm.trans hc'
  have hdeclared : (c.method? b.key).filter (fun d => d.isInheritable || a == b.owner) =
      some d := by
    rw [show c.method? b.key = some d from hcd, Option.filter_some, hinheritable]
    rfl
  have hsettle := run_settle (b := b) (show d.owner = a from (hk.slot_eq hd).1) w
  have hmap : (some <$> settle b d a).run w =
      (some ((settle b d a).run w).1, ((settle b d a).run w).2) := rfl
  subst hw
  simp only [look, hdeclared]
  rw [if_neg (by simpa using hbouncer), run_bind, hmap, hsettle]
  rfl

theorem run_look_of_passes (hc : g.class? a = some c) (hr : endsAt? g b a = none)
    (hself : ∀ d, g.method? b = some d → d.isBouncer)
    (hquiet : ∀ d, g.method? (b.withOwner a) = some d → d.isBouncer → d.forwarders = ∅)
    (walk : MemberRef → String → StateM Walk (Option MemberRef)) (w : Walk) :
    (look walk b a c).run w = (firstSome (walk b) c.supertypes).run w := by
  unfold look
  dsimp only
  split
  · rfl
  · next d hd =>
    obtain ⟨hcd, hflags⟩ := Option.filter_eq_some_iff.mp hd
    have hmethod : g.method? (b.withOwner a) = some d := Hierarchy.method?_eq_some.mpr ⟨c, hc, hcd⟩
    have hbouncer : d.isBouncer := by
      by_contra hno
      rcases Bool.or_eq_true_iff.mp hflags with hi | ho
      · simp [endsAt?, hmethod, hno, hi] at hr
      · cases eq_of_beq ho
        exact hno (hself d hmethod)
    rw [if_pos hbouncer, hquiet d hmethod hbouncer]
    rfl

/-! ## A whole walk -/

/-- How a walk for `b` ends that has found the declaration `found`, or none. -/
def ending (g : Hierarchy) (b : MemberRef) (seen : List String) (findings : List Finding)
    (found : Option MemberRef) : Option MemberRef × Walk :=
  (found.map (chosenRoot g),
    ⟨g, findings ++ found.elim [] (choices g b), seen.map (Viewpoint.mk b)⟩)

theorem not_mem_map_mk {seen : List String} (ha : a ∉ seen) :
    Viewpoint.mk b a ∉ seen.map (Viewpoint.mk b) := by
  intro hmem
  obtain ⟨a', ha', heq⟩ := List.mem_map.mp hmem
  cases heq
  exact ha ha'

/-- Entering a class takes one of the viewpoints that are left. -/
theorem left_enter {seen : List String} {n : Nat} (hb : Known g b) (hc : (g.class? a).isSome)
    (ha : a ∉ seen) (hlt : left g (seen.map (Viewpoint.mk b)) < n + 1) :
    left g ((a :: seen).map (Viewpoint.mk b)) < n := by
  have hless := left_cons_lt hb hc (not_mem_map_mk ha)
  rw [List.map_cons]
  omega

theorem left_of_subset {seen seen' : List String} {n : Nat} (hsub : ∀ a ∈ seen, a ∈ seen')
    (hlt : left g (seen.map (Viewpoint.mk b)) < n) :
    left g (seen'.map (Viewpoint.mk b)) < n := by
  refine Nat.lt_of_le_of_lt (List.countP_mono_left fun v _ hv => ?_) hlt
  simp only [decide_eq_true_eq] at hv ⊢
  intro hmem
  obtain ⟨a, ha, rfl⟩ := List.mem_map.mp hmem
  exact hv (List.mem_map_of_mem (hsub a ha))

theorem run_walk_missing {seen : List String} (ha : a ∉ seen) (hc : g.class? a = none) (n : Nat)
    (fs : List Finding) : (walk (n + 1) b a).run ⟨g, fs, seen.map (Viewpoint.mk b)⟩ =
      (none, ⟨g, fs, (a :: seen).map (Viewpoint.mk b)⟩) := by
  rw [run_walk_succ, if_neg (not_mem_map_mk ha), hc]
  rfl

theorem run_walk_enter {seen : List String} (ha : a ∉ seen) (hc : g.class? a = some c) (n : Nat)
    (fs : List Finding) : (walk (n + 1) b a).run ⟨g, fs, seen.map (Viewpoint.mk b)⟩ =
      (look (walk n) b a c).run ⟨g, fs, (a :: seen).map (Viewpoint.mk b)⟩ := by
  rw [run_walk_succ, if_neg (not_mem_map_mk ha), hc]
  rfl

/-- A bouncer that no forwarders lead away from is walked up the classes, as far
as the first declaration that ends the walk. -/
theorem run_firstSome_walk (hk : Keyed g) (hb : Known g b)
    (hself : ∀ d, g.method? b = some d → d.isBouncer) {seen nodes asked : List String}
    {found : Option MemberRef}
    (hs : Graph.Seeks g.supertypeGraph (endsAt? g b) seen nodes asked found)
    (hquiet : ∀ a ∈ asked, ∀ d, g.method? (b.withOwner a) = some d → d.isBouncer →
      d.forwarders = ∅) {fuel : Nat} {fs : List Finding}
    (hfuel : left g (seen.map (Viewpoint.mk b)) < fuel) :
    (firstSome (walk fuel b) nodes).run ⟨g, fs, seen.map (Viewpoint.mk b)⟩ =
      ending g b (asked.reverse ++ seen) fs found := by
  induction hs generalizing fuel fs with
  | done seen => simp [ending, firstSome]; rfl
  | @again seen nodes asked a found ha hrest ih =>
    obtain ⟨n, rfl⟩ := Nat.exists_eq_add_one_of_ne_zero (Nat.ne_zero_of_lt hfuel)
    rw [run_firstSome_cons, run_walk_succ, if_pos (List.mem_map_of_mem ha)]
    exact ih hquiet hfuel
  | @hit seen nodes a r ha hr =>
    obtain ⟨n, rfl⟩ := Nat.exists_eq_add_one_of_ne_zero (Nat.ne_zero_of_lt hfuel)
    obtain ⟨d, hd, _⟩ := Option.map_eq_some_iff.mp hr
    obtain ⟨c, hc, _⟩ := Hierarchy.method?_eq_some.mp (Option.filter_eq_some_iff.mp hd).1
    change g.class? a = some c at hc
    rw [run_firstSome_cons, run_walk_enter ha hc, run_look_of_ends hk hc hr _ rfl]
    rfl
  | @stuck seen nodes asked a found ha hr hn hrest ih =>
    obtain ⟨n, rfl⟩ := Nat.exists_eq_add_one_of_ne_zero (Nat.ne_zero_of_lt hfuel)
    have hc : g.class? a = none := Option.map_eq_none_iff.mp hn
    rw [run_firstSome_cons, run_walk_missing ha hc,
      ih (fun x hx => hquiet x (List.mem_cons_of_mem a hx))
        (left_of_subset (fun x hx => List.mem_cons_of_mem a hx) hfuel)]
    simp
  | @under seen nodes successors asked a r ha hr hn hbelow ih =>
    obtain ⟨n, rfl⟩ := Nat.exists_eq_add_one_of_ne_zero (Nat.ne_zero_of_lt hfuel)
    obtain ⟨c, hc, rfl⟩ := Option.map_eq_some_iff.mp hn
    rw [run_firstSome_cons, run_walk_enter ha hc,
      run_look_of_passes hc hr hself (hquiet a List.mem_cons_self),
      ih (fun x hx => hquiet x (List.mem_cons_of_mem a hx))
        (left_enter hb (Option.isSome_of_eq_some hc) ha hfuel)]
    simp [ending]
  | @past seen nodes successors below asked a found ha hr hn hbelow hrest ihbelow ih =>
    obtain ⟨n, rfl⟩ := Nat.exists_eq_add_one_of_ne_zero (Nat.ne_zero_of_lt hfuel)
    obtain ⟨c, hc, rfl⟩ := Option.map_eq_some_iff.mp hn
    rw [run_firstSome_cons, run_walk_enter ha hc,
      run_look_of_passes hc hr hself (hquiet a List.mem_cons_self),
      ihbelow (fun x hx => hquiet x (List.mem_cons_of_mem a (List.mem_append_left _ hx)))
        (left_enter hb (Option.isSome_of_eq_some hc) ha hfuel)]
    refine (ih (fun x hx => hquiet x (List.mem_cons_of_mem a (List.mem_append_right _ hx)))
      (left_of_subset (fun x hx => List.mem_append_right _ (List.mem_cons_of_mem a hx))
        hfuel)).trans ?_
    simp [ending]

theorem run_firstSome_singleton {α β : Type} (step : α → StateM Walk (Option β)) (x : α)
    (w : Walk) : (firstSome step [x]).run w = (step x).run w := by
  rw [run_firstSome_cons]
  generalize (step x).run w = answer
  obtain ⟨found, w'⟩ := answer
  cases found <;> rfl

/-- A bouncer lands where the first of its class and those above ends the walk.
No root within its own class is noted. -/
theorem landBouncer_eq (hk : Keyed g) (hb : Known g b)
    (hself : ∀ d, g.method? b = some d → d.isBouncer)
    (hquiet : ∀ a d, ReflTransGen g.supertypeGraph.Edge b.owner a →
      g.method? (b.withOwner a) = some d → d.isBouncer → d.forwarders = ∅) :
    landBouncer b.owner b g =
      match (g.supertypeGraph.depthFirst b.owner).findSome? (endsAt? g b) with
      | none => (g, [])
      | some d => (if (chosenRoot g d).owner = b.owner then g
          else g.modifyMethod b (·.land (chosenRoot g d)), choices g b d) := by
  have hwalks : Graph.Walks g.supertypeGraph [] [b.owner] (g.supertypeGraph.depthFirst b.owner) :=
    Graph.walks_visit _ _ _
  obtain ⟨asked, hseeks, hinitial, _⟩ := hwalks.exists_seeks (endsAt? g b)
  have hrun : (firstSome (walk (viewpointCount g + 1) b) [b.owner]).run ⟨g, [], []⟩ = _ :=
    run_firstSome_walk hk hb hself hseeks
      (fun a ha d => hquiet a d (Graph.mem_depthFirst_iff.mp (hinitial.subset ha))) (left_lt g [])
  rw [run_firstSome_singleton] at hrun
  rw [landBouncer, hrun]
  generalize (g.supertypeGraph.depthFirst b.owner).findSome? (endsAt? g b) = found
  cases found with
  | none => rfl
  | some d =>
    show (if (chosenRoot g d).owner = b.owner then (g, choices g b d)
      else (g.modifyMethod b (·.land (chosenRoot g d)), choices g b d)) = _
    by_cases ho : (chosenRoot g d).owner = b.owner
    · simp only [if_pos ho]
    · simp only [if_neg ho]

end Walk

/-! ## Processing a bouncer -/

namespace Walk

variable {h h' : Hierarchy} {a : String} {b d : MemberRef}

theorem isBouncer_eq {m n : MethodNode} (hmn : m.sansBounce = n.sansBounce) :
    m.isBouncer = n.isBouncer := by
  have hself : ∀ m : MethodNode, m.sansBounce.isBouncer = m.isBouncer := by
    intro m
    cases hb : m.bounce <;> simp [MethodNode.sansBounce, MethodNode.bare, MethodNode.isBouncer, hb]
  rw [← hself m, hmn, hself n]

theorem endsAt?_of_sameBut (hh : SameBut MethodNode.sansBounce h h') :
    endsAt? h b = endsAt? h' b := by
  have hle : ∀ {g g' a r}, SameBut MethodNode.sansBounce g g' → endsAt? g b a = some r →
      endsAt? g' b a = some r := by
    intro g g' a r hh hr
    obtain ⟨m, hm, rfl⟩ := Option.map_eq_some_iff.mp hr
    obtain ⟨hm, hflags⟩ := Option.filter_eq_some_iff.mp hm
    obtain ⟨m', hm', hview⟩ := hh.exists_method hm
    have hbare : m'.bare = m.bare := by rw [← bare_sansBounce, hview, bare_sansBounce]
    rw [endsAt?, hm', Option.filter_some, isBouncer_eq hview, MethodNode.isInheritable_eq hbare,
      if_pos hflags, Option.map_some, MethodNode.ref_eq hbare]
  funext a
  exact Option.ext fun r => ⟨hle hh, hle hh.symm⟩

theorem overrideRoots_of_sameBut (hk : Keyed h) (hh : SameBut MethodNode.sansBounce h h')
    (r : MemberRef) (cls : String) : h.overrideRoots r cls = h'.overrideRoots r cls :=
  Hierarchy.overrideRoots_of_alike hk (hh.alike_of bare_sansBounce)
    ((hh.map MethodNode.forwarders).method? ·) ((hh.map MethodNode.overrides).method? ·) r cls

theorem chosenRoot_of_sameBut (hk : Keyed h) (hh : SameBut MethodNode.sansBounce h h') :
    chosenRoot h = chosenRoot h' := by
  funext d
  rw [chosenRoot, chosenRoot, overrideRoots_of_sameBut hk hh]

theorem choices_of_sameBut (hk : Keyed h) (hh : SameBut MethodNode.sansBounce h h') :
    choices h = choices h' := by
  funext b d
  rw [choices, choices, chosenRoot_of_sameBut hk hh, overrideRoots_of_sameBut hk hh]

/-- The least of the roots is chosen, or the declaration if it has none. -/
theorem chosenRoot_spec (h : Hierarchy) (d : MemberRef) :
    let roots := h.overrideRoots d d.owner
    roots = ∅ ∧ chosenRoot h d = d ∨
      chosenRoot h d ∈ roots ∧ ∀ x ∈ roots, (compare (chosenRoot h d) x).isLE := by
  intro roots
  have hsorted : roots.toList.Pairwise fun x y => compare x y = .lt := ExtTreeSet.ordered_toList
  have hchosen : chosenRoot h d = roots.toList.headD d := rfl
  rw [hchosen]
  cases hlist : roots.toList with
  | nil => exact Or.inl ⟨ExtTreeSet.toList_eq_nil_iff.mp hlist, rfl⟩
  | cons root more =>
    rw [hlist, List.pairwise_cons] at hsorted
    have hmem : root ∈ roots.toList := by
      rw [hlist]
      exact List.mem_cons_self
    refine Or.inr ⟨ExtTreeSet.mem_toList.mp hmem, fun x hx => ?_⟩
    rw [← ExtTreeSet.mem_toList, hlist, List.mem_cons] at hx
    rcases hx with rfl | hx
    · simp
    · simp [hsorted.1 x hx]

end Walk

/-- Process one bouncer of a class, given with its target. -/
def bounceFor (r : Resolution) (cls : String) (bounce : MemberRef × MemberRef) : Resolution :=
  r.advance (resolveBouncer cls (r.path.hierarchy, []) bounce)

theorem bounceFor_advance (r : Resolution) (cls : String) (passed : Hierarchy × List Finding)
    (bounce : MemberRef × MemberRef) : (r.advance passed).bounceFor cls bounce =
      r.advance (resolveBouncer cls passed bounce) := by
  simp only [bounceFor, advance, record, resolveBouncer, List.nil_append, Finding.record_append]

theorem foldl_bounceFor (r : Resolution) (cls : String) (bounces : List (MemberRef × MemberRef))
    (passed : Hierarchy × List Finding) :
    bounces.foldl (fun s b => s.bounceFor cls b) (r.advance passed) =
      r.advance (bounces.foldl (resolveBouncer cls) passed) := by
  induction bounces generalizing passed with
  | nil => rfl
  | cons b bounces ih => rw [List.foldl_cons, List.foldl_cons, bounceFor_advance, ih]

/-- Resolving the bouncers of a class is to process them one after the other. -/
theorem advance_resolveBounces (r : Resolution) (cls : String) :
    r.advance (resolveBounces cls r.path.hierarchy) =
      (bouncesOf r.path.hierarchy cls).foldl (fun s b => s.bounceFor cls b) r :=
  (foldl_bounceFor r cls _ (r.path.hierarchy, [])).symm

/-- The root that the bouncer at `b` is known to land at. -/
def landing? (h : Hierarchy) (b : MemberRef) : Option MemberRef :=
  (h.method? b).bind fun m => m.bounce.bind Bounce.landing

/-- The class declares the name and the descriptor of `b` for a method that is
no bouncer and that subclasses may override. -/
def Grounds (h : Hierarchy) (b : MemberRef) (a : String) : Prop :=
  ∃ d, h.method? (b.withOwner a) = some d ∧ d.ref = b.withOwner a ∧ d.isBouncer = false ∧
    d.isInheritable

/-- The hierarchy where a bouncer that has been pointed to `t` has landed at the
root, if this is in another class. -/
def landed (h : Hierarchy) (b t root : MemberRef) : Hierarchy :=
  if root.owner = b.owner then retarget b.owner h b t
  else (retarget b.owner h b t).modifyMethod b (·.land root)

section Processing

open Walk

variable {h : Hierarchy} {a : String} {b t d : MemberRef}

theorem endsAt?_eq_some_iff (hk : Keyed h)
    (hname : ∀ d, h.method? (b.withOwner a) = some d → d.name = b.name) :
    endsAt? h b a = some d ↔ Grounds h b a ∧ d = b.withOwner a := by
  have href : ∀ n, h.method? (b.withOwner a) = some n → n.ref = b.withOwner a := by
    intro n hn
    exact Hierarchy.eq_of_key (hk.slot_eq hn).1 (hname n hn) (hk.slot_eq hn).2
  constructor
  · intro hd
    obtain ⟨n, hn, rfl⟩ := Option.map_eq_some_iff.mp hd
    obtain ⟨hn, hflags⟩ := Option.filter_eq_some_iff.mp hn
    obtain ⟨hbouncer, hinheritable⟩ := Bool.and_eq_true_iff.mp hflags
    exact ⟨⟨n, hn, href n hn, by simpa using hbouncer, hinheritable⟩, href n hn⟩
  · rintro ⟨⟨n, hn, hnref, hbouncer, hinheritable⟩, rfl⟩
    rw [endsAt?, hn, Option.filter_some, hbouncer, hinheritable]
    exact congrArg some hnref

theorem landing?_retarget (h : Hierarchy) (cls : String) (b t q : MemberRef) :
    landing? (retarget cls h b t) q = landing? h q := by
  have hkept : ∀ (m : MethodNode) u, (m.retarget u).bounce.bind Bounce.landing =
      m.bounce.bind Bounce.landing := by
    intro m u
    rw [MethodNode.retarget, Option.bind_map]
    rfl
  have hview : SameBut (fun m => m.bounce.bind Bounce.landing) h (retarget cls h b t) := by
    unfold retarget
    split
    · exact .refl h
    · split
      · exact Hierarchy.sameBut_modifyMethod h b fun m => hkept m _
      · exact .refl h
  have hjoin := congrArg (fun o => o.bind id) (hview.method? q)
  rw [Option.bind_map, Option.bind_map] at hjoin
  exact hjoin.symm

theorem landing?_retarget_of_bounce {m : MethodNode} (hm : h.method? b = some m)
    (hbounce : m.bounce = some { target := t, landing := none }) (cls : String) :
    landing? (retarget cls h b t) b = none := by
  rw [landing?_retarget, landing?, hm, Option.bind_some, hbounce]
  rfl

theorem landing?_land {m : MethodNode} {root : MemberRef} (hm : h.method? b = some m)
    (hbouncer : m.isBouncer) : landing? (h.modifyMethod b (·.land root)) b = some root := by
  obtain ⟨bounce, hbounce⟩ := Option.isSome_iff_exists.mp hbouncer
  rw [landing?, Hierarchy.method?_modifyMethod_self, hm, Option.map_some, Option.bind_some,
    MethodNode.land, hbounce]
  rfl

theorem method?_retarget_of_ne {cls : String} {q : MemberRef}
    (hq : ¬ (b.owner = q.owner ∧ b.key = q.key)) :
    (retarget cls h b t).method? q = h.method? q := by
  unfold retarget
  split
  · rfl
  · split
    · rw [Hierarchy.method?_modifyMethod, if_neg hq]
    · rfl

theorem landing?_landed {m : MethodNode} (hm : h.method? b = some m)
    (hbounce : m.bounce = some { target := t, landing := none }) (root : MemberRef) :
    landing? (landed h b t root) b = if root.owner = b.owner then none else some root := by
  have hbouncer : m.isBouncer := by
    rw [MethodNode.isBouncer, hbounce]
    rfl
  unfold landed
  split
  · exact landing?_retarget_of_bounce hm hbounce b.owner
  · obtain ⟨m', hm', hview⟩ := (sameBut_retarget h b.owner b t).exists_method hm
    exact landing?_land hm' ((isBouncer_eq hview).trans hbouncer)

theorem method?_landed_of_ne {root q : MemberRef} (hq : ¬ (b.owner = q.owner ∧ b.key = q.key)) :
    (landed h b t root).method? q = h.method? q := by
  unfold landed
  split
  · exact method?_retarget_of_ne hq
  · rw [Hierarchy.method?_modifyMethod, if_neg hq]
    exact method?_retarget_of_ne hq

/-- A class that is there comes before all that is met above it. -/
theorem depthFirst_eq_cons {cls : String} (hc : (h.class? cls).isSome) :
    ∃ above, h.supertypeGraph.depthFirst cls = cls :: above := by
  rw [← isSome_next_supertypeGraph] at hc
  obtain ⟨l, hl⟩ := Option.isSome_iff_exists.mp hc
  exact ⟨_, Graph.visit_cons_of_some List.not_mem_nil hl⟩

/-- A walk goes past the class of the bouncer, as far as the first class above that
grounds it. -/
theorem exists_above (hk : Keyed h) {m : MethodNode} (hm : h.method? b = some m)
    (hbouncer : m.isBouncer)
    (hnames : ∀ a d, ReflTransGen h.supertypeGraph.Edge b.owner a →
      h.method? (b.withOwner a) = some d → d.name = b.name) :
    ∃ above, h.supertypeGraph.depthFirst b.owner = b.owner :: above ∧
      (h.supertypeGraph.depthFirst b.owner).findSome? (endsAt? h b) =
        above.findSome? (endsAt? h b) ∧
      ∀ a ∈ above, ∀ d, endsAt? h b a = some d ↔ Grounds h b a ∧ d = b.withOwner a := by
  obtain ⟨c, hc, _⟩ := Hierarchy.method?_eq_some.mp hm
  obtain ⟨above, hfirst⟩ := depthFirst_eq_cons (Option.isSome_of_eq_some hc)
  have hstart : endsAt? h b b.owner = none := by
    have hself : h.method? (b.withOwner b.owner) = some m := hm
    rw [endsAt?, hself, Option.filter_some, hbouncer]
    rfl
  refine ⟨above, hfirst, ?_, fun a ha d => endsAt?_eq_some_iff hk fun d hd => hnames a d ?_ hd⟩
  · rw [hfirst, List.findSome?_cons, hstart]
  · exact Graph.mem_depthFirst_iff.mp (hfirst ▸ List.mem_cons_of_mem _ ha)

/-- What processing a bouncer comes to, seen from the hierarchy before. -/
theorem resolveBouncer_eq (hk : Keyed h) {m : MethodNode} (hm : h.method? b = some m)
    (href : m.ref = b) (hbouncer : m.isBouncer)
    (hquiet : ∀ a d, ReflTransGen h.supertypeGraph.Edge b.owner a →
      h.method? (b.withOwner a) = some d → d.isBouncer → d.forwarders = ∅) (fs : List Finding) :
    let g := retarget b.owner h b t
    resolveBouncer b.owner (h, fs) (b, t) =
      match (h.supertypeGraph.depthFirst b.owner).findSome? (endsAt? h b) with
      | none => (g, fs)
      | some d => (landed h b t (chosenRoot h d), fs ++ choices h b d) := by
  intro g
  have hsame : SameBut MethodNode.sansBounce h g := sameBut_retarget h b.owner b t
  have halike := hsame.alike_of bare_sansBounce
  have hknown : Walk.Known g b := by
    refine Walk.Known.of_sameBut ?_ hsame
    rw [Walk.Known, hm, Option.map_some, href]
  have hself : ∀ d, g.method? b = some d → d.isBouncer := by
    intro d hd
    obtain ⟨m', hm', hview⟩ := hsame.symm.exists_method hd
    cases hm.symm.trans hm'
    rw [← isBouncer_eq hview]
    exact hbouncer
  have hland := landBouncer_eq (hk.of_alike halike) hknown hself fun a d ha hd hdb => by
    obtain ⟨d', hd', hview⟩ := hsame.symm.exists_method hd
    have hforwarders : d'.forwarders = d.forwarders := by
      show d'.sansBounce.forwarders = d.sansBounce.forwarders
      rw [hview]
    rw [← halike.supertypeGraph] at ha
    rw [← hforwarders]
    exact hquiet a d' ha hd' (isBouncer_eq hview ▸ hdb)
  rw [← halike.supertypeGraph, ← endsAt?_of_sameBut hsame, ← chosenRoot_of_sameBut hk hsame,
    ← choices_of_sameBut hk hsame] at hland
  rw [resolveBouncer, hland]
  cases (h.supertypeGraph.depthFirst b.owner).findSome? (endsAt? h b) with
  | none => simp only [List.append_nil]
  | some d => rfl

/-- Processing a bouncer that has not landed, if no forwarders lead to bouncers of
its name in the classes above.  It lands at the least root of the first declaration
above its class, or at this declaration, unless that is in its own class; several
roots are reported; and nothing else changes. -/
theorem bounceFor_lands {r : Resolution} (hk : Keyed r.path.hierarchy) {m : MethodNode}
    (hm : r.path.hierarchy.method? b = some m) (href : m.ref = b)
    (hbounce : m.bounce = some { target := t, landing := none })
    (hquiet : ∀ a d, ReflTransGen r.path.hierarchy.supertypeGraph.Edge b.owner a →
      r.path.hierarchy.method? (b.withOwner a) = some d → d.isBouncer → d.forwarders = ∅)
    (hnames : ∀ a d, ReflTransGen r.path.hierarchy.supertypeGraph.Edge b.owner a →
      r.path.hierarchy.method? (b.withOwner a) = some d → d.name = b.name) :
    let h := r.path.hierarchy
    let r' := r.bounceFor b.owner (b, t)
    ∃ above, h.supertypeGraph.depthFirst b.owner = b.owner :: above ∧
      ((∀ a ∈ above, ¬ Grounds h b a) →
        landing? r'.path.hierarchy b = none ∧ r'.findings = r.findings) ∧
      (∀ before a after, above = before ++ a :: after → Grounds h b a →
        (∀ c ∈ before, ¬ Grounds h b c) →
        let roots := h.overrideRoots (b.withOwner a) a
        ∃ root, (roots = ∅ ∧ root = b.withOwner a ∨
            root ∈ roots ∧ ∀ x ∈ roots, (compare root x).isLE) ∧
          landing? r'.path.hierarchy b = (if root.owner = b.owner then none else some root) ∧
          (2 ≤ roots.size → .ambiguousBounce b roots.toList root ∈ r'.findings) ∧
          r'.findings = Finding.record r.findings
            (if 2 ≤ roots.size then [.ambiguousBounce b roots.toList root] else [])) ∧
      SameBut MethodNode.sansBounce h r'.path.hierarchy ∧
      ∀ q, ¬ (b.owner = q.owner ∧ b.key = q.key) →
        r'.path.hierarchy.method? q = h.method? q := by
  intro h r'
  have hbouncer : m.isBouncer := by
    rw [MethodNode.isBouncer, hbounce]
    rfl
  obtain ⟨above, hfirst, hskip, hends⟩ := exists_above hk hm hbouncer hnames
  have hdone := resolveBouncer_eq (t := t) hk hm href hbouncer hquiet []
  rw [hskip] at hdone
  refine ⟨above, hfirst, fun hno => ?_, fun before a after hsplit ha hbefore => ?_, ?_, ?_⟩
  · rw [(Graph.findSome?_eq_none_iff_of_forall hends).mpr fun a ha d hd => hno a ha hd.1] at hdone
    have hr' : r' = r.advance (retarget b.owner h b t, []) := congrArg r.advance hdone
    rw [hr']
    exact ⟨landing?_retarget_of_bounce hm hbounce b.owner, rfl⟩
  · rw [(Graph.findSome?_eq_some_iff_of_forall hends).mpr
      ⟨before, a, after, hsplit, ⟨ha, rfl⟩, fun c hc d hd => hbefore c hc hd.1⟩] at hdone
    have hr' : r' = r.advance (landed h b t (chosenRoot h (b.withOwner a)),
        choices h b (b.withOwner a)) := congrArg r.advance hdone
    rw [choices_eq, show (b.withOwner a).owner = a from rfl] at hr'
    refine ⟨chosenRoot h (b.withOwner a), chosenRoot_spec h (b.withOwner a), ?_, fun htwo => ?_, ?_⟩
    · rw [hr']
      exact landing?_landed hm hbounce _
    · rw [hr', if_pos htwo]
      exact Finding.mem_record.mpr (Or.inr List.mem_cons_self)
    · rw [hr']
      rfl
  · exact (sameBut_retarget h b.owner b t).trans (sameBut_landBouncer _ b.owner b)
  · intro q hq
    show (resolveBouncer b.owner (h, []) (b, t)).1.method? q = h.method? q
    rw [hdone]
    cases above.findSome? (endsAt? h b) with
    | none => exact method?_retarget_of_ne hq
    | some d => exact method?_landed_of_ne hq

end Processing

namespace Sample

open Assembly (Sketch)

/-- An interface that asks for `run`. -/
def asking (name : String) : Sketch where
  name := name
  superName := none
  access := .ofModifiers [.pub, .interface, .abstract]
  declarations := [.abstractMethod (.ofModifiers [.pub]) "run" "()V"]

/-- A class that does what two interfaces ask for, and a bridge to it. -/
def forked : ClassPath :=
  .afterRequests [] [.register (archive
    [asking "Alpha", asking "Beta",
      plain "Base" none [.interface "Alpha", .interface "Beta", run [.pub] [.op 0xB1]],
      plain "Child" (some "Base") [run [.pub, .bridge, .synthetic]
        [.load .reference 0, .invoke 0xB7 ⟨"Base", "run", "()V"⟩, .op 0xB1]]]) true]

theorem overrideRoots_forked :
    (forked.hierarchy.overrideRoots ⟨"Base", "run", "()V"⟩ "Base").toList =
      [⟨"Alpha", "run", "()V"⟩, ⟨"Beta", "run", "()V"⟩] := by
  rw [Hierarchy.overrideRoots, Hierarchy.declarationsAbove, Graph.depthFirst, Graph.visit_eq]
  decide +kernel

/-- The bridge lands at the lesser of the two roots of the method above, and both
are reported. -/
theorem bounceFor_forked :
    let child : MemberRef := ⟨"Child", "run", "()V"⟩
    let after := (start forked).bounceFor "Child" (child, ⟨"Base", "run", "()V"⟩)
    landing? after.path.hierarchy child = some ⟨"Alpha", "run", "()V"⟩ ∧
      .ambiguousBounce child [⟨"Alpha", "run", "()V"⟩, ⟨"Beta", "run", "()V"⟩]
        ⟨"Alpha", "run", "()V"⟩ ∈ after.findings := by
  intro child after
  have hread : forked.hierarchy.AsRead := ClassPath.asRead_afterRequests _ _
  have hchild : (forked.hierarchy.method? child).any (fun m => m.ref = child ∧
      m.bounce = some { target := ⟨"Base", "run", "()V"⟩, landing := none }) := by decide +kernel
  have hbase : (forked.hierarchy.method? ⟨"Base", "run", "()V"⟩).any (fun m =>
      m.ref = ⟨"Base", "run", "()V"⟩ ∧ m.isBouncer = false ∧ m.isInheritable) := by decide +kernel
  have hnames : ∀ c ∈ forked.hierarchy.classes.values, ∀ m ∈ c.methods.values, m.name = "run" := by
    decide +kernel
  have hfirst : (start forked).path.hierarchy.supertypeGraph.depthFirst child.owner =
      ["Child", "Base", "Alpha", "Beta"] := by
    rw [Graph.depthFirst, Graph.visit_eq]
    decide +kernel
  obtain ⟨m, hm, hmb⟩ := (Option.any_eq_true _ _).mp hchild
  obtain ⟨href, hbounce⟩ := of_decide_eq_true hmb
  obtain ⟨d, hd, hflags⟩ := (Option.any_eq_true _ _).mp hbase
  obtain ⟨above, habove, _, hends, _⟩ := bounceFor_lands (r := start forked) hread.keyed hm href
    hbounce (fun a d _ hd _ => congrArg MethodNode.forwarders (hread.untied hd))
    fun a d _ hd => by
      obtain ⟨c, hc, hcd⟩ := Hierarchy.method?_eq_some.mp hd
      exact hnames c (mem_values_iff.mpr ⟨_, hc⟩) d (mem_values_iff.mpr ⟨_, hcd⟩)
  cases habove.symm.trans hfirst
  obtain ⟨root, hroot, hlanding, hfinding, _⟩ := hends [] "Base" ["Alpha", "Beta"] rfl
    ⟨d, hd, of_decide_eq_true hflags⟩ fun _ hc => absurd hc List.not_mem_nil
  have hroots : ((start forked).path.hierarchy.overrideRoots (child.withOwner "Base")
      "Base").toList = [⟨"Alpha", "run", "()V"⟩, ⟨"Beta", "run", "()V"⟩] :=
    overrideRoots_forked
  rw [← ExtTreeSet.length_toList, hroots] at hfinding
  have halpha : root = ⟨"Alpha", "run", "()V"⟩ := by
    rcases hroot with ⟨hnone, _⟩ | ⟨hmem, hleast⟩
    · rw [hnone] at hroots
      cases hroots
    · have hle := hleast ⟨"Alpha", "run", "()V"⟩
        (ExtTreeSet.mem_toList.mp (hroots ▸ List.mem_cons_self))
      rw [← ExtTreeSet.mem_toList, hroots] at hmem
      rcases List.mem_pair.mp hmem with rfl | rfl
      · rfl
      · exact absurd hle (by decide)
  subst halpha
  exact ⟨hlanding, hfinding (by decide)⟩

/-- A class with a method of another name than the bridge below it has, that has
the same key. -/
def astray : ClassPath :=
  .afterRequests [] [.register (archive
    [plain "Base" none [returning [.pub] "m()La" "(I)Lb;"],
      plain "Child" (some "Base")
        [returning [.pub] "own" "()La;",
          .method
            { access := .ofModifiers [.priv, .synthetic]
              name := "m"
              descriptor := "()La(I)Lb;"
              signature := none
              body := some [.load .reference 0, .invoke 0xB6 ⟨"Child", "own", "()La;"⟩,
                .op 0xB0] }]]) true]

/-- The bridge lands at the method of another name, though no class above declares
its own. -/
theorem bounceFor_astray :
    let child : MemberRef := ⟨"Child", "m", "()La(I)Lb;"⟩
    let h := astray.hierarchy
    Bounces h child ⟨"Child", "own", "()La;"⟩ ∧ landing? h child = none ∧
    (∀ a d, h.method? (child.withOwner a) = some d → d.forwarders = ∅) ∧
    (∀ a, ¬ Grounds h child a) ∧
    landing? ((start astray).bounceFor "Child" (child, ⟨"Child", "own", "()La;"⟩)).path.hierarchy
      child = some ⟨"Base", "m()La", "(I)Lb;"⟩ := by
  intro child h
  have hread : h.AsRead := ClassPath.asRead_afterRequests _ _
  have hb : Bounces h child ⟨"Child", "own", "()La;"⟩ := bounces_of_any (by decide +kernel)
  have hquiet : ∀ a d, h.method? (child.withOwner a) = some d → d.forwarders = ∅ := fun a d hd =>
    congrArg MethodNode.forwarders (hread.untied hd)
  have hnames : ∀ c ∈ h.classes.values, ∀ d ∈ c.methods.values,
      d.name = "m" → d.isBouncer := by decide +kernel
  refine ⟨hb, by decide +kernel, hquiet, ?_, ?_⟩
  · rintro a ⟨d, hd, href, hno, _⟩
    obtain ⟨c, hc, hcd⟩ := Hierarchy.method?_eq_some.mp hd
    have hbouncer := hnames c (mem_values_iff.mpr ⟨_, hc⟩) d (mem_values_iff.mpr ⟨_, hcd⟩)
      (congrArg MemberRef.name href)
    rw [hno] at hbouncer
    cases hbouncer
  · obtain ⟨m, hm, href, haim⟩ := hb
    have hbouncer : m.isBouncer := by
      obtain ⟨bounce, hbounce, _⟩ := Option.map_eq_some_iff.mp haim
      rw [MethodNode.isBouncer, hbounce]
      rfl
    have hends : (h.supertypeGraph.depthFirst child.owner).findSome? (Walk.endsAt? h child) =
        some ⟨"Base", "m()La", "(I)Lb;"⟩ := by
      rw [Graph.depthFirst, Graph.visit_eq]
      decide +kernel
    have hroot : Walk.chosenRoot h ⟨"Base", "m()La", "(I)Lb;"⟩ = ⟨"Base", "m()La", "(I)Lb;"⟩ := by
      rw [Walk.chosenRoot, Hierarchy.overrideRoots, Hierarchy.declarationsAbove, Graph.depthFirst,
        Graph.visit_eq]
      decide +kernel
    have hdone := resolveBouncer_eq (t := ⟨"Child", "own", "()La;"⟩) hread.keyed hm href hbouncer
      (fun a d _ hd _ => hquiet a d hd) []
    rw [hends] at hdone
    dsimp only at hdone
    rw [hroot, landed, if_neg (by decide)] at hdone
    show landing? (resolveBouncer "Child" (h, []) (child, ⟨"Child", "own", "()La;"⟩)).1 child = _
    rw [hdone]
    exact landing?_land hm hbouncer

end Sample

end Resolution
end Lineage
