import Mathlib.Tactic.Tauto
import Lineage.Graph.Traversal
import Lineage.Proofs.Graph.Search

/-!
What happens in a traversal.

`run` is taken apart into single steps, and a progress is what it has left to do
between two of them.  The `leave` tasks of a progress are its open nodes, the
innermost first.  `Underway` is the invariant of a traversal; it relates the
events so far to the progress.  From it: every node that can be reached and
expanded is closed, none stays open, a node is closed after its successors
unless one of them was met while it was open, and a node met while it was open
leads back to itself.
-/

namespace Lineage
namespace Graph

open Relation (ReflTransGen TransGen)

/-- How far a traversal has come. -/
structure Progress (α : Type) where
  tasks : List (Task α)
  entered : List α
  closed : List α

namespace Progress

def start {α : Type} (a : α) : Progress α := { tasks := [.enter a], entered := [], closed := [] }

/-- The nodes that have been entered and not been closed. -/
def opened {α : Type} [DecidableEq α] (p : Progress α) : List α :=
  p.entered.filter (· ∉ p.closed)

end Progress

variable {α : Type}

/-- One step, and the events in it. -/
inductive Step (g : Graph α) : Progress α → List (Event α) → Progress α → Prop
  | leave (a : α) (rest : List (Task α)) (entered closed : List α) :
    Step g ⟨.leave a :: rest, entered, closed⟩ [.closed a] ⟨rest, entered, a :: closed⟩
  | absent {a : α} (rest : List (Task α)) (entered closed : List α) (hn : g.next a = none) :
    Step g ⟨.enter a :: rest, entered, closed⟩ [] ⟨rest, entered, closed⟩
  | done {a : α} {l : List α} (rest : List (Task α)) (entered closed : List α)
      (hn : g.next a = some l) (hc : a ∈ closed) :
    Step g ⟨.enter a :: rest, entered, closed⟩ [] ⟨rest, entered, closed⟩
  | again {a : α} {l : List α} (rest : List (Task α)) (entered closed : List α)
      (hn : g.next a = some l) (hc : a ∉ closed) (he : a ∈ entered) :
    Step g ⟨.enter a :: rest, entered, closed⟩ [.cycle a] ⟨rest, entered, closed⟩
  | enter {a : α} {l : List α} (rest : List (Task α)) (entered closed : List α)
      (hn : g.next a = some l) (hc : a ∉ closed) (he : a ∉ entered) :
    Step g ⟨.enter a :: rest, entered, closed⟩ []
      ⟨l.map .enter ++ .leave a :: rest, a :: entered, closed⟩

/-- Any number of steps, and the events in them. -/
inductive Steps (g : Graph α) : Progress α → List (Event α) → Progress α → Prop
  | refl (p : Progress α) : Steps g p [] p
  | head {p q r : Progress α} {new later : List (Event α)} (first : Step g p new q)
      (rest : Steps g q later r) : Steps g p (new ++ later) r

/-- A run is a sequence of steps that leaves nothing to be done. -/
theorem exists_steps_run [DecidableEq α] (g : Graph α) (tasks : List (Task α))
    (entered closed : List α) :
    ∃ p, p.tasks = [] ∧ Steps g ⟨tasks, entered, closed⟩ (g.run tasks entered closed) p := by
  fun_induction g.run tasks entered closed with
  | case1 entered closed => exact ⟨_, rfl, .refl _⟩
  | case2 entered closed a rest ih =>
    obtain ⟨p, hp, hs⟩ := ih
    exact ⟨p, hp, .head (.leave a rest entered closed) hs⟩
  | case3 entered closed a rest hn ih =>
    obtain ⟨p, hp, hs⟩ := ih
    exact ⟨p, hp, .head (.absent rest entered closed hn) hs⟩
  | case4 entered closed a rest l hn hc ih =>
    obtain ⟨p, hp, hs⟩ := ih
    exact ⟨p, hp, .head (.done rest entered closed hn hc) hs⟩
  | case5 entered closed a rest l hn hc he ih =>
    obtain ⟨p, hp, hs⟩ := ih
    exact ⟨p, hp, .head (.again rest entered closed hn hc he) hs⟩
  | case6 entered closed a rest l hn hc he ih =>
    obtain ⟨p, hp, hs⟩ := ih
    simp only [List.map_subtype, List.unattach_attach] at hs
    exact ⟨p, hp, .head (.enter rest entered closed hn hc he) hs⟩

/-! ## The invariant -/

def Task.node : Task α → α
  | .enter a => a
  | .leave a => a

/-- The nodes that are still to be left, the innermost first. -/
def leaving : List (Task α) → List α
  | [] => []
  | .enter _ :: rest => leaving rest
  | .leave a :: rest => a :: leaving rest

/-- Every task is about a successor of the innermost node that is left after
it. -/
def Nested (g : Graph α) : List (Task α) → Prop
  | [] => True
  | t :: rest => (∀ b ∈ (leaving rest).head?, g.Edge b t.node) ∧ Nested g rest

/-- By the time a node is left, each of its successors is dealt with: it has
been, as `dealt` says, or a task for it comes before. -/
def Covered (g : Graph α) (dealt : α → Prop) : List (Task α) → Prop
  | [] => True
  | .enter a :: rest => Covered g (fun b => dealt b ∨ b = a) rest
  | .leave a :: rest =>
    (∀ b, g.Edge a b → (g.next b).isSome → dealt b) ∧
      Covered g (fun b => dealt b ∨ b = a) rest

/-- Closed nodes come after their successors, except after those that were met
while they were open, and no node is closed twice. -/
def Ordered (g : Graph α) (events : List (Event α)) : Prop :=
  ∀ before a after, events = before ++ .closed a :: after →
    .closed a ∉ before ∧
      ∀ b, g.Edge a b → (g.next b).isSome → .closed b ∈ before ∨ .cycle b ∈ before

/-- What holds between a traversal from `root` that has had `events` and its
progress. -/
structure Underway (g : Graph α) (root : α) (events : List (Event α)) (p : Progress α) :
    Prop where
  mem_closed : ∀ a, a ∈ p.closed ↔ .closed a ∈ events
  mem_entered : ∀ a, a ∈ p.entered ↔ a ∈ p.closed ∨ a ∈ leaving p.tasks
  expandable : ∀ a ∈ p.entered, (g.next a).isSome
  nodup : (leaving p.tasks).Nodup
  notClosed : ∀ a ∈ leaving p.tasks, a ∉ p.closed
  nested : Nested g p.tasks
  covered : Covered g (fun b => b ∈ p.closed ∨ .cycle b ∈ events) p.tasks
  reached : ∀ t ∈ p.tasks, ReflTransGen g.Edge root t.node
  reachedEntered : ∀ a ∈ p.entered, ReflTransGen g.Edge root a
  ordered : Ordered g events
  cyclic : ∀ a, .cycle a ∈ events → TransGen g.Edge a a ∧ a ∈ p.entered
  rootMet : (g.next root).isSome →
    root ∈ p.closed ∨ .cycle root ∈ events ∨ ∃ t ∈ p.tasks, t.node = root

theorem leaving_map_enter_append (l : List α) (tasks : List (Task α)) :
    leaving (l.map .enter ++ tasks) = leaving tasks := by
  induction l with
  | nil => rfl
  | cons a l ih => exact ih

theorem Nested.map_enter_append {g : Graph α} {l : List α} {tasks : List (Task α)}
    (hl : ∀ a ∈ l, ∀ b ∈ (leaving tasks).head?, g.Edge b a) (h : Nested g tasks) :
    Nested g (l.map .enter ++ tasks) := by
  induction l with
  | nil => exact h
  | cons a l ih =>
    refine ⟨?_, ih fun c hc => hl c (List.mem_cons_of_mem a hc)⟩
    intro b hb
    change b ∈ (leaving (l.map .enter ++ tasks)).head? at hb
    rw [leaving_map_enter_append] at hb
    exact hl a List.mem_cons_self b hb

/-- A node that is left later leads to every task before. -/
theorem Nested.transGen {g : Graph α} {t : Task α} {rest : List (Task α)} {b : α}
    (h : Nested g (t :: rest)) (hb : b ∈ leaving rest) : TransGen g.Edge b t.node := by
  induction rest generalizing t with
  | nil => cases hb
  | cons u rest ih =>
    cases u with
    | enter c => exact ih ⟨h.1, h.2.2⟩ hb
    | leave c =>
      have hct : g.Edge c t.node := h.1 c rfl
      rcases List.mem_cons.mp hb with rfl | hb
      · exact TransGen.single hct
      · exact TransGen.tail (ih h.2 hb) hct

/-- Only nodes that can be expanded count, so the rest may be taken as dealt
with or not. -/
theorem Covered.mono {g : Graph α} {dealt dealt' : α → Prop} {tasks : List (Task α)}
    (h : Covered g dealt tasks) (hd : ∀ b, (g.next b).isSome → dealt b → dealt' b) :
    Covered g dealt' tasks := by
  induction tasks generalizing dealt dealt' with
  | nil => trivial
  | cons t tasks ih =>
    cases t with
    | enter a => exact ih h fun b hb => Or.imp_left (hd b hb)
    | leave a =>
      exact ⟨fun b hab hb => hd b hb (h.1 b hab hb), ih h.2 fun b hb => Or.imp_left (hd b hb)⟩

theorem Covered.map_enter_append {g : Graph α} {dealt : α → Prop} {l : List α}
    {tasks : List (Task α)} (h : Covered g (fun b => dealt b ∨ b ∈ l) tasks) :
    Covered g dealt (l.map .enter ++ tasks) := by
  induction l generalizing dealt with
  | nil => exact h.mono fun b _ hb => hb.resolve_right List.not_mem_nil
  | cons a l ih =>
    refine ih (h.mono fun b _ hb => ?_)
    rw [List.mem_cons] at hb
    rw [or_assoc]
    exact hb

theorem underway_start (g : Graph α) (a : α) : Underway g a [] (Progress.start a) where
  mem_closed b := by simp [Progress.start]
  mem_entered b := by simp [Progress.start, leaving]
  expandable b hb := absurd hb List.not_mem_nil
  nodup := List.nodup_nil
  notClosed b hb := absurd hb List.not_mem_nil
  nested := ⟨fun b hb => (by cases hb), trivial⟩
  covered := trivial
  reached t ht := by
    rw [List.mem_singleton.mp ht]
    exact ReflTransGen.refl
  reachedEntered b hb := absurd hb List.not_mem_nil
  ordered before b after h := by simp at h
  cyclic b hb := absurd hb List.not_mem_nil
  rootMet _ := Or.inr (Or.inr ⟨_, List.mem_singleton_self _, rfl⟩)

theorem Ordered.append {g : Graph α} {events : List (Event α)} {e : Event α}
    (h : Ordered g events)
    (he : ∀ a, e = .closed a → .closed a ∉ events ∧
      ∀ b, g.Edge a b → (g.next b).isSome → .closed b ∈ events ∨ .cycle b ∈ events) :
    Ordered g (events ++ [e]) := by
  intro before a after hs
  rcases List.append_eq_append_iff.mp hs with ⟨mid, hb, hm⟩ | ⟨mid, hb, hm⟩
  · cases mid with
    | nil =>
      simp only [List.nil_append, List.cons.injEq] at hm
      rw [hb, List.append_nil]
      exact he a hm.1
    | cons d mid => simp at hm
  · cases mid with
    | nil =>
      simp only [List.nil_append, List.cons.injEq] at hm
      rw [List.append_nil] at hb
      rw [← hb]
      exact he a hm.1.symm
    | cons d mid =>
      rw [List.cons_append, List.cons.injEq] at hm
      exact h before a mid (by rw [hb, hm.1])

/-! ## Steps -/

theorem Underway.leave {g : Graph α} {root a : α} {events : List (Event α)}
    {rest : List (Task α)} {entered closed : List α}
    (h : Underway g root events ⟨.leave a :: rest, entered, closed⟩) :
    Underway g root (events ++ [.closed a]) ⟨rest, entered, a :: closed⟩ := by
  have hnd : a ∉ leaving rest ∧ (leaving rest).Nodup := List.nodup_cons.mp h.nodup
  have ha : a ∉ closed := h.notClosed a List.mem_cons_self
  refine
    { mem_closed := fun b => ?_
      mem_entered := fun b => ?_
      expandable := h.expandable
      nodup := hnd.2
      notClosed := fun b hb => ?_
      nested := h.nested.2
      covered := ?_
      reached := fun t ht => h.reached t (List.mem_cons_of_mem _ ht)
      reachedEntered := h.reachedEntered
      ordered := ?_
      cyclic := fun b hb => ?_
      rootMet := fun hr => ?_ }
  · simp [h.mem_closed b, or_comm]
  · rw [h.mem_entered b]
    simp only [leaving, List.mem_cons]
    tauto
  · rw [List.mem_cons, not_or]
    refine ⟨fun hba => hnd.1 (hba ▸ hb), h.notClosed b (List.mem_cons_of_mem a hb)⟩
  · refine h.covered.2.mono fun b _ hb => ?_
    simp only [List.mem_cons, List.mem_append] at hb ⊢
    tauto
  · refine h.ordered.append fun c hc => ?_
    obtain rfl : a = c := Event.closed.inj hc
    refine ⟨fun hm => ha ((h.mem_closed a).mpr hm), fun b hab hb => ?_⟩
    rw [← h.mem_closed b]
    exact h.covered.1 b hab hb
  · simp only [List.mem_append, List.mem_singleton, reduceCtorEq, or_false] at hb
    exact h.cyclic b hb
  · rcases h.rootMet hr with hc | hc | ⟨t, ht, htr⟩
    · exact Or.inl (List.mem_cons_of_mem a hc)
    · exact Or.inr (Or.inl (List.mem_append_left _ hc))
    · rcases List.mem_cons.mp ht with rfl | ht
      · exact Or.inl (List.mem_cons.mpr (Or.inl htr.symm))
      · exact Or.inr (Or.inr ⟨t, ht, htr⟩)

/-- A node that cannot be expanded, or is closed, is passed over. -/
theorem Underway.skip {g : Graph α} {root a : α} {events : List (Event α)}
    {rest : List (Task α)} {entered closed : List α}
    (h : Underway g root events ⟨.enter a :: rest, entered, closed⟩)
    (ha : (g.next a).isSome → a ∈ closed) :
    Underway g root events ⟨rest, entered, closed⟩ := by
  refine
    { h with
      nested := h.nested.2
      covered := ?_
      reached := fun t ht => h.reached t (List.mem_cons_of_mem _ ht)
      rootMet := fun hr => ?_ }
  · have hc : Covered g (fun b => (b ∈ closed ∨ .cycle b ∈ events) ∨ b = a) rest := h.covered
    refine hc.mono fun b hb hd => ?_
    rcases hd with hd | rfl
    · exact hd
    · exact Or.inl (ha hb)
  · rcases h.rootMet hr with hc | hc | ⟨t, ht, htr⟩
    · exact Or.inl hc
    · exact Or.inr (Or.inl hc)
    · rcases List.mem_cons.mp ht with rfl | ht
      · obtain rfl : a = root := htr
        exact Or.inl (ha hr)
      · exact Or.inr (Or.inr ⟨t, ht, htr⟩)

theorem Underway.again {g : Graph α} {root a : α} {events : List (Event α)}
    {rest : List (Task α)} {entered closed : List α}
    (h : Underway g root events ⟨.enter a :: rest, entered, closed⟩)
    (hc : a ∉ closed) (he : a ∈ entered) :
    Underway g root (events ++ [.cycle a]) ⟨rest, entered, closed⟩ := by
  have hopen : a ∈ leaving rest := ((h.mem_entered a).mp he).resolve_left hc
  refine
    { mem_closed := fun b => ?_
      mem_entered := h.mem_entered
      expandable := h.expandable
      nodup := h.nodup
      notClosed := h.notClosed
      nested := h.nested.2
      covered := ?_
      reached := fun t ht => h.reached t (List.mem_cons_of_mem _ ht)
      reachedEntered := h.reachedEntered
      ordered := h.ordered.append fun b hb => by cases hb
      cyclic := fun b hb => ?_
      rootMet := fun hr => ?_ }
  · simp [h.mem_closed b]
  · have hc : Covered g (fun b => (b ∈ closed ∨ .cycle b ∈ events) ∨ b = a) rest := h.covered
    refine hc.mono fun b _ hd => ?_
    simp only [List.mem_append, List.mem_singleton, Event.cycle.injEq]
    tauto
  · rcases List.mem_append.mp hb with hb | hb
    · exact h.cyclic b hb
    · obtain rfl : b = a := Event.cycle.inj (List.mem_singleton.mp hb)
      exact ⟨h.nested.transGen hopen, he⟩
  · rcases h.rootMet hr with hc | hc | ⟨t, ht, htr⟩
    · exact Or.inl hc
    · exact Or.inr (Or.inl (List.mem_append_left _ hc))
    · rcases List.mem_cons.mp ht with rfl | ht
      · obtain rfl : a = root := htr
        exact Or.inr (Or.inl (List.mem_append_right _ List.mem_cons_self))
      · exact Or.inr (Or.inr ⟨t, ht, htr⟩)

theorem Underway.enter {g : Graph α} {root a : α} {events : List (Event α)}
    {rest : List (Task α)} {entered closed l : List α}
    (h : Underway g root events ⟨.enter a :: rest, entered, closed⟩)
    (hn : g.next a = some l) (hc : a ∉ closed) (he : a ∉ entered) :
    Underway g root events ⟨l.map .enter ++ .leave a :: rest, a :: entered, closed⟩ := by
  have hfresh : a ∉ leaving rest := fun hl => he ((h.mem_entered a).mpr (Or.inr hl))
  have hroot : ReflTransGen g.Edge root a := h.reached _ List.mem_cons_self
  have hleaving : leaving (l.map .enter ++ .leave a :: rest) = a :: leaving rest :=
    leaving_map_enter_append l _
  refine
    { mem_closed := h.mem_closed
      mem_entered := fun b => ?_
      expandable := fun b hb => ?_
      nodup := ?_
      notClosed := fun b hb => ?_
      nested := Nested.map_enter_append (fun b hb c hca => ?_) h.nested
      covered := Covered.map_enter_append ⟨fun b hab _ => ?_, ?_⟩
      reached := fun t ht => ?_
      reachedEntered := fun b hb => ?_
      ordered := h.ordered
      cyclic := fun b hb => ⟨(h.cyclic b hb).1, List.mem_cons_of_mem a (h.cyclic b hb).2⟩
      rootMet := fun hr => ?_ }
  · have hb := h.mem_entered b
    simp only [leaving] at hb
    rw [hleaving, List.mem_cons, List.mem_cons, hb]
    tauto
  · rcases List.mem_cons.mp hb with rfl | hb
    · rw [hn]
      rfl
    · exact h.expandable b hb
  · rw [hleaving]
    exact List.nodup_cons.mpr ⟨hfresh, h.nodup⟩
  · rw [hleaving] at hb
    rcases List.mem_cons.mp hb with rfl | hb
    · exact hc
    · exact h.notClosed b hb
  · obtain rfl : a = c := Option.some.inj hca
    exact ⟨l, hn, hb⟩
  · obtain ⟨l', hl', hb⟩ := hab
    rw [hn] at hl'
    exact Or.inr (Option.some.inj hl' ▸ hb)
  · have hc : Covered g (fun b => (b ∈ closed ∨ .cycle b ∈ events) ∨ b = a) rest := h.covered
    refine hc.mono fun b _ hd => ?_
    tauto
  · rcases List.mem_append.mp ht with ht | ht
    · obtain ⟨b, hb, rfl⟩ := List.mem_map.mp ht
      exact ReflTransGen.tail hroot ⟨l, hn, hb⟩
    · rcases List.mem_cons.mp ht with rfl | ht
      · exact hroot
      · exact h.reached t (List.mem_cons_of_mem _ ht)
  · rcases List.mem_cons.mp hb with rfl | hb
    · exact hroot
    · exact h.reachedEntered b hb
  · rcases h.rootMet hr with hc | hc | ⟨t, ht, htr⟩
    · exact Or.inl hc
    · exact Or.inr (Or.inl hc)
    · refine Or.inr (Or.inr ?_)
      rcases List.mem_cons.mp ht with rfl | ht
      · exact ⟨.leave a, List.mem_append_right _ List.mem_cons_self, htr⟩
      · exact ⟨t, List.mem_append_right _ (List.mem_cons_of_mem _ ht), htr⟩

theorem Underway.step {g : Graph α} {root : α} {events new : List (Event α)} {p q : Progress α}
    (h : Underway g root events p) (hs : Step g p new q) :
    Underway g root (events ++ new) q := by
  cases hs with
  | leave a rest entered closed => exact h.leave
  | absent rest entered closed hn =>
    rw [List.append_nil]
    exact h.skip fun ha => by rw [hn] at ha; cases ha
  | done rest entered closed hn hc =>
    rw [List.append_nil]
    exact h.skip fun _ => hc
  | again rest entered closed hn hc he => exact h.again hc he
  | enter rest entered closed hn hc he =>
    rw [List.append_nil]
    exact h.enter hn hc he

theorem Underway.steps {g : Graph α} {root : α} {events later : List (Event α)}
    {p q : Progress α} (h : Underway g root events p) (hs : Steps g p later q) :
    Underway g root (events ++ later) q := by
  induction hs generalizing events with
  | refl p => rwa [List.append_nil]
  | head first _ ih =>
    rw [← List.append_assoc]
    exact ih (h.step first)

/-! ## Whole traversals -/

section

variable [DecidableEq α]

theorem run_cons_enter (g : Graph α) (a : α) (rest : List (Task α)) (entered closed : List α) :
    g.run (.enter a :: rest) entered closed =
      match g.next a with
      | none => g.run rest entered closed
      | some l =>
        if a ∈ closed then g.run rest entered closed
        else if a ∈ entered then .cycle a :: g.run rest entered closed
        else g.run (l.map .enter ++ .leave a :: rest) (a :: entered) closed := by
  rw [run]
  split
  · next hn => rw [hn]
  · next l hn =>
    rw [hn]
    simp only [dite_eq_ite]

theorem Agree.run_eq {P : α → Prop} {g g' : Graph α} (h : Agree P g g') {tasks : List (Task α)}
    {entered closed : List α} (ht : ∀ t ∈ tasks, P t.node) :
    g.run tasks entered closed = g'.run tasks entered closed := by
  fun_induction g.run tasks entered closed with
  | case1 entered closed => rw [run]
  | case2 entered closed a rest ih =>
    rw [run, ih fun t hr => ht t (List.mem_cons_of_mem _ hr)]
  | case3 entered closed a rest hn ih =>
    have hP : P a := ht _ List.mem_cons_self
    have hn' := (h.next hP).symm.trans hn
    rw [run_cons_enter, hn', ih fun t hr => ht t (List.mem_cons_of_mem _ hr)]
  | case4 entered closed a rest l hn hc ih =>
    have hP : P a := ht _ List.mem_cons_self
    have hn' := (h.next hP).symm.trans hn
    rw [run_cons_enter, hn', ih fun t hr => ht t (List.mem_cons_of_mem _ hr)]
    exact (if_pos hc).symm
  | case5 entered closed a rest l hn hc he ih =>
    have hP : P a := ht _ List.mem_cons_self
    have hn' := (h.next hP).symm.trans hn
    rw [run_cons_enter, hn', ih fun t hr => ht t (List.mem_cons_of_mem _ hr)]
    simp only [hc, he, if_true, if_false]
  | case6 entered closed a rest l hn hc he ih =>
    have hP : P a := ht _ List.mem_cons_self
    simp only [List.map_subtype, List.unattach_attach] at ih
    rw [run_cons_enter, (h.next hP).symm.trans hn, ih fun t hr => ?_]
    · simp only [hc, he, if_false]
    · rcases List.mem_append.mp hr with hr | hr
      · obtain ⟨b, hb, rfl⟩ := List.mem_map.mp hr
        exact h.closed hP ⟨l, hn, hb⟩
      · rcases List.mem_cons.mp hr with rfl | hr
        · exact hP
        · exact ht t (List.mem_cons_of_mem _ hr)

theorem Agree.traversal_eq {P : α → Prop} {g g' : Graph α} (h : Agree P g g') {a : α}
    (ha : P a) : g.traversal a = g'.traversal a :=
  h.run_eq fun t ht => by rwa [List.mem_singleton.mp ht]

/-- A node that is entered for the first time is left after its successors. -/
theorem run_enter {g : Graph α} {a : α} {l entered closed : List α} {rest : List (Task α)}
    (hn : g.next a = some l) (hc : a ∉ closed) (he : a ∉ entered) :
    g.run (.enter a :: rest) entered closed =
      g.run (l.map .enter ++ .leave a :: rest) (a :: entered) closed := by
  rw [run]
  split
  · next hnone =>
    rw [hn] at hnone
    cases hnone
  · next l' hsome =>
    rw [hn] at hsome
    cases hsome
    rw [if_neg hc, dif_neg he]

/-- A traversal comes to an end, and then nothing is open. -/
theorem exists_steps_traversal (g : Graph α) (root : α) :
    ∃ p, Steps g (.start root) (g.traversal root) p ∧ p.tasks = [] ∧ p.opened = [] := by
  obtain ⟨p, hp, hs⟩ := exists_steps_run g [.enter root] [] []
  have hu : Underway g root (g.traversal root) p := (underway_start g root).steps hs
  refine ⟨p, hs, hp, List.filter_eq_nil_iff.mpr fun a ha => ?_⟩
  rw [hu.mem_entered a, hp] at ha
  simpa [leaving] using ha

theorem exists_underway_traversal (g : Graph α) (root : α) :
    ∃ p, p.tasks = [] ∧ Underway g root (g.traversal root) p := by
  obtain ⟨p, hp, hs⟩ := exists_steps_run g [.enter root] [] []
  exact ⟨p, hp, (underway_start g root).steps hs⟩

theorem ordered_traversal (g : Graph α) (root : α) : Ordered g (g.traversal root) :=
  (exists_underway_traversal g root).choose_spec.2.ordered

/-- The nodes met in a traversal can be reached and expanded. -/
theorem reaches_of_closed_mem {g : Graph α} {root a : α} (ha : .closed a ∈ g.traversal root) :
    ReflTransGen g.Edge root a ∧ (g.next a).isSome := by
  obtain ⟨p, _, hu⟩ := exists_underway_traversal g root
  have he : a ∈ p.entered := (hu.mem_entered a).mpr (Or.inl ((hu.mem_closed a).mpr ha))
  exact ⟨hu.reachedEntered a he, hu.expandable a he⟩

theorem reaches_of_cycle_mem {g : Graph α} {root a : α} (ha : .cycle a ∈ g.traversal root) :
    ReflTransGen g.Edge root a ∧ TransGen g.Edge a a := by
  obtain ⟨p, _, hu⟩ := exists_underway_traversal g root
  exact ⟨hu.reachedEntered a (hu.cyclic a ha).2, (hu.cyclic a ha).1⟩

theorem closed_mem_of_cycle_mem {g : Graph α} {root a : α} (ha : .cycle a ∈ g.traversal root) :
    .closed a ∈ g.traversal root := by
  obtain ⟨p, hp, hu⟩ := exists_underway_traversal g root
  have he : a ∈ p.entered := (hu.cyclic a ha).2
  rw [hu.mem_entered a, hp] at he
  exact (hu.mem_closed a).mp (he.resolve_right List.not_mem_nil)

/-- Every node that can be reached and expanded is closed. -/
theorem closed_mem_of_reaches {g : Graph α} {root a : α} (hr : ReflTransGen g.Edge root a)
    (ha : (g.next a).isSome) : .closed a ∈ g.traversal root := by
  obtain ⟨p, hp, hu⟩ := exists_underway_traversal g root
  induction hr with
  | refl =>
    rcases hu.rootMet ha with hc | hc | ⟨t, ht, _⟩
    · exact (hu.mem_closed root).mp hc
    · exact closed_mem_of_cycle_mem hc
    · rw [hp] at ht
      cases ht
  | tail _ hbc ih =>
    obtain ⟨before, after, hs⟩ := List.append_of_mem (ih hbc.isSome_next)
    rcases (hu.ordered before _ after hs).2 _ hbc ha with h | h
    · rw [hs]
      exact List.mem_append_left _ h
    · refine closed_mem_of_cycle_mem ?_
      rw [hs]
      exact List.mem_append_left _ h

/-- As long as none of what it leads to is met while it is open, a node is
closed after all that. -/
theorem closed_mem_before {g : Graph α} {root a b : α} {before after : List (Event α)}
    (hg : ∀ c, TransGen g.Edge a c → .cycle c ∉ g.traversal root)
    (hs : g.traversal root = before ++ .closed a :: after)
    (hab : TransGen g.Edge a b) (hb : (g.next b).isSome) : .closed b ∈ before := by
  have hedge : ∀ {c d : α} {pre post : List (Event α)}, TransGen g.Edge a d →
      g.traversal root = pre ++ .closed c :: post → g.Edge c d → (g.next d).isSome →
      .closed d ∈ pre := by
    intro c d pre post had hs hcd hd
    refine ((ordered_traversal g root pre c post hs).2 d hcd hd).resolve_right fun hc =>
      hg d had ?_
    rw [hs]
    exact List.mem_append_left _ hc
  induction hab with
  | single hab => exact hedge (.single hab) hs hab hb
  | @tail c d hac hcd ih =>
    obtain ⟨pre, post, hp⟩ := List.append_of_mem (ih hcd.isSome_next)
    have hs' : g.traversal root = pre ++ .closed c :: (post ++ .closed a :: after) := by
      rw [hs, hp]
      simp
    rw [hp]
    exact List.mem_append_left _ (hedge (hac.tail hcd) hs' hcd hb)

/-- If no open node was met, then no node that can be reached leads back to
itself: it would be closed before it is closed. -/
theorem not_transGen_self {g : Graph α} {root a : α} (hg : ∀ b, .cycle b ∉ g.traversal root)
    (hr : ReflTransGen g.Edge root a) : ¬ TransGen g.Edge a a := by
  intro ha
  have hn : (g.next a).isSome := isSome_next_of_transGen ha
  obtain ⟨before, after, hs⟩ := List.append_of_mem (closed_mem_of_reaches hr hn)
  exact (ordered_traversal g root before a after hs).1
    (closed_mem_before (fun c _ => hg c) hs ha hn)

end

end Graph
end Lineage
