import Lineage.Proofs.Graph.Traversal

/-!
Searches and traversals that compute.

`visit` and `run` end because a graph has finitely many nodes that can be
expanded, which is no number that the kernel could count down.  Here they get a
number of steps, and give nothing if it does not suffice.  Where it does they
agree, so what a search finds in a given graph can be decided.
-/

namespace Lineage
namespace Graph

variable {α : Type} [DecidableEq α]

/-- `visit` in at most `fuel` steps. -/
def visitWithin (g : Graph α) (strategy : Strategy) :
    (fuel : Nat) → (waiting seen : List α) → Option (List α)
  | _, [], _ => some []
  | 0, _ :: _, _ => none
  | fuel + 1, a :: rest, seen =>
    if a ∈ seen then g.visitWithin strategy fuel rest seen
    else
      match g.next a with
      | none => (g.visitWithin strategy fuel rest (a :: seen)).map (a :: ·)
      | some l => (g.visitWithin strategy fuel (strategy.merge l rest) (a :: seen)).map (a :: ·)

theorem visit_eq_of_visitWithin {g : Graph α} {strategy : Strategy} {fuel : Nat}
    {waiting seen l : List α} (h : g.visitWithin strategy fuel waiting seen = some l) :
    g.visit strategy waiting seen = l := by
  induction fuel generalizing waiting seen l with
  | zero =>
    cases waiting with
    | nil => simpa [visitWithin, visit] using h
    | cons a rest => cases h
  | succ fuel ih =>
    cases waiting with
    | nil => simpa [visitWithin, visit] using h
    | cons a rest =>
      rw [visitWithin] at h
      by_cases ha : a ∈ seen
      · rw [if_pos ha] at h
        rw [visit_cons_of_mem ha]
        exact ih h
      · rw [if_neg ha] at h
        cases hn : g.next a with
        | none =>
          rw [hn] at h
          obtain ⟨l', hl', rfl⟩ := Option.map_eq_some_iff.mp h
          rw [visit_cons_of_none ha hn, ih hl']
        | some successors =>
          rw [hn] at h
          obtain ⟨l', hl', rfl⟩ := Option.map_eq_some_iff.mp h
          rw [visit_cons_of_some ha hn, ih hl']

/-- `run` in at most `fuel` steps. -/
def runWithin (g : Graph α) :
    (fuel : Nat) → (tasks : List (Task α)) → (entered closed : List α) → Option (List (Event α))
  | _, [], _, _ => some []
  | 0, _ :: _, _, _ => none
  | fuel + 1, .leave a :: rest, entered, closed =>
    (g.runWithin fuel rest entered (a :: closed)).map (.closed a :: ·)
  | fuel + 1, .enter a :: rest, entered, closed =>
    match g.next a with
    | none => g.runWithin fuel rest entered closed
    | some l =>
      if a ∈ closed then g.runWithin fuel rest entered closed
      else if a ∈ entered then (g.runWithin fuel rest entered closed).map (.cycle a :: ·)
      else g.runWithin fuel (l.map .enter ++ .leave a :: rest) (a :: entered) closed

theorem run_eq_of_runWithin {g : Graph α} {fuel : Nat} {tasks : List (Task α)}
    {entered closed : List α} {events : List (Event α)}
    (h : g.runWithin fuel tasks entered closed = some events) :
    g.run tasks entered closed = events := by
  induction fuel generalizing tasks entered closed events with
  | zero =>
    cases tasks with
    | nil => simpa [runWithin, run] using h
    | cons t rest => cases h
  | succ fuel ih =>
    cases tasks with
    | nil => simpa [runWithin, run] using h
    | cons t rest =>
      cases t with
      | leave a =>
        rw [runWithin] at h
        obtain ⟨later, hlater, rfl⟩ := Option.map_eq_some_iff.mp h
        rw [run, ih hlater]
      | enter a =>
        rw [runWithin] at h
        rw [run_cons_enter]
        cases hn : g.next a with
        | none =>
          rw [hn] at h
          exact ih h
        | some l =>
          rw [hn] at h
          dsimp only at h ⊢
          by_cases hc : a ∈ closed
          · rw [if_pos hc] at h ⊢
            exact ih h
          · rw [if_neg hc] at h ⊢
            by_cases he : a ∈ entered
            · rw [if_pos he] at h ⊢
              obtain ⟨later, hlater, rfl⟩ := Option.map_eq_some_iff.mp h
              rw [ih hlater]
            · rw [if_neg he] at h ⊢
              exact ih h

/-! ## Rewriting with them

The searches that remain stand under other names, so that rewriting ends. -/

def visitAnyway (g : Graph α) (strategy : Strategy) (waiting seen : List α) : List α :=
  g.visit strategy waiting seen

theorem visit_eq (g : Graph α) (strategy : Strategy) (waiting seen : List α) :
    g.visit strategy waiting seen =
      (g.visitWithin strategy 100 waiting seen).getD (g.visitAnyway strategy waiting seen) := by
  cases h : g.visitWithin strategy 100 waiting seen with
  | none => rfl
  | some l => exact visit_eq_of_visitWithin h

def runAnyway (g : Graph α) (tasks : List (Task α)) (entered closed : List α) : List (Event α) :=
  g.run tasks entered closed

theorem run_eq (g : Graph α) (tasks : List (Task α)) (entered closed : List α) :
    g.run tasks entered closed =
      (g.runWithin 100 tasks entered closed).getD (g.runAnyway tasks entered closed) := by
  cases h : g.runWithin 100 tasks entered closed with
  | none => rfl
  | some events => exact run_eq_of_runWithin h

end Graph
end Lineage
