import Lineage.Job.Basic

/-!
Batches: jobs one after the other.

A job that fails does not stop the rest.  But if the program stops in a job, the
jobs after it are not done.
-/

namespace Lineage

structure Batch where
  written : List Path
  /-- The labels of jobs whose output was there already. -/
  skipped : List String
  failed : List (String × JobError)
  /-- The label of the job in which the program stopped. -/
  stopped : Option String
  deriving DecidableEq, Repr

namespace Batch

def empty : Batch := { written := [], skipped := [], failed := [], stopped := none }

def isSuccess (b : Batch) : Bool := b.failed.isEmpty

/-- The program stops in a job that comes to this. -/
def stops : Except JobError (Option Path) → Bool
  | .ok _ => false
  | .error e => e.stops

/-- Add the outcome of a job. -/
def add (b : Batch) (j : Job) : Except JobError (Option Path) → Batch
  | .ok (some p) => { b with written := b.written ++ [p] }
  | .ok none => { b with skipped := b.skipped ++ [j.label] }
  | .error e =>
    if e.stops then { b with stopped := some j.label }
    else { b with failed := b.failed ++ [(j.label, e)] }

/-- Do one more job, if the program still runs. -/
def step (c : Config) (official : Names) (s : Batch × FileTree) (j : Job) : Batch × FileTree :=
  if s.1.stopped.isSome then s
  else
    let (outcome, t) := j.make c official s.2
    (s.1.add j outcome, t)

def run (c : Config) (official : Names) (jobs : List Job) (t : FileTree) : Batch × FileTree :=
  jobs.foldl (step c official) (empty, t)

end Batch
end Lineage
