import Mathlib.Data.List.Infix
import Mathlib.Data.List.Pairwise
import Lineage.Job.Batch
import Lineage.Proofs.Files.Growth
import Lineage.Proofs.Files.Texts
import Lineage.Proofs.Job.Inputs

/-!
Jobs of a batch do not disturb each other.

What a job does to the files is told by the nodes at and above its output, and
it changes no others.  If the outputs lie apart from each other, no job changes
for another what this one looks at there, but for directories that both would
make.  If the inputs lie apart from what is changed they are read as before.  So
a batch lays the changes that the jobs make on their own over each other.
-/

namespace Lineage

open Std (ExtTreeMap)

namespace Path

/-! ## Paths of outputs -/

theorem exists_join_eq (p q : Path) : ∃ before, (p.join q).parts = before ++ q.parts := by
  unfold join
  split
  · exact ⟨[], rfl⟩
  · split
    · exact ⟨p.parts.dropLast, rfl⟩
    · exact ⟨p.parts, rfl⟩

end Path

/-- The last part of an output path is a name. -/
theorem Job.exists_outputPath_eq (j : Job) (c : Config) :
    ∃ parts x, j.outputPath c = ⟨parts ++ [x]⟩ ∧ Path.isIdle x = false ∧ x ≠ ".." := by
  obtain ⟨init, last, _, hcut⟩ := Path.cut_append "_meta.json".toList (by decide) j.label.toList
  obtain ⟨before, hjoin⟩ := Path.exists_join_eq c.outputDirectory
    (Path.ofString (j.label ++ "_meta.json"))
  have hparts : (Path.ofString (j.label ++ "_meta.json")).parts =
      init.map String.ofList ++ [String.ofList (last ++ "_meta.json".toList)] := by
    rw [Path.ofString, String.toList_append, hcut]
    simp
  have hlong : 10 ≤ (String.ofList (last ++ "_meta.json".toList)).toList.length := by
    rw [String.toList_ofList, List.length_append]
    exact Nat.le_add_left 10 _
  have hshort : ∀ s : String, s.toList.length < 10 →
      String.ofList (last ++ "_meta.json".toList) ≠ s := by
    intro s hs heq
    rw [heq] at hlong
    omega
  refine ⟨before ++ init.map String.ofList, _, ?_, ?_, hshort ".." (by decide)⟩
  · have houtput : (j.outputPath c).parts = _ := hjoin
    rw [hparts, ← List.append_assoc] at houtput
    exact congrArg Path.mk houtput
  · rw [Path.isIdle, Bool.or_eq_false_iff, beq_eq_false_iff_ne, beq_eq_false_iff_ne]
    exact ⟨hshort "" (by decide), hshort "." (by decide)⟩

namespace Job

variable {c : Config} {official : Names} {t s : FileTree} {i j : Job} {above : Place} {x : String}

open FileTree (Grows Outlet SeenAs ChangedAs Saved ReadsAlike changedAs_self)

/-- The place that the output path leads to. -/
def output (j : Job) (c : Config) : Place := Path.destination (j.outputPath c).parts

/-- Neither output is the other, or lies above it. -/
def OutputsApart (c : Config) (i j : Job) : Prop :=
  ¬ i.output c <+: j.output c ∧ ¬ j.output c <+: i.output c

instance (c : Config) : Std.Symm (OutputsApart c) := ⟨fun _ _ h => ⟨h.2, h.1⟩⟩

instance (c : Config) : DecidableRel (OutputsApart c) :=
  fun _ _ => inferInstanceAs (Decidable (_ ∧ _))

/-- The place of the output, or one where the job on its own makes a change, such
as a directory for the output. -/
def Touches (j : Job) (c : Config) (official : Names) (t : FileTree) (z : Place) : Prop :=
  z = j.output c ∨ (j.make c official t).2.nodes[z]? ≠ t.nodes[z]?

instance (j : Job) (c : Config) (official : Names) (t : FileTree) (z : Place) :
    Decidable (j.Touches c official t z) := inferInstanceAs (Decidable (_ ∨ _))

/-- An output path that goes up only out of directories that are there leads
straight down from one. -/
theorem exists_outlet (h : ∀ before after, (j.outputPath c).parts = before ++ ".." :: after →
    ∃ place, t.follow before = .ok (place, .directory)) :
    ∃ above x, j.output c = above ++ [x] ∧ t.Outlet (j.outputPath c) above x := by
  obtain ⟨parts, x, hpath, hx, hup⟩ := j.exists_outputPath_eq c
  have hleads : t.Leads parts (Path.destination parts) := by
    refine .of_up fun before after heq => h before (after ++ [x]) ?_
    rw [hpath, heq, List.append_assoc, List.cons_append]
  refine ⟨Path.destination parts, x, ?_, ⟨parts, hpath, hleads⟩, hx, hup⟩
  rw [output, hpath, Path.destination_concat]
  simp [Path.onward, hx, hup]

/-! ## One job -/

/-- Saving ends a job. -/
def saved (output : Path) : Except (Path × FileError) Unit × FileTree →
    Except JobError (Option Path) × FileTree
  | (.ok _, t) => (.ok (some output), t)
  | (.error (p, e), t) => (.error (.write p e), t)

@[simp]
theorem saved_snd (output : Path) (r : Except (Path × FileError) Unit × FileTree) :
    (saved output r).2 = r.2 := by
  obtain ⟨outcome, t⟩ := r
  cases outcome <;> rfl

theorem saved_fst_congr (output : Path) {r r' : Except (Path × FileError) Unit × FileTree}
    (h : r.1 = r'.1) : (saved output r).1 = (saved output r').1 := by
  obtain ⟨outcome, t⟩ := r
  obtain ⟨outcome', t'⟩ := r'
  cases (show outcome = outcome' from h)
  cases outcome <;> rfl

theorem make_eq (j : Job) (c : Config) (official : Names) (t : FileTree) :
    j.make c official t =
      if !c.force && t.isFile (j.outputPath c) then (.ok none, t)
      else
        match j.resolve c official t with
        | .error e => (.error (.load e), t)
        | .ok g => saved (j.outputPath c)
          (t.save (j.outputPath c) (Utf8.encode g.metadata.render)) := rfl

/-- A job comes to the same in a tree that looks the same to it. -/
theorem make_congr (official : Names) (ho : t.Outlet (j.outputPath c) above x)
    (ht : t.Grounded) (hs : s.Grounded) (hseen : SeenAs above x t s)
    (hreads : ∀ p ∈ j.inputs c t, ReadsAlike t s p) :
    (j.make c official s).1 = (j.make c official t).1 ∧
      ChangedAs t (j.make c official t).2 s (j.make c official s).2 := by
  have hfile : s.isFile (j.outputPath c) = t.isFile (j.outputPath c) := by
    have ho' : s.Outlet (j.outputPath c) above x := ho.mono fun _ => hseen.directory
    rw [Bool.eq_iff_iff, ho.isFile_iff ht, ho'.isFile_iff hs, FileTree.FileAt, FileTree.FileAt,
      hseen.here]
  rw [make_eq, make_eq, hfile, ← resolve_congr hreads]
  split
  · exact ⟨rfl, changedAs_self t s⟩
  · cases j.resolve c official t with
    | error e => exact ⟨rfl, changedAs_self t s⟩
    | ok g =>
      obtain ⟨houtcome, hchanged⟩ := ho.save_congr ht hs hseen (Utf8.encode g.metadata.render)
      refine ⟨saved_fst_congr _ houtcome, ?_⟩
      simpa using hchanged

/-- A job leaves the files alone or saves its output. -/
theorem make_cases (ho : t.Outlet (j.outputPath c) above x) (ht : t.Grounded) :
    (j.make c official t).2 = t ∨ ∃ content, Saved t (j.make c official t).2 above x content ∧
      ¬ t.Blocked above ∧ t.nodes[above ++ [x]]? ≠ some .directory := by
  rw [make_eq]
  split
  · exact Or.inl rfl
  · cases j.resolve c official t with
    | error e => exact Or.inl rfl
    | ok g =>
      rw [saved_snd]
      rcases ho.save_cases ht (Utf8.encode g.metadata.render) with hsame | hsaved
      · exact Or.inl hsame
      · exact Or.inr ⟨_, hsaved⟩

/-- What a job changes lies at or above its output, and is no directory
before. -/
theorem of_changed (ho : t.Outlet (j.outputPath c) above x) (hout : j.output c = above ++ [x])
    (ht : t.Grounded) {z : Place}
    (hz : (j.make c official t).2.nodes[z]? ≠ t.nodes[z]?) :
    z ≠ [] ∧ t.nodes[z]? ≠ some .directory ∧ z <+: j.output c ∧
      (z = j.output c ∨
        t.nodes[z]? = none ∧ (j.make c official t).2.nodes[z]? = some .directory) := by
  rcases make_cases ho ht with hsame | ⟨content, hsaved, _, hd⟩
  · rw [hsame] at hz
    exact absurd rfl hz
  · obtain ⟨hne, hnode, hwhere⟩ := hsaved.of_ne hd hz
    rw [hout]
    rcases hwhere with heq | ⟨hp, hmade⟩
    · exact ⟨hne, hnode, heq ▸ List.prefix_refl _, Or.inl heq⟩
    · exact ⟨hne, hnode, hp.trans (List.prefix_append _ _), Or.inr hmade⟩

/-- A job takes nothing away, and changes no content but that of its output. -/
theorem grows_make (j : Job) (c : Config) (official : Names) (t : FileTree) :
    Grows (· = j.output c) t (j.make c official t).2 := by
  rw [make_eq]
  split
  · exact .refl _ t
  · cases j.resolve c official t with
    | error e => exact .refl _ t
    | ok g =>
      rw [saved_snd]
      exact FileTree.grows_save t (j.outputPath c) _

/-- A job that is skipped, or that fails before it has anything to write, changes
no files. -/
theorem make_snd_of_idle (j : Job) (c : Config) (official : Names) (t : FileTree)
    (h : (j.make c official t).1 = .ok none ∨ ∃ e, (j.make c official t).1 = .error (.load e)) :
    (j.make c official t).2 = t := by
  rw [make_eq] at h ⊢
  split
  · rfl
  · next hskip =>
    rw [if_neg hskip] at h
    cases hr : j.resolve c official t with
    | error e => rfl
    | ok g =>
      rw [hr] at h
      dsimp only at h
      generalize t.save _ _ = r at h
      obtain ⟨outcome, t'⟩ := r
      cases outcome with
      | ok _ =>
        rcases h with h | ⟨e, h⟩
        · cases h
        · cases h
      | error e =>
        rcases h with h | ⟨e, h⟩
        · cases h
        · cases h

end Job

namespace Batch

open FileTree (Outlet SeenAs ChangedAs ReadsAlike)

variable {c : Config} {official : Names} {t s : FileTree} {jobs done : List Job} {j : Job}

/-! ## Changes laid over each other -/

/-- The jobs have outputs apart from each other, and what they read lies apart
from the outputs and from what is made for them. -/
structure Apart (c : Config) (official : Names) (t : FileTree) (jobs : List Job) : Prop where
  /-- Output paths go up only out of directories that are there. -/
  up : ∀ j ∈ jobs, ∀ before after, (j.outputPath c).parts = before ++ ".." :: after →
    ∃ place, t.follow before = .ok (place, .directory)
  outputs : jobs.Pairwise (Job.OutputsApart c)
  /-- No input contains an output. -/
  contains : ∀ i ∈ jobs, ∀ p ∈ i.inputs c t, ∀ j ∈ jobs,
    ¬ Path.destination p.parts <+: j.output c
  /-- No input leads to or below an output or a directory made for one. -/
  below : ∀ i ∈ jobs, ∀ p ∈ i.inputs c t, ∀ j ∈ jobs, ∀ before, before <+: p.parts →
    ¬ j.Touches c official t (Path.destination before)

/-- The tree `s` is `t` with all changes that the jobs in `done` make in it on
their own. -/
structure Overlaid (c : Config) (official : Names) (t : FileTree) (done : List Job)
    (s : FileTree) : Prop where
  grounded : s.Grounded
  kept : ∀ {z : Place}, (∀ j ∈ done, (j.make c official t).2.nodes[z]? = t.nodes[z]?) →
    s.nodes[z]? = t.nodes[z]?
  changed : ∀ {j : Job}, j ∈ done → ∀ {z : Place},
    (j.make c official t).2.nodes[z]? ≠ t.nodes[z]? →
      s.nodes[z]? = (j.make c official t).2.nodes[z]?

theorem Overlaid.exists_of_ne (h : Overlaid c official t done s) {z : Place}
    (hz : s.nodes[z]? ≠ t.nodes[z]?) : ∃ j ∈ done,
      (j.make c official t).2.nodes[z]? ≠ t.nodes[z]? ∧
        s.nodes[z]? = (j.make c official t).2.nodes[z]? := by
  by_contra hnone
  refine hz (h.kept fun j hj => ?_)
  by_contra hne
  exact hnone ⟨j, hj, hne, h.changed hj hne⟩

theorem overlaid_nil (ht : t.Grounded) : Overlaid c official t [] t where
  grounded := ht
  kept _ := rfl
  changed hj := absurd hj List.not_mem_nil

section Step

variable (hapart : Apart c official t jobs) (ht : t.Grounded)

include hapart ht

theorem Overlaid.of_ne (h : Overlaid c official t done s) (hdone : ∀ i ∈ done, i ∈ jobs)
    {z : Place} (hz : s.nodes[z]? ≠ t.nodes[z]?) : t.nodes[z]? ≠ some .directory ∧
      ∃ i ∈ done, (i.make c official t).2.nodes[z]? ≠ t.nodes[z]? ∧ z <+: i.output c ∧
        (z = i.output c ∨ t.nodes[z]? = none ∧ s.nodes[z]? = some .directory) := by
  obtain ⟨i, hi, hne, heq⟩ := h.exists_of_ne hz
  obtain ⟨above, x, hout, ho⟩ := Job.exists_outlet (hapart.up i (hdone i hi))
  obtain ⟨_, hnode, hp, hwhere⟩ := Job.of_changed ho hout ht hne
  rw [← heq] at hwhere
  exact ⟨hnode, i, hi, hne, hp, hwhere⟩

theorem Overlaid.directory (h : Overlaid c official t done s) (hdone : ∀ i ∈ done, i ∈ jobs)
    {z : Place} (hz : t.nodes[z]? = some .directory) : s.nodes[z]? = some .directory := by
  by_contra hne
  exact (h.of_ne hapart ht hdone fun heq => hne (heq.trans hz)).1 hz

/-- What a job looks at for its output is left as it was by the others. -/
theorem Overlaid.seenAs (h : Overlaid c official t done s) (hdone : ∀ i ∈ done, i ∈ jobs)
    (hj : ∀ i ∈ done, Job.OutputsApart c i j)
    {above : Place} {x : String} (hout : j.output c = above ++ [x]) : SeenAs above x t s := by
  refine { directory := h.directory hapart ht hdone, file := fun {z} hz => ?_, here := ?_ }
  · by_cases hsame : s.nodes[z]? = t.nodes[z]?
    · rw [FileTree.FileAt, FileTree.FileAt, hsame]
    · obtain ⟨_, i, hi, _, _, heq | ⟨hnone, hdir⟩⟩ := h.of_ne hapart ht hdone hsame
      · refine absurd ?_ (hj i hi).1
        rw [← heq, hout]
        exact hz.trans (List.prefix_append _ _)
      · simp [FileTree.FileAt, hnone, hdir]
  · by_contra hne
    obtain ⟨_, i, hi, _, hp, _⟩ := h.of_ne hapart ht hdone (Ne.symm hne)
    rw [← hout] at hp
    exact (hj i hi).2 hp

/-- After all jobs the output of each looks as the job leaves it on its own. -/
theorem Overlaid.seenAs_make (h : Overlaid c official t jobs s) (hj : j ∈ jobs)
    {above : Place} {x : String} (hout : j.output c = above ++ [x]) :
    SeenAs above x (j.make c official t).2 s := by
  have hothers : ∀ i ∈ jobs, i ≠ j → Job.OutputsApart c i j :=
    fun i hi hne => hapart.outputs.forall hi hj hne
  -- What the job does not change is changed by others only above the output, to directories.
  have hsame : ∀ {z : Place}, z <+: j.output c →
      (j.make c official t).2.nodes[z]? = t.nodes[z]? → s.nodes[z]? ≠ t.nodes[z]? →
        z ≠ j.output c ∧ t.nodes[z]? = none ∧ s.nodes[z]? = some .directory := by
    intro z hz hkept hne
    obtain ⟨_, i, hi, hchanged, hp, hwhere⟩ := h.of_ne hapart ht (fun _ hi => hi) hne
    have hij : i ≠ j := by
      intro heq
      rw [heq] at hchanged
      exact hchanged hkept
    refine ⟨fun heq => (hothers i hi hij).2 (heq ▸ hp), ?_⟩
    exact hwhere.resolve_left fun heq => (hothers i hi hij).1 (heq ▸ hz)
  refine { directory := fun {z} hz => ?_, file := fun {z} hz => ?_, here := ?_ }
  · by_cases hkept : (j.make c official t).2.nodes[z]? = t.nodes[z]?
    · exact h.directory hapart ht (fun _ hi => hi) (hkept ▸ hz)
    · rw [h.changed hj hkept]
      exact hz
  · by_cases hkept : (j.make c official t).2.nodes[z]? = t.nodes[z]?
    · by_cases heq : s.nodes[z]? = t.nodes[z]?
      · rw [FileTree.FileAt, FileTree.FileAt, hkept, heq]
      · have hup : z <+: j.output c := hout ▸ hz.trans (List.prefix_append _ _)
        obtain ⟨_, hnone, hdir⟩ := hsame hup hkept heq
        simp [FileTree.FileAt, hkept, hnone, hdir]
    · rw [FileTree.FileAt, FileTree.FileAt, h.changed hj hkept]
  · rw [← hout]
    by_cases hkept : (j.make c official t).2.nodes[j.output c]? = t.nodes[j.output c]?
    · by_contra hne
      rw [hkept] at hne
      exact (hsame (List.prefix_refl _) hkept (Ne.symm hne)).1 rfl
    · rw [h.changed hj hkept]

/-- What a job reads is left as it was. -/
theorem Overlaid.readsAlike (h : Overlaid c official t done s) (hdone : ∀ i ∈ done, i ∈ jobs)
    (hj : j ∈ jobs) {p : Path} (hp : p ∈ j.inputs c t) : ReadsAlike t s p where
  passed before hbefore := by
    by_contra hne
    obtain ⟨i, hi, hchanged, _⟩ := h.exists_of_ne (Ne.symm hne)
    exact hapart.below j hj p hp i (hdone i hi) before hbefore (Or.inr hchanged)
  below z hz := by
    by_contra hne
    obtain ⟨i, hi, hchanged, _⟩ := h.exists_of_ne (Ne.symm hne)
    obtain ⟨above, x, hout, ho⟩ := Job.exists_outlet (hapart.up i (hdone i hi))
    have hup := (Job.of_changed ho hout ht hchanged).2.2.1
    exact hapart.contains j hj p hp i (hdone i hi) (hz.trans hup)

/-- A job comes to what it comes to on its own, and its changes are laid over the
others. -/
theorem Overlaid.make (h : Overlaid c official t done s) (hdone : ∀ i ∈ done, i ∈ jobs)
    (hj : j ∈ jobs) (hout : ∀ i ∈ done, Job.OutputsApart c i j) :
    (j.make c official s).1 = (j.make c official t).1 ∧
      Overlaid c official t (done ++ [j]) (j.make c official s).2 := by
  obtain ⟨above, x, hplace, ho⟩ := Job.exists_outlet (hapart.up j hj)
  have hseen := h.seenAs hapart ht hdone hout hplace
  have hreads : ∀ p ∈ j.inputs c t, ReadsAlike t s p :=
    fun p hp => h.readsAlike hapart ht hdone hj hp
  obtain ⟨houtcome, hchanged⟩ := Job.make_congr official ho ht h.grounded hseen hreads
  have ho' : s.Outlet (j.outputPath c) above x := ho.mono fun _ => hseen.directory
  refine ⟨houtcome, (j.grows_make c official s).grounded h.grounded, fun {z} hz => ?_, fun {i} hi {z} hz => ?_⟩
  · rw [hchanged z, if_pos (hz j (by simp)), h.kept fun i hi => hz i (by simp [hi])]
  · rw [hchanged z]
    rcases List.mem_append.mp hi with hi | hi
    · split
      · exact h.changed hi hz
      · next hne =>
        -- Both jobs change the node, so it is a directory that both make.
        obtain ⟨above', x', hplace', ho'⟩ := Job.exists_outlet (hapart.up i (hdone i hi))
        obtain ⟨_, _, hpi, hwi⟩ := Job.of_changed ho' hplace' ht hz
        obtain ⟨_, _, hpj, hwj⟩ := Job.of_changed ho hplace ht hne
        rcases hwi with rfl | ⟨_, hdi⟩
        · exact absurd hpj (hout i hi).1
        · rcases hwj with rfl | ⟨_, hdj⟩
          · exact absurd hpi (hout i hi).2
          · rw [hdi, hdj]
    · cases List.mem_singleton.mp hi
      rw [if_neg hz]

end Step

/-! ## Whole batches -/

/-- What a batch reports of some jobs that come to the outcomes `f`. -/
def report (f : Job → Except JobError (Option Path)) (jobs : List Job) : Batch where
  written := jobs.filterMap fun j =>
    match f j with
    | .ok p => p
    | .error _ => none
  skipped := jobs.filterMap fun j =>
    match f j with
    | .ok none => some j.label
    | _ => none
  failed := jobs.filterMap fun j =>
    match f j with
    | .ok _ => none
    | .error e => some (j.label, e)
  stopped := none

theorem report_concat {f : Job → Except JobError (Option Path)} {j : Job}
    (hf : stops (f j) = false) (jobs : List Job) :
    report f (jobs ++ [j]) = (report f jobs).add j (f j) := by
  unfold report
  simp only [List.filterMap_append]
  cases hj : f j with
  | error e =>
    rw [hj] at hf
    simp [hj, add, show e.stops = false from hf]
  | ok p => cases p <;> simp [hj, add]

/-- Every job is reported once. -/
theorem length_report (f : Job → Except JobError (Option Path)) (jobs : List Job) :
    (report f jobs).written.length + (report f jobs).skipped.length +
      (report f jobs).failed.length = jobs.length := by
  induction jobs with
  | nil => rfl
  | cons j jobs ih =>
    rw [List.length_cons, ← ih]
    cases hj : f j with
    | error e =>
      simp only [report, List.filterMap_cons, hj, List.length_cons]
      omega
    | ok p =>
      cases p <;> simp only [report, List.filterMap_cons, hj, List.length_cons] <;> omega

theorem run_concat (c : Config) (official : Names) (jobs : List Job) (j : Job) (t : FileTree) :
    run c official (jobs ++ [j]) t = step c official (run c official jobs t) j := by
  simp [run]

theorem step_of_running {r : Batch × FileTree} (hr : r.1.stopped = none) (c : Config)
    (official : Names) (j : Job) :
    step c official r j = (r.1.add j (j.make c official r.2).1, (j.make c official r.2).2) := by
  rw [step, hr]
  rfl

theorem Apart.of_perm {jobs' : List Job} (h : Apart c official t jobs) (hp : jobs'.Perm jobs) :
    Apart c official t jobs' where
  up j hj := h.up j (hp.subset hj)
  outputs := hp.symm.pairwise h.outputs fun hab => ⟨hab.2, hab.1⟩
  contains i hi p hpath j hj := h.contains i (hp.subset hi) p hpath j (hp.subset hj)
  below i hi p hpath j hj := h.below i (hp.subset hi) p hpath j (hp.subset hj)

/-- The first jobs of a batch come to what they come to on their own, and leave all
the changes that they make on their own. -/
theorem overlaid_run (hapart : Apart c official t jobs) (ht : t.Grounded)
    (hruns : ∀ j ∈ jobs, stops (j.make c official t).1 = false) {rest : List Job}
    (hjobs : jobs = done ++ rest) :
    (run c official done t).1 = report (fun j => (j.make c official t).1) done ∧
      Overlaid c official t done (run c official done t).2 := by
  induction done using List.reverseRecOn generalizing rest with
  | nil => exact ⟨rfl, overlaid_nil ht⟩
  | append_singleton done j ih =>
    have hbefore : jobs = done ++ j :: rest := by simp [hjobs]
    obtain ⟨hreport, hoverlaid⟩ := ih hbefore
    have hdone : ∀ i ∈ done, i ∈ jobs := fun i hi => by simp [hjobs, hi]
    have hout : ∀ i ∈ done, Job.OutputsApart c i j := by
      intro i hi
      have hpairs := hapart.outputs
      rw [hjobs, List.append_assoc] at hpairs
      exact (List.pairwise_append.mp hpairs).2.2 i hi j (by simp)
    obtain ⟨houtcome, hmade⟩ := hoverlaid.make hapart ht hdone (by simp [hjobs]) hout
    have hrunning : (run c official done t).1.stopped = none := by rw [hreport, report]
    rw [run_concat, step_of_running hrunning, report_concat (hruns j (by simp [hjobs])), ← hreport,
      ← houtcome]
    exact ⟨rfl, hmade⟩

/-- The jobs of a batch on `t` have not disturbed each other. -/
structure Undisturbed (c : Config) (official : Names) (t : FileTree) (jobs : List Job) :
    Prop where
  /-- Each job comes to what it comes to on its own. -/
  outcome : ∀ before j after, jobs = before ++ j :: after →
    (j.make c official (run c official before t).2).1 = (j.make c official t).1
  /-- The outcomes are reported in order, each once. -/
  reported : (run c official jobs t).1 = report (fun j => (j.make c official t).1) jobs
  once : (run c official jobs t).1.written.length + (run c official jobs t).1.skipped.length +
    (run c official jobs t).1.failed.length = jobs.length
  /-- At each output path there is what the job leaves there on its own. -/
  found : ∀ j ∈ jobs, (run c official jobs t).2.find (j.outputPath c) =
    (j.make c official t).2.find (j.outputPath c)
  /-- The files are those from before with the changes that the jobs make on their
  own. -/
  changed : ∀ j ∈ jobs, ∀ z : Place, (j.make c official t).2.nodes[z]? ≠ t.nodes[z]? →
    (run c official jobs t).2.nodes[z]? = (j.make c official t).2.nodes[z]?
  kept : ∀ z : Place, (∀ j ∈ jobs, (j.make c official t).2.nodes[z]? = t.nodes[z]?) →
    (run c official jobs t).2.nodes[z]? = t.nodes[z]?
  /-- A job that is skipped, or that fails before it has anything to write, changes
  no files. -/
  idle : ∀ j ∈ jobs, ∀ s : FileTree, (j.make c official s).1 = .ok none ∨
    (∃ e, (j.make c official s).1 = .error (.load e)) → (j.make c official s).2 = s

/-- Jobs that lie apart do not disturb each other, in whatever order they are done,
if the program stops in none of them on its own. -/
theorem undisturbed_of_perm (ht : t.Grounded) (hapart : Apart c official t jobs)
    (hruns : ∀ j ∈ jobs, stops (j.make c official t).1 = false)
    {jobs' : List Job} (hp : jobs'.Perm jobs) : Undisturbed c official t jobs' := by
  have hapart := hapart.of_perm hp
  have hruns : ∀ j ∈ jobs', stops (j.make c official t).1 = false :=
    fun j hj => hruns j (hp.subset hj)
  obtain ⟨hreport, hoverlaid⟩ := overlaid_run hapart ht hruns (List.append_nil jobs').symm
  refine { outcome := fun before j after hjobs => ?_, reported := hreport, once := ?_,
           found := fun j hj => ?_, changed := fun j hj z hz => hoverlaid.changed hj hz,
           kept := fun z hz => hoverlaid.kept hz,
           idle := fun j _ s h => j.make_snd_of_idle c official s h }
  · have hbefore := (overlaid_run hapart ht hruns hjobs).2
    have hdone : ∀ i ∈ before, i ∈ jobs' := fun i hi => by simp [hjobs, hi]
    have hout : ∀ i ∈ before, Job.OutputsApart c i j := by
      intro i hi
      have hpairs := hapart.outputs
      rw [hjobs] at hpairs
      exact (List.pairwise_append.mp hpairs).2.2 i hi j List.mem_cons_self
    exact (hbefore.make hapart ht hdone (by simp [hjobs]) hout).1
  · rw [hreport]
    exact length_report _ _
  · obtain ⟨above, x, hout, ho⟩ := Job.exists_outlet (hapart.up j hj)
    have hgrows := j.grows_make c official t
    exact (ho.mono fun _ => hgrows.directory).find_congr (hgrows.grounded ht) hoverlaid.grounded
      (hoverlaid.seenAs_make hapart ht hj hout)

namespace Sample

/-- A directory of classes, and one where the output of the job `b` is already. -/
def files : FileTree :=
  ⟨.ofList [(["app"], FileNode.directory), (["out"], FileNode.directory),
    (["out", "b_meta.json"], FileNode.file [])]⟩

def job (label : String) : Job := { label, primary := ⟨["app"]⟩, libraries := [] }

/-- Outputs go to a directory that is not there. -/
def fresh : Config :=
  { Config.initial with outputDirectory := ⟨["new"]⟩, usePlatform := false }

theorem apart_fresh : Apart fresh .asWritten files [job "a", job "b"] where
  up j hj before after hparts := by
    have hnone : ∀ j ∈ [job "a", job "b"], ".." ∉ (j.outputPath fresh).parts := by decide +kernel
    refine absurd ?_ (hnone j hj)
    rw [hparts]
    simp
  outputs := by decide +kernel
  contains := by decide +kernel
  below i hi p hp j hj before hbefore := by
    have hall : ∀ i ∈ [job "a", job "b"], ∀ p ∈ i.inputs fresh files, ∀ j ∈ [job "a", job "b"],
        ∀ before ∈ p.parts.inits, ¬ j.Touches fresh .asWritten files (Path.destination before) := by
      decide +kernel
    exact hall i hi p hp j hj before ((List.mem_inits _ _).mpr hbefore)

/-- Two jobs that both make the directory for their outputs, the second one
first. -/
theorem undisturbed_fresh : files.Grounded ∧ [job "b", job "a"].Perm [job "a", job "b"] ∧
    Undisturbed fresh .asWritten files [job "b", job "a"] :=
  ⟨by decide +kernel, .swap _ _ _,
    undisturbed_of_perm (by decide +kernel) apart_fresh (by decide +kernel) (.swap _ _ _)⟩

/-- Outputs go to a directory that is there, but on a way through one that is
not. -/
def roundabout : Config := { fresh with outputDirectory := ⟨["gone", "..", "out"]⟩ }

/-- The first job makes the directory that the way to the outputs leads through.
So the second finds its output there and is skipped, which on its own it would
not be. -/
theorem skipped_on_the_way : files.Grounded ∧
    (∀ j ∈ [job "a", job "b"], ".." ∉ (Path.ofString j.label).parts) ∧
    [job "a", job "b"].Pairwise (Job.OutputsApart roundabout) ∧
    (∀ i ∈ [job "a", job "b"], ∀ p ∈ i.inputs roundabout files, ∀ j ∈ [job "a", job "b"],
      ¬ Path.destination p.parts <+: j.output roundabout ∧
        ∀ before ∈ p.parts.inits,
          ¬ j.Touches roundabout .asWritten files (Path.destination before)) ∧
    ((job "b").make roundabout .asWritten files).1.toOption =
      some (some ⟨["gone", "..", "out", "b_meta.json"]⟩) ∧
    (run roundabout .asWritten [job "a", job "b"] files).1.skipped = ["b"] := by
  decide +kernel

end Sample

end Batch

end Lineage
