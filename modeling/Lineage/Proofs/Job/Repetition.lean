import Lineage.Proofs.Job.Batches

/-!
Running a batch once more.

A batch takes nothing away from the files, so the output of a job that has been
done once is found from then on and the job is skipped.  Its content stays as
well, unless another job writes to the same place because it cannot find the
file there.  That takes an output path on which a directory is missing, and one
that leads up again.
-/

namespace Lineage

namespace Path

/-- Relative paths are joined to a path all alike. -/
theorem exists_base (p : Path) : ∃ base, ∀ q : Path, q.parts.head? ≠ some "" →
    (p.join q).parts = base ++ q.parts := by
  by_cases hlast : p.parts.getLast? = some ""
  · exact ⟨p.parts.dropLast, fun q hq => by rw [join, if_neg hq, if_pos hlast]⟩
  · exact ⟨p.parts, fun q hq => by rw [join, if_neg hq, if_neg hlast]⟩

end Path

namespace FileTree

variable {t : FileTree} {place : Place}

/-- The path goes up only out of directories that are there. -/
def Passable (t : FileTree) (p : Path) : Prop :=
  ∀ before after, p.parts = before ++ ".." :: after →
    ∃ place, t.follow before = .ok (place, .directory)

theorem exists_follow_of_append {parts more : List String}
    (h : t.follow (parts ++ more) = .ok (place, .directory)) :
    ∃ above, t.follow parts = .ok (above, .directory) := by
  induction more using List.reverseRecOn generalizing place with
  | nil => exact ⟨place, by rwa [List.append_nil] at h⟩
  | append_singleton more x ih =>
    rw [← List.append_assoc] at h
    obtain ⟨above, habove, _⟩ := exists_follow_of_concat h
    exact ih habove

/-- A path that goes up only within a beginning that leads to a directory goes up
out of directories that are there. -/
theorem exists_follow_of_up {base names before after : List String}
    (h : t.follow base = .ok (place, .directory)) (hn : ".." ∉ names)
    (heq : base ++ names = before ++ ".." :: after) :
    ∃ above, t.follow before = .ok (above, .directory) := by
  rcases List.append_eq_append_iff.mp heq with ⟨more, hbefore, hnames⟩ | ⟨more, hbase, hafter⟩
  · exact absurd (by rw [hnames]; simp) hn
  · rw [hbase] at h
    exact exists_follow_of_append h

end FileTree

namespace Job

open FileTree (Grows Outlet)

variable {c : Config} {official : Names} {t s : FileTree} {j i : Job}

/-! ## Labels -/

/-- The label says where the output goes, whatever the output directory is. -/
def IsAbsolute (j : Job) : Prop := j.label.startsWith "/" = true

instance : DecidablePred IsAbsolute := fun _ => inferInstanceAs (Decidable (_ = _))

/-- The part of the output path that comes from the label. -/
def ownPath (j : Job) : Path := Path.ofString (j.label ++ "_meta.json")

theorem head?_ownPath_iff (j : Job) : j.ownPath.parts.head? = some "" ↔ j.IsAbsolute := by
  have hne : j.label ++ "_meta.json" ≠ "" := by
    intro h
    have hlength := congrArg String.length h
    rw [String.length_append] at hlength
    exact absurd hlength (by simp)
  rw [ownPath, Path.head?_ofString_iff hne, IsAbsolute, String.startsWith_string_iff,
    String.startsWith_string_iff, String.toList_append]
  show ['/'] <+: _ ↔ ['/'] <+: _
  cases j.label.toList with
  | nil => decide
  | cons a label => simp [List.cons_prefix_cons]

theorem not_mem_ownPath (h : ".." ∉ (Path.ofString j.label).parts) :
    ".." ∉ j.ownPath.parts := by
  obtain ⟨init, last, hlabel, hname⟩ :=
    Path.cut_append "_meta.json".toList (by decide) j.label.toList
  rw [Path.ofString, hlabel, List.map_append, List.mem_append, not_or] at h
  rw [ownPath, Path.ofString, String.toList_append, hname, List.map_append, List.mem_append, not_or]
  refine ⟨h.1, fun hlast => ?_⟩
  have hlength := congrArg (·.toList.length) (List.mem_singleton.mp hlast)
  simp only [String.toList_ofList, List.length_append] at hlength
  have hlong : "..".toList.length < "_meta.json".toList.length := by decide
  omega

/-! ## Output paths -/

/-- If a job with a relative label has its output, the way to the output directory
is there, and no output path goes up out of what is missing. -/
theorem passable_of_isFile (hj : ¬ j.IsAbsolute) (hi : ".." ∉ (Path.ofString i.label).parts)
    (hfound : t.isFile (j.outputPath c) = true) : t.Passable (i.outputPath c) := by
  intro before after heq
  have hname := not_mem_ownPath hi
  by_cases habs : i.IsAbsolute
  · have hown : i.outputPath c = i.ownPath := if_pos ((head?_ownPath_iff i).mpr habs)
    rw [← hown, heq] at hname
    simp at hname
  · obtain ⟨base, hbase⟩ := Path.exists_base c.outputDirectory
    obtain ⟨parts, above, x, hpath, hfollow, _⟩ := FileTree.exists_of_isFile hfound
    have hjparts := hbase _ (mt (head?_ownPath_iff j).mp hj)
    have hiparts := hbase _ (mt (head?_ownPath_iff i).mp habs)
    have hprefix : base <+: parts := by
      have hall : parts ++ [x] = base ++ j.ownPath.parts :=
        (congrArg Path.parts hpath).symm.trans hjparts
      rcases List.prefix_concat_iff.mp ⟨_, hall.symm⟩ with heq | hprefix
      · rw [heq, List.self_eq_append_right, ownPath, Path.ofString, List.map_eq_nil_iff] at hall
        exact absurd hall (Path.cut_ne_nil _)
      · exact hprefix
    obtain ⟨more, rfl⟩ := hprefix
    obtain ⟨place, hplace⟩ := FileTree.exists_follow_of_append hfollow
    exact FileTree.exists_follow_of_up hplace hname (hiparts.symm.trans heq)

/-! ## One job -/

theorem make_of_isFile (hforce : c.force = false) (official : Names)
    (h : t.isFile (j.outputPath c) = true) : j.make c official t = (.ok none, t) := by
  rw [make_eq, hforce, h]
  rfl

theorem fst_eq_ok_of_saved {output : Path} {r : Except (Path × FileError) Unit × FileTree}
    {p : Option Path} (h : (saved output r).1 = .ok p) : r.1 = .ok () := by
  obtain ⟨outcome, t⟩ := r
  cases outcome with
  | ok _ => rfl
  | error e => cases h

/-- The output of a job that has been done is there. -/
theorem isFile_of_make_ok {p : Option Path} (h : (j.make c official t).1 = .ok p) :
    (j.make c official t).2.isFile (j.outputPath c) = true := by
  rw [make_eq] at h ⊢
  split at h
  · next hskip =>
    rw [if_pos hskip]
    exact (Bool.and_eq_true_iff.mp hskip).2
  · next hskip =>
    rw [if_neg hskip]
    cases hr : j.resolve c official t with
    | error e =>
      rw [hr] at h
      cases h
    | ok g =>
      rw [hr] at h
      rw [saved_snd]
      exact FileTree.isFile_of_save (fst_eq_ok_of_saved h)

/-- A job that finds its output, or has it elsewhere, leaves the content at a place
as it is. -/
theorem grows_make_of_found (hforce : c.force = false) (official : Names) {z : Place}
    (hfound : j.output c = z → t.isFile (j.outputPath c) = true) :
    Grows (· ≠ z) t (j.make c official t).2 := by
  by_cases hz : j.output c = z
  · rw [make_of_isFile hforce official (hfound hz)]
    exact .refl _ t
  · exact (grows_make j c official t).mono fun z' hz' heq => hz (hz'.symm.trans heq)

end Job

namespace Batch

open FileTree (Grows Outlet)

variable {c : Config} {official : Names} {t s : FileTree} {jobs : List Job} {j : Job}

theorem grows_step (c : Config) (official : Names) (r : Batch × FileTree) (j : Job) :
    Grows (· = j.output c) r.2 (step c official r j).2 := by
  rw [step]
  split
  · exact .refl _ r.2
  · exact j.grows_make c official r.2

theorem grows_foldl (c : Config) (official : Names) (jobs : List Job) (r : Batch × FileTree) :
    Grows (fun z => ∃ j ∈ jobs, j.output c = z) r.2 (jobs.foldl (step c official) r).2 := by
  induction jobs using List.reverseRecOn with
  | nil => exact .refl _ r.2
  | append_singleton jobs j ih =>
    rw [List.foldl_concat]
    refine (ih.mono fun z hz => ?_).trans ((grows_step c official _ j).mono fun z hz => ?_)
    · obtain ⟨i, hi, hz⟩ := hz
      exact ⟨i, List.mem_append_left _ hi, hz⟩
    · exact ⟨j, List.mem_append_right _ List.mem_cons_self, hz.symm⟩

/-- A batch takes nothing away, and changes no content but that of its outputs. -/
theorem grows_run (c : Config) (official : Names) (jobs : List Job) (t : FileTree) :
    Grows (fun z => ∃ j ∈ jobs, j.output c = z) t (run c official jobs t).2 :=
  grows_foldl c official jobs (empty, t)

/-- A file stays as it is if every job with its output there finds it. -/
theorem grows_run_of_found (hforce : c.force = false) (official : Names) {z : Place}
    (hfound : ∀ i ∈ jobs, i.output c = z → ∀ s, Grows (· ≠ z) t s →
      s.isFile (i.outputPath c) = true) :
    Grows (· ≠ z) t (run c official jobs t).2 := by
  induction jobs using List.reverseRecOn with
  | nil => exact .refl _ t
  | append_singleton jobs j ih =>
    have hbefore := ih fun i hi => hfound i (List.mem_append_left _ hi)
    rw [run_concat, step]
    split
    · exact hbefore
    · refine hbefore.trans (Job.grows_make_of_found hforce official fun hz => ?_)
      exact hfound j (List.mem_append_right _ List.mem_cons_self) hz _ hbefore

/-- A batch that is run once more skips every job that it has come to and done
before, as far as it comes, and leaves the content of its output as it is, unless
the label is absolute and another job leads to the same place on a way up out of a
directory that is still missing. -/
theorem run_again (ht : t.Grounded) (hforce : c.force = false)
    (hup : ∀ i ∈ jobs, ".." ∉ (Path.ofString i.label).parts) :
    let once := (run c official jobs t).2
    ∀ before j after, jobs = before ++ j :: after →
      (run c official before t).1.stopped = none →
      (∃ p, (j.make c official (run c official before t).2).1 = .ok p) →
      (j.make c official (run c official before once).2).1 = .ok none ∧
        (¬ j.IsAbsolute ∨
            (∀ i ∈ jobs, i.output c = j.output c → once.Passable (i.outputPath c)) →
          ∃ content, once.read (j.outputPath c) = .ok content ∧
            (run c official jobs once).2.read (j.outputPath c) = .ok content) := by
  intro once before j after hjobs hrunning hdone
  obtain ⟨p, hdone⟩ := hdone
  have hmade := Job.isFile_of_make_ok hdone
  have hbefore : (run c official before t).2.Grounded := (grows_run c official before t).grounded ht
  have hlater : Grows (fun z => ∃ i ∈ after, i.output c = z)
      (j.make c official (run c official before t).2).2 once := by
    have honce : once =
        (after.foldl (step c official) (step c official (run c official before t) j)).2 := by
      show (run c official jobs t).2 = _
      rw [hjobs, run, List.foldl_append]
      rfl
    rw [honce, step_of_running hrunning]
    exact grows_foldl c official after (_, _)
  have hg : once.Grounded := (grows_run c official jobs t).grounded ht
  have hfound : once.isFile (j.outputPath c) = true := by
    exact hlater.isFile ((j.grows_make c official _).grounded hbefore) hmade
  refine ⟨?_, fun hcondition => ?_⟩
  · have hstill := (grows_run c official before once).isFile hg hfound
    rw [Job.make_of_isFile hforce official hstill]
  · have hpassable : ∀ i ∈ jobs, i.output c = j.output c → once.Passable (i.outputPath c) := by
      rcases hcondition with hj | hpassable
      · exact fun i hi _ => Job.passable_of_isFile hj (hup i hi) hfound
      · exact hpassable
    obtain ⟨_, above, x, _, _, ho, content, hn⟩ := FileTree.exists_of_isFile hfound
    -- Whoever has its output here finds it, since nothing goes away in between.
    have hkept : Grows (· ≠ above ++ [x]) once (run c official jobs once).2 := by
      refine grows_run_of_found hforce official fun i hi hiz s hs => ?_
      obtain ⟨above', x', hout, ho'⟩ :=
        Job.exists_outlet (hpassable i hi (hiz.trans ho.destination_eq.symm))
      rw [(ho'.mono fun _ => hs.directory).isFile_iff (hs.grounded hg), ← hout, hiz]
      exact hs.file ⟨content, hn⟩
    have hn' := (hkept.content ⟨content, hn⟩ (not_not_intro rfl)).trans hn
    exact ⟨content, ho.read_eq hg hn,
      (ho.mono fun _ => hkept.directory).read_eq (hkept.grounded hg) hn'⟩

namespace Sample

/-- The way to the outputs is missing at first and made by the first job.  The
second one has been done before. -/
theorem run_again_roundabout :
    let once := (run roundabout .asWritten [job "a", job "b"] files).2
    ((job "b").make roundabout .asWritten (run roundabout .asWritten [job "a"] once).2).1 =
        .ok none ∧
      ∃ content, once.read ⟨["gone", "..", "out", "b_meta.json"]⟩ = .ok content ∧
        (run roundabout .asWritten [job "a", job "b"] once).2.read
          ⟨["gone", "..", "out", "b_meta.json"]⟩ = .ok content := by
  intro once
  have hdone : ∃ p, ((job "b").make roundabout .asWritten
      (run roundabout .asWritten [job "a"] files).2).1 = .ok p :=
    ⟨none, by decide +kernel⟩
  obtain ⟨hskipped, hkept⟩ := run_again (by decide +kernel) rfl (by decide +kernel) [job "a"]
    (job "b") [] rfl (by decide +kernel) hdone
  exact ⟨hskipped, hkept (Or.inl (by decide +kernel))⟩

/-- A job that needs a directory which the last job makes, and has its output where
the second one has it. -/
def crossing : List Job :=
  [{ label := "b", primary := ⟨["late"]⟩, libraries := [] }, job "/out/b", job "/late/c"]

/-- The first job fails in the first run.  In the second it does not find the
output of the second one, as its own way there is missing, and replaces it. -/
theorem run_again_replaced :
    let once := (run roundabout .asWritten crossing files).2
    files.Grounded ∧ roundabout.force = false ∧
      (∀ i ∈ crossing, ".." ∉ (Path.ofString i.label).parts) ∧
      (run roundabout .asWritten crossing files).1.skipped = ["/out/b"] ∧
      (run roundabout .asWritten crossing once).1.skipped = ["/out/b", "/late/c"] ∧
      (once.read ⟨["", "out", "b_meta.json"]⟩).toOption = some [] ∧
      ((run roundabout .asWritten crossing once).2.read ⟨["", "out", "b_meta.json"]⟩).toOption =
        some (Utf8.encode "\x7b\x7d") := by
  decide +kernel

end Sample

end Batch

end Lineage
