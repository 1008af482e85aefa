import Lineage.Job.Basic
import Lineage.Proofs.Files.Places

/-!
What a job reads.

A job looks at its archives and at those of the platform, and where no platform is
named also at what tells where it is.  What it finds there is told by the nodes
that the paths pass and by those below the places that they lead to.
-/

namespace Lineage

namespace Path

/-- Names lead straight down. -/
theorem destination_append (parts : List String) {names : List String}
    (hn : ∀ x ∈ names, isIdle x = false ∧ x ≠ "..") :
    destination (parts ++ names) = destination parts ++ names := by
  induction names using List.reverseRecOn with
  | nil => simp
  | append_singleton names x ih =>
    obtain ⟨hx, hup⟩ := hn x (by simp)
    rw [← List.append_assoc, destination_concat, ih fun y hy => hn y (by simp [hy]), onward, if_neg,
      if_neg hup, List.append_assoc]
    simp [hx]

/-- A path is joined to the parts of another, but for an empty one at the end. -/
theorem exists_join_eq_of_names (p : Path) {q : Path}
    (hq : ∀ x ∈ q.parts, isIdle x = false ∧ x ≠ "..") :
    ∃ before, before <+: p.parts ∧ destination before = destination p.parts ∧
      (p.join q).parts = before ++ q.parts := by
  have hhead : ¬ q.parts.head? = some "" := by
    intro hhead
    have hidle := (hq "" (List.mem_of_mem_head? hhead)).1
    cases hidle
  unfold join
  rw [if_neg hhead]
  split
  · next hlast =>
    refine ⟨p.parts.dropLast, List.dropLast_prefix _, ?_, rfl⟩
    obtain ⟨init, hinit⟩ := List.getLast?_eq_some_iff.mp hlast
    rw [hinit, List.dropLast_concat, destination_concat]
    rfl
  · exact ⟨p.parts, List.prefix_refl _, rfl, rfl⟩

end Path

namespace FileTree

/-- The nodes that a path passes, and those below the place that it leads to, are
the same in both trees. -/
structure ReadsAlike (t s : FileTree) (p : Path) : Prop where
  passed : ∀ before, before <+: p.parts →
    t.nodes[Path.destination before]? = s.nodes[Path.destination before]?
  below : ∀ z, Path.destination p.parts <+: z → t.nodes[z]? = s.nodes[z]?

namespace ReadsAlike

variable {t s : FileTree} {p q : Path}

theorem find_eq (h : ReadsAlike t s p) : t.find p = s.find p := find_congr h.passed

theorem load_eq (h : ReadsAlike t s p) (reader : Zip.Reader) :
    Archive.load t p reader = Archive.load s p reader := by
  rw [Archive.load, Archive.load, ← h.find_eq]
  cases hf : t.find p with
  | error e => rfl
  | ok here =>
    obtain ⟨place, node⟩ := here
    cases node with
    | file content => rfl
    | directory =>
      have hplace : place = Path.destination p.parts := by
        rw [find] at hf
        split at hf
        · cases hf
        · exact eq_destination_of_follow hf
      show Except.ok (Archive.ofDirectory (t.filesBelow place)) =
        .ok (Archive.ofDirectory (s.filesBelow place))
      rw [filesBelow_congr (hplace ▸ h.below)]

/-- What lies below the path is found alike, too. -/
theorem find_join_eq (h : ReadsAlike t s p)
    (hq : ∀ x ∈ q.parts, Path.isIdle x = false ∧ x ≠ "..") :
    t.find (p.join q) = s.find (p.join q) := by
  obtain ⟨before, hbefore, hdestination, hjoin⟩ := p.exists_join_eq_of_names hq
  refine find_congr fun passed hp => ?_
  rw [hjoin] at hp
  rcases List.prefix_or_prefix_of_prefix hp (List.prefix_append before q.parts) with hup | hdown
  · exact h.passed passed (hup.trans hbefore)
  · obtain ⟨names, rfl⟩ := hdown
    have hnames : names <+: q.parts := (List.prefix_append_right_inj before).mp hp
    apply h.below
    rw [Path.destination_append _ fun x hx => hq x (hnames.subset hx), hdestination]
    exact List.prefix_append _ _

end ReadsAlike

end FileTree

open FileTree (ReadsAlike)

theorem Installation.archives_eq {t s : FileTree} {home : Path} (h : ReadsAlike t s home) :
    Installation.archives t home = Installation.archives s home ∧
      ∀ p ∈ Installation.archives t home, t.find p = s.find p := by
  have hfind : ∀ p ∈ (["jmods/java.base.jmod", "lib/rt.jar", "jre/lib/rt.jar"].map fun p =>
      home.join (Path.ofString p)), t.find p = s.find p := by
    intro p hp
    obtain ⟨suffix, hsuffix, rfl⟩ := List.mem_map.mp hp
    have hnames : ∀ suffix ∈ ["jmods/java.base.jmod", "lib/rt.jar", "jre/lib/rt.jar"],
        ∀ x ∈ (Path.ofString suffix).parts, Path.isIdle x = false ∧ x ≠ ".." := by
      decide +kernel
    exact h.find_join_eq (hnames suffix hsuffix)
  refine ⟨List.filter_congr fun p hp => ?_, fun p hp => hfind p (List.mem_filter.mp hp).1⟩
  rw [FileTree.isFile, FileTree.isFile, hfind p hp]

theorem Installation.mapM_openArchive_congr {t s : FileTree} {paths : List Path}
    (h : ∀ p ∈ paths, t.find p = s.find p) (reader : Zip.Reader) :
    paths.mapM (Installation.openArchive t · reader) =
      paths.mapM (Installation.openArchive s · reader) := by
  induction paths with
  | nil => rfl
  | cons p paths ih =>
    rw [List.forall_mem_cons] at h
    rw [List.mapM_cons, List.mapM_cons, ih h.2, Installation.openArchive,
      Installation.openArchive, h.1]

/-! ## Finding the platform -/

namespace Surroundings

variable {s : Surroundings} {t u : FileTree}

theorem named?_congr (h : ∀ p ∈ s.looked t, t.find p = u.find p) : s.named? t = s.named? u := by
  cases hp : s.stated with
  | none => simp only [named?, hp, Option.filter_none]
  | some p =>
    have hfind := h p (List.mem_append_left _ (Option.mem_toList.mpr hp))
    have hthere : t.isThere p = u.isThere p := congrArg Except.isOk hfind
    rw [named?, named?, hp, Option.filter_some, Option.filter_some, hthere]

theorem home?_congr (h : ∀ p ∈ s.looked t, t.find p = u.find p) : s.home? t = s.home? u := by
  rw [home?, home?, ← named?_congr h]
  cases hnamed : s.named? t with
  | some home => rfl
  | none =>
    have hsearched : ∀ p ∈ s.searched, t.find p = u.find p := fun p hp =>
      h p (List.mem_append_right _ (by rwa [hnamed]))
    rw [← s.command?_congr hsearched]
    cases hcommand : s.command? t with
    | none => rfl
    | some p =>
      have hcanonical : t.canonical p = u.canonical p := by
        rw [FileTree.canonical, FileTree.canonical, hsearched p (s.mem_searched hcommand)]
      simp only [Option.bind_eq_bind, Option.bind_some, hcanonical]

end Surroundings

namespace Config

variable {c : Config} {t s : FileTree}

/-- All that is read to look for classes in the platform. -/
def inputs (c : Config) (t : FileTree) : List Path :=
  if c.usePlatform then
    match c.platformHome with
    | some home => [home]
    | none => c.surroundings.looked t ++ (c.surroundings.home? t).toList
  else []

theorem home?_congr (h : ∀ p ∈ c.inputs t, ReadsAlike t s p) :
    c.home? t = c.home? s ∧ ∀ home ∈ c.home? t, ReadsAlike t s home := by
  rw [home?, home?]
  rw [inputs] at h
  split at h
  · next huse =>
    rw [if_pos huse, if_pos huse]
    cases hhome : c.platformHome with
    | some home =>
      rw [hhome] at h
      refine ⟨rfl, fun p hp => h p ?_⟩
      cases hp
      exact List.mem_cons_self
    | none =>
      rw [hhome] at h
      refine ⟨?_, fun p hp => h p (List.mem_append_right _ (Option.mem_toList.mpr hp))⟩
      exact Surroundings.home?_congr fun p hp => (h p (List.mem_append_left _ hp)).find_eq
  · next huse =>
    rw [if_neg huse, if_neg huse]
    exact ⟨rfl, nofun⟩

theorem archives?_congr (h : ∀ p ∈ c.inputs t, ReadsAlike t s p) :
    c.archives? t = c.archives? s := by
  obtain ⟨hhome, hreads⟩ := home?_congr h
  rw [archives?, archives?, ← hhome]
  cases hc : c.home? t with
  | none => rfl
  | some home =>
    obtain ⟨harchives, hfind⟩ := Installation.archives_eq (hreads home hc)
    simp only [Option.bind_eq_bind, Option.bind_some, ← harchives]
    cases hpaths : Installation.archives t home with
    | nil => rfl
    | cons p paths =>
      dsimp only
      rw [Installation.mapM_openArchive_congr fun q hq => hfind q (hpaths ▸ hq)]

theorem sources_eq (h : ∀ p ∈ c.inputs t, ReadsAlike t s p) : c.sources t = c.sources s := by
  rw [sources, sources, platform?, platform?, archives?_congr h]

theorem stops_eq (h : ∀ p ∈ c.inputs t, ReadsAlike t s p) : c.stops t = c.stops s := by
  funext name
  rw [stops, stops, archives?_congr h]

end Config

namespace Job

variable {c : Config} {official : Names} {t s : FileTree} {j : Job}

/-- All that is read for the job. -/
def inputs (j : Job) (c : Config) (t : FileTree) : List Path :=
  j.primary :: (j.libraries ++ c.inputs t)

theorem resolve_congr (h : ∀ p ∈ j.inputs c t, ReadsAlike t s p) :
    j.resolve c official t = j.resolve c official s := by
  have hregister : ∀ p ∈ j.inputs c t, ∀ path isPrimary,
      register c t path p isPrimary = register c s path p isPrimary := by
    intro p hp path isPrimary
    rw [register, register, (h p hp).load_eq]
  have hlibraries : ∀ (libraries : List Path) (path : ClassPath),
      (∀ p ∈ libraries, p ∈ j.inputs c t) →
      libraries.foldlM (fun path p => (register c t path p false).map Prod.snd) path =
        libraries.foldlM (fun path p => (register c s path p false).map Prod.snd) path := by
    intro libraries
    induction libraries with
    | nil => exact fun _ _ => rfl
    | cons p libraries ih =>
      intro path hmem
      rw [List.forall_mem_cons] at hmem
      rw [List.foldlM_cons, List.foldlM_cons, hregister p hmem.1]
      exact congrArg _ (funext fun path => ih path hmem.2)
  have hplatform : ∀ p ∈ c.inputs t, ReadsAlike t s p := fun p hp => h p (by simp [inputs, hp])
  unfold resolve
  rw [Config.sources_eq hplatform, hregister j.primary (by simp [inputs])]
  refine congrArg _ (funext fun registered => ?_)
  obtain ⟨classes, path⟩ := registered
  dsimp only
  rw [hlibraries _ _ fun p hp => by simp [inputs, hp]]
  refine congrArg _ (funext fun path => ?_)
  rw [Config.stops_eq hplatform, (Config.home?_congr hplatform).1]

end Job

end Lineage
