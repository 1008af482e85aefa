import Lineage.Proofs.Files.Places

/-!
What saving a file comes to.

Directories are made from the first that is missing down to the last, by going up
until one is there.  Where no file stands in the way they can all be made, so
the outcome and the changes are told by the nodes at and above the file's
place.
-/

namespace Lineage

open Std (ExtTreeMap)

namespace Path

theorem trim_concat {parts : List String} {x : String} (hx : isIdle x = false) :
    trim (parts ++ [x]) = parts ++ [x] := by
  cases parts with
  | nil => rfl
  | cons first rest => simp [trim, hx]

@[simp]
theorem trim_eq_nil_iff {parts : List String} : trim parts = [] ↔ parts = [] := by
  cases parts <;> simp [trim]

/-- An idle part at the end stands alone. -/
def Tidy (parts : List String) : Prop :=
  ∀ init x, parts = init ++ [x] → isIdle x → init = []

theorem tidy_trim (parts : List String) : Tidy (trim parts) := by
  intro init x h hx
  cases parts with
  | nil => simp [trim] at h
  | cons first rest =>
    cases init with
    | nil => rfl
    | cons a init =>
      rw [trim, List.cons_append, List.cons.injEq] at h
      have hlast := congrArg List.reverse h.2
      rw [List.reverse_reverse, List.reverse_append, List.reverse_singleton,
        List.singleton_append] at hlast
      have hdropped := List.head_dropWhile_not isIdle (l := rest.reverse) (by simp [hlast])
      simp [hlast, hx] at hdropped

/-- The path above a name. -/
def above (parts : List String) : Path := if parts = [] then empty else ⟨trim parts⟩

theorem parent?_concat {parts : List String} {x : String} (hx : isIdle x = false) :
    (⟨parts ++ [x]⟩ : Path).parent? = some (above parts) := by
  rw [parent?, if_neg (FileTree.concat_ne_empty hx)]
  simp only [trim_concat hx, List.dropLast_concat, above]
  by_cases hp : parts = []
  · rw [if_pos hp, hp]
    rfl
  · rw [if_neg hp]
    cases ht : trim parts with
    | nil => exact absurd (trim_eq_nil_iff.mp ht) hp
    | cons a rest => rfl

end Path

namespace FileTree

variable {t s : FileTree} {place : Place} {parts : List String} {x : String}

theorem getElem?_insert (t : FileTree) (place z : Place) (node : FileNode) :
    (t.nodes.insert place node)[z]? = if place = z then some node else t.nodes[z]? := by
  simp only [ExtTreeMap.getElem?_insert, Std.LawfulEqOrd.compare_eq_iff_eq]

theorem not_concat_isPrefix (place : Place) (x : String) : ¬ place ++ [x] <+: place := by
  intro hp
  have hle := hp.length_le
  rw [List.length_append, List.length_singleton] at hle
  omega

/-! ## One directory -/

theorem Leads.target_concat (h : t.Leads parts place) (hg : t.Grounded)
    (hx : Path.isIdle x = false) (hd : t.DirectoryAt place) :
    t.target ⟨parts ++ [x]⟩ = .ok (place, x) := by
  rw [target, if_neg (concat_ne_empty hx)]
  simp only [List.dropLast_concat, h.follow_of_directoryAt hg hd]
  simp [bind, Except.bind]

theorem Leads.target_concat_of_blocked (h : t.Leads parts place) (hg : t.Grounded)
    (hx : Path.isIdle x = false) (hf : t.Blocked place) :
    t.target ⟨parts ++ [x]⟩ = .error .notDirectory := by
  rw [target, if_neg (concat_ne_empty hx)]
  simp only [List.dropLast_concat]
  rcases h.follow_of_blocked hg hf with he | ⟨content, hok⟩
  · rw [he]
    rfl
  · rw [hok]
    rfl

theorem Leads.target_concat_of_missing (h : t.Leads parts place) (hg : t.Grounded)
    (hx : Path.isIdle x = false) (hd : ¬ t.DirectoryAt place) (hf : ¬ t.Blocked place) :
    t.target ⟨parts ++ [x]⟩ = .error .notFound := by
  rw [target, if_neg (concat_ne_empty hx)]
  simp only [List.dropLast_concat, h.follow_of_missing hg hd hf]
  rfl

theorem makeDirectory_of_target_error {p : Path} {e : FileError} (h : t.target p = .error e) :
    t.makeDirectory p = .error e := by
  rw [makeDirectory, h]
  rfl

theorem makeDirectory_of_target {p : Path} (h : t.target p = .ok (place, x))
    (hx : Path.isIdle x = false) (hup : x ≠ "..") :
    t.makeDirectory p = match t.nodes[place ++ [x]]? with
      | some _ => .error .alreadyThere
      | none => .ok ⟨t.nodes.insert (place ++ [x]) .directory⟩ := by
  have hplain : ¬ ((Path.isIdle x || x == "..") = true) := by simp [hx, hup]
  rw [makeDirectory, h]
  cases hn : t.nodes[place ++ [x]]? with
  | none => simp only [bind, Except.bind, if_neg hplain, hn]
  | some node => simp only [bind, Except.bind, if_neg hplain, hn]

/-- What is a directory already cannot be made. -/
theorem makeDirectory_of_follow {p : Path} (hp : p ≠ Path.empty)
    (h : t.follow p.parts = .ok (place, .directory)) :
    t.makeDirectory p = .error .alreadyThere := by
  obtain ⟨parts⟩ := p
  induction parts using List.reverseRecOn with
  | nil => rfl
  | append_singleton parts x _ =>
    obtain ⟨above, habove, hstep⟩ := exists_follow_of_concat h
    have htarget : t.target ⟨parts ++ [x]⟩ = .ok (above, x) := by
      rw [target, if_neg hp]
      simp only [List.dropLast_concat, habove]
      simp [bind, Except.bind]
    by_cases hx : Path.isIdle x
    · rw [makeDirectory, htarget]
      simp [bind, Except.bind, hx]
    · by_cases hup : x = ".."
      · rw [makeDirectory, htarget]
        simp [bind, Except.bind, hup]
      · have hx := Bool.eq_false_iff.mpr hx
        rw [step_name hx hup] at hstep
        rw [makeDirectory_of_target htarget hx hup]
        cases hn : t.nodes[above ++ [x]]? with
        | none =>
          rw [hn] at hstep
          cases hstep
        | some node => rfl

theorem isDirectory_of_follow {p : Path} (hp : p ≠ Path.empty)
    (h : t.follow p.parts = .ok (place, .directory)) : t.isDirectory p = true := by
  rw [isDirectory, find, if_neg hp, h]

theorem Leads.isDirectory_eq_false (h : t.Leads parts place) (hg : t.Grounded)
    (hd : ¬ t.DirectoryAt place) : t.isDirectory ⟨parts⟩ = false := by
  rw [isDirectory, find]
  split
  · next place' hfind =>
    split at hfind
    · cases hfind
    · have hplace : place' = place :=
        (eq_destination_of_follow hfind).trans h.eq_destination.symm
      rw [hplace] at hfind
      exact absurd (directoryAt_of_follow hg hfind) hd
  · rfl

theorem ensureDirectory_of_ok {p : Path} {t' : FileTree} (h : t.makeDirectory p = .ok t') :
    t.ensureDirectory p = (.ok (), t') := by
  rw [ensureDirectory, h]

theorem ensureDirectory_of_error {p : Path} {e : FileError} (h : t.makeDirectory p = .error e) :
    t.ensureDirectory p = (if t.isDirectory p then .ok () else .error e, t) := by
  rw [ensureDirectory, h]

/-! ## All directories above -/

theorem makeDirectories_of_ne {p : Path} (hp : p ≠ Path.empty)
    (h : t.makeDirectory p ≠ .error .notFound) : t.makeDirectories p = t.ensureDirectory p := by
  rw [makeDirectories, if_neg hp]
  split
  · next he => exact absurd he h
  · rfl

theorem makeDirectories_of_notFound {p q : Path} (hp : p ≠ Path.empty)
    (h : t.makeDirectory p = .error .notFound) (hparent : p.parent? = some q)
    (hq : q ≠ Path.empty) : t.makeDirectories p =
      match t.makeDirectories q with
      | (.ok _, t') => t'.ensureDirectory p
      | (.error e, t') => (.error e, t') := by
  rw [makeDirectories, if_neg hp]
  split
  · split
    · next hnone =>
      rw [hparent] at hnone
      cases hnone
    · next q' hq' =>
      rw [hparent] at hq'
      cases hq'
      exact dif_neg hq
  · next hne => exact absurd h hne

theorem makeDirectories_of_follow {p : Path} (h : t.follow p.parts = .ok (place, .directory)) :
    t.makeDirectories p = (.ok (), t) := by
  by_cases hp : p = Path.empty
  · rw [makeDirectories, if_pos hp]
  · have hmade := makeDirectory_of_follow hp h
    rw [makeDirectories_of_ne hp (by rw [hmade]; simp), ensureDirectory_of_error hmade,
      isDirectory_of_follow hp h, if_pos rfl]

/-- All that is missing at the place and above it has become a directory. -/
def Grown (t t' : FileTree) (place : Place) : Prop :=
  ∀ z : Place, t'.nodes[z]? =
    if z ≠ [] ∧ z <+: place ∧ t.nodes[z]? = none then some .directory else t.nodes[z]?

namespace Grown

variable {t' t'' : FileTree}

theorem of_directoryAt (hg : t.Grounded) (hd : t.DirectoryAt place) : Grown t t place := by
  intro z
  split
  · next hz =>
    obtain ⟨hne, hp, hnone⟩ := hz
    have hthere := (hg.directoryAt_above hp hd).resolve_left hne
    rw [hnone] at hthere
    cases hthere
  · rfl

theorem directory (h : Grown t t' place) {z : Place} (hz : t.nodes[z]? = some .directory) :
    t'.nodes[z]? = some .directory := by
  rw [h z]
  split
  · rfl
  · exact hz

/-- Where no file stands in the way, everything down to the place is a directory
then. -/
theorem directoryAt (h : Grown t t' place) (hf : ¬ t.Blocked place) {z : Place}
    (hz : z <+: place) : t'.DirectoryAt z := by
  by_cases hne : z = []
  · exact Or.inl hne
  · refine Or.inr ?_
    rw [h z]
    cases hn : t.nodes[z]? with
    | none => rw [if_pos ⟨hne, hz, rfl⟩]
    | some node =>
      rw [if_neg fun hall => by cases hall.2.2]
      cases node with
      | directory => rfl
      | file content => exact absurd ⟨z, hz, content, hn⟩ hf

theorem grounded (h : Grown t t' place) (hg : t.Grounded) (hf : ¬ t.Blocked place) :
    t'.Grounded where
  top := by
    rw [h [], if_neg fun hall => hall.1 rfl]
    exact hg.top
  above {z name} hz := by
    rw [h (z ++ [name])] at hz
    split at hz
    · next hall => exact h.directoryAt hf ((List.prefix_append _ _).trans hall.2.1)
    · rcases hg.above hz with rfl | hd
      · exact Or.inl rfl
      · exact Or.inr (h.directory hd)

/-- One more directory below. -/
theorem concat (h : Grown t t' place) (hn : t.nodes[place ++ [x]]? = none) :
    Grown t ⟨t'.nodes.insert (place ++ [x]) .directory⟩ (place ++ [x]) := by
  intro z
  show (t'.nodes.insert (place ++ [x]) .directory)[z]? = _
  rw [getElem?_insert, h z]
  by_cases hz : place ++ [x] = z
  · subst hz
    simp [hn]
  · have hz' : z ≠ place ++ [x] := Ne.symm hz
    simp only [if_neg hz, List.prefix_concat_iff, hz', false_or]

end Grown

/-- What stands in the way where a directory cannot be made: a file in its own
place or one above. -/
def obstacle (t : FileTree) (place : Place) : FileError :=
  if (t.nodes[place]?).isSome then .alreadyThere else .notDirectory

theorem Leads.makeDirectories_of_blocked (h : t.Leads (parts ++ [x]) (place ++ [x]))
    (hl : t.Leads parts place) (hg : t.Grounded) (hx : Path.isIdle x = false) (hup : x ≠ "..")
    (hf : t.Blocked (place ++ [x])) :
    t.makeDirectories ⟨parts ++ [x]⟩ = (.error (t.obstacle (place ++ [x])), t) := by
  have hmade : t.makeDirectory ⟨parts ++ [x]⟩ = .error (t.obstacle (place ++ [x])) := by
    by_cases hb : t.Blocked place
    · have hnone : t.nodes[place ++ [x]]? = none := by
        by_contra hne
        exact hb.not_directoryAt hg (hg.above (Option.isSome_iff_ne_none.mpr hne))
      rw [makeDirectory_of_target_error (hl.target_concat_of_blocked hg hx hb), obstacle, hnone]
      rfl
    · obtain ⟨above, hp, hfile⟩ := hf
      rcases List.prefix_concat_iff.mp hp with rfl | hp
      · obtain ⟨content, hn⟩ := hfile
        have hd : t.DirectoryAt place := hg.above (by rw [hn, Option.isSome_some])
        rw [makeDirectory_of_target (hl.target_concat hg hx hd) hx hup, obstacle, hn]
        rfl
      · exact absurd ⟨above, hp, hfile⟩ hb
  have hne : t.obstacle (place ++ [x]) ≠ .notFound := by
    unfold obstacle
    split <;> simp
  rw [makeDirectories_of_ne (concat_ne_empty hx) (by simp [hmade, hne]),
    ensureDirectory_of_error hmade, h.isDirectory_eq_false hg (hf.not_directoryAt hg)]
  rfl

/-- All directories down to the place of a trimmed path are made, unless a file
stands in the way. -/
theorem Leads.makeDirectories_spec (h : t.Leads parts place) (hg : t.Grounded)
    (htidy : Path.Tidy parts) :
    (t.Blocked place → t.makeDirectories ⟨parts⟩ = (.error (t.obstacle place), t)) ∧
      (¬ t.Blocked place → ∃ t', t.makeDirectories ⟨parts⟩ = (.ok (), t') ∧
        Grown t t' place) := by
  induction hlen : parts.length using Nat.strongRecOn generalizing parts place with
  | _ n ih =>
    by_cases hd : t.DirectoryAt place
    · refine ⟨fun hf => absurd hd (hf.not_directoryAt hg), fun _ => ⟨t, ?_, .of_directoryAt hg hd⟩⟩
      exact makeDirectories_of_follow (h.follow_of_directoryAt hg hd)
    · cases h with
      | start hf => exact absurd (directoryAt_of_follow hg hf) hd
      | @idle init _ x h hx =>
        rw [htidy init x rfl hx] at h
        exact absurd (Or.inl h.eq_destination) hd
      | @name init above x hl hx hup =>
        refine ⟨(hl.name hx hup).makeDirectories_of_blocked hl hg hx hup, fun hf => ?_⟩
        have hnone : t.nodes[above ++ [x]]? = none :=
          eq_none_of_not_at hd fun hfile => hf ⟨_, List.prefix_refl _, hfile⟩
        have hbetween : ¬ t.Blocked above := fun hb => hf (hb.below (List.prefix_append _ _))
        by_cases hda : t.DirectoryAt above
        · have hmade := makeDirectory_of_target (hl.target_concat hg hx hda) hx hup
          rw [hnone] at hmade
          refine ⟨_, ?_, (Grown.of_directoryAt hg hda).concat hnone⟩
          rw [makeDirectories_of_ne (concat_ne_empty hx) (by simp [hmade]),
            ensureDirectory_of_ok hmade]
        · -- The directory above is missing too, and is made first.
          have hmade := makeDirectory_of_target_error
            (hl.target_concat_of_missing hg hx hda hbetween)
          have hinit : init ≠ [] := by
            intro hnil
            rw [hnil] at hl
            exact hda (Or.inl hl.eq_destination)
          have hparent : (⟨init ++ [x]⟩ : Path).parent? = some ⟨Path.trim init⟩ := by
            rw [Path.parent?_concat hx, Path.above, if_neg hinit]
          have hq : (⟨Path.trim init⟩ : Path) ≠ Path.empty := by
            intro heq
            have htrim : Path.trim init = [""] := congrArg Path.parts heq
            have hplace := hl.trim.eq_destination
            rw [htrim] at hplace
            exact hda (Or.inl hplace)
          have hshort : (Path.trim init).length < n := by
            have hle := Path.length_trim_le init
            rw [List.length_append, List.length_singleton] at hlen
            omega
          obtain ⟨t₁, ht₁, hgrown⟩ :=
            (ih _ hshort hl.trim (Path.tidy_trim init) rfl).2 hbetween
          have hg₁ := hgrown.grounded hg hbetween
          have hl₁ : t₁.Leads init above := hl.mono fun _ => hgrown.directory
          have hnone₁ : t₁.nodes[above ++ [x]]? = none := by
            rw [hgrown, if_neg fun hall => not_concat_isPrefix above x hall.2.1, hnone]
          have hmade₁ := makeDirectory_of_target
            (hl₁.target_concat hg₁ hx (hgrown.directoryAt hbetween (List.prefix_refl _))) hx hup
          rw [hnone₁] at hmade₁
          refine ⟨_, ?_, hgrown.concat hnone⟩
          rw [makeDirectories_of_notFound (concat_ne_empty hx) hmade hparent hq, ht₁]
          exact ensureDirectory_of_ok hmade₁

/-! ## Saving -/

/-- A file has been put at `place ++ [x]`, and what was missing above it has
become a directory. -/
def Saved (t t' : FileTree) (place : Place) (x : String) (content : Bytes) : Prop :=
  ∀ z : Place, t'.nodes[z]? =
    if z = place ++ [x] then some (.file content)
    else if z ≠ [] ∧ z <+: place ∧ t.nodes[z]? = none then some .directory
    else t.nodes[z]?

theorem Leads.write_concat (h : t.Leads parts place) (hg : t.Grounded)
    (hx : Path.isIdle x = false) (hup : x ≠ "..") (hd : t.DirectoryAt place) (content : Bytes) :
    t.write ⟨parts ++ [x]⟩ content =
      if t.nodes[place ++ [x]]? = some .directory then .error .isDirectory
      else .ok ⟨t.nodes.insert (place ++ [x]) (.file content)⟩ := by
  have hplain : ¬ ((Path.isIdle x || x == "..") = true) := by simp [hx, hup]
  rw [write, h.target_concat hg hx hd]
  simp only [bind, Except.bind, if_neg hplain]
  cases t.nodes[place ++ [x]]? with
  | none => rfl
  | some node => cases node <;> rfl

/-- Where nothing is in the way, a file is written once its directory is there. -/
theorem Leads.save_eq_saveHere (h : t.Leads parts place) (hg : t.Grounded)
    (hx : Path.isIdle x = false) (hf : ¬ t.Blocked place) (content : Bytes) :
    ∃ t₁, Grown t t₁ place ∧ t.save ⟨parts ++ [x]⟩ content =
      t₁.saveHere ⟨parts ++ [x]⟩ content := by
  unfold save
  rw [Path.parent?_concat hx, Option.filter_some]
  by_cases hq : Path.above parts = Path.empty
  · have hplace : place = [] := by
      unfold Path.above at hq
      split at hq
      · next hnil =>
        rw [h.eq_destination, hnil]
        rfl
      · have htrim : Path.trim parts = [""] := congrArg Path.parts hq
        rw [h.trim.eq_destination, htrim]
        rfl
    refine ⟨t, .of_directoryAt hg (Or.inl hplace), ?_⟩
    simp [hq]
  · have habove : Path.above parts = ⟨Path.trim parts⟩ := by
      rw [Path.above, if_neg]
      intro hnil
      exact hq (by rw [Path.above, if_pos hnil])
    obtain ⟨t₁, ht₁, hgrown⟩ := (h.trim.makeDirectories_spec hg (Path.tidy_trim parts)).2 hf
    refine ⟨t₁, hgrown, ?_⟩
    rw [habove] at hq
    simp [habove, hq, ht₁]

theorem Leads.save_of_blocked (h : t.Leads parts place) (hg : t.Grounded)
    (hx : Path.isIdle x = false) (hf : t.Blocked place) (content : Bytes) :
    t.save ⟨parts ++ [x]⟩ content = (.error (Path.above parts, t.obstacle place), t) := by
  have hplace : place ≠ [] := fun hnil => hf.not_directoryAt hg (Or.inl hnil)
  have hparts : parts ≠ [] := by
    intro hnil
    rw [hnil] at h
    exact hplace h.eq_destination
  have habove : Path.above parts = ⟨Path.trim parts⟩ := by rw [Path.above, if_neg hparts]
  have hq : (⟨Path.trim parts⟩ : Path) ≠ Path.empty := by
    intro heq
    have htrim : Path.trim parts = [""] := congrArg Path.parts heq
    rw [h.trim.eq_destination, htrim] at hplace
    exact hplace rfl
  have hmade := (h.trim.makeDirectories_spec hg (Path.tidy_trim parts)).1 hf
  unfold save
  rw [Path.parent?_concat hx, Option.filter_some]
  simp [habove, hq, hmade]

theorem Leads.save_of_directory (h : t.Leads parts place) (hg : t.Grounded)
    (hx : Path.isIdle x = false) (hup : x ≠ "..") (content : Bytes)
    (hd : t.nodes[place ++ [x]]? = some .directory) :
    t.save ⟨parts ++ [x]⟩ content = (.error (⟨parts ++ [x]⟩, .isDirectory), t) := by
  have hplace : t.DirectoryAt place := hg.above (by rw [hd, Option.isSome_some])
  have hf : ¬ t.Blocked place := fun hb => hb.not_directoryAt hg hplace
  obtain ⟨t₁, hgrown, hsave⟩ := h.save_eq_saveHere hg hx hf content
  have hsame : t₁ = t := by
    have hnodes : t₁.nodes = t.nodes := by
      refine ExtTreeMap.ext_getElem? fun z => ?_
      rw [hgrown z, ← Grown.of_directoryAt hg hplace z]
    exact congrArg FileTree.mk hnodes
  rw [hsave, hsame, saveHere, h.write_concat hg hx hup hplace, if_pos hd]

theorem Leads.save_of_free (h : t.Leads parts place) (hg : t.Grounded)
    (hx : Path.isIdle x = false) (hup : x ≠ "..") (content : Bytes) (hf : ¬ t.Blocked place)
    (hd : t.nodes[place ++ [x]]? ≠ some .directory) :
    ∃ t', t.save ⟨parts ++ [x]⟩ content = (.ok (), t') ∧ Saved t t' place x content := by
  obtain ⟨t₁, hgrown, hsave⟩ := h.save_eq_saveHere hg hx hf content
  have hl₁ : t₁.Leads parts place := h.mono fun _ => hgrown.directory
  have hd₁ : t₁.nodes[place ++ [x]]? ≠ some .directory := by
    rw [hgrown, if_neg fun hall => not_concat_isPrefix place x hall.2.1]
    exact hd
  refine ⟨⟨t₁.nodes.insert (place ++ [x]) (.file content)⟩, ?_, fun z => ?_⟩
  · rw [hsave, saveHere, hl₁.write_concat (hgrown.grounded hg hf) hx hup
      (hgrown.directoryAt hf (List.prefix_refl _)), if_neg hd₁]
  · show (t₁.nodes.insert (place ++ [x]) (.file content))[z]? = _
    rw [getElem?_insert, hgrown z]
    by_cases hz : place ++ [x] = z
    · rw [if_pos hz, if_pos hz.symm]
    · rw [if_neg hz, if_neg (Ne.symm hz)]

end FileTree
end Lineage
