import Lineage.Proofs.Files.Saving

/-!
Saving in trees that differ elsewhere.

Saving a file looks at the nodes at and above its place, and changes none but
these.  In a tree that looks the same there it comes to the same and
makes the same changes, whatever has been done to the tree elsewhere.
-/

namespace Lineage

open Std (ExtTreeMap)

namespace FileTree

variable {t s t' s' : FileTree} {above : Place} {x : String}

/-- The path leads from a directory that is there down to the name `x` in
`above`. -/
structure Outlet (t : FileTree) (p : Path) (above : Place) (x : String) : Prop where
  leads : ∃ parts, p = ⟨parts ++ [x]⟩ ∧ t.Leads parts above
  named : Path.isIdle x = false
  notUp : x ≠ ".."

/-- What is looked at in saving a file is the same in `s` as in `t`, but that
there may be more directories. -/
structure SeenAs (above : Place) (x : String) (t s : FileTree) : Prop where
  directory : ∀ {z : Place}, t.nodes[z]? = some .directory → s.nodes[z]? = some .directory
  file : ∀ {z : Place}, z <+: above → (t.FileAt z ↔ s.FileAt z)
  here : t.nodes[above ++ [x]]? = s.nodes[above ++ [x]]?

theorem SeenAs.blocked_iff (h : SeenAs above x t s) : t.Blocked above ↔ s.Blocked above := by
  constructor
  · intro hb
    obtain ⟨z, hz, hf⟩ := hb
    exact ⟨z, hz, (h.file hz).mp hf⟩
  · intro hb
    obtain ⟨z, hz, hf⟩ := hb
    exact ⟨z, hz, (h.file hz).mpr hf⟩

theorem isSome_iff_fileAt (hg : t.Grounded) (hb : t.Blocked above) :
    (t.nodes[above]?).isSome ↔ t.FileAt above := by
  constructor
  · intro hs
    obtain ⟨node, hn⟩ := Option.isSome_iff_exists.mp hs
    cases node with
    | file content => exact ⟨content, hn⟩
    | directory => exact absurd (Or.inr hn) (hb.not_directoryAt hg)
  · intro hf
    obtain ⟨content, hn⟩ := hf
    rw [hn, Option.isSome_some]

theorem SeenAs.obstacle_eq (h : SeenAs above x t s) (ht : t.Grounded) (hs : s.Grounded)
    (hb : t.Blocked above) : s.obstacle above = t.obstacle above := by
  have hsome : (s.nodes[above]?).isSome = (t.nodes[above]?).isSome := by
    rw [Bool.eq_iff_iff, isSome_iff_fileAt ht hb, isSome_iff_fileAt hs (h.blocked_iff.mp hb)]
    exact (h.file (List.prefix_refl _)).symm
  rw [obstacle, obstacle, hsome]

theorem Outlet.mono {p : Path} (h : t.Outlet p above x)
    (hs : ∀ z : Place, t.nodes[z]? = some .directory → s.nodes[z]? = some .directory) :
    s.Outlet p above x where
  leads := by
    obtain ⟨parts, hp, hl⟩ := h.leads
    exact ⟨parts, hp, hl.mono hs⟩
  named := h.named
  notUp := h.notUp

theorem Outlet.isFile_iff {p : Path} (h : t.Outlet p above x) (hg : t.Grounded) :
    t.isFile p = true ↔ t.FileAt (above ++ [x]) := by
  obtain ⟨parts, rfl, hl⟩ := h.leads
  rw [isFile]
  by_cases hb : t.Blocked above
  · rw [hl.find_concat_of_blocked hg h.named hb]
    refine iff_of_false Bool.false_ne_true fun hf => ?_
    obtain ⟨content, hn⟩ := hf
    exact hb.not_directoryAt hg (hg.above (by rw [hn, Option.isSome_some]))
  · rw [hl.find_concat hg h.named h.notUp hb]
    cases hn : t.nodes[above ++ [x]]? with
    | none => simp [FileAt, hn]
    | some node => cases node <;> simp [FileAt, hn]

/-- The file is found alike, too. -/
theorem Outlet.find_congr {p : Path} (h : t.Outlet p above x) (ht : t.Grounded) (hs : s.Grounded)
    (hseen : SeenAs above x t s) : s.find p = t.find p := by
  obtain ⟨parts, rfl, hl⟩ := h.leads
  have hls : s.Leads parts above := hl.mono fun _ => hseen.directory
  by_cases hb : t.Blocked above
  · rw [hl.find_concat_of_blocked ht h.named hb,
      hls.find_concat_of_blocked hs h.named (hseen.blocked_iff.mp hb)]
  · rw [hl.find_concat ht h.named h.notUp hb,
      hls.find_concat hs h.named h.notUp (mt hseen.blocked_iff.mpr hb), hseen.here]

/-- Some of the nodes of `s` have been replaced as those of `t` were in `t'`. -/
def ChangedAs (t t' s s' : FileTree) : Prop :=
  ∀ z : Place, s'.nodes[z]? = if t'.nodes[z]? = t.nodes[z]? then s.nodes[z]? else t'.nodes[z]?

theorem changedAs_self (t s : FileTree) : ChangedAs t t s s := fun _ => (if_pos rfl).symm

theorem Saved.changedAs {content : Bytes} (ht : Saved t t' above x content)
    (hs : Saved s s' above x content) (h : SeenAs above x t s) : ChangedAs t t' s s' := by
  intro z
  rw [hs z, ht z]
  by_cases hz : z = above ++ [x]
  · rw [if_pos hz, if_pos hz, hz]
    split
    · next heq => rw [heq, h.here]
    · rfl
  · rw [if_neg hz, if_neg hz]
    by_cases hup : z ≠ [] ∧ z <+: above
    · obtain ⟨hne, hp⟩ := hup
      cases hn : t.nodes[z]? with
      | none =>
        have hnofile : ¬ s.FileAt z := by
          rw [← h.file hp]
          intro hfile
          obtain ⟨content, hf⟩ := hfile
          rw [hn] at hf
          cases hf
        cases hsn : s.nodes[z]? with
        | none => simp [hne, hp]
        | some node =>
          cases node with
          | directory => simp [hne, hp]
          | file content => exact absurd ⟨content, hsn⟩ hnofile
      | some node =>
        have hsome : s.nodes[z]? ≠ none := by
          cases node with
          | directory => simp [h.directory hn]
          | file content =>
            obtain ⟨content', hf⟩ := (h.file hp).mp ⟨content, hn⟩
            simp [hf]
        simp [hsome]
    · have hnot : ∀ u : FileTree, ¬ (z ≠ [] ∧ z <+: above ∧ u.nodes[z]? = none) :=
        fun u hall => hup ⟨hall.1, hall.2.1⟩
      rw [if_neg (hnot s), if_neg (hnot t), if_pos rfl]

/-- All that saving changes lies at or above the file's place, and is no
directory before. -/
theorem Saved.of_ne {content : Bytes} (h : Saved t t' above x content)
    (hd : t.nodes[above ++ [x]]? ≠ some .directory) {z : Place}
    (hz : t'.nodes[z]? ≠ t.nodes[z]?) :
    z ≠ [] ∧ t.nodes[z]? ≠ some .directory ∧
      (z = above ++ [x] ∨ z <+: above ∧ t.nodes[z]? = none ∧ t'.nodes[z]? = some .directory) := by
  have hspec := h z
  rw [hspec] at hz
  split at hz
  · next heq =>
    subst heq
    exact ⟨List.concat_ne_nil _ _, hd, Or.inl rfl⟩
  · next hne =>
    split at hz
    · next hall =>
      rw [if_neg hne, if_pos hall] at hspec
      exact ⟨hall.1, by simp [hall.2.2], Or.inr ⟨hall.2.1, hall.2.2, hspec⟩⟩
    · exact absurd rfl hz

/-- Saving comes to the same in a tree that looks the same to it. -/
theorem Outlet.save_congr {p : Path} (h : t.Outlet p above x) (ht : t.Grounded) (hs : s.Grounded)
    (hseen : SeenAs above x t s) (content : Bytes) :
    (s.save p content).1 = (t.save p content).1 ∧
      ChangedAs t (t.save p content).2 s (s.save p content).2 := by
  obtain ⟨parts, rfl, hl⟩ := h.leads
  have hls : s.Leads parts above := hl.mono fun _ => hseen.directory
  by_cases hb : t.Blocked above
  · rw [hl.save_of_blocked ht h.named hb, hls.save_of_blocked hs h.named (hseen.blocked_iff.mp hb),
      hseen.obstacle_eq ht hs hb]
    exact ⟨rfl, changedAs_self t s⟩
  · have hbs : ¬ s.Blocked above := mt hseen.blocked_iff.mpr hb
    by_cases hd : t.nodes[above ++ [x]]? = some .directory
    · rw [hl.save_of_directory ht h.named h.notUp content hd,
        hls.save_of_directory hs h.named h.notUp content (hseen.here ▸ hd)]
      exact ⟨rfl, changedAs_self t s⟩
    · obtain ⟨t', ht', hsaved⟩ := hl.save_of_free ht h.named h.notUp content hb hd
      obtain ⟨s', hs', hsaved'⟩ := hls.save_of_free hs h.named h.notUp content hbs (hseen.here ▸ hd)
      rw [ht', hs']
      exact ⟨rfl, hsaved.changedAs hsaved' hseen⟩

/-- What saving does to a tree: nothing, or it saves the file. -/
theorem Outlet.save_cases {p : Path} (h : t.Outlet p above x) (hg : t.Grounded)
    (content : Bytes) : (t.save p content).2 = t ∨
      Saved t (t.save p content).2 above x content ∧ ¬ t.Blocked above ∧
        t.nodes[above ++ [x]]? ≠ some .directory := by
  obtain ⟨parts, rfl, hl⟩ := h.leads
  by_cases hb : t.Blocked above
  · rw [hl.save_of_blocked hg h.named hb]
    exact Or.inl rfl
  · by_cases hd : t.nodes[above ++ [x]]? = some .directory
    · rw [hl.save_of_directory hg h.named h.notUp content hd]
      exact Or.inl rfl
    · obtain ⟨t', ht', hsaved⟩ := hl.save_of_free hg h.named h.notUp content hb hd
      rw [ht']
      exact Or.inr ⟨hsaved, hb, hd⟩

end FileTree
end Lineage
