import Lineage.Proofs.Files.Overlays

/-!
What stays in a tree as files are saved.

Saving takes nothing away: directories stay, files stay files, and no content is
replaced but that at the place of the path.  This is so for every path, wherever
it leads.  So a file that is found once is found ever after.
-/

namespace Lineage

open Std (ExtTreeMap)

namespace FileTree

variable {t s u : FileTree} {p : Path} {place : Place} {x : String} {replaced : Place → Prop}

/-- Nothing has been taken away, and no content but that of files at `replaced`
places is another. -/
structure Grows (replaced : Place → Prop) (t s : FileTree) : Prop where
  directory : ∀ {z : Place}, t.nodes[z]? = some .directory → s.nodes[z]? = some .directory
  file : ∀ {z : Place}, t.FileAt z → s.FileAt z
  content : ∀ {z : Place}, t.FileAt z → ¬ replaced z → s.nodes[z]? = t.nodes[z]?
  grounded : t.Grounded → s.Grounded

namespace Grows

theorem refl (replaced : Place → Prop) (t : FileTree) : Grows replaced t t where
  directory hz := hz
  file hz := hz
  content _ _ := rfl
  grounded hg := hg

theorem trans (h : Grows replaced t s) (h' : Grows replaced s u) : Grows replaced t u where
  directory hz := h'.directory (h.directory hz)
  file hz := h'.file (h.file hz)
  content hz hr := (h'.content (h.file hz) hr).trans (h.content hz hr)
  grounded hg := h'.grounded (h.grounded hg)

theorem mono {replaced' : Place → Prop} (h : Grows replaced t s)
    (hr : ∀ z, replaced z → replaced' z) : Grows replaced' t s where
  directory := h.directory
  file := h.file
  content hz hnot := h.content hz fun hz' => hnot (hr _ hz')
  grounded := h.grounded

end Grows

/-! ## One node -/

theorem exists_of_target (h : t.target p = .ok (place, x)) :
    p ≠ Path.empty ∧ t.follow p.parts.dropLast = .ok (place, .directory) ∧
      p.parts.getLastD "" = x := by
  rw [target] at h
  split at h
  · cases h
  · next hp =>
    cases hf : t.follow p.parts.dropLast with
    | error e =>
      rw [hf] at h
      cases h
    | ok here =>
      rw [hf] at h
      obtain ⟨above, node⟩ := here
      cases node with
      | file content => cases h
      | directory =>
        cases h
        exact ⟨hp, rfl, rfl⟩

/-- Something new in a directory that is there, or a file in the place of another. -/
theorem grows_insert {parts : List String} {node : FileNode}
    (hf : t.follow parts = .ok (place, .directory))
    (hd : t.nodes[place ++ [x]]? ≠ some .directory)
    (hfile : t.FileAt (place ++ [x]) → replaced (place ++ [x]) ∧ ∃ content, node = .file content) :
    Grows replaced t ⟨t.nodes.insert (place ++ [x]) node⟩ := by
  have hdirectory : ∀ {z : Place}, t.nodes[z]? = some .directory →
      (t.nodes.insert (place ++ [x]) node)[z]? = some .directory := by
    intro z hz
    rw [getElem?_insert, if_neg, hz]
    rintro rfl
    exact hd hz
  refine { directory := hdirectory, file := fun {z} hz => ?_, content := fun {z} hz hr => ?_,
           grounded := fun hg => ⟨?_, fun {above name} hz => ?_⟩ }
  · show ∃ content, (t.nodes.insert (place ++ [x]) node)[z]? = some (.file content)
    rw [getElem?_insert]
    split
    · next heq =>
      subst heq
      obtain ⟨_, content, rfl⟩ := hfile hz
      exact ⟨content, rfl⟩
    · exact hz
  · show (t.nodes.insert (place ++ [x]) node)[z]? = _
    rw [getElem?_insert, if_neg]
    rintro rfl
    exact hr (hfile hz).1
  · show (t.nodes.insert (place ++ [x]) node)[([] : Place)]? = none
    rw [getElem?_insert, if_neg (List.concat_ne_nil _ _)]
    exact hg.top
  · have habove : t.DirectoryAt above := by
      have hz' : ((t.nodes.insert (place ++ [x]) node)[above ++ [name]]?).isSome := hz
      rw [getElem?_insert] at hz'
      split at hz'
      · next heq =>
        rw [← List.append_inj_left' heq rfl]
        exact directoryAt_of_follow hg hf
      · exact hg.above hz'
    exact habove.imp_right hdirectory

theorem grows_makeDirectory (replaced : Place → Prop) (h : t.makeDirectory p = .ok s) :
    Grows replaced t s := by
  cases ht : t.target p with
  | error e =>
    rw [makeDirectory_of_target_error ht] at h
    cases h
  | ok here =>
    obtain ⟨place, x⟩ := here
    obtain ⟨_, hf, _⟩ := exists_of_target ht
    rw [makeDirectory, ht] at h
    simp only [bind, Except.bind] at h
    split at h
    · cases h
    · split at h
      · cases h
      · next hnone =>
        cases h
        refine grows_insert hf (by rw [hnone]; simp) fun hfile => ?_
        obtain ⟨content, hfile⟩ := hfile
        rw [hnone] at hfile
        cases hfile

/-- What writing a file comes to. -/
theorem exists_of_write {content : Bytes} (h : t.write p content = .ok s) :
    ∃ parts place x, p = ⟨parts ++ [x]⟩ ∧ Path.isIdle x = false ∧ x ≠ ".." ∧
      t.follow parts = .ok (place, .directory) ∧ t.nodes[place ++ [x]]? ≠ some .directory ∧
      s = ⟨t.nodes.insert (place ++ [x]) (.file content)⟩ := by
  cases ht : t.target p with
  | error e =>
    rw [write, ht] at h
    cases h
  | ok here =>
    obtain ⟨place, x⟩ := here
    obtain ⟨hp, hf, hx⟩ := exists_of_target ht
    rw [write, ht] at h
    simp only [bind, Except.bind] at h
    split at h
    · cases h
    · next hname =>
      rw [Bool.or_eq_true, not_or, Bool.not_eq_true, beq_iff_eq] at hname
      have hparts : p.parts ≠ [] := by
        intro hnil
        rw [hnil] at hx
        rw [← hx] at hname
        exact absurd hname.1 (by decide)
      refine ⟨p.parts.dropLast, place, x, ?_, hname.1, hname.2, hf, ?_, ?_⟩
      · rw [← hx, List.getLastD_eq_getLast?, List.getLast?_eq_some_getLast hparts,
          Option.getD_some, List.dropLast_concat_getLast hparts]
      · intro hd
        rw [hd] at h
        cases h
      · split at h
        · cases h
        · exact (Except.ok.inj h).symm

theorem grows_write {content : Bytes} (h : t.write p content = .ok s) :
    Grows (· = Path.destination p.parts) t s := by
  obtain ⟨parts, place, x, rfl, hx, hup, hf, hd, rfl⟩ := exists_of_write h
  refine grows_insert hf hd fun _ => ⟨?_, content, rfl⟩
  rw [Path.destination_concat, ← eq_destination_of_follow hf]
  simp [Path.onward, hx, hup]

theorem isFile_of_write {content : Bytes} (h : t.write p content = .ok s) : s.isFile p = true := by
  have hgrows := grows_write h
  obtain ⟨parts, place, x, rfl, hx, hup, hf, hd, rfl⟩ := exists_of_write h
  have hf' := follow_of_directories (fun _ => hgrows.directory) hf
  rw [isFile, find, if_neg (concat_ne_empty hx)]
  simp only [follow_concat_of_ok hf', step_name hx hup, getElem?_insert, if_true]

/-! ## Saving -/

theorem grows_ensureDirectory (replaced : Place → Prop) (t : FileTree) (p : Path) :
    Grows replaced t (t.ensureDirectory p).2 := by
  rw [ensureDirectory]
  cases h : t.makeDirectory p with
  | ok s => exact grows_makeDirectory replaced h
  | error e => exact .refl replaced t

theorem grows_makeDirectories (replaced : Place → Prop) (t : FileTree) (p : Path) :
    Grows replaced t (t.makeDirectories p).2 := by
  fun_induction t.makeDirectories p with
  | case1 => exact .refl replaced t
  | case2 => exact .refl replaced t
  | case3 p => exact grows_ensureDirectory replaced t p
  | case4 p _ _ q _ _ _ s hs ih =>
    rw [hs] at ih
    exact ih.trans (grows_ensureDirectory replaced s p)
  | case5 p _ _ q _ _ e s hs ih =>
    rw [hs] at ih
    exact ih
  | case6 p => exact grows_ensureDirectory replaced t p

theorem grows_saveHere (t : FileTree) (p : Path) (content : Bytes) :
    Grows (· = Path.destination p.parts) t (t.saveHere p content).2 := by
  rw [saveHere]
  cases h : t.write p content with
  | ok s => exact grows_write h
  | error e => exact .refl _ t

theorem isFile_of_saveHere {content : Bytes} (h : (t.saveHere p content).1 = .ok ()) :
    (t.saveHere p content).2.isFile p = true := by
  rw [saveHere] at h ⊢
  cases hw : t.write p content with
  | ok s => exact isFile_of_write hw
  | error e =>
    rw [hw] at h
    cases h

/-- Whatever saving a file comes to, no other file is touched. -/
theorem grows_save (t : FileTree) (p : Path) (content : Bytes) :
    Grows (· = Path.destination p.parts) t (t.save p content).2 := by
  rw [save]
  split
  · exact grows_saveHere t p content
  · next q hq =>
    have hmade := grows_makeDirectories (· = Path.destination p.parts) t q
    split
    · next s hs =>
      rw [hs] at hmade
      exact hmade.trans (grows_saveHere s p content)
    · next e s hs =>
      rw [hs] at hmade
      exact hmade

/-- What has been saved is found. -/
theorem isFile_of_save {content : Bytes} (h : (t.save p content).1 = .ok ()) :
    (t.save p content).2.isFile p = true := by
  rw [save] at h ⊢
  split at h
  · exact isFile_of_saveHere h
  · split at h
    · exact isFile_of_saveHere h
    · cases h

/-! ## Finding -/

/-- A file that is found is at the end of a path that leads to it. -/
theorem exists_of_isFile (h : t.isFile p = true) :
    ∃ parts above x, p = ⟨parts ++ [x]⟩ ∧ t.follow parts = .ok (above, .directory) ∧
      t.Outlet p above x ∧ t.FileAt (above ++ [x]) := by
  rw [isFile] at h
  split at h
  · next place content hfind =>
    rw [find] at hfind
    split at hfind
    · cases hfind
    · obtain ⟨parts⟩ := p
      cases parts using List.reverseRecOn with
      | nil => cases hfind
      | append_singleton parts x _ =>
        obtain ⟨above, habove, hstep⟩ := exists_follow_of_concat hfind
        have hx : Path.isIdle x = false := by
          rw [Bool.eq_false_iff]
          intro hx
          rw [step_idle hx] at hstep
          cases hstep
        have hup : x ≠ ".." := by
          rintro rfl
          cases hstep
        refine ⟨parts, above, x, rfl, habove, ⟨⟨parts, rfl, .start habove⟩, hx, hup⟩, content, ?_⟩
        exact (node_of_step_name hx hup hstep).2
  · cases h

theorem Outlet.destination_eq (h : t.Outlet p place x) :
    Path.destination p.parts = place ++ [x] := by
  obtain ⟨parts, rfl, hl⟩ := h.leads
  rw [Path.destination_concat, ← hl.eq_destination]
  simp [Path.onward, h.named, h.notUp]

theorem Outlet.read_eq (h : t.Outlet p place x) (hg : t.Grounded) {content : Bytes}
    (hn : t.nodes[place ++ [x]]? = some (.file content)) : t.read p = .ok content := by
  obtain ⟨parts, rfl, hl⟩ := h.leads
  have hd : t.DirectoryAt place := hg.above (by rw [hn, Option.isSome_some])
  rw [read, hl.find_concat hg h.named h.notUp fun hb => hb.not_directoryAt hg hd, hn]

theorem Grows.isFile (h : Grows replaced t s) (hg : t.Grounded) (hp : t.isFile p = true) :
    s.isFile p = true := by
  obtain ⟨_, above, x, _, _, ho, hfile⟩ := exists_of_isFile hp
  exact ((ho.mono fun _ => h.directory).isFile_iff (h.grounded hg)).mpr (h.file hfile)

end FileTree
end Lineage
