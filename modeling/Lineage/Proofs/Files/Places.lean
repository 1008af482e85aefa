import Mathlib.Data.List.Induction
import Lineage.Files.Tree

/-!
Where paths lead.

The parts of a path tell which place it leads to, and the nodes at the places
that it passes tell whether it gets there.  Nothing else in a tree matters to
it.  A path that never goes up, or only out of directories that are there, passes
just the places above the one that it leads to; in a tree where nothing hangs in
the air it fails at the first of them that is no directory.
-/

namespace Lineage

open Std (ExtTreeMap)

namespace Path

/-- The place that one more part leads to. -/
def onward (place : Place) (part : String) : Place :=
  if isIdle part then place else if part = ".." then place.dropLast else place ++ [part]

/-- The place that some parts lead to from the top, if all can be followed. -/
def destination (parts : List String) : Place := parts.foldl onward []

@[simp]
theorem destination_concat (parts : List String) (x : String) :
    destination (parts ++ [x]) = onward (destination parts) x := by
  simp [destination]

end Path

namespace FileTree

variable {t s : FileTree} {place : Place} {parts : List String}

def DirectoryAt (t : FileTree) (place : Place) : Prop :=
  place = [] ∨ t.nodes[place]? = some .directory

def FileAt (t : FileTree) (place : Place) : Prop :=
  ∃ content, t.nodes[place]? = some (.file content)

/-- A file stands at the place or above it. -/
def Blocked (t : FileTree) (place : Place) : Prop :=
  ∃ above, above <+: place ∧ t.FileAt above

/-- Everything but the top is in a directory that is there. -/
structure Grounded (t : FileTree) : Prop where
  top : t.nodes[([] : Place)]? = none
  above : ∀ {place name}, (t.nodes[place ++ [name]]?).isSome → t.DirectoryAt place

instance (t : FileTree) (place : Place) : Decidable (t.DirectoryAt place) :=
  inferInstanceAs (Decidable (_ ∨ _))

theorem grounded_iff : t.Grounded ↔
    ∀ place ∈ t.nodes.keys, place ≠ [] ∧ t.DirectoryAt place.dropLast := by
  simp only [ExtTreeMap.mem_keys, ExtTreeMap.mem_iff_isSome_getElem?]
  constructor
  · intro hg place hp
    induction place using List.reverseRecOn with
    | nil =>
      rw [hg.top] at hp
      cases hp
    | append_singleton place name _ =>
      rw [List.dropLast_concat]
      exact ⟨List.concat_ne_nil _ _, hg.above hp⟩
  · intro hall
    refine ⟨?_, fun {place name} hp => ?_⟩
    · by_contra hne
      exact (hall [] (Option.isSome_iff_ne_none.mpr hne)).1 rfl
    · have habove := (hall _ hp).2
      rw [List.dropLast_concat] at habove
      exact habove

instance (t : FileTree) : Decidable t.Grounded := decidable_of_iff' _ grounded_iff

theorem not_directoryAt_of_fileAt (hg : t.Grounded) (hf : t.FileAt place) :
    ¬ t.DirectoryAt place := by
  intro hd
  obtain ⟨content, hf⟩ := hf
  rcases hd with rfl | hd
  · rw [hg.top] at hf
    cases hf
  · rw [hd] at hf
    cases hf

theorem eq_none_of_not_at (hd : ¬ t.DirectoryAt place) (hf : ¬ t.FileAt place) :
    t.nodes[place]? = none := by
  cases hn : t.nodes[place]? with
  | none => rfl
  | some node =>
    cases node with
    | directory => exact absurd (Or.inr hn) hd
    | file content => exact absurd ⟨content, hn⟩ hf

/-- What lies above something that is there is a directory. -/
theorem Grounded.directoryAt_of_isPrefix (hg : t.Grounded) {below : Place}
    (hp : place <+: below) (hne : place ≠ below) (hb : (t.nodes[below]?).isSome) :
    t.DirectoryAt place := by
  induction below using List.reverseRecOn with
  | nil => exact Or.inl (List.prefix_nil.mp hp)
  | append_singleton below name ih =>
    have habove := hg.above hb
    rcases List.prefix_concat_iff.mp hp with heq | hp
    · exact absurd heq hne
    · by_cases heq : place = below
      · rw [heq]
        exact habove
      · rcases habove with rfl | habove
        · exact absurd (List.prefix_nil.mp hp) heq
        · exact ih hp heq (by rw [habove, Option.isSome_some])

theorem Grounded.directoryAt_above (hg : t.Grounded) {below : Place} (hp : place <+: below)
    (hb : t.DirectoryAt below) : t.DirectoryAt place := by
  by_cases heq : place = below
  · rw [heq]
    exact hb
  · rcases hb with rfl | hb
    · exact absurd (List.prefix_nil.mp hp) heq
    · exact hg.directoryAt_of_isPrefix hp heq (by rw [hb, Option.isSome_some])

theorem Blocked.below {below : Place} (h : t.Blocked place) (hp : place <+: below) :
    t.Blocked below := by
  obtain ⟨above, ha, hf⟩ := h
  exact ⟨above, ha.trans hp, hf⟩

theorem Blocked.not_directoryAt (h : t.Blocked place) (hg : t.Grounded) :
    ¬ t.DirectoryAt place := by
  intro hd
  obtain ⟨above, hp, hf⟩ := h
  exact not_directoryAt_of_fileAt hg hf (hg.directoryAt_above hp hd)

/-! ## Following -/

theorem follow_concat (t : FileTree) (parts : List String) (x : String) :
    t.follow (parts ++ [x]) = t.follow parts >>= (t.step · x) := by
  simp [follow]

theorem follow_concat_of_ok {here : Place × FileNode} (h : t.follow parts = .ok here)
    (x : String) : t.follow (parts ++ [x]) = t.step here x := by
  rw [follow_concat, h]
  rfl

theorem follow_concat_of_error {e : FileError} (h : t.follow parts = .error e) (x : String) :
    t.follow (parts ++ [x]) = .error e := by
  rw [follow_concat, h]
  rfl

/-- What can be followed to its end can be followed to its last part. -/
theorem exists_follow_of_concat {x : String} {there : Place × FileNode}
    (h : t.follow (parts ++ [x]) = .ok there) :
    ∃ place, t.follow parts = .ok (place, .directory) ∧
      t.step (place, .directory) x = .ok there := by
  cases hf : t.follow parts with
  | error e =>
    rw [follow_concat_of_error hf] at h
    cases h
  | ok here =>
    rw [follow_concat_of_ok hf] at h
    obtain ⟨place, node⟩ := here
    cases node with
    | file content => cases h
    | directory => exact ⟨place, rfl, h⟩

theorem step_idle {x : String} (hx : Path.isIdle x) (place : Place) :
    t.step (place, .directory) x = .ok (place, .directory) := by
  simp [step, hx]

theorem step_up (place : Place) :
    t.step (place, .directory) ".." = .ok (place.dropLast, .directory) := rfl

theorem step_name {x : String} (hx : Path.isIdle x = false) (hup : x ≠ "..") (place : Place) :
    t.step (place, .directory) x = match t.nodes[place ++ [x]]? with
      | some node => .ok (place ++ [x], node)
      | none => .error .notFound := by
  cases hn : t.nodes[place ++ [x]]? with
  | none => simp [step, hx, hup, hn]
  | some node => simp [step, hx, hup, hn]

/-- A step to a name comes to what is there. -/
theorem node_of_step_name {x : String} (hx : Path.isIdle x = false) (hup : x ≠ "..")
    {there : Place × FileNode} (h : t.step (place, .directory) x = .ok there) :
    there.1 = place ++ [x] ∧ t.nodes[place ++ [x]]? = some there.2 := by
  rw [step_name hx hup] at h
  split at h
  · next node hn =>
    cases h
    exact ⟨rfl, hn⟩
  · cases h

theorem eq_onward_of_step {x : String} {there : Place × FileNode}
    (h : t.step (place, .directory) x = .ok there) : there.1 = Path.onward place x := by
  by_cases hx : Path.isIdle x
  · rw [step_idle hx] at h
    cases h
    simp [Path.onward, hx]
  · by_cases hup : x = ".."
    · subst hup
      cases h
      rfl
    · rw [(node_of_step_name (Bool.eq_false_iff.mpr hx) hup h).1]
      simp [Path.onward, hx, hup]

theorem eq_destination_of_follow {here : Place × FileNode} (h : t.follow parts = .ok here) :
    here.1 = Path.destination parts := by
  induction parts using List.reverseRecOn generalizing here with
  | nil =>
    cases h
    rfl
  | append_singleton parts x ih =>
    obtain ⟨place, hplace, hstep⟩ := exists_follow_of_concat h
    rw [Path.destination_concat, ← ih hplace]
    exact eq_onward_of_step hstep

/-- Following looks at the nodes at the places that are passed, and at no
others. -/
theorem follow_congr (h : ∀ before, before <+: parts →
      t.nodes[Path.destination before]? = s.nodes[Path.destination before]?) :
    t.follow parts = s.follow parts := by
  induction parts using List.reverseRecOn with
  | nil => rfl
  | append_singleton parts x ih =>
    have ih := ih fun before hb => h before (hb.trans (List.prefix_append _ _))
    rw [follow_concat, follow_concat, ← ih]
    cases hf : t.follow parts with
    | error e => rfl
    | ok here =>
      have hplace := eq_destination_of_follow hf
      have hhere := h (parts ++ [x]) (List.prefix_refl _)
      rw [Path.destination_concat, ← hplace] at hhere
      show t.step here x = s.step here x
      unfold step
      split
      · rfl
      · split
        · rfl
        · next hx =>
          split
          · rfl
          · next hup =>
            simp only [Path.onward, hx, hup, if_false, Bool.false_eq_true] at hhere
            rw [hhere]

/-- Directories that stay can be followed as before. -/
theorem follow_of_directories
    (h : ∀ x : Place, t.nodes[x]? = some .directory → s.nodes[x]? = some .directory)
    (hf : t.follow parts = .ok (place, .directory)) :
    s.follow parts = .ok (place, .directory) := by
  induction parts using List.reverseRecOn generalizing place with
  | nil => exact hf
  | append_singleton parts x ih =>
    obtain ⟨above, habove, hstep⟩ := exists_follow_of_concat hf
    rw [follow_concat_of_ok (ih habove), ← hstep]
    unfold step
    dsimp only
    split
    · rfl
    · split
      · rfl
      · next hx hup =>
        obtain ⟨rfl, hn⟩ := node_of_step_name (Bool.eq_false_iff.mpr hx) hup hstep
        rw [h _ hn, hn]

theorem directoryAt_of_follow (hg : t.Grounded)
    (hf : t.follow parts = .ok (place, .directory)) : t.DirectoryAt place := by
  induction parts using List.reverseRecOn generalizing place with
  | nil =>
    cases hf
    exact Or.inl rfl
  | append_singleton parts x ih =>
    obtain ⟨above, habove, hstep⟩ := exists_follow_of_concat hf
    have habove := ih habove
    by_cases hx : Path.isIdle x
    · rw [step_idle hx] at hstep
      cases hstep
      exact habove
    · by_cases hup : x = ".."
      · subst hup
        cases hstep
        exact hg.directoryAt_above (List.dropLast_prefix above) habove
      · obtain ⟨rfl, hn⟩ := node_of_step_name (Bool.eq_false_iff.mpr hx) hup hstep
        exact Or.inr hn

/-! ## Paths that do not go up -/

/-- The parts lead to the place from a directory that is there, and do not go up
from it. -/
inductive Leads (t : FileTree) : List String → Place → Prop
  | start {parts : List String} {place : Place} (h : t.follow parts = .ok (place, .directory)) :
    Leads t parts place
  | idle {parts : List String} {place : Place} {x : String} (h : Leads t parts place)
    (hx : Path.isIdle x) : Leads t (parts ++ [x]) place
  | name {parts : List String} {place : Place} {x : String} (h : Leads t parts place)
    (hx : Path.isIdle x = false) (hup : x ≠ "..") : Leads t (parts ++ [x]) (place ++ [x])

namespace Leads

theorem eq_destination (h : t.Leads parts place) : place = Path.destination parts := by
  induction h with
  | start hf => exact eq_destination_of_follow hf
  | idle _ hx ih => rw [Path.destination_concat, ← ih, Path.onward, if_pos hx]
  | name _ hx hup ih =>
    rw [Path.destination_concat, ← ih]
    simp [Path.onward, hx, hup]

/-- Parts lead somewhere if they go up only out of directories that are there. -/
theorem of_up (h : ∀ before after, parts = before ++ ".." :: after →
    ∃ place, t.follow before = .ok (place, .directory)) :
    t.Leads parts (Path.destination parts) := by
  induction parts using List.reverseRecOn with
  | nil => exact .start rfl
  | append_singleton parts x ih =>
    have ih := ih fun before after heq =>
      h before (after ++ [x]) (by rw [heq, List.append_assoc, List.cons_append])
    rw [Path.destination_concat]
    by_cases hx : Path.isIdle x
    · rw [Path.onward, if_pos hx]
      exact ih.idle hx
    · by_cases hup : x = ".."
      · subst hup
        obtain ⟨place, hplace⟩ := h parts [] rfl
        have hgone : t.follow (parts ++ [".."]) = .ok (place.dropLast, .directory) := by
          rw [follow_concat_of_ok hplace, step_up]
        rw [← Path.destination_concat, ← eq_destination_of_follow hgone]
        exact .start hgone
      · simp only [Path.onward, hx, hup, if_false, Bool.false_eq_true]
        exact ih.name (Bool.eq_false_iff.mpr hx) hup

theorem of_idle {x : String} (h : t.Leads (parts ++ [x]) place) (hx : Path.isIdle x) :
    t.Leads parts place := by
  generalize hall : parts ++ [x] = all at h
  cases h with
  | start hf =>
    rw [← hall] at hf
    obtain ⟨above, habove, hstep⟩ := exists_follow_of_concat hf
    rw [step_idle hx] at hstep
    cases hstep
    exact .start habove
  | idle h _ =>
    rw [List.append_inj_left' hall rfl]
    exact h
  | name h hname _ =>
    have heq := List.append_inj_right' hall rfl
    cases heq
    rw [hx] at hname
    cases hname

/-- Without the idle parts at its end a path leads to the same place. -/
theorem trim (h : t.Leads parts place) : t.Leads (Path.trim parts) place := by
  cases parts with
  | nil => exact h
  | cons first rest =>
    induction rest using List.reverseRecOn with
    | nil => exact h
    | append_singleton rest x ih =>
      by_cases hx : Path.isIdle x
      · have htrim : Path.trim (first :: (rest ++ [x])) = Path.trim (first :: rest) := by
          simp [Path.trim, hx]
        rw [htrim]
        rw [← List.cons_append] at h
        exact ih (h.of_idle hx)
      · have htrim : Path.trim (first :: (rest ++ [x])) = first :: (rest ++ [x]) := by
          simp [Path.trim, hx]
        rw [htrim]
        exact h

/-- A path leads where it did if directories stay. -/
theorem mono (h : t.Leads parts place)
    (hdirs : ∀ x : Place, t.nodes[x]? = some .directory → s.nodes[x]? = some .directory) :
    s.Leads parts place := by
  induction h with
  | start hf => exact .start (follow_of_directories hdirs hf)
  | idle _ hx ih => exact ih.idle hx
  | name _ hx hup ih => exact ih.name hx hup

/-! ## What is found there -/

theorem follow_of_directoryAt (h : t.Leads parts place) (hg : t.Grounded)
    (hd : t.DirectoryAt place) : t.follow parts = .ok (place, .directory) := by
  induction h with
  | start hf => exact hf
  | idle _ hx ih => rw [follow_concat_of_ok (ih hd), step_idle hx]
  | @name parts place x _ hx hup ih =>
    have hnode : t.nodes[place ++ [x]]? = some .directory :=
      hd.resolve_left (List.concat_ne_nil _ _)
    have habove : t.DirectoryAt place := hg.above (by rw [hnode, Option.isSome_some])
    rw [follow_concat_of_ok (ih habove), step_name hx hup, hnode]

theorem follow_of_blocked (h : t.Leads parts place) (hg : t.Grounded) (hf : t.Blocked place) :
    t.follow parts = .error .notDirectory ∨
      ∃ content, t.follow parts = .ok (place, .file content) := by
  induction h with
  | start hfollow =>
    exact absurd (directoryAt_of_follow hg hfollow) (hf.not_directoryAt hg)
  | idle _ hx ih =>
    refine Or.inl ?_
    rcases ih hf with he | ⟨content, hok⟩
    · exact follow_concat_of_error he _
    · rw [follow_concat_of_ok hok]
      rfl
  | @name parts place x hl hx hup ih =>
    obtain ⟨above, hp, hfile⟩ := hf
    rcases List.prefix_concat_iff.mp hp with rfl | hp
    · obtain ⟨content, hnode⟩ := hfile
      have habove : t.DirectoryAt place := hg.above (by rw [hnode, Option.isSome_some])
      refine Or.inr ⟨content, ?_⟩
      rw [follow_concat_of_ok (hl.follow_of_directoryAt hg habove), step_name hx hup, hnode]
    · refine Or.inl ?_
      rcases ih ⟨above, hp, hfile⟩ with he | ⟨content, hok⟩
      · exact follow_concat_of_error he _
      · rw [follow_concat_of_ok hok]
        rfl

theorem follow_of_missing (h : t.Leads parts place) (hg : t.Grounded)
    (hd : ¬ t.DirectoryAt place) (hf : ¬ t.Blocked place) :
    t.follow parts = .error .notFound := by
  induction h with
  | start hfollow => exact absurd (directoryAt_of_follow hg hfollow) hd
  | idle _ hx ih => exact follow_concat_of_error (ih hd hf) _
  | @name parts place x hl hx hup ih =>
    by_cases habove : t.DirectoryAt place
    · have hnone := eq_none_of_not_at hd fun hfile => hf ⟨_, List.prefix_refl _, hfile⟩
      rw [follow_concat_of_ok (hl.follow_of_directoryAt hg habove), step_name hx hup, hnone]
    · exact follow_concat_of_error (ih habove fun hb => hf (hb.below (List.prefix_append _ _))) _

end Leads

/-! ## Finding -/

theorem find_congr {p : Path} (h : ∀ before, before <+: p.parts →
      t.nodes[Path.destination before]? = s.nodes[Path.destination before]?) :
    t.find p = s.find p := by
  rw [find, find, follow_congr h]

theorem concat_ne_empty {x : String} (hx : Path.isIdle x = false) :
    (⟨parts ++ [x]⟩ : Path) ≠ Path.empty := by
  intro heq
  have hlast := congrArg (fun p : Path => p.parts.getLast?) heq
  rw [List.getLast?_concat] at hlast
  cases hlast
  cases hx

/-- Under a name there is what the tree has at its place, unless a file stands in
the way. -/
theorem Leads.find_concat (h : t.Leads parts place) (hg : t.Grounded) {x : String}
    (hx : Path.isIdle x = false) (hup : x ≠ "..") (hf : ¬ t.Blocked place) :
    t.find ⟨parts ++ [x]⟩ = match t.nodes[place ++ [x]]? with
      | some node => .ok (place ++ [x], node)
      | none => .error .notFound := by
  rw [find, if_neg (concat_ne_empty hx)]
  by_cases hd : t.DirectoryAt place
  · rw [follow_concat_of_ok (h.follow_of_directoryAt hg hd), step_name hx hup]
  · have hnone : t.nodes[place ++ [x]]? = none := by
      by_contra hne
      exact hd (hg.above (Option.isSome_iff_ne_none.mpr hne))
    rw [follow_concat_of_error (h.follow_of_missing hg hd hf), hnone]

theorem Leads.find_concat_of_blocked (h : t.Leads parts place) (hg : t.Grounded) {x : String}
    (hx : Path.isIdle x = false) (hf : t.Blocked place) :
    t.find ⟨parts ++ [x]⟩ = .error .notDirectory := by
  rw [find, if_neg (concat_ne_empty hx)]
  rcases h.follow_of_blocked hg hf with he | ⟨content, hok⟩
  · exact follow_concat_of_error he x
  · rw [follow_concat_of_ok hok]
    rfl

/-- What a node contributes to the files below a place. -/
def contentBelow? (place x : Place) : FileNode → Option Bytes
  | .file content => if place.isPrefixOf x then some content else none
  | .directory => none

theorem filesBelow_eq (t : FileTree) (place : Place) :
    t.filesBelow place = (t.nodes.filterMap (contentBelow? place)).toList.map fun e =>
      (e.1.drop place.length, e.2) := by
  rw [ExtTreeMap.toList_filterMap, List.map_filterMap, filesBelow]
  refine congrArg (List.filterMap · t.nodes.toList) (funext fun e => ?_)
  obtain ⟨x, node⟩ := e
  cases node with
  | directory => rfl
  | file content => by_cases hp : place.isPrefixOf x <;> simp [contentBelow?, hp]

/-- The files below a place are told by the nodes there. -/
theorem filesBelow_congr (h : ∀ x, place <+: x → t.nodes[x]? = s.nodes[x]?) :
    t.filesBelow place = s.filesBelow place := by
  have hnodes : t.nodes.filterMap (contentBelow? place) =
      s.nodes.filterMap (contentBelow? place) := by
    refine ExtTreeMap.ext_getElem? fun x => ?_
    rw [ExtTreeMap.getElem?_filterMap', ExtTreeMap.getElem?_filterMap']
    by_cases hp : place <+: x
    · rw [h x hp]
    · have hnone : contentBelow? place x = fun _ => none := by
        funext node
        cases node with
        | directory => rfl
        | file content => exact if_neg (mt List.isPrefixOf_iff_prefix.mp hp)
      rw [hnone, Option.bind_fun_none, Option.bind_fun_none]
  rw [filesBelow_eq, filesBelow_eq, hnodes]

end FileTree
end Lineage
