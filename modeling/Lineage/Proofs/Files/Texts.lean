import Lineage.Files.Path

/-!
Texts of paths.

The text of a path is its parts with slashes between them.  As no part has a
slash, they can be told from the text.
-/

namespace Lineage
namespace Path

theorem cut_eq_splitOn (cs : List Char) : cut cs = cs.splitOn '/' := by
  induction cs with
  | nil => exact (List.splitOn_nil '/').symm
  | cons c cs ih =>
    rw [cut, ih, List.splitOn_cons_eq_if_modifyHead]
    cases h : cs.splitOn '/' with
    | nil => exact absurd h (List.splitOn_ne_nil '/' cs)
    | cons part parts => simp

theorem cut_ne_nil (cs : List Char) : cut cs ≠ [] := by
  rw [cut_eq_splitOn]
  exact List.splitOn_ne_nil '/' cs

/-- What follows the last slash goes to the last part. -/
theorem cut_append (suffix : List Char) (hs : '/' ∉ suffix) (cs : List Char) :
    ∃ init last, cut cs = init ++ [last] ∧ cut (cs ++ suffix) = init ++ [last ++ suffix] := by
  induction cs with
  | nil => exact ⟨[], [], rfl, by rw [cut_eq_splitOn]; exact List.splitOn_eq_singleton hs⟩
  | cons c cs ih =>
    obtain ⟨init, last, hcut, hcut'⟩ := ih
    rw [List.cons_append, cut, cut, hcut, hcut']
    cases init with
    | nil =>
      by_cases hc : c = '/'
      · exact ⟨[[]], last, by simp [hc]⟩
      · exact ⟨[], c :: last, by simp [hc]⟩
    | cons part init =>
      by_cases hc : c = '/'
      · exact ⟨[] :: part :: init, last, by simp [hc]⟩
      · exact ⟨(c :: part) :: init, last, by simp [hc]⟩

/-- The first part is empty if there is nothing in front of the first slash. -/
theorem head?_ofString_iff {text : String} (hne : text ≠ "") :
    (ofString text).parts.head? = some "" ↔ text.startsWith "/" = true := by
  obtain ⟨cs, rfl⟩ : ∃ cs, text = String.ofList cs := ⟨text.toList, String.ofList_toList.symm⟩
  rw [String.startsWith_string_iff, ofString, String.toList_ofList]
  cases cs with
  | nil => exact absurd rfl hne
  | cons c cs =>
    have hstart : "/".toList <+: c :: cs ↔ c = '/' := by
      show ['/'] <+: c :: cs ↔ c = '/'
      rw [List.cons_prefix_cons]
      exact ⟨fun h => h.1.symm, fun h => ⟨h.symm, List.nil_prefix⟩⟩
    rw [hstart, cut]
    cases hcut : cut cs with
    | nil => exact absurd hcut (cut_ne_nil cs)
    | cons part parts =>
      by_cases hc : c = '/'
      · simp [hc]
      · simp [hc]

/-- A path that a text can have. -/
structure Textual (p : Path) : Prop where
  ne_nil : p.parts ≠ []
  not_mem : ∀ part ∈ p.parts, '/' ∉ part.toList

instance (p : Path) : Decidable p.Textual :=
  decidable_of_iff (p.parts ≠ [] ∧ ∀ part ∈ p.parts, '/' ∉ part.toList)
    ⟨fun h => ⟨h.1, h.2⟩, fun h => ⟨h.ne_nil, h.not_mem⟩⟩

namespace Textual

variable {p q : Path}

theorem ofString_render (h : p.Textual) : ofString p.render = p := by
  have hcut : cut p.render.toList = p.parts.map String.toList := by
    rw [cut_eq_splitOn, render, String.toList_intercalate]
    refine List.splitOn_intercalate '/' (fun part hpart => ?_) (mt List.map_eq_nil_iff.mp h.ne_nil)
    obtain ⟨x, hx, rfl⟩ := List.mem_map.mp hpart
    exact h.not_mem x hx
  rw [ofString, hcut]
  simp

theorem eq_of_render_eq (hp : p.Textual) (hq : q.Textual) (h : p.render = q.render) : p = q := by
  rw [← hp.ofString_render, h, hq.ofString_render]

/-- The end of the text is the end of the last part. -/
theorem exists_getLast?_eq (h : p.Textual) {text suffix : String} (hs : '/' ∉ suffix.toList)
    (heq : p.render = text ++ suffix) :
    ∃ last, p.parts.getLast? = some (last ++ suffix) := by
  obtain ⟨init, last, _, hcut⟩ := cut_append suffix.toList hs text.toList
  refine ⟨String.ofList last, ?_⟩
  rw [← h.ofString_render, ofString, heq, String.toList_append, hcut]
  simp

/-- The text up to a slash is the first part. -/
theorem head?_eq (h : p.Textual) {part text : String} (hs : '/' ∉ part.toList)
    (heq : p.render = part ++ "/" ++ text) : p.parts.head? = some part := by
  have hcut : cut p.render.toList = part.toList :: text.toList.splitOn '/' := by
    rw [cut_eq_splitOn, heq, String.toList_append, String.toList_append, List.append_assoc]
    exact List.splitOn_append_cons_self_of_not_mem hs text.toList
  rw [← h.ofString_render, ofString, hcut]
  simp

end Textual

/-- The last part is the end of the text. -/
theorem exists_render_eq_append {parts : List String} {x : String}
    (hlast : parts.getLast? = some x) : ∃ text, render ⟨parts⟩ = text ++ x := by
  obtain ⟨init, rfl⟩ := List.getLast?_eq_some_iff.mp hlast
  by_cases hinit : init = []
  · exact ⟨"", by rw [hinit, render, List.nil_append, String.intercalate_singleton,
      String.empty_append]⟩
  · exact ⟨_, by rw [render, String.intercalate_append_of_ne_nil hinit (List.cons_ne_nil _ _),
      String.intercalate_singleton]⟩

end Path
end Lineage
