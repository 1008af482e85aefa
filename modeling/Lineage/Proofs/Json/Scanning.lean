import Lineage.Json.Printer
import Lineage.Json.Token

/-!
Scanning what has been printed.

Most tokens end by themselves.  A number does not: it goes on as long as the text
behind it may belong to it.  In printed text a comma, the end of a line or the end
of the text comes behind a value, and so every printed value can be scanned
without regard to what comes later.
-/

namespace Lineage
namespace JsonToken

open JsonValue (escapeUnit escapeChar newline lines enclose)

theorem scan_nil : scan [] = some [] := by rw [scan]

theorem scan_of_blank {c : Char} (hc : isBlank c) (rest : List Char) :
    scan (c :: rest) = scan rest := by
  rw [scan, if_pos hc]

theorem scan_of_next? {c : Char} {s rest : List Char} {t : JsonToken} (hc : isBlank c = false)
    (ht : next? (c :: s) = some (t, rest)) : scan (c :: s) = (scan rest).map (t :: ·) := by
  rw [scan, if_neg (Bool.eq_false_iff.mp hc)]
  split
  · next hnone =>
    cases ht.symm.trans hnone
  · next t' rest' hsome =>
    cases ht.symm.trans hsome
    rfl

/-! ## Strings -/

theorem hexDigit?_digitChar : ∀ {d : Nat}, d < 16 → hexDigit? (Nat.digitChar d) = some d := by
  decide

theorem unit?_digitChars {u : Nat} (hu : u < 65536) :
    unit? (Nat.digitChar (u / 4096 % 16)) (Nat.digitChar (u / 256 % 16))
      (Nat.digitChar (u / 16 % 16)) (Nat.digitChar (u % 16)) = some u := by
  have hdigit : ∀ n, hexDigit? (Nat.digitChar (n % 16)) = some (n % 16) := fun n =>
    hexDigit?_digitChar (Nat.mod_lt n (by decide))
  simp only [unit?, hdigit, Option.bind_eq_bind, Option.bind_some, Option.some.injEq]
  omega

/-- The characters that an escape of one letter stands for. -/
def lettered : List Char := ['"', '\\', '\x08', '\x0c', '\n', '\r', '\t']

/-- What is read where the character has been written. -/
def piece (c : Char) : Piece :=
  if c < ' ' ∧ c ∉ lettered then .unit c.toNat else .char c

theorem pieces?_escapeUnit {u : Nat} (hu : u < 65536) (rest : List Char) :
    pieces? (escapeUnit u ++ rest) = (pieces? rest).map fun p => (.unit u :: p.1, p.2) := by
  simp only [escapeUnit, List.cons_append, List.nil_append, pieces?, unit?_digitChars hu,
    Option.bind_eq_bind, Option.bind_some]
  cases pieces? rest <;> rfl

theorem pieces?_letter {c e : Char} (hu : e ≠ 'u') (he : escapes.lookup e = some c)
    (rest : List Char) :
    pieces? ('\\' :: e :: rest) = (pieces? rest).map fun p => (.char c :: p.1, p.2) := by
  rw [pieces?.eq_4 e rest fun _ _ _ _ _ h _ => hu h, he]
  cases pieces? rest <;> rfl

theorem pieces?_cons {c : Char} (hquote : c ≠ '"') (hslash : c ≠ '\\') (hspace : ¬ c < ' ')
    (rest : List Char) :
    pieces? (c :: rest) = (pieces? rest).map fun p => (.char c :: p.1, p.2) := by
  rw [pieces?.eq_5 c rest hquote (fun _ _ _ _ _ h _ => hslash h) fun _ _ h _ => hslash h,
    if_neg hspace]
  cases pieces? rest <;> rfl

theorem exists_letter {c : Char} (hc : c ∈ lettered) :
    ∃ e, e ≠ 'u' ∧ escapes.lookup e = some c ∧ escapeChar c = ['\\', e] := by
  simp only [lettered, List.mem_cons, List.not_mem_nil, or_false] at hc
  rcases hc with rfl | rfl | rfl | rfl | rfl | rfl | rfl
  · exact ⟨'"', by decide, rfl, rfl⟩
  · exact ⟨'\\', by decide, rfl, rfl⟩
  · exact ⟨'b', by decide, rfl, rfl⟩
  · exact ⟨'f', by decide, rfl, rfl⟩
  · exact ⟨'n', by decide, rfl, rfl⟩
  · exact ⟨'r', by decide, rfl, rfl⟩
  · exact ⟨'t', by decide, rfl, rfl⟩

theorem escapeChar_of_not_mem {c : Char} (hc : c ∉ lettered) :
    escapeChar c = if c < ' ' then escapeUnit c.toNat else [c] := by
  simp only [lettered, List.mem_cons, List.not_mem_nil, or_false, not_or] at hc
  obtain ⟨h1, h2, h3, h4, h5, h6, h7⟩ := hc
  simp only [escapeChar, h1, h2, h3, h4, h5, h6, h7, if_false]

theorem toNat_lt_of_lt_space {c : Char} (hc : c < ' ') : c.toNat < 32 := hc

theorem pieces?_escapeChar (c : Char) (rest : List Char) :
    pieces? (escapeChar c ++ rest) = (pieces? rest).map fun p => (piece c :: p.1, p.2) := by
  by_cases hc : c ∈ lettered
  · obtain ⟨e, hu, he, hescape⟩ := exists_letter hc
    rw [hescape, piece, if_neg fun h => h.2 hc]
    exact pieces?_letter hu he rest
  · rw [escapeChar_of_not_mem hc]
    by_cases hspace : c < ' '
    · rw [if_pos hspace, piece, if_pos ⟨hspace, hc⟩]
      exact pieces?_escapeUnit (Nat.lt_trans (toNat_lt_of_lt_space hspace) (by decide)) rest
    · rw [if_neg hspace, piece, if_neg fun h => hspace h.1]
      refine pieces?_cons ?_ ?_ hspace rest
      · rintro rfl
        exact hc (by decide)
      · rintro rfl
        exact hc (by decide)

theorem pieces?_flatMap_escapeChar (s rest : List Char) :
    pieces? (s.flatMap escapeChar ++ '"' :: rest) = some (s.map piece, rest) := by
  induction s with
  | nil => rfl
  | cons c s ih =>
    rw [List.flatMap_cons, List.append_assoc, pieces?_escapeChar, ih]
    rfl

theorem join_cons_unit {u : Nat} (hu : isHigh u = false) (ps : List Piece) :
    join (.unit u :: ps) = single u :: join ps := by
  cases ps with
  | nil => rfl
  | cons p ps =>
    cases p with
    | char c => rfl
    | unit v => rw [join.eq_2, hu, Bool.false_and, if_neg Bool.false_ne_true]

/-- No control character is half of a pair. -/
theorem single_toNat {c : Char} (hc : c < ' ') :
    isHigh c.toNat = false ∧ single c.toNat = .char c := by
  have hlt := toNat_lt_of_lt_space hc
  have hhigh : isHigh c.toNat = false := by
    rw [isHigh, Bool.and_eq_false_iff, decide_eq_false_iff_not]
    exact Or.inl (by omega)
  have hlow : isLow c.toNat = false := by
    rw [isLow, Bool.and_eq_false_iff, decide_eq_false_iff_not]
    exact Or.inl (by omega)
  refine ⟨hhigh, ?_⟩
  rw [single, hhigh, hlow, Char.ofNat_toNat]
  rfl

theorem join_map_piece (s : List Char) : join (s.map piece) = s.map .char := by
  induction s with
  | nil => rfl
  | cons c s ih =>
    rw [List.map_cons, List.map_cons, piece]
    split
    · next hc =>
      obtain ⟨hhigh, hsingle⟩ := single_toNat hc.1
      rw [join_cons_unit hhigh, hsingle, ih]
    · rw [join, ih]

theorem escape_chars (s : List Char) :
    (s.map JsonChar.char).flatMap JsonValue.escape = s.flatMap escapeChar := by
  rw [List.flatMap_map]
  rfl

theorem next?_quote (s : String) (rest : List Char) :
    next? (JsonValue.quote (JsonValue.chars s) ++ rest) =
      some (.string (JsonValue.chars s), rest) := by
  rw [JsonValue.quote, JsonValue.chars, escape_chars, List.append_assoc, List.cons_append,
    List.singleton_append]
  rw [next?, pieces?_flatMap_escapeChar, Option.map_some]
  dsimp only
  rw [join_map_piece]

/-! ## Numbers -/

/-- No number goes on here. -/
def Ends (rest : List Char) : Prop := ∀ c ∈ rest.head?, c = ',' ∨ c = '\n'

theorem ends_nil : Ends [] := fun _ h => by cases h

theorem ends_comma (rest : List Char) : Ends (',' :: rest) := fun _ h => by
  cases h
  exact Or.inl rfl

theorem ends_newline (depth : Nat) (rest : List Char) : Ends (newline depth ++ rest) :=
  fun _ h => by
    cases h
    exact Or.inr rfl

theorem Ends.takeWhile_isDigit {rest : List Char} (hr : Ends rest) :
    rest.takeWhile Char.isDigit = [] ∧ rest.dropWhile Char.isDigit = rest := by
  cases rest with
  | nil => exact ⟨rfl, rfl⟩
  | cons c rest =>
    rcases hr c rfl with rfl | rfl
    · exact ⟨rfl, rfl⟩
    · exact ⟨rfl, rfl⟩

theorem Ends.fraction? {rest : List Char} (hr : Ends rest) : fraction? rest = some ([], rest) := by
  cases rest with
  | nil => rfl
  | cons c rest => rcases hr c rfl with rfl | rfl <;> rfl

theorem Ends.exponent? {rest : List Char} (hr : Ends rest) : exponent? rest = some ([], rest) := by
  cases rest with
  | nil => rfl
  | cons c rest => rcases hr c rfl with rfl | rfl <;> rfl

theorem isDigit_of_mem_toDigits {n : Nat} {c : Char} (hc : c ∈ Nat.toDigits 10 n) : c.isDigit :=
  Nat.isDigit_of_mem_toDigits (by decide) (by decide) hc

theorem digits?_toDigits (n : Nat) {rest : List Char} (hr : Ends rest) :
    digits? (Nat.toDigits 10 n ++ rest) = some (Nat.toDigits 10 n, rest) := by
  have hall : ∀ c ∈ Nat.toDigits 10 n, c.isDigit := fun c hc => isDigit_of_mem_toDigits hc
  obtain ⟨htake, hdrop⟩ := hr.takeWhile_isDigit
  simp only [digits?, List.takeWhile_append_of_pos hall, List.dropWhile_append_of_pos hall, htake,
    hdrop, List.append_nil, List.isEmpty_iff, Nat.toDigits_ne_nil, if_false]

/-- No zero comes first, unless it is the only digit. -/
theorem eq_zero_of_head?_toDigits {n : Nat} (h : (Nat.toDigits 10 n).head? = some '0') :
    n = 0 := by
  induction n using Nat.strongRecOn with
  | ind n ih =>
    by_cases hn : n < 10
    · rw [Nat.toDigits_of_lt_base hn, List.head?_cons, Option.some.injEq] at h
      exact Nat.digitChar_eq_zero.mp h
    · rw [Nat.toDigits_of_base_le (by decide) (Nat.le_of_not_lt hn), List.head?_append] at h
      cases hd : (Nat.toDigits 10 (n / 10)).head? with
      | none => exact absurd (List.head?_eq_none_iff.mp hd) Nat.toDigits_ne_nil
      | some d =>
        rw [hd, Option.some_or] at h
        have := ih (n / 10) (by omega) (hd.trans h)
        omega

theorem whole?_toDigits (n : Nat) {rest : List Char} (hr : Ends rest) :
    whole? (Nat.toDigits 10 n ++ rest) = some (Nat.toDigits 10 n, rest) := by
  by_cases hn : n = 0
  · subst hn
    rfl
  · have hzero : ∀ s, Nat.toDigits 10 n ++ rest ≠ '0' :: s := by
      intro s hs
      refine hn (eq_zero_of_head?_toDigits ?_)
      have hhead := congrArg List.head? hs
      rw [List.head?_append, List.head?_cons] at hhead
      cases hd : (Nat.toDigits 10 n).head? with
      | none => exact absurd (List.head?_eq_none_iff.mp hd) Nat.toDigits_ne_nil
      | some d => rwa [hd, Option.some_or] at hhead
    rw [whole?, digits?_toDigits n hr]
    exact hzero

theorem unsigned?_toDigits (n : Nat) {rest : List Char} (hr : Ends rest) :
    unsigned? (Nat.toDigits 10 n ++ rest) = some (Nat.toDigits 10 n, rest) := by
  simp only [unsigned?, whole?_toDigits n hr, hr.fraction?, hr.exponent?, Option.bind_eq_bind,
    Option.bind_some, List.append_nil]

theorem ne_of_isDigit {c d : Char} (hc : c.isDigit) (hd : d.isDigit = false) : c ≠ d := by
  rintro rfl
  cases hd.symm.trans hc

theorem isBlank_of_isDigit {c : Char} (hc : c.isDigit) : isBlank c = false := by
  have hne : ∀ {d : Char}, d.isDigit = false → (c == d) = false := fun hd =>
    beq_eq_false_iff_ne.mpr (ne_of_isDigit hc hd)
  rw [isBlank, hne (d := ' ') rfl, hne (d := '\t') rfl, hne (d := '\n') rfl, hne (d := '\r') rfl]
  rfl

/-- A digit starts no token but a number. -/
theorem next?_of_isDigit {c : Char} (hc : c.isDigit) (s : List Char) :
    next? (c :: s) = (unsigned? (c :: s)).map fun p => (.number (String.ofList p.1), p.2) := by
  unfold next?
  split
  case h_11 =>
    rw [number?]
    intro rest hs
    exact ne_of_isDigit hc (d := '-') rfl (List.cons.inj hs).1
  all_goals
    next heq =>
    exact absurd (List.cons.inj heq).1 (ne_of_isDigit hc rfl)

theorem next?_repr (n : Nat) {rest : List Char} (hr : Ends rest) :
    next? ((Nat.repr n).toList ++ rest) = some (.number (Nat.repr n), rest) := by
  have hscan := unsigned?_toDigits n hr
  rw [Nat.toList_repr, Nat.repr_eq_ofList_toDigits]
  cases hd : Nat.toDigits 10 n with
  | nil => exact absurd hd Nat.toDigits_ne_nil
  | cons d ds =>
    have hdigit : d.isDigit :=
      isDigit_of_mem_toDigits (n := n) (by rw [hd]; exact List.mem_cons_self)
    rw [hd] at hscan
    rw [List.cons_append, next?_of_isDigit hdigit, ← List.cons_append, hscan]
    rfl

/-! ## Values -/

/-- Where the text stands before the end of a value, the tokens are scanned. -/
def Spells (text : List Char) (ts : List JsonToken) : Prop :=
  ∀ rest, Ends rest → scan (text ++ rest) = (scan rest).map (ts ++ ·)

theorem spells_of_next? {c : Char} {s : List Char} {t : JsonToken} (hc : isBlank c = false)
    (ht : ∀ rest, Ends rest → next? (c :: s ++ rest) = some (t, rest)) : Spells (c :: s) [t] :=
  fun rest hr => scan_of_next? hc (ht rest hr)

theorem spells_quote (s : String) :
    Spells (JsonValue.quote (JsonValue.chars s)) [.string (JsonValue.chars s)] :=
  spells_of_next? rfl fun rest _ => next?_quote s rest

theorem spells_repr (n : Nat) : Spells (Nat.repr n).toList [.number (Nat.repr n)] := by
  cases hd : (Nat.repr n).toList with
  | nil => exact absurd (Nat.toList_repr.symm.trans hd) Nat.toDigits_ne_nil
  | cons d ds =>
    have hdigit : d.isDigit := by
      refine isDigit_of_mem_toDigits (n := n) ?_
      rw [← Nat.toList_repr, hd]
      exact List.mem_cons_self
    exact spells_of_next? (isBlank_of_isDigit hdigit) fun rest hr => hd ▸ next?_repr n hr

/-- Tokens of values with commas between them. -/
def separated : List (List JsonToken) → List JsonToken
  | [] => []
  | [ts] => ts
  | ts :: tss => ts ++ .comma :: separated tss

theorem scan_newline (depth : Nat) (rest : List Char) :
    scan (newline depth ++ rest) = scan rest := by
  have hblanks : ∀ n, scan (List.replicate n ' ' ++ rest) = scan rest := by
    intro n
    induction n with
    | zero => rfl
    | succ n ih =>
      rw [List.replicate_succ, List.cons_append, scan_of_blank rfl, ih]
  rw [newline, List.cons_append, scan_of_blank rfl, hblanks]

variable {α : Type} {text : α → List Char} {toks : α → List JsonToken}

theorem spells_lines (depth : Nat) {as : List α} (h : ∀ a ∈ as, Spells (text a) (toks a)) :
    Spells (lines depth (as.map text)) (separated (as.map toks)) := by
  induction as with
  | nil =>
    intro rest _
    show scan rest = (scan rest).map ([] ++ ·)
    simp
  | cons a as ih =>
    intro rest hr
    have ha := h a List.mem_cons_self
    cases as with
    | nil =>
      show scan (newline depth ++ text a ++ rest) = (scan rest).map (toks a ++ ·)
      rw [List.append_assoc, scan_newline, ha rest hr]
    | cons b as =>
      have has := ih (fun c hc => h c (List.mem_cons_of_mem a hc)) rest hr
      show scan (newline depth ++ text a ++ ',' :: lines depth ((b :: as).map text) ++ rest) =
        (scan rest).map (toks a ++ .comma :: separated ((b :: as).map toks) ++ ·)
      rw [List.append_assoc, List.append_assoc, scan_newline, List.cons_append,
        ha _ (ends_comma _), scan_of_next? rfl rfl, has, Option.map_map, Option.map_map]
      congr 1
      funext ts
      simp

theorem spells_enclose (depth : Nat) {opening closing : Char} {first last : JsonToken}
    (hopening : isBlank opening = false) (hclosing : isBlank closing = false)
    (hfirst : ∀ rest, next? (opening :: rest) = some (first, rest))
    (hlast : ∀ rest, next? (closing :: rest) = some (last, rest)) {as : List α}
    (h : ∀ a ∈ as, Spells (text a) (toks a)) :
    Spells (enclose depth opening closing (as.map text))
      (first :: separated (as.map toks) ++ [last]) := by
  intro rest hr
  have hend : scan (closing :: rest) = (scan rest).map (last :: ·) :=
    scan_of_next? hclosing (hlast rest)
  cases as with
  | nil =>
    show scan (opening :: closing :: rest) = (scan rest).map (first :: last :: ·)
    rw [scan_of_next? hopening (hfirst _), hend, Option.map_map]
    rfl
  | cons a as =>
    have hlines := spells_lines (depth + 1) h (newline depth ++ closing :: rest)
      (ends_newline depth _)
    show scan (opening :: lines (depth + 1) ((a :: as).map text) ++ newline depth ++ [closing] ++
      rest) = _
    rw [List.append_assoc, List.append_assoc, List.cons_append, List.singleton_append,
      scan_of_next? hopening (hfirst _), hlines, scan_newline, hend, Option.map_map,
      Option.map_map]
    congr 1
    funext ts
    simp

end JsonToken
end Lineage
