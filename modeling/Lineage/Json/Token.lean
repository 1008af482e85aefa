import Lineage.Json.Value

/-!
The tokens of JSON text.

Blanks between tokens say nothing.  A character below U+0020 must not stand in a
string as it is.  An escaped high surrogate with an escaped low surrogate right
behind it is one character.
-/

namespace Lineage

inductive JsonToken where
  | openBrace
  | closeBrace
  | openBracket
  | closeBracket
  | comma
  | colon
  | null
  | bool (b : Bool)
  | number (literal : String)
  | string (s : List JsonChar)
  deriving DecidableEq, Repr

namespace JsonToken

def isBlank (c : Char) : Bool := c == ' ' || c == '\t' || c == '\n' || c == '\r'

/-! ## Numbers -/

/-- The digits at the start of a text, of which there must be one. -/
def digits? (s : List Char) : Option (List Char × List Char) :=
  let (ds, rest) := (s.takeWhile Char.isDigit, s.dropWhile Char.isDigit)
  if ds.isEmpty then none else some (ds, rest)

/-- A whole number without superfluous zeros in front. -/
def whole? : List Char → Option (List Char × List Char)
  | '0' :: rest => some (['0'], rest)
  | s => digits? s

/-- A point and the digits behind it, if there is a point. -/
def fraction? : List Char → Option (List Char × List Char)
  | '.' :: rest => (digits? rest).map fun (ds, rest) => ('.' :: ds, rest)
  | s => some ([], s)

def exponentDigits? : List Char → Option (List Char × List Char)
  | '+' :: rest => (digits? rest).map fun (ds, rest) => ('+' :: ds, rest)
  | '-' :: rest => (digits? rest).map fun (ds, rest) => ('-' :: ds, rest)
  | s => digits? s

def exponent? : List Char → Option (List Char × List Char)
  | 'e' :: rest => (exponentDigits? rest).map fun (ds, rest) => ('e' :: ds, rest)
  | 'E' :: rest => (exponentDigits? rest).map fun (ds, rest) => ('E' :: ds, rest)
  | s => some ([], s)

def unsigned? (s : List Char) : Option (List Char × List Char) := do
  let (whole, s) ← whole? s
  let (fraction, s) ← fraction? s
  let (exponent, s) ← exponent? s
  some (whole ++ fraction ++ exponent, s)

def number? : List Char → Option (List Char × List Char)
  | '-' :: rest => (unsigned? rest).map fun (ds, rest) => ('-' :: ds, rest)
  | s => unsigned? s

/-! ## Strings -/

/-- What is written between the quotes: a character or an escaped unit. -/
inductive Piece where
  | char (c : Char)
  | unit (u : Nat)
  deriving DecidableEq, Repr

def hexDigit? (c : Char) : Option Nat :=
  if c.isDigit then some (c.toNat - '0'.toNat)
  else if 'a' ≤ c ∧ c ≤ 'f' then some (c.toNat - 'a'.toNat + 10)
  else if 'A' ≤ c ∧ c ≤ 'F' then some (c.toNat - 'A'.toNat + 10)
  else none

def unit? (a b c d : Char) : Option Nat := do
  let a ← hexDigit? a
  let b ← hexDigit? b
  let c ← hexDigit? c
  let d ← hexDigit? d
  some (((a * 16 + b) * 16 + c) * 16 + d)

/-- The escapes of one letter, and what they stand for. -/
def escapes : List (Char × Char) :=
  [('"', '"'), ('\\', '\\'), ('/', '/'), ('b', '\x08'), ('f', '\x0c'), ('n', '\n'),
    ('r', '\r'), ('t', '\t')]

/-- The pieces up to the closing quote, and what comes after it. -/
def pieces? : List Char → Option (List Piece × List Char)
  | [] => none
  | '"' :: rest => some ([], rest)
  | '\\' :: 'u' :: a :: b :: c :: d :: rest => do
    let u ← unit? a b c d
    let (ps, rest) ← pieces? rest
    some (.unit u :: ps, rest)
  | '\\' :: e :: rest => do
    let c ← escapes.lookup e
    let (ps, rest) ← pieces? rest
    some (.char c :: ps, rest)
  | c :: rest =>
    if c < ' ' then none
    else do
      let (ps, rest) ← pieces? rest
      some (.char c :: ps, rest)

def isHigh (u : Nat) : Bool := 0xD800 ≤ u && u < 0xDC00

def isLow (u : Nat) : Bool := 0xDC00 ≤ u && u < 0xE000

/-- The character that a surrogate pair stands for. -/
def paired (high low : Nat) : Char :=
  Char.ofNat (0x10000 + (high - 0xD800) * 0x400 + (low - 0xDC00))

/-- A unit by itself. -/
def single (u : Nat) : JsonChar :=
  if isHigh u || isLow u then .half (UInt16.ofNat u) else .char (Char.ofNat u)

/-- Put surrogate pairs together. -/
def join : List Piece → List JsonChar
  | [] => []
  | .unit u :: .unit v :: rest =>
    if isHigh u && isLow v then .char (paired u v) :: join rest
    else single u :: join (.unit v :: rest)
  | .unit u :: rest => single u :: join rest
  | .char c :: rest => .char c :: join rest

/-! ## Scanning -/

/-- The token at the start of a text that starts with no blank. -/
def next? : List Char → Option (JsonToken × List Char)
  | '{' :: rest => some (openBrace, rest)
  | '}' :: rest => some (closeBrace, rest)
  | '[' :: rest => some (openBracket, rest)
  | ']' :: rest => some (closeBracket, rest)
  | ',' :: rest => some (comma, rest)
  | ':' :: rest => some (colon, rest)
  | '"' :: rest => (pieces? rest).map fun (ps, rest) => (string (join ps), rest)
  | 'n' :: 'u' :: 'l' :: 'l' :: rest => some (null, rest)
  | 't' :: 'r' :: 'u' :: 'e' :: rest => some (bool true, rest)
  | 'f' :: 'a' :: 'l' :: 's' :: 'e' :: rest => some (bool false, rest)
  | s => (number? s).map fun (ds, rest) => (number (String.ofList ds), rest)

/-! Every token takes at least one character. -/

theorem digits?_lt {s ds rest : List Char} (h : digits? s = some (ds, rest)) :
    rest.length < s.length := by
  simp only [digits?] at h
  split at h
  · cases h
  · rename_i hne
    obtain ⟨rfl, rfl⟩ := Prod.mk.inj (Option.some.inj h)
    have hsplit := congrArg List.length (List.takeWhile_append_dropWhile (p := Char.isDigit) (l := s))
    rw [List.length_append] at hsplit
    have hpos : 0 < (s.takeWhile Char.isDigit).length :=
      List.length_pos_iff.mpr fun h => hne (by rw [h]; rfl)
    omega

theorem whole?_lt {s ds rest : List Char} (h : whole? s = some (ds, rest)) :
    rest.length < s.length := by
  unfold whole? at h
  split at h
  · cases h
    exact Nat.lt_succ_self _
  · exact digits?_lt h

theorem fraction?_le {s ds rest : List Char} (h : fraction? s = some (ds, rest)) :
    rest.length ≤ s.length := by
  unfold fraction? at h
  split at h
  · obtain ⟨⟨ds', rest'⟩, hd, hr⟩ := Option.map_eq_some_iff.mp h
    cases hr
    exact Nat.le_succ_of_le (Nat.le_of_lt (digits?_lt hd))
  · cases h
    exact Nat.le_refl _

theorem exponentDigits?_le {s ds rest : List Char} (h : exponentDigits? s = some (ds, rest)) :
    rest.length ≤ s.length := by
  unfold exponentDigits? at h
  split at h
  · obtain ⟨⟨ds', rest'⟩, hd, hr⟩ := Option.map_eq_some_iff.mp h
    cases hr
    exact Nat.le_succ_of_le (Nat.le_of_lt (digits?_lt hd))
  · obtain ⟨⟨ds', rest'⟩, hd, hr⟩ := Option.map_eq_some_iff.mp h
    cases hr
    exact Nat.le_succ_of_le (Nat.le_of_lt (digits?_lt hd))
  · exact Nat.le_of_lt (digits?_lt h)

theorem exponent?_le {s ds rest : List Char} (h : exponent? s = some (ds, rest)) :
    rest.length ≤ s.length := by
  unfold exponent? at h
  split at h
  · obtain ⟨⟨ds', rest'⟩, hd, hr⟩ := Option.map_eq_some_iff.mp h
    cases hr
    exact Nat.le_succ_of_le (exponentDigits?_le hd)
  · obtain ⟨⟨ds', rest'⟩, hd, hr⟩ := Option.map_eq_some_iff.mp h
    cases hr
    exact Nat.le_succ_of_le (exponentDigits?_le hd)
  · cases h
    exact Nat.le_refl _

theorem unsigned?_lt {s ds rest : List Char} (h : unsigned? s = some (ds, rest)) :
    rest.length < s.length := by
  simp only [unsigned?, Option.bind_eq_bind, Option.bind_eq_some_iff] at h
  obtain ⟨⟨w, s₁⟩, hw, ⟨f, s₂⟩, hf, ⟨e, s₃⟩, he, hr⟩ := h
  cases hr
  exact Nat.lt_of_le_of_lt (exponent?_le he) (Nat.lt_of_le_of_lt (fraction?_le hf) (whole?_lt hw))

theorem number?_lt {s ds rest : List Char} (h : number? s = some (ds, rest)) :
    rest.length < s.length := by
  unfold number? at h
  split at h
  · obtain ⟨⟨ds', rest'⟩, hd, hr⟩ := Option.map_eq_some_iff.mp h
    cases hr
    exact Nat.lt_succ_of_lt (unsigned?_lt hd)
  · exact unsigned?_lt h

theorem pieces?_lt {s rest : List Char} {ps : List Piece} (h : pieces? s = some (ps, rest)) :
    rest.length < s.length := by
  fun_induction pieces? s generalizing ps rest with
  | case1 => cases h
  | case2 => cases h; exact Nat.lt_succ_self _
  | case3 a b c d r ih =>
    simp only [Option.bind_eq_bind, Option.bind_eq_some_iff] at h
    obtain ⟨u, _, ⟨qs, r'⟩, hq, hr⟩ := h
    cases hr
    have := ih hq
    simp only [List.length_cons]
    omega
  | case4 e r _ ih =>
    simp only [Option.bind_eq_bind, Option.bind_eq_some_iff] at h
    obtain ⟨u, _, ⟨qs, r'⟩, hq, hr⟩ := h
    cases hr
    have := ih hq
    simp only [List.length_cons]
    omega
  | case5 => cases h
  | case6 c r _ _ _ _ ih =>
    simp only [Option.bind_eq_bind, Option.bind_eq_some_iff] at h
    obtain ⟨⟨qs, r'⟩, hq, hr⟩ := h
    cases hr
    have := ih hq
    simp only [List.length_cons]
    omega

theorem next?_lt {s rest : List Char} {t : JsonToken} (h : next? s = some (t, rest)) :
    rest.length < s.length := by
  unfold next? at h
  split at h
  case h_7 =>
    obtain ⟨⟨ps, r⟩, hp, hr⟩ := Option.map_eq_some_iff.mp h
    cases hr
    exact Nat.lt_succ_of_lt (pieces?_lt hp)
  case h_11 =>
    obtain ⟨⟨ds, r⟩, hd, hr⟩ := Option.map_eq_some_iff.mp h
    cases hr
    exact number?_lt hd
  all_goals
    cases h
    simp only [List.length_cons]
    omega

def scan (s : List Char) : Option (List JsonToken) :=
  match s with
  | [] => some []
  | c :: rest =>
    if isBlank c then scan rest
    else
      match _h : next? (c :: rest) with
      | none => none
      | some (t, rest) => (scan rest).map (t :: ·)
  termination_by s.length
  decreasing_by
    · exact Nat.lt_succ_self _
    · exact next?_lt _h

end JsonToken
end Lineage
