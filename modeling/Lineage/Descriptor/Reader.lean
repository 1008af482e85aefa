import Lineage.Descriptor.Basic

/-!
Reading descriptors.  A reader takes a type off the front of the characters and
hands back what follows it, which is always shorter; a descriptor as a whole
has to be used up.
-/

namespace Lineage

inductive DescriptorError where
  /-- The text stops where a type or a bracket is due. -/
  | ended
  | expected (c : Char)
  /-- No type starts with this byte. -/
  | unexpectedTag (byte : UInt8)
  /-- A class name without its semicolon. -/
  | unterminated
  /-- Text is left over; the whole descriptor is at fault. -/
  | trailing (descriptor : String)
  deriving DecidableEq, Repr

namespace DescriptorError

def reason : DescriptorError → String
  | ended => ""
  | expected c => "expected '" ++ c.toString ++ "' in descriptor"
  | unexpectedTag byte =>
    "unexpected descriptor tag '" ++ (Char.ofNat byte.toNat).toString ++ "'"
  | unterminated => "unterminated reference descriptor"
  | trailing descriptor => descriptor

def message (e : DescriptorError) : String := "invalid descriptor `" ++ e.reason ++ "`"

/-- The complaint about a character that starts no type: it names the first
byte of its encoding. -/
def ofTag (c : Char) : DescriptorError :=
  unexpectedTag ((String.utf8EncodeChar c).headD 0)

end DescriptorError

namespace FieldType

/-- The primitive type with the given letter. -/
def ofLetter? : Char → Option FieldType
  | 'B' => some byte
  | 'C' => some char
  | 'D' => some double
  | 'F' => some float
  | 'I' => some int
  | 'J' => some long
  | 'S' => some short
  | 'Z' => some boolean
  | _ => none

/-- The type at the front of `cs`, and what follows it. -/
def read : List Char → Except DescriptorError (FieldType × List Char)
  | [] => .error .ended
  | '[' :: cs => (read cs).map fun r => (array r.1, r.2)
  | 'L' :: cs =>
    match cs.dropWhile (· != ';') with
    | [] => .error .unterminated
    | _ :: rest => .ok (object (String.ofList (cs.takeWhile (· != ';'))), rest)
  | c :: cs =>
    match ofLetter? c with
    | some t => .ok (t, cs)
    | none => .error (.ofTag c)

theorem length_lt_of_read {cs rest : List Char} {t : FieldType}
    (h : read cs = .ok (t, rest)) : rest.length < cs.length := by
  fun_induction read cs generalizing t rest with
  | case1 => cases h
  | case2 cs ih =>
    cases hr : read cs with
    | error e => simp [hr, Except.map] at h
    | ok r =>
      obtain ⟨u, rest'⟩ := r
      simp only [hr, Except.map, Except.ok.injEq, Prod.mk.injEq] at h
      obtain ⟨_, rfl⟩ := h
      exact Nat.lt_succ_of_lt (ih hr)
  | case3 => cases h
  | case4 cs c rest' hd =>
    simp only [Except.ok.injEq, Prod.mk.injEq] at h
    obtain ⟨_, rfl⟩ := h
    have hle : (c :: rest').length ≤ cs.length := by
      rw [← hd]
      exact (List.dropWhile_sublist _).length_le
    simp only [List.length_cons] at hle ⊢
    omega
  | case5 c cs _ _ u =>
    simp only [Except.ok.injEq, Prod.mk.injEq] at h
    obtain ⟨_, rfl⟩ := h
    simp
  | case6 => cases h

def parse (descriptor : String) : Except DescriptorError FieldType := do
  let (t, rest) ← read descriptor.toList
  if rest.isEmpty then .ok t else .error (.trailing descriptor)

end FieldType

namespace MethodType

/-- The parameter types up to the closing bracket, and what follows it. -/
def readParameters (cs : List Char) :
    Except DescriptorError (List FieldType × List Char) :=
  match cs with
  | [] => .error .ended
  | ')' :: rest => .ok ([], rest)
  | c :: cs =>
    match h : FieldType.read (c :: cs) with
    | .error e => .error e
    | .ok (t, rest) =>
      have := FieldType.length_lt_of_read h
      (readParameters rest).map fun r => (t :: r.1, r.2)
  termination_by cs.length
  decreasing_by exact this

def readResult : List Char → Except DescriptorError (Option FieldType × List Char)
  | [] => .error .ended
  | 'V' :: rest => .ok (none, rest)
  | cs => (FieldType.read cs).map fun r => (some r.1, r.2)

def read : List Char → Except DescriptorError (MethodType × List Char)
  | [] => .error .ended
  | '(' :: cs => do
    let (parameters, rest) ← readParameters cs
    let (result, rest) ← readResult rest
    .ok ({ parameters, result }, rest)
  | _ :: _ => .error (.expected '(')

def parse (descriptor : String) : Except DescriptorError MethodType := do
  let (m, rest) ← read descriptor.toList
  if rest.isEmpty then .ok m else .error (.trailing descriptor)

end MethodType
end Lineage
