/-!
JSON values.

A JSON string is a sequence of characters and of halves of surrogate pairs that
an escape has put there without their other half.  Only one without such halves
is a text.  A number is kept as it is written.
-/

namespace Lineage

inductive JsonChar where
  | char (c : Char)
  /-- A surrogate that stands alone. -/
  | half (unit : UInt16)
  deriving DecidableEq, Repr

namespace JsonChar

def char? : JsonChar → Option Char
  | char c => some c
  | half _ => none

end JsonChar

inductive JsonValue where
  | null
  | bool (b : Bool)
  | number (literal : String)
  | string (s : List JsonChar)
  | array (items : List JsonValue)
  | object (members : List (List JsonChar × JsonValue))
  deriving Repr

namespace JsonValue

def chars (s : String) : List JsonChar := s.toList.map .char

def text? (s : List JsonChar) : Option String := (s.mapM JsonChar.char?).map String.ofList

def ofString (s : String) : JsonValue := string (chars s)

def ofNat (n : Nat) : JsonValue := number (Nat.repr n)

/-- An object whose members have texts as their names. -/
def ofMembers (members : List (String × JsonValue)) : JsonValue :=
  object (members.map fun m => (chars m.1, m.2))

theorem text?_chars (s : String) : text? (chars s) = some s := by
  have h : ∀ cs : List Char, (cs.map JsonChar.char).mapM JsonChar.char? = some cs := by
    intro cs
    induction cs with
    | nil => rfl
    | cons c cs ih => simp [ih, JsonChar.char?]
  simp [text?, chars, h]

end JsonValue
end Lineage
