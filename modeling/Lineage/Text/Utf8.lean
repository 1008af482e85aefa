import Lineage.Bytes

/-!
UTF-8 text.  `decode?` accepts well-formed text only; `decodeLossy` puts one
replacement character for each longest run that could still have become a
character.
-/

namespace Lineage
namespace Utf8

/-- A range of byte values, both ends included. -/
abbrev Span := Nat × Nat

def tail : Span := (0x80, 0xBF)

/-- What a first byte promises: the bits it contributes and the spans in which
the bytes after it have to lie.  The narrower spans rule out overlong forms,
surrogates and values above U+10FFFF. -/
def lead? (b : Nat) : Option (Nat × List Span) :=
  if b < 0x80 then some (b, [])
  else if b < 0xC2 then none
  else if b < 0xE0 then some (b - 0xC0, [tail])
  else if b = 0xE0 then some (0, [(0xA0, 0xBF), tail])
  else if b = 0xED then some (0xD, [(0x80, 0x9F), tail])
  else if b < 0xF0 then some (b - 0xE0, [tail, tail])
  else if b = 0xF0 then some (0, [(0x90, 0xBF), tail, tail])
  else if b < 0xF4 then some (b - 0xF0, [tail, tail, tail])
  else if b = 0xF4 then some (4, [(0x80, 0x8F), tail, tail])
  else none

/-- Take a byte from each span in turn, six bits from each.  Answers the value,
if all of them fit, and what is left from the first byte that does not. -/
def follow : List Span → Nat → Bytes → Option Nat × Bytes
  | [], value, bytes => (some value, bytes)
  | _ :: _, _, [] => (none, [])
  | (lo, hi) :: spans, value, b :: bytes =>
    if lo ≤ b.toNat ∧ b.toNat ≤ hi then follow spans (value * 64 + b.toNat % 64) bytes
    else (none, b :: bytes)

/-- The first character of a text that starts with `b`, and the bytes after it. -/
def first (b : UInt8) (bytes : Bytes) : Option Char × Bytes :=
  match lead? b.toNat with
  | none => (none, bytes)
  | some (value, spans) =>
    let (value?, rest) := follow spans value bytes
    (value?.map Char.ofNat, rest)

theorem length_follow_le (spans : List Span) (value : Nat) (bytes : Bytes) :
    (follow spans value bytes).2.length ≤ bytes.length := by
  fun_induction follow spans value bytes with
  | case1 => exact Nat.le_refl _
  | case2 => exact Nat.le_refl _
  | case3 value lo hi spans b bytes h ih => exact Nat.le_succ_of_le ih
  | case4 => exact Nat.le_refl _

theorem length_first_le (b : UInt8) (bytes : Bytes) :
    (first b bytes).2.length ≤ bytes.length := by
  unfold first
  split
  · exact Nat.le_refl _
  · exact length_follow_le _ _ _

def decode? : Bytes → Option (List Char)
  | [] => some []
  | b :: bytes =>
    match h : first b bytes with
    | (none, _) => none
    | (some c, rest) =>
      have : rest.length ≤ bytes.length := by
        have := length_first_le b bytes
        rwa [h] at this
      (decode? rest).map (c :: ·)
  termination_by bytes => bytes.length

/-- The character that stands for text that could not be read. -/
def replacement : Char := Char.ofNat 0xFFFD

def decodeLossy : Bytes → List Char
  | [] => []
  | b :: bytes =>
    have := length_first_le b bytes
    (first b bytes).1.getD replacement :: decodeLossy (first b bytes).2
  termination_by bytes => bytes.length

def encode (s : String) : Bytes := s.toList.flatMap String.utf8EncodeChar

end Utf8
end Lineage
