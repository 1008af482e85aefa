import Lineage.Text.Utf8

/-!
Modified UTF-8, the text encoding of class files.  It encodes UTF-16 units, so
a character above U+FFFF takes two three-byte forms, and U+0000 takes two
bytes.  Reading accepts plain UTF-8 as well and never fails: what cannot be
read becomes a replacement character.
-/

namespace Lineage
namespace ModifiedUtf8

def charUnits (c : Char) : List Nat :=
  if c.toNat < 0x10000 then [c.toNat]
  else [0xD800 + (c.toNat - 0x10000) / 0x400, 0xDC00 + (c.toNat - 0x10000) % 0x400]

def encodeUnit (u : Nat) : Bytes :=
  if 0 < u ∧ u < 0x80 then [UInt8.ofNat u]
  else if u < 0x800 then [UInt8.ofNat (0xC0 + u / 64), UInt8.ofNat (0x80 + u % 64)]
  else [UInt8.ofNat (0xE0 + u / 4096), UInt8.ofNat (0x80 + u / 64 % 64),
    UInt8.ofNat (0x80 + u % 64)]

def encodeChar (c : Char) : Bytes := (charUnits c).flatMap encodeUnit

def encode (s : String) : Bytes := s.toList.flatMap encodeChar

/-- The unit at the start of a text that starts with `a`, and what follows its
form.  Continuation bytes are taken on trust; a byte that starts no form, or
whose form is cut short, stands for U+FFFD. -/
def firstUnit (a : UInt8) (rest : Bytes) : Nat × Bytes :=
  if a.toNat < 0x80 then (a.toNat, rest)
  else if a.toNat / 32 = 6 then
    match rest with
    | b :: rest => (a.toNat % 32 * 64 + b.toNat % 64, rest)
    | [] => (0xFFFD, [])
  else if a.toNat / 16 = 14 then
    match rest with
    | b :: c :: rest => (a.toNat % 16 * 4096 + b.toNat % 64 * 64 + c.toNat % 64, rest)
    | rest => (0xFFFD, rest)
  else (0xFFFD, rest)

theorem length_firstUnit_le (a : UInt8) (rest : Bytes) :
    (firstUnit a rest).2.length ≤ rest.length := by
  unfold firstUnit
  repeat' split
  all_goals simp <;> omega

def units : Bytes → List Nat
  | [] => []
  | a :: rest =>
    have := length_firstUnit_le a rest
    (firstUnit a rest).1 :: units (firstUnit a rest).2
  termination_by bytes => bytes.length

def isHighSurrogate (u : Nat) : Bool := 0xD800 ≤ u && u < 0xDC00

def isLowSurrogate (u : Nat) : Bool := 0xDC00 ≤ u && u < 0xE000

/-- The character of a unit that has no partner. -/
def lone (u : Nat) : Char :=
  if isHighSurrogate u || isLowSurrogate u then Utf8.replacement else Char.ofNat u

def join : List Nat → List Char
  | u :: v :: rest =>
    if isHighSurrogate u && isLowSurrogate v then
      Char.ofNat (0x10000 + (u - 0xD800) * 0x400 + (v - 0xDC00)) :: join rest
    else lone u :: join (v :: rest)
  | [u] => [lone u]
  | [] => []

def decode (bytes : Bytes) : String :=
  match Utf8.decode? bytes with
  | some cs => String.ofList cs
  | none => String.ofList (join (units bytes))

end ModifiedUtf8
end Lineage
