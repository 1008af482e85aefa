import Lineage.Bytes
import Lineage.Text.Hex

/-!
Reading class files.  A reader takes a value off the front of a byte string and
hands back what follows it.  All multi-byte words are big-endian.
-/

namespace Lineage
namespace ClassFile

inductive ReadError where
  | unexpectedEnd
  | badMagic
  | unsupportedConstant (tag : UInt8)
  /-- A constant is missing, or is not of the kind its use calls for. -/
  | badConstantIndex (index : UInt16)
  | badOpcode (opcode : UInt8)
  deriving DecidableEq, Repr

def ReadError.message : ReadError → String
  | unexpectedEnd => "unexpected end of class data"
  | badMagic => "invalid class magic header"
  | unsupportedConstant tag => "unsupported constant pool tag " ++ toString tag.toNat
  | badConstantIndex index => "invalid constant pool index " ++ toString index.toNat
  | badOpcode opcode => "invalid opcode 0x" ++ Hex.encode [opcode]

abbrev Reader := StateT Bytes (Except ReadError)

namespace Reader

def fail {α : Type} (e : ReadError) : Reader α := fun _ => .error e

/-- Lift an answer that does not depend on the bytes. -/
def ofExcept {α : Type} (r : Except ReadError α) : Reader α := fun s => r.map (·, s)

def u1 : Reader UInt8
  | a :: rest => .ok (a, rest)
  | [] => .error .unexpectedEnd

def u2 : Reader UInt16
  | a :: b :: rest => .ok (Bytes.toUInt16 a b, rest)
  | _ => .error .unexpectedEnd

def u4 : Reader UInt32
  | a :: b :: c :: d :: rest => .ok (Bytes.toUInt32 a b c d, rest)
  | _ => .error .unexpectedEnd

/-- The next `n` bytes.  Looks no further than those, however much follows. -/
def slice (n : Nat) : Reader Bytes := fun s =>
  if (s.take n).length = n then .ok (s.take n, s.drop n) else .error .unexpectedEnd

def skip (n : Nat) : Reader Unit := fun s =>
  if (s.take n).length = n then .ok ((), s.drop n) else .error .unexpectedEnd

theorem slice_of_le {n : Nat} {s : Bytes} (h : n ≤ s.length) :
    slice n s = .ok (s.take n, s.drop n) := by
  simp [slice, Nat.min_eq_left h]

theorem slice_of_lt {n : Nat} {s : Bytes} (h : s.length < n) :
    slice n s = .error .unexpectedEnd := by
  have : min n s.length ≠ n := by omega
  simp [slice, this]

theorem skip_of_le {n : Nat} {s : Bytes} (h : n ≤ s.length) :
    skip n s = .ok ((), s.drop n) := by
  simp [skip, Nat.min_eq_left h]

theorem skip_of_lt {n : Nat} {s : Bytes} (h : s.length < n) :
    skip n s = .error .unexpectedEnd := by
  have : min n s.length ≠ n := by omega
  simp [skip, this]

/-- Run `r` a number of times and list its values. -/
def times {α : Type} (r : Reader α) : Nat → Reader (List α)
  | 0 => pure []
  | n + 1 => do
    let a ← r
    let as ← times r n
    pure (a :: as)

/-- Run `r` on the next `n` bytes alone; what it leaves of them is dropped. -/
def within {α : Type} (n : Nat) (r : Reader α) : Reader α := do
  let bytes ← slice n
  ofExcept ((r bytes).map Prod.fst)

/-! ## Readers never lengthen what is left -/

/-- What `r` leaves is no longer than what it was given. -/
def Consumes {α : Type} (r : Reader α) : Prop :=
  ∀ ⦃s a rest⦄, r s = .ok (a, rest) → rest.length ≤ s.length

theorem Consumes.pure {α : Type} (a : α) : Consumes (pure a : Reader α) := by
  intro s b rest h
  cases h
  exact Nat.le_refl _

theorem Consumes.fail {α : Type} (e : ReadError) : Consumes (fail e : Reader α) := by
  intro s b rest h
  cases h

theorem Consumes.ofExcept {α : Type} (r : Except ReadError α) :
    Consumes (ofExcept r) := by
  intro s b rest h
  cases r with
  | error e => cases h
  | ok a =>
    cases h
    exact Nat.le_refl _

theorem Consumes.bind {α β : Type} {r : Reader α} {f : α → Reader β}
    (hr : Consumes r) (hf : ∀ a, Consumes (f a)) : Consumes (r >>= f) := by
  intro s b rest h
  change (r s >>= fun p => f p.1 p.2) = .ok (b, rest) at h
  cases hs : r s with
  | error e => simp [hs, Bind.bind, Except.bind] at h
  | ok p =>
    simp only [hs, Bind.bind, Except.bind] at h
    exact Nat.le_trans (hf p.1 h) (hr hs)

theorem Consumes.u1 : Consumes u1 := by
  intro s a rest h
  unfold Reader.u1 at h
  split at h <;> cases h
  simp

theorem Consumes.u2 : Consumes u2 := by
  intro s a rest h
  unfold Reader.u2 at h
  split at h <;> cases h
  simp only [List.length_cons]
  omega

theorem Consumes.u4 : Consumes u4 := by
  intro s a rest h
  unfold Reader.u4 at h
  split at h <;> cases h
  simp only [List.length_cons]
  omega

theorem Consumes.skip (n : Nat) : Consumes (skip n) := by
  intro s a rest h
  unfold Reader.skip at h
  split at h <;> cases h
  simp

end Reader
end ClassFile
end Lineage
