import Lineage.ClassFile.Pool

/-!
Method bodies as lists of instructions.  The instructions that the shapes of
bodies are told by keep their operands; any other is an opcode.  Nothing is
left out, so positions and counts are those of the body.
-/

namespace Lineage
namespace ClassFile

inductive LoadKind where
  | int
  | long
  | float
  | double
  | reference
  deriving DecidableEq, Repr

namespace LoadKind

/-- The place of the kind among the load opcodes, which follow each other. -/
def rank : LoadKind → Nat
  | int => 0
  | long => 1
  | float => 2
  | double => 3
  | reference => 4

def ofRank : Nat → LoadKind
  | 0 => int
  | 1 => long
  | 2 => float
  | 3 => double
  | _ => reference

/-- Local variables that a value of this kind takes. -/
def width : LoadKind → UInt16
  | long | double => 2
  | _ => 1

end LoadKind

inductive Instruction where
  /-- A local variable is pushed, in any of the encodings. -/
  | load (kind : LoadKind) (slot : UInt16)
  | typeCheck (opcode : UInt8) (className : String)
  | getField (field : MemberRef)
  | invoke (opcode : UInt8) (method : MemberRef)
  | invokeDynamic (bootstrap : UInt16) (name descriptor : String)
  | leave (opcode : UInt8)
  | other (opcode : UInt8)
  deriving DecidableEq, Repr

/-- How the bytes after an opcode are read. -/
inductive Form where
  | load (kind : LoadKind)
  /-- A load whose slot is part of the opcode. -/
  | nearLoad (kind : LoadKind) (slot : UInt16)
  | typeCheck
  | getField
  | invoke
  | invokeInterface
  | invokeDynamic
  | leave
  | wide
  | tableSwitch
  | lookupSwitch
  /-- A number of operand bytes that do not matter. -/
  | plain (operands : Nat)
  deriving DecidableEq, Repr

/-- The form of each opcode; `none` for those that are not assigned. -/
def Form.of? (opcode : UInt8) : Option Form :=
  let n := opcode.toNat
  if n < 0x10 then some (plain 0)
  else if n = 0x10 then some (plain 1)
  else if n = 0x11 then some (plain 2)
  else if n = 0x12 then some (plain 1)
  else if n < 0x15 then some (plain 2)
  else if n < 0x1A then some (load (.ofRank (n - 0x15)))
  else if n < 0x2E then
    some (nearLoad (.ofRank ((n - 0x1A) / 4)) (UInt16.ofNat ((n - 0x1A) % 4)))
  else if n < 0x36 then some (plain 0)
  else if n < 0x3B then some (plain 1)
  else if n < 0x84 then some (plain 0)
  else if n = 0x84 then some (plain 2)
  else if n < 0x99 then some (plain 0)
  else if n < 0xA9 then some (plain 2)
  else if n = 0xA9 then some (plain 1)
  else if n = 0xAA then some tableSwitch
  else if n = 0xAB then some lookupSwitch
  else if n < 0xB2 then some leave
  else if n < 0xB4 then some (plain 2)
  else if n = 0xB4 then some getField
  else if n = 0xB5 then some (plain 2)
  else if n < 0xB9 then some invoke
  else if n = 0xB9 then some invokeInterface
  else if n = 0xBA then some invokeDynamic
  else if n = 0xBB then some (plain 2)
  else if n = 0xBC then some (plain 1)
  else if n = 0xBD then some (plain 2)
  else if n < 0xC0 then some (plain 0)
  else if n < 0xC2 then some typeCheck
  else if n < 0xC4 then some (plain 0)
  else if n = 0xC4 then some wide
  else if n = 0xC5 then some (plain 3)
  else if n < 0xC8 then some (plain 2)
  else if n < 0xCA then some (plain 4)
  else if n = 0xCA then some (plain 0)
  else if n < 0xFE then none
  else some (plain 0)

namespace Instruction

/-- The load of the receiver, the first instruction of any forwarding body. -/
def isReceiverLoad (i : Instruction) : Bool := i == load .reference 0

/-- Bytes between the opcode of a switch at `offset` and its operands, which
start at a multiple of four from the start of the body. -/
def padding (offset : Nat) : Nat := (4 - (offset + 1) % 4) % 4

def signed (w : UInt32) : Int := w.toInt32.toInt

/-- A widened instruction: its own opcode, then a slot of two bytes. -/
def readWide : Reader Instruction := do
  let opcode ← Reader.u1
  let slot ← Reader.u2
  match Form.of? opcode with
  | some (.load kind) => pure (load kind slot)
  | _ =>
    if opcode = 0x84 then do
      Reader.skip 2
      pure (other opcode)
    else if (0x36 ≤ opcode.toNat ∧ opcode.toNat < 0x3B) ∨ opcode = 0xA9 then
      pure (other opcode)
    else Reader.fail (.badOpcode opcode)

/-- What follows `opcode`, which stands at `offset` in the body. -/
def readOperands (pool : Pool) (offset : Nat) (opcode : UInt8) :
    Reader Instruction :=
  match Form.of? opcode with
  | some (.load kind) => do
    let slot ← Reader.u1
    pure (load kind slot.toUInt16)
  | some (.nearLoad kind slot) => pure (load kind slot)
  | some .typeCheck => do
    let index ← Reader.u2
    let name ← Reader.ofExcept (pool.className index)
    pure (typeCheck opcode name)
  | some .getField => do
    let index ← Reader.u2
    let field ← Reader.ofExcept (pool.member index)
    pure (getField field)
  | some .invoke => do
    let index ← Reader.u2
    let method ← Reader.ofExcept (pool.member index)
    pure (invoke opcode method)
  | some .invokeInterface => do
    let index ← Reader.u2
    let method ← Reader.ofExcept (pool.member index)
    Reader.skip 2
    pure (invoke opcode method)
  | some .invokeDynamic => do
    let index ← Reader.u2
    let (bootstrap, name, descriptor) ← Reader.ofExcept (pool.invokeDynamic index)
    Reader.skip 2
    pure (invokeDynamic bootstrap name descriptor)
  | some .leave => pure (leave opcode)
  | some .wide => readWide
  | some .tableSwitch => do
    Reader.skip (padding offset)
    Reader.skip 4
    let low ← Reader.u4
    let high ← Reader.u4
    Reader.skip ((signed high - signed low + 1).toNat * 4)
    pure (other opcode)
  | some .lookupSwitch => do
    Reader.skip (padding offset)
    Reader.skip 4
    let pairs ← Reader.u4
    Reader.skip ((signed pairs).toNat * 8)
    pure (other opcode)
  | some (.plain operands) => do
    Reader.skip operands
    pure (other opcode)
  | none => Reader.fail (.badOpcode opcode)

end Instruction
end ClassFile
end Lineage
