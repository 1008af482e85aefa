import Lineage.ClassFile.Body

/-!
The instruction set, as code arrays encode it.

An instruction is told by its mnemonic.  The opcodes of the mnemonics follow each
other, but for the last two.  Behind the opcode come operands: for most mnemonics a
fixed number of bytes, for a widened instruction its own opcode and a slot of two
bytes, and for a switch its table.  A table starts at an offset that is a multiple of
four from the start of the code, so what comes before it depends on where the switch
stands.

Which bytes are padding, reserved or an operand that decoding passes over does not
matter, and a table whose count is not positive is empty.
-/

namespace Lineage
namespace ClassFile

/-- The instructions by name, in the order of their opcodes. -/
inductive Mnemonic where
  | nop | aconstNull
  | iconstM1 | iconst0 | iconst1 | iconst2 | iconst3 | iconst4 | iconst5
  | lconst0 | lconst1 | fconst0 | fconst1 | fconst2 | dconst0 | dconst1
  | bipush | sipush | ldc | ldcW | ldc2W
  | iload | lload | fload | dload | aload
  | iload0 | iload1 | iload2 | iload3 | lload0 | lload1 | lload2 | lload3
  | fload0 | fload1 | fload2 | fload3 | dload0 | dload1 | dload2 | dload3
  | aload0 | aload1 | aload2 | aload3
  | iaload | laload | faload | daload | aaload | baload | caload | saload
  | istore | lstore | fstore | dstore | astore
  | istore0 | istore1 | istore2 | istore3 | lstore0 | lstore1 | lstore2 | lstore3
  | fstore0 | fstore1 | fstore2 | fstore3 | dstore0 | dstore1 | dstore2 | dstore3
  | astore0 | astore1 | astore2 | astore3
  | iastore | lastore | fastore | dastore | aastore | bastore | castore | sastore
  | pop | pop2 | dup | dupX1 | dupX2 | dup2 | dup2X1 | dup2X2 | swap
  | iadd | ladd | fadd | dadd | isub | lsub | fsub | dsub | imul | lmul | fmul | dmul
  | idiv | ldiv | fdiv | ddiv | irem | lrem | frem | drem | ineg | lneg | fneg | dneg
  | ishl | lshl | ishr | lshr | iushr | lushr | iand | land | ior | lor | ixor | lxor
  | iinc
  | i2l | i2f | i2d | l2i | l2f | l2d | f2i | f2l | f2d | d2i | d2l | d2f | i2b | i2c | i2s
  | lcmp | fcmpl | fcmpg | dcmpl | dcmpg
  | ifeq | ifne | iflt | ifge | ifgt | ifle
  | ifIcmpeq | ifIcmpne | ifIcmplt | ifIcmpge | ifIcmpgt | ifIcmple | ifAcmpeq | ifAcmpne
  | goto | jsr | ret | tableswitch | lookupswitch
  | ireturn | lreturn | freturn | dreturn | areturn | vreturn
  | getstatic | putstatic | getfield | putfield
  | invokevirtual | invokespecial | invokestatic | invokeinterface | invokedynamic
  | new | newarray | anewarray | arraylength | athrow | checkcast | instanceof
  | monitorenter | monitorexit | wide | multianewarray | ifnull | ifnonnull | gotoW | jsrW
  | breakpoint | impdep1 | impdep2
  deriving DecidableEq, Repr

namespace Mnemonic

/-- Opcodes are counted through from `nop` to `breakpoint`; the last two are at the
end of the range. -/
def opcode : Mnemonic → UInt8
  | impdep1 => 0xFE
  | impdep2 => 0xFF
  | m => UInt8.ofNat m.ctorIdx

/-- How many bytes the operands take; `none` if this is not always the same. -/
def operandCount : Mnemonic → Option Nat
  | bipush | ldc | iload | lload | fload | dload | aload
  | istore | lstore | fstore | dstore | astore | ret | newarray => some 1
  | sipush | ldcW | ldc2W | iinc | ifeq | ifne | iflt | ifge | ifgt | ifle
  | ifIcmpeq | ifIcmpne | ifIcmplt | ifIcmpge | ifIcmpgt | ifIcmple | ifAcmpeq | ifAcmpne
  | goto | jsr | getstatic | putstatic | getfield | putfield
  | invokevirtual | invokespecial | invokestatic | new | anewarray | checkcast | instanceof
  | ifnull | ifnonnull => some 2
  | multianewarray => some 3
  | invokeinterface | invokedynamic | gotoW | jsrW => some 4
  | tableswitch | lookupswitch | wide => none
  | _ => some 0

/-- The instructions that can be given a slot of two bytes and are otherwise as they
are; `iinc` is widened in two places. -/
def widening : List Mnemonic :=
  [iload, lload, fload, dload, aload, istore, lstore, fstore, dstore, astore, ret]

/-- What shapes are told by. -/
inductive Role where
  /-- A load from the slot that the operand is. -/
  | loads (kind : LoadKind)
  | loadsNear (kind : LoadKind) (slot : UInt16)
  | checksType
  | readsField
  | calls
  | callsDynamically
  | leaves
  | other
  deriving DecidableEq, Repr

def role : Mnemonic → Role
  | iload => .loads .int
  | lload => .loads .long
  | fload => .loads .float
  | dload => .loads .double
  | aload => .loads .reference
  | iload0 => .loadsNear .int 0
  | iload1 => .loadsNear .int 1
  | iload2 => .loadsNear .int 2
  | iload3 => .loadsNear .int 3
  | lload0 => .loadsNear .long 0
  | lload1 => .loadsNear .long 1
  | lload2 => .loadsNear .long 2
  | lload3 => .loadsNear .long 3
  | fload0 => .loadsNear .float 0
  | fload1 => .loadsNear .float 1
  | fload2 => .loadsNear .float 2
  | fload3 => .loadsNear .float 3
  | dload0 => .loadsNear .double 0
  | dload1 => .loadsNear .double 1
  | dload2 => .loadsNear .double 2
  | dload3 => .loadsNear .double 3
  | aload0 => .loadsNear .reference 0
  | aload1 => .loadsNear .reference 1
  | aload2 => .loadsNear .reference 2
  | aload3 => .loadsNear .reference 3
  | checkcast | instanceof => .checksType
  | getfield => .readsField
  | invokevirtual | invokespecial | invokestatic | invokeinterface => .calls
  | invokedynamic => .callsDynamically
  | ireturn | lreturn | freturn | dreturn | areturn | vreturn => .leaves
  | _ => .other

/-- The instruction with these operands, as shapes know it.  An index into the pool
is in the first two of them and has to lead to a constant of the right kind. -/
def image (pool : Pool) (m : Mnemonic) (operands : Bytes) : Except ReadError Instruction :=
  match m.role, operands with
  | .loads kind, slot :: _ => .ok (.load kind slot.toUInt16)
  | .loadsNear kind slot, _ => .ok (.load kind slot)
  | .checksType, high :: low :: _ =>
    (pool.className (Bytes.toUInt16 high low)).map (.typeCheck m.opcode)
  | .readsField, high :: low :: _ => (pool.member (Bytes.toUInt16 high low)).map .getField
  | .calls, high :: low :: _ => (pool.member (Bytes.toUInt16 high low)).map (.invoke m.opcode)
  | .callsDynamically, high :: low :: _ =>
    (pool.invokeDynamic (Bytes.toUInt16 high low)).map fun site =>
      .invokeDynamic site.1 site.2.1 site.2.2
  | .leaves, _ => .ok (.leave m.opcode)
  | _, _ => .ok (.other m.opcode)

end Mnemonic

/-- An instruction as it is laid out. -/
inductive RawInstruction where
  | fixed (m : Mnemonic) (operands : Bytes)
  | wide (m : Mnemonic) (slot : UInt16)
  | wideIncrement (slot amount : UInt16)
  /-- One target for each number from `low` to `high`. -/
  | tableSwitch (padding : Bytes) (otherwise low high : UInt32) (targets : List UInt32)
  /-- A target for each of `count` numbers. -/
  | lookupSwitch (padding : Bytes) (otherwise count : UInt32) (cases : List (UInt32 × UInt32))
  deriving DecidableEq, Repr

namespace RawInstruction

def opcode : RawInstruction → UInt8
  | fixed m _ => m.opcode
  | wide _ _ | wideIncrement _ _ => Mnemonic.wide.opcode
  | tableSwitch _ _ _ _ _ => Mnemonic.tableswitch.opcode
  | lookupSwitch _ _ _ _ => Mnemonic.lookupswitch.opcode

/-- The bytes after the opcode. -/
def operands : RawInstruction → Bytes
  | fixed _ operands => operands
  | wide m slot => m.opcode :: Bytes.ofUInt16 slot
  | wideIncrement slot amount =>
    Mnemonic.iinc.opcode :: (Bytes.ofUInt16 slot ++ Bytes.ofUInt16 amount)
  | tableSwitch padding otherwise low high targets =>
    padding ++ (Bytes.ofUInt32 otherwise ++ (Bytes.ofUInt32 low ++
      (Bytes.ofUInt32 high ++ targets.flatMap Bytes.ofUInt32)))
  | lookupSwitch padding otherwise count cases =>
    padding ++ (Bytes.ofUInt32 otherwise ++ (Bytes.ofUInt32 count ++
      cases.flatMap fun c => Bytes.ofUInt32 c.1 ++ Bytes.ofUInt32 c.2))

def encode (i : RawInstruction) : Bytes := i.opcode :: i.operands

/-- Padding behind the opcode of a switch at `offset`: fewer than four bytes, after
which the table starts at a multiple of four. -/
def Pads (offset : Nat) (padding : Bytes) : Prop :=
  padding.length < 4 ∧ 4 ∣ offset + 1 + padding.length

/-- The instruction can stand at `offset`. -/
def FitsAt (offset : Nat) : RawInstruction → Prop
  | fixed m operands => m.operandCount = some operands.length
  | wide m _ => m ∈ Mnemonic.widening
  | wideIncrement _ _ => True
  | tableSwitch padding _ low high targets =>
    Pads offset padding ∧
      targets.length = (Instruction.signed high - Instruction.signed low + 1).toNat
  | lookupSwitch padding _ count cases =>
    Pads offset padding ∧ cases.length = (Instruction.signed count).toNat

instance (offset : Nat) (i : RawInstruction) : Decidable (i.FitsAt offset) :=
  match i with
  | fixed _ _ => inferInstanceAs (Decidable (_ = _))
  | wide _ _ => inferInstanceAs (Decidable (_ ∈ _))
  | wideIncrement _ _ => inferInstanceAs (Decidable True)
  | tableSwitch _ _ _ _ _ => inferInstanceAs (Decidable ((_ ∧ _) ∧ _ = _))
  | lookupSwitch _ _ _ _ => inferInstanceAs (Decidable ((_ ∧ _) ∧ _ = _))

/-- Each instruction fits where those before it end, the first one at `offset`. -/
def LaidOut (offset : Nat) : List RawInstruction → Prop
  | [] => True
  | i :: is => i.FitsAt offset ∧ LaidOut (offset + i.encode.length) is

instance decidableLaidOut (offset : Nat) (is : List RawInstruction) :
    Decidable (LaidOut offset is) :=
  match is with
  | [] => inferInstanceAs (Decidable True)
  | i :: is =>
    have := decidableLaidOut (offset + i.encode.length) is
    inferInstanceAs (Decidable (_ ∧ _))

/-- The instruction as shapes know it. -/
def image (pool : Pool) : RawInstruction → Except ReadError Instruction
  | fixed m operands => m.image pool operands
  | wide m slot =>
    match m.role with
    | .loads kind => .ok (.load kind slot)
    | _ => .ok (.other m.opcode)
  | wideIncrement _ _ => .ok (.other Mnemonic.iinc.opcode)
  | tableSwitch _ _ _ _ _ => .ok (.other Mnemonic.tableswitch.opcode)
  | lookupSwitch _ _ _ _ => .ok (.other Mnemonic.lookupswitch.opcode)

end RawInstruction
end ClassFile
end Lineage
