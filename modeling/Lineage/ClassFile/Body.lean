import Lineage.ClassFile.Instruction

/-!
Decoding a whole body.  Instructions follow each other without gaps; the offset
of each is carried along because the operands of switches are aligned to it.
-/

namespace Lineage
namespace ClassFile
namespace Instruction

open Reader (Consumes)

theorem consumes_readWide : Consumes readWide := by
  unfold readWide
  refine .bind .u1 fun opcode => .bind .u2 fun slot => ?_
  split
  · exact .pure _
  · split
    · exact .bind (.skip 2) fun _ => .pure _
    · split
      · exact .pure _
      · exact .fail _

theorem consumes_readOperands (pool : Pool) (offset : Nat) (opcode : UInt8) :
    Consumes (readOperands pool offset opcode) := by
  unfold readOperands
  split
  · exact .bind .u1 fun _ => .pure _
  · exact .pure _
  · exact .bind .u2 fun _ => .bind (.ofExcept _) fun _ => .pure _
  · exact .bind .u2 fun _ => .bind (.ofExcept _) fun _ => .pure _
  · exact .bind .u2 fun _ => .bind (.ofExcept _) fun _ => .pure _
  · exact .bind .u2 fun _ => .bind (.ofExcept _) fun _ => .bind (.skip 2) fun _ => .pure _
  · exact .bind .u2 fun _ => .bind (.ofExcept _) fun _ => .bind (.skip 2) fun _ => .pure _
  · exact .pure _
  · exact consumes_readWide
  · exact .bind (.skip _) fun _ => .bind (.skip 4) fun _ => .bind .u4 fun _ =>
      .bind .u4 fun _ => .bind (.skip _) fun _ => .pure _
  · exact .bind (.skip _) fun _ => .bind (.skip 4) fun _ => .bind .u4 fun _ =>
      .bind (.skip _) fun _ => .pure _
  · exact .bind (.skip _) fun _ => .pure _
  · exact .fail _

/-- The instructions of a body from `offset` on. -/
def decodeFrom (pool : Pool) (offset : Nat) :
    Bytes → Except ReadError (List Instruction)
  | [] => .ok []
  | opcode :: operands =>
    match h : readOperands pool offset opcode operands with
    | .error e => .error e
    | .ok (instruction, rest) =>
      have := consumes_readOperands pool offset opcode h
      let next := offset + 1 + (operands.length - rest.length)
      (decodeFrom pool next rest).map (instruction :: ·)
  termination_by bytes => bytes.length

def decode (pool : Pool) (code : Bytes) : Except ReadError (List Instruction) :=
  decodeFrom pool 0 code

end Instruction
end ClassFile
end Lineage
