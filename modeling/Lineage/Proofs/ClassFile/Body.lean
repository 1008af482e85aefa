import Lineage.ClassFile.Body
import Lineage.Proofs.ClassFile.Reading

/-!
Decoding what instructions were spelled as.  The bytes of one instruction are
followed by those of the next, so a body is decoded instruction by instruction
wherever it starts.
-/

namespace Lineage
namespace ClassFile
namespace Instruction

open Reader (Reads Answers)

variable {pool : Pool}

/-- At `offset` of a body, `bytes` are an opcode and operands that are read as
`i`. -/
def Spells (pool : Pool) (offset : Nat) (bytes : Bytes) (i : Instruction) : Prop :=
  ∃ opcode operands, bytes = opcode :: operands ∧
    Reads (readOperands pool offset opcode) operands i

theorem decodeFrom_cons (offset : Nat) (opcode : UInt8) (operands : Bytes) :
    decodeFrom pool offset (opcode :: operands) =
      (readOperands pool offset opcode operands).bind fun read =>
        (decodeFrom pool (offset + 1 + (operands.length - read.2.length)) read.2).map
          (read.1 :: ·) := by
  rw [decodeFrom]
  split
  next e h => rw [h]; rfl
  next i rest h => dsimp only; rw [h]; rfl

theorem exists_of_decodeFrom_cons {offset : Nat} {opcode : UInt8} {operands : Bytes}
    {decoded : List Instruction} (h : decodeFrom pool offset (opcode :: operands) = .ok decoded) :
    ∃ i rest after, readOperands pool offset opcode operands = .ok (i, rest) ∧
      decodeFrom pool (offset + 1 + (operands.length - rest.length)) rest = .ok after ∧
      decoded = i :: after := by
  rw [decodeFrom_cons] at h
  cases hread : readOperands pool offset opcode operands with
  | error e =>
    rw [hread] at h
    cases h
  | ok read =>
    obtain ⟨i, rest⟩ := read
    rw [hread] at h
    change (decodeFrom pool (offset + 1 + (operands.length - rest.length)) rest).map (i :: ·)
      = .ok decoded at h
    cases hafter : decodeFrom pool (offset + 1 + (operands.length - rest.length)) rest with
    | error e =>
      rw [hafter] at h
      cases h
    | ok after =>
      rw [hafter] at h
      cases h
      exact ⟨i, rest, after, rfl, hafter, rfl⟩

/-- An instruction is decoded, and then the rest from where it ends. -/
theorem decodeFrom_of_answers {offset : Nat} {opcode : UInt8} {operands : Bytes}
    {e : Except ReadError Instruction}
    (h : Answers (readOperands pool offset opcode) operands e) (rest : Bytes) :
    decodeFrom pool offset (opcode :: operands ++ rest) =
      e.bind fun i => (decodeFrom pool (offset + (opcode :: operands).length) rest).map (i :: ·) := by
  have hnext : offset + 1 + ((operands ++ rest).length - rest.length)
      = offset + (opcode :: operands).length := by
    rw [List.length_append, Nat.add_sub_cancel, List.length_cons]
    omega
  rw [List.cons_append, decodeFrom_cons, h rest, ← hnext]
  cases e <;> rfl

theorem decodeFrom_append {offset : Nat} {bytes : Bytes} {i : Instruction}
    (h : Spells pool offset bytes i) (rest : Bytes) :
    decodeFrom pool offset (bytes ++ rest)
      = (decodeFrom pool (offset + bytes.length) rest).map (i :: ·) := by
  obtain ⟨opcode, operands, rfl, hread⟩ := h
  exact decodeFrom_of_answers (.of_reads hread) rest

theorem decodeFrom_flatMap {α : Type} {encode : α → Bytes} {value : α → Instruction}
    {xs : List α} (h : ∀ x ∈ xs, ∀ offset, Spells pool offset (encode x) (value x)) :
    ∀ offset, decodeFrom pool offset (xs.flatMap encode) = .ok (xs.map value) := by
  induction xs with
  | nil =>
    intro offset
    rw [List.flatMap_nil, decodeFrom]
    rfl
  | cons x xs ih =>
    intro offset
    have hx : Spells pool offset (encode x) (value x) := h x List.mem_cons_self offset
    rw [List.flatMap_cons, decodeFrom_append hx, ih fun y hy => h y (List.mem_cons_of_mem x hy)]
    rfl

end Instruction
end ClassFile
end Lineage
