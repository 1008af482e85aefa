import Lineage.Assembly.Code
import Lineage.Proofs.Assembly.Constants
import Lineage.Proofs.ClassFile.Body

/-!
Decoding assembled bodies.  Each step is one instruction, and it is decoded to
what it was written for as long as the pool has the constants that it asked
for.
-/

namespace Lineage
namespace Assembly

open ClassFile (Constant Form Instruction LoadKind)
open ClassFile.Instruction (Spells)
open ClassFile.Reader (Reads)

/-- The opcodes that the format defines without operands: constants, loads from
the first four slots, array loads, stores to the first four slots up to
arithmetic, conversions and comparisons, returns, array length and throw,
monitors, and the three reserved ones. -/
def isBare (opcode : UInt8) : Bool :=
  let spans : List (Nat × Nat) := [(0x00, 0x0F), (0x1A, 0x35), (0x3B, 0x83), (0x85, 0x98),
    (0xAC, 0xB1), (0xBE, 0xBF), (0xC2, 0xC3), (0xCA, 0xCA), (0xFE, 0xFF)]
  spans.any fun span => span.1 ≤ opcode.toNat && opcode.toNat ≤ span.2

/-- The instruction that an opcode without operands is. -/
def bareInstruction (opcode : UInt8) : Instruction :=
  let n := opcode.toNat
  if 0x1A ≤ n ∧ n ≤ 0x2D then
    .load (.ofRank ((n - 0x1A) / 4)) (UInt16.ofNat ((n - 0x1A) % 4))
  else if 0xAC ≤ n ∧ n ≤ 0xB1 then .leave opcode
  else .other opcode

namespace CodeStep

/-- The opcodes of the four calls of a known method. -/
def callOpcodes : List UInt8 := [0xB6, 0xB7, 0xB8, 0xB9]

/-- A raw byte takes no operands, and a call is one of the four. -/
def isRegular : CodeStep → Bool
  | op opcode => isBare opcode
  | invoke opcode _ => callOpcodes.contains opcode
  | _ => true

/-- The instruction that the step writes, when `sites` lambda sites come before
it in the class. -/
def instruction (sites : Nat) : CodeStep → Instruction
  | op opcode => bareInstruction opcode
  | load kind slot => .load kind slot
  | checkCast name => .typeCheck 0xC0 name
  | instanceOf name => .typeCheck 0xC1 name
  | getField field => .getField field
  | invoke opcode method => .invoke opcode method
  | lambda site => .invokeDynamic (UInt16.ofNat sites) site.name site.descriptor

end CodeStep

/-- The instructions of a body. -/
def instructions (sites : Nat) (steps : List CodeStep) : List Instruction :=
  (numbered sites steps).map fun s => s.2.instruction s.1

/-! ## One step -/

/-- The instruction of a form that calls for no operands. -/
def bareForm? (opcode : UInt8) : Form → Option Instruction
  | .nearLoad kind slot => some (.load kind slot)
  | .leave => some (.leave opcode)
  | .plain 0 => some (.other opcode)
  | _ => none

/-- The table of forms has every opcode without operands as such. -/
theorem bareForm?_of_isBare {opcode : UInt8} (h : isBare opcode = true) :
    (Form.of? opcode).bind (bareForm? opcode) = some (bareInstruction opcode) := by
  have htable : ∀ n : Fin 256, isBare (UInt8.ofNat n) = true →
      (Form.of? (UInt8.ofNat n)).bind (bareForm? (UInt8.ofNat n))
        = some (bareInstruction (UInt8.ofNat n)) := by decide +kernel
  have hopcode : UInt8.ofNat opcode.toNat = opcode := UInt8.ofNat_toNat
  have hn := htable ⟨opcode.toNat, opcode.toNat_lt⟩
  rw [hopcode] at hn
  exact hn h

theorem reads_bare (pool : ClassFile.Pool) (offset : Nat) {opcode : UInt8}
    (h : isBare opcode = true) :
    Reads (Instruction.readOperands pool offset opcode) [] (bareInstruction opcode) := by
  have hform := bareForm?_of_isBare h
  unfold Instruction.readOperands
  cases hof : Form.of? opcode with
  | none =>
    rw [hof] at hform
    cases hform
  | some form =>
    rw [hof] at hform
    change bareForm? opcode form = some (bareInstruction opcode) at hform
    unfold bareForm? at hform
    split at hform
    next =>
      rw [← Option.some.inj hform]
      exact .pure _
    next =>
      rw [← Option.some.inj hform]
      exact .pure _
    next =>
      rw [← Option.some.inj hform]
      exact .bind_nil (.skip rfl) (.pure _)
    next => cases hform

theorem of?_nearLoad (kind : LoadKind) {slot : UInt16} (h : slot.toNat ≤ 3) :
    Form.of? (UInt8.ofNat (0x1A + kind.rank * 4 + slot.toNat)) = some (.nearLoad kind slot) := by
  have hslot : slot = 0 ∨ slot = 1 ∨ slot = 2 ∨ slot = 3 := by
    simp only [← UInt16.toNat_inj]
    show slot.toNat = 0 ∨ slot.toNat = 1 ∨ slot.toNat = 2 ∨ slot.toNat = 3
    omega
  obtain rfl | rfl | rfl | rfl := hslot <;> cases kind <;> rfl

theorem of?_load (kind : LoadKind) :
    Form.of? (UInt8.ofNat (0x15 + kind.rank)) = some (.load kind) := by
  cases kind <;> rfl

theorem spells_encodeLoad (pool : ClassFile.Pool) (offset : Nat) (kind : LoadKind)
    (slot : UInt16) : Spells pool offset (CodeStep.encodeLoad kind slot) (.load kind slot) := by
  unfold CodeStep.encodeLoad
  by_cases hnear : slot.toNat ≤ 3
  · rw [if_pos hnear]
    refine ⟨_, _, rfl, ?_⟩
    unfold Instruction.readOperands
    rw [of?_nearLoad kind hnear]
    exact .pure _
  rw [if_neg hnear]
  by_cases hbyte : slot.toNat < 256
  · have hslot : slot.toUInt8.toUInt16 = slot := by
      apply UInt16.toNat_inj.mp
      rw [UInt8.toNat_toUInt16, UInt16.toNat_toUInt8]
      omega
    rw [if_pos hbyte]
    refine ⟨_, _, rfl, ?_⟩
    unfold Instruction.readOperands
    rw [of?_load]
    refine (Reads.u1 slot.toUInt8).bind_end ?_
    rw [hslot]
    exact .pure _
  · rw [if_neg hbyte]
    refine ⟨_, _, rfl, ?_⟩
    show Reads Instruction.readWide _ _
    refine (Reads.u1 _).bind <| (Reads.u2 slot).bind_end ?_
    rw [of?_load]
    exact .pure _

theorem spells_encode {pool : SymbolPool} (hpool : pool.Loadable) {sites : Nat} {s : CodeStep}
    (hregular : s.isRegular = true) (hrequests : s.requests sites ⊆ pool.symbols) (offset : Nat) :
    Spells pool.loaded offset (s.encode pool sites) (s.instruction sites) := by
  cases s with
  | op opcode => exact ⟨opcode, [], rfl, reads_bare pool.loaded offset hregular⟩
  | load kind slot => exact spells_encodeLoad pool.loaded offset kind slot
  | checkCast name =>
    have hname := SymbolPool.className_index hpool (hrequests List.mem_cons_self)
    exact ⟨0xC0, _, rfl, (Reads.u2 _).bind_end <| .bind_nil (.ofExcept hname) (.pure _)⟩
  | instanceOf name =>
    have hname := SymbolPool.className_index hpool (hrequests List.mem_cons_self)
    exact ⟨0xC1, _, rfl, (Reads.u2 _).bind_end <| .bind_nil (.ofExcept hname) (.pure _)⟩
  | getField field =>
    have hfield := SymbolPool.member_index hpool (hrequests List.mem_cons_self)
    exact ⟨0xB4, _, rfl, (Reads.u2 _).bind_end <| .bind_nil (.ofExcept hfield) (.pure _)⟩
  | invoke opcode method =>
    have hmethod := SymbolPool.member_index hpool (hrequests List.mem_cons_self)
    refine ⟨opcode, _, rfl, ?_⟩
    have hopcode : opcode = 0xB6 ∨ opcode = 0xB7 ∨ opcode = 0xB8 ∨ opcode = 0xB9 := by
      simpa [CodeStep.isRegular, CodeStep.callOpcodes] using hregular
    obtain rfl | rfl | rfl | rfl := hopcode
    · exact (Reads.u2 _).bind <| .bind_nil (.ofExcept hmethod) (.pure _)
    · exact (Reads.u2 _).bind <| .bind_nil (.ofExcept hmethod) (.pure _)
    · exact (Reads.u2 _).bind <| .bind_nil (.ofExcept hmethod) (.pure _)
    · have hcount : Reads (ClassFile.Reader.skip 2) [CodeStep.callCount method, 0] () := .skip rfl
      exact (Reads.u2 _).bind <| .bind_nil (.ofExcept hmethod) <| hcount.bind_end (.pure _)
  | lambda site =>
    have hsite : site.site sites ∈ pool.symbols :=
      hrequests (List.mem_append_right _ List.mem_cons_self)
    have hzeros : Reads (ClassFile.Reader.skip 2) [0, 0] () := .skip rfl
    have hcall := SymbolPool.invokeDynamic_index hpool hsite
    exact ⟨0xBA, _, rfl, (Reads.u2 _).bind <| .bind_nil (.ofExcept hcall) <|
      hzeros.bind_end (.pure _)⟩

/-! ## A whole body -/

theorem mem_of_mem_numbered {sites : Nat} {steps : List CodeStep} {s : Nat × CodeStep}
    (h : s ∈ numbered sites steps) : s.2 ∈ steps := by
  induction steps generalizing sites with
  | nil => cases h
  | cons step steps ih =>
    rw [numbered, List.mem_cons] at h
    obtain rfl | h := h
    · exact List.mem_cons_self
    · exact List.mem_cons_of_mem step (ih h)

theorem decode_encodeBody {pool : SymbolPool} (hpool : pool.Loadable) {sites : Nat}
    {steps : List CodeStep} (hregular : ∀ s ∈ steps, s.isRegular = true)
    (hrequests : bodyRequests sites steps ⊆ pool.symbols) :
    Instruction.decode pool.loaded (encodeBody pool sites steps)
      = .ok (instructions sites steps) := by
  refine ClassFile.Instruction.decodeFrom_flatMap (fun s hs offset => ?_) 0
  have hstep : s.2.requests s.1 ⊆ pool.symbols := fun r hr =>
    hrequests (List.mem_flatMap.mpr ⟨s, hs, hr⟩)
  exact spells_encode hpool (hregular s.2 (mem_of_mem_numbered hs)) hstep offset

end Assembly
end Lineage
