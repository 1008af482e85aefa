import Lineage.Proofs.ClassFile.Body
import Lineage.Proofs.ClassFile.InstructionSet

/-!
Decoding is exact.

The table of forms is checked against the instruction set once, opcode by opcode.
Then what is laid out is decoded instruction by instruction, to the images of the
instructions up to the first one without an image; and what is decoded was laid out.
Offsets only matter for the padding of switches, so bodies whose length is a multiple
of four can be put in front of any other.
-/

namespace Lineage
namespace ClassFile

open Reader (Reads Answers Takes)

/-! ## The table of forms -/

namespace Mnemonic

/-- The form of an instruction with `n` operand bytes. -/
def Role.form : Role → (n : Nat) → Form
  | loads kind, _ => .load kind
  | loadsNear kind slot, _ => .nearLoad kind slot
  | checksType, _ => .typeCheck
  | readsField, _ => .getField
  | calls, 2 => .invoke
  | calls, _ => .invokeInterface
  | callsDynamically, _ => .invokeDynamic
  | leaves, _ => .leave
  | other, n => .plain n

/-- The numbers of operand bytes that go with the role. -/
def Role.takes : Role → Nat → Bool
  | loads _, n => n == 1
  | checksType, n | readsField, n => n == 2
  | calls, n => n == 2 || n == 4
  | callsDynamically, n => n == 4
  | loadsNear _ _, n | leaves, n => n == 0
  | other, _ => true

theorem form_opcode_all (m : Mnemonic) :
    (m.operandCount.all fun n =>
      Form.of? m.opcode == some (m.role.form n) && m.role.takes n) = true := by
  cases m <;> rfl

theorem form_opcode {m : Mnemonic} {n : Nat} (h : m.operandCount = some n) :
    Form.of? m.opcode = some (m.role.form n) ∧ m.role.takes n = true := by
  have hall := m.form_opcode_all
  rw [h, Option.all_some, Bool.and_eq_true, beq_iff_eq] at hall
  exact hall

/-- No opcode has a form without being that of an instruction. -/
theorem exists_opcode_eq {opcode : UInt8} (h : (Form.of? opcode).isSome) :
    ∃ m : Mnemonic, m.opcode = opcode := by
  have hlast : ∀ n : Fin 256, (Form.of? (UInt8.ofNat n.val)).isSome →
      n.val < 203 ∨ n.val = 0xFE ∨ n.val = 0xFF := by decide +kernel
  have hcounted : ∀ n : Fin 203, (Mnemonic.ofNat n.val).opcode = UInt8.ofNat n.val := by
    decide +kernel
  have hopcode : UInt8.ofNat opcode.toNat = opcode := UInt8.ofNat_toNat
  rw [← hopcode] at h ⊢
  obtain hlt | heq | heq := hlast ⟨opcode.toNat, opcode.toNat_lt⟩ h
  · exact ⟨_, hcounted ⟨opcode.toNat, hlt⟩⟩
  · exact ⟨impdep1, by rw [show opcode.toNat = 0xFE from heq]; rfl⟩
  · exact ⟨impdep2, by rw [show opcode.toNat = 0xFF from heq]; rfl⟩

theorem eq_of_operandCount_eq_none {m : Mnemonic} (h : m.operandCount = none) :
    m = tableswitch ∨ m = lookupswitch ∨ m = wide := by
  cases m <;> first | decide | cases h

/-- The widened opcodes that `readWide` answers to are those of `widening`. -/
theorem exists_widening {opcode : UInt8}
    (h : (Form.of? opcode matches some (.load _)) ∨
      (0x36 ≤ opcode.toNat ∧ opcode.toNat < 0x3B) ∨ opcode = 0xA9) :
    ∃ m ∈ widening, m.opcode = opcode := by
  have hall : ∀ n : Fin 256,
      (Form.of? (UInt8.ofNat n.val) matches some (.load _)) ∨
        (0x36 ≤ n.val ∧ n.val < 0x3B) ∨ UInt8.ofNat n.val = 0xA9 →
      ∃ m ∈ widening, m.opcode = UInt8.ofNat n.val := by decide +kernel
  have hopcode := hall ⟨opcode.toNat, opcode.toNat_lt⟩
  rw [UInt8.ofNat_toNat] at hopcode
  exact hopcode h

end Mnemonic

/-! ## One instruction -/

namespace RawInstruction

open Instruction (readOperands readWide decodeFrom decode decodeFrom_cons
  exists_of_decodeFrom_cons decodeFrom_of_answers)

variable {pool : Pool} {offset : Nat}

theorem length_of_pads {padding : Bytes} (h : Pads offset padding) :
    padding.length = Instruction.padding offset := by
  obtain ⟨hlt, hdvd⟩ := h
  unfold Instruction.padding
  omega

theorem pads_of_length {padding : Bytes} (h : padding.length = Instruction.padding offset) :
    Pads offset padding := by
  unfold Instruction.padding at h
  constructor <;> omega

theorem length_flatMap_of_forall {α : Type} {encode : α → Bytes} {n : Nat} (xs : List α)
    (h : ∀ x, (encode x).length = n) : (xs.flatMap encode).length = xs.length * n := by
  induction xs with
  | nil => simp
  | cons x xs ih => rw [List.flatMap_cons, List.length_append, h, ih, List.length_cons,
      Nat.succ_mul, Nat.add_comm]

theorem answers_fixed {m : Mnemonic} {operands : Bytes}
    (h : m.operandCount = some operands.length) :
    Answers (readOperands pool offset m.opcode) operands (m.image pool operands) := by
  obtain ⟨hform, htakes⟩ := Mnemonic.form_opcode h
  have hindex (high low : UInt8) : Reads Reader.u2 [high, low] (Bytes.toUInt16 high low) :=
    fun _ => rfl
  unfold readOperands Mnemonic.image
  rw [hform]
  cases hrole : m.role with
  | loads kind =>
    rw [hrole] at htakes
    match operands, htakes with
    | [slot], _ => exact .of_reads ((Reads.u1 slot).bind_end (.pure _))
  | loadsNear kind slot =>
    rw [hrole] at htakes
    match operands, htakes with
    | [], _ => exact .of_reads (.pure _)
  | checksType =>
    rw [hrole] at htakes
    match operands, htakes with
    | [high, low], _ => exact .after_end (hindex high low) (.lookup _ fun _ => .pure _)
  | readsField =>
    rw [hrole] at htakes
    match operands, htakes with
    | [high, low], _ => exact .after_end (hindex high low) (.lookup _ fun _ => .pure _)
  | calls =>
    rw [hrole] at htakes
    match operands, htakes with
    | [high, low], _ => exact .after_end (hindex high low) (.lookup _ fun _ => .pure _)
    | [high, low, count, zero], _ =>
      have hskip : Reads (Reader.skip 2) [count, zero] () := .skip rfl
      exact .after (hindex high low) (.lookup _ fun _ => hskip.bind_end (.pure _))
  | callsDynamically =>
    rw [hrole] at htakes
    match operands, htakes with
    | [high, low, zero, zero'], _ =>
      have hskip : Reads (Reader.skip 2) [zero, zero'] () := .skip rfl
      exact .after (hindex high low) (.lookup _ fun (_, _, _) => hskip.bind_end (.pure _))
  | leaves =>
    rw [hrole] at htakes
    match operands, htakes with
    | [], _ => exact .of_reads (.pure _)
  | other =>
    exact .of_reads ((Reads.skip rfl).bind_end (.pure _))

theorem answers_wide {m : Mnemonic} (h : m ∈ Mnemonic.widening) (slot : UInt16) :
    Answers readWide (m.opcode :: Bytes.ofUInt16 slot) ((wide m slot).image pool) := by
  simp only [Mnemonic.widening, List.mem_cons, List.not_mem_nil, or_false] at h
  obtain rfl | rfl | rfl | rfl | rfl | rfl | rfl | rfl | rfl | rfl | rfl := h <;>
    exact .of_reads ((Reads.u1 _).bind <| (Reads.u2 slot).bind_end (.pure _))

/-- What fits at an offset is decoded there to its image, if it has one. -/
theorem answers_of_fits {i : RawInstruction} (h : i.FitsAt offset) :
    Answers (readOperands pool offset i.opcode) i.operands (i.image pool) := by
  cases i with
  | fixed m operands => exact answers_fixed h
  | wide m slot => exact answers_wide h slot
  | wideIncrement slot amount =>
    have hamount : Reads (Reader.skip 2) (Bytes.ofUInt16 amount) () := .skip rfl
    exact .of_reads ((Reads.u1 _).bind <| (Reads.u2 slot).bind <| hamount.bind_end (.pure _))
  | tableSwitch padding otherwise low high targets =>
    obtain ⟨hpads, htargets⟩ := h
    have hlength : (targets.flatMap Bytes.ofUInt32).length =
        (Instruction.signed high - Instruction.signed low + 1).toNat * 4 := by
      rw [length_flatMap_of_forall targets Bytes.length_ofUInt32, htargets]
    have hotherwise : Reads (Reader.skip 4) (Bytes.ofUInt32 otherwise) () := .skip rfl
    exact .of_reads <| (Reads.skip (length_of_pads hpads)).bind <| hotherwise.bind <|
      (Reads.u4 low).bind <| (Reads.u4 high).bind <| (Reads.skip hlength).bind_end (.pure _)
  | lookupSwitch padding otherwise count cases =>
    obtain ⟨hpads, hcases⟩ := h
    have hpair : ∀ c : UInt32 × UInt32,
        (Bytes.ofUInt32 c.1 ++ Bytes.ofUInt32 c.2).length = 8 := fun _ => rfl
    have hlength : (cases.flatMap fun c => Bytes.ofUInt32 c.1 ++ Bytes.ofUInt32 c.2).length =
        (Instruction.signed count).toNat * 8 := by
      rw [length_flatMap_of_forall cases hpair, hcases]
    have hotherwise : Reads (Reader.skip 4) (Bytes.ofUInt32 otherwise) () := .skip rfl
    exact .of_reads <| (Reads.skip (length_of_pads hpads)).bind <| hotherwise.bind <|
      (Reads.u4 count).bind <| (Reads.skip hlength).bind_end (.pure _)

/-! ### What was decoded fits -/

theorem takes_operandCount {m : Mnemonic} {n : Nat} (h : m.operandCount = some n) :
    Takes (readOperands pool offset m.opcode) n := by
  obtain ⟨hform, htakes⟩ := Mnemonic.form_opcode h
  unfold readOperands
  rw [hform]
  cases hrole : m.role with
  | loads kind =>
    rw [hrole] at htakes
    obtain rfl : n = 1 := by simpa [Mnemonic.Role.takes] using htakes
    exact .bind .u1 fun _ => .pure _
  | loadsNear kind slot =>
    rw [hrole] at htakes
    obtain rfl : n = 0 := by simpa [Mnemonic.Role.takes] using htakes
    exact .pure _
  | checksType =>
    rw [hrole] at htakes
    obtain rfl : n = 2 := by simpa [Mnemonic.Role.takes] using htakes
    exact .bind .u2 fun _ => .bind (.ofExcept _) fun _ => .pure _
  | readsField =>
    rw [hrole] at htakes
    obtain rfl : n = 2 := by simpa [Mnemonic.Role.takes] using htakes
    exact .bind .u2 fun _ => .bind (.ofExcept _) fun _ => .pure _
  | calls =>
    rw [hrole] at htakes
    obtain rfl | rfl : n = 2 ∨ n = 4 := by simpa [Mnemonic.Role.takes] using htakes
    · exact .bind .u2 fun _ => .bind (.ofExcept _) fun _ => .pure _
    · exact .bind .u2 fun _ => .bind (.ofExcept _) fun _ => .bind (.skip 2) fun _ => .pure _
  | callsDynamically =>
    rw [hrole] at htakes
    obtain rfl : n = 4 := by simpa [Mnemonic.Role.takes] using htakes
    exact .bind .u2 fun _ => .bind (.ofExcept _) fun _ => .bind (.skip 2) fun _ => .pure _
  | leaves =>
    rw [hrole] at htakes
    obtain rfl : n = 0 := by simpa [Mnemonic.Role.takes] using htakes
    exact .pure _
  | other => exact .bind (.skip n) fun _ => .pure _

/-- Bytes that make up `n` pieces of `k` are the encoding of a list, if any `k` bytes
encode something. -/
theorem exists_flatMap_eq {α : Type} {encode : α → Bytes} {k : Nat}
    (h : ∀ piece : Bytes, piece.length = k → ∃ x, encode x = piece) {n : Nat} {bytes : Bytes}
    (hbytes : bytes.length = n * k) : ∃ xs : List α, xs.length = n ∧ xs.flatMap encode = bytes := by
  induction n generalizing bytes with
  | zero =>
    rw [Nat.zero_mul, List.length_eq_zero_iff] at hbytes
    exact ⟨[], rfl, hbytes.symm⟩
  | succ n ih =>
    rw [Nat.succ_mul] at hbytes
    obtain ⟨x, hx⟩ := h (bytes.take k) (by rw [List.length_take]; omega)
    obtain ⟨xs, hlength, hxs⟩ := @ih (bytes.drop k) (by rw [List.length_drop]; omega)
    exact ⟨x :: xs, congrArg (· + 1) hlength, by
      rw [List.flatMap_cons, hx, hxs, List.take_append_drop]⟩

theorem exists_ofUInt32_eq (bytes : Bytes) (h : bytes.length = 4) :
    ∃ w, Bytes.ofUInt32 w = bytes := by
  match bytes, h with
  | [a, b, c, d], _ => exact ⟨_, Bytes.ofUInt32_toUInt32 a b c d⟩

theorem exists_ofUInt32_pair_eq (bytes : Bytes) (h : bytes.length = 8) :
    ∃ c : UInt32 × UInt32, Bytes.ofUInt32 c.1 ++ Bytes.ofUInt32 c.2 = bytes := by
  obtain ⟨first, hfirst⟩ := exists_ofUInt32_eq (bytes.take 4) (by rw [List.length_take]; omega)
  obtain ⟨second, hsecond⟩ := exists_ofUInt32_eq (bytes.drop 4) (by rw [List.length_drop]; omega)
  exact ⟨(first, second), by rw [hfirst, hsecond, List.take_append_drop]⟩

variable {operands rest : Bytes} {j : Instruction}

theorem exists_of_readWide (h : readWide operands = .ok (j, rest)) :
    ∃ i : RawInstruction, i.FitsAt offset ∧ i.opcode = Mnemonic.wide.opcode ∧
      i.operands ++ rest = operands := by
  obtain ⟨opcode, tail, hopcode, hslotted⟩ := Reader.bind_eq_ok.1 h
  obtain ⟨slot, tail', next, hslot, hnext, hanswer⟩ := Reader.exists_next hslotted
  rw [Reader.u1_eq_ok] at hopcode
  rw [Reader.u2_eq_ok] at hslot
  subst hopcode hslot
  -- whichever branch answers, the opcode is that of an instruction that can be widened
  have hplain (hwidening : ∃ m ∈ Mnemonic.widening, m.opcode = opcode) (hrest : tail' = rest) :
      ∃ i : RawInstruction, i.FitsAt offset ∧ i.opcode = Mnemonic.wide.opcode ∧
        i.operands ++ rest = opcode :: (Bytes.ofUInt16 slot ++ tail') := by
    obtain ⟨m, hm, rfl⟩ := hwidening
    exact ⟨wide m slot, hm, rfl, by rw [hrest]; rfl⟩
  split at hnext
  · next kind hform =>
    subst hnext
    exact hplain (Mnemonic.exists_widening (.inl (by rw [hform]))) (Reader.pure_eq_ok.1 hanswer).2
  · split at hnext
    · next hiinc =>
      subst hnext
      obtain ⟨_, mid, hskip, hend⟩ := Reader.bind_eq_ok.1 hanswer
      obtain ⟨amount, hamount, rfl⟩ := Reader.skip_eq_ok.1 hskip
      obtain ⟨-, rfl⟩ := Reader.pure_eq_ok.1 hend
      match amount, hamount with
      | [high, low], _ =>
        refine ⟨wideIncrement slot (Bytes.toUInt16 high low), trivial, rfl, ?_⟩
        rw [operands, Bytes.ofUInt16_toUInt16, hiinc, List.cons_append, List.append_assoc]
        rfl
    · split at hnext
      · next hstore =>
        subst hnext
        exact hplain (Mnemonic.exists_widening (.inr hstore)) (Reader.pure_eq_ok.1 hanswer).2
      · subst hnext
        cases hanswer

/-- What is decoded at an offset is an instruction that fits there. -/
theorem exists_of_readOperands {opcode : UInt8}
    (h : readOperands pool offset opcode operands = .ok (j, rest)) :
    ∃ i : RawInstruction, i.FitsAt offset ∧ i.opcode = opcode ∧ i.operands ++ rest = operands := by
  have hform : (Form.of? opcode).isSome := by
    cases hnone : Form.of? opcode with
    | some form => rfl
    | none =>
      unfold readOperands at h
      rw [hnone] at h
      cases h
  obtain ⟨m, rfl⟩ := Mnemonic.exists_opcode_eq hform
  cases hcount : m.operandCount with
  | some n =>
    obtain ⟨front, rfl, rfl⟩ := takes_operandCount hcount h
    exact ⟨fixed m front, hcount, rfl, rfl⟩
  | none =>
    obtain rfl | rfl | rfl := Mnemonic.eq_of_operandCount_eq_none hcount
    · obtain ⟨_, _, hpadding, h₁⟩ := Reader.bind_eq_ok.1 h
      obtain ⟨_, _, hotherwise, h₂⟩ := Reader.bind_eq_ok.1 h₁
      obtain ⟨low, _, hlow, h₃⟩ := Reader.bind_eq_ok.1 h₂
      obtain ⟨high, _, hhigh, h₄⟩ := Reader.bind_eq_ok.1 h₃
      obtain ⟨_, _, htargets, hend⟩ := Reader.bind_eq_ok.1 h₄
      obtain ⟨padding, hpads, rfl⟩ := Reader.skip_eq_ok.1 hpadding
      obtain ⟨front, hfront, rfl⟩ := Reader.skip_eq_ok.1 hotherwise
      rw [Reader.u4_eq_ok] at hlow hhigh
      subst hlow hhigh
      obtain ⟨table, htable, rfl⟩ := Reader.skip_eq_ok.1 htargets
      obtain ⟨otherwise, rfl⟩ := exists_ofUInt32_eq front hfront
      obtain ⟨targets, hlength, rfl⟩ := exists_flatMap_eq exists_ofUInt32_eq htable
      obtain ⟨-, rfl⟩ := Reader.pure_eq_ok.1 hend
      exact ⟨tableSwitch padding otherwise low high targets, ⟨pads_of_length hpads, hlength⟩, rfl,
        by simp only [operands, List.append_assoc]⟩
    · obtain ⟨_, _, hpadding, h₁⟩ := Reader.bind_eq_ok.1 h
      obtain ⟨_, _, hotherwise, h₂⟩ := Reader.bind_eq_ok.1 h₁
      obtain ⟨count, _, hcount, h₃⟩ := Reader.bind_eq_ok.1 h₂
      obtain ⟨_, _, hcases, hend⟩ := Reader.bind_eq_ok.1 h₃
      obtain ⟨padding, hpads, rfl⟩ := Reader.skip_eq_ok.1 hpadding
      obtain ⟨front, hfront, rfl⟩ := Reader.skip_eq_ok.1 hotherwise
      rw [Reader.u4_eq_ok] at hcount
      subst hcount
      obtain ⟨table, htable, rfl⟩ := Reader.skip_eq_ok.1 hcases
      obtain ⟨otherwise, rfl⟩ := exists_ofUInt32_eq front hfront
      obtain ⟨cases, hlength, rfl⟩ := exists_flatMap_eq exists_ofUInt32_pair_eq htable
      obtain ⟨-, rfl⟩ := Reader.pure_eq_ok.1 hend
      exact ⟨lookupSwitch padding otherwise count cases, ⟨pads_of_length hpads, hlength⟩, rfl,
        by simp only [operands, List.append_assoc]⟩
    · exact exists_of_readWide h

/-! ## Whole bodies -/

section

variable {is : List RawInstruction}

/-- What is laid out is decoded in order, up to the first instruction without an image,
and then what stands behind it. -/
theorem decodeFrom_of_laidOut (h : LaidOut offset is) (rest : Bytes) :
    decodeFrom pool offset (is.flatMap encode ++ rest) = (is.mapM (image pool)).bind fun js =>
      (decodeFrom pool (offset + (is.flatMap encode).length) rest).map (js ++ ·) := by
  induction is generalizing offset with
  | nil =>
    show decodeFrom pool offset rest = (decodeFrom pool offset rest).map ([] ++ ·)
    cases decodeFrom pool offset rest <;> rfl
  | cons i is ih =>
    obtain ⟨hi, his⟩ := h
    rw [List.flatMap_cons, List.append_assoc, encode, decodeFrom_of_answers (answers_of_fits hi),
      ← encode, ih his, List.length_append, ← Nat.add_assoc, List.mapM_cons]
    generalize decodeFrom pool (offset + i.encode.length + (is.flatMap encode).length) rest = after
    cases i.image pool <;> cases is.mapM (image pool) <;> cases after <;> rfl

/-- What is decoded was laid out. -/
theorem exists_of_decodeFrom {code : Bytes} {decoded : List Instruction}
    (h : decodeFrom pool offset code = .ok decoded) :
    ∃ is, LaidOut offset is ∧ is.flatMap encode = code ∧ is.mapM (image pool) = .ok decoded := by
  induction hn : code.length using Nat.strongRecOn generalizing offset code decoded with
  | ind n ih =>
    subst hn
    match code, h with
    | [], h =>
      rw [decodeFrom] at h
      exact ⟨[], trivial, rfl, h⟩
    | opcode :: operands, h =>
      obtain ⟨j, rest, after, hread, hafter, rfl⟩ := exists_of_decodeFrom_cons h
      obtain ⟨i, hfits, rfl, rfl⟩ := exists_of_readOperands hread
      have himage : i.image pool = .ok j := (answers_of_fits hfits).eq_ok hread
      have hend : offset + 1 + ((i.operands ++ rest).length - rest.length)
          = offset + i.encode.length := by
        rw [List.length_append, Nat.add_sub_cancel, encode, List.length_cons]
        omega
      have hshorter : rest.length < (i.opcode :: (i.operands ++ rest)).length := by
        rw [List.length_cons, List.length_append]
        omega
      rw [hend] at hafter
      obtain ⟨is, hlaid, rfl, himages⟩ := ih _ hshorter hafter rfl
      refine ⟨i :: is, ⟨hfits, hlaid⟩, rfl, ?_⟩
      rw [List.mapM_cons, himage, himages]
      rfl

/-- Decoding looks at an offset only for the padding of switches. -/
theorem decodeFrom_of_mod_eq {offset' : Nat} (h : offset % 4 = offset' % 4) (code : Bytes) :
    decodeFrom pool offset code = decodeFrom pool offset' code := by
  induction hn : code.length using Nat.strongRecOn generalizing offset offset' code with
  | ind n ih =>
    subst hn
    match code with
    | [] => rw [decodeFrom, decodeFrom]
    | opcode :: operands =>
      have hpadding : Instruction.padding offset = Instruction.padding offset' := by
        unfold Instruction.padding
        omega
      have hread : readOperands pool offset opcode operands
          = readOperands pool offset' opcode operands := by
        unfold readOperands
        rw [hpadding]
      rw [decodeFrom_cons, decodeFrom_cons, hread]
      cases hanswer : readOperands pool offset' opcode operands with
      | error e => rfl
      | ok read =>
        obtain ⟨i, rest⟩ := read
        have hle := Instruction.consumes_readOperands pool offset' opcode hanswer
        have hmod : (offset + 1 + (operands.length - rest.length)) % 4 =
            (offset' + 1 + (operands.length - rest.length)) % 4 := by omega
        exact congrArg (Except.map (i :: ·)) (ih rest.length (Nat.lt_succ_of_le hle) hmod rest rfl)

end

/-- Decoding is exact: laid out instructions decode to their images, in order, and what
decodes was laid out instructions.  In particular bodies follow each other at any multiple
of four. -/
theorem decode_exact (pool : Pool) :
    (∀ is, LaidOut 0 is → decode pool (is.flatMap encode) = is.mapM (image pool)) ∧
    (∀ code decoded, decode pool code = .ok decoded →
      ∃ is, LaidOut 0 is ∧ is.flatMap encode = code ∧ is.mapM (image pool) = .ok decoded) ∧
    (∀ code decoded, decode pool code = .ok decoded → 4 ∣ code.length →
      ∀ code', decode pool (code ++ code') = (decode pool code').map (decoded ++ ·)) := by
  refine ⟨fun is h => ?_, fun code decoded h => exists_of_decodeFrom h, ?_⟩
  · rw [decode, ← List.append_nil (is.flatMap encode), decodeFrom_of_laidOut h]
    cases is.mapM (image pool) with
    | error e => rfl
    | ok js =>
      rw [decodeFrom]
      exact congrArg Except.ok (List.append_nil js)
  · intro code decoded h hfour code'
    obtain ⟨is, hlaid, rfl, himages⟩ := exists_of_decodeFrom h
    have hmod : (0 + (is.flatMap encode).length) % 4 = 0 % 4 := by omega
    rw [decode, decodeFrom_of_laidOut hlaid, himages, decodeFrom_of_mod_eq hmod]
    rfl

namespace Sample

def intArrays : Pool := ⟨#[.unusable, .utf8 "[I", .className 1]⟩

/-- A switch over the length of an array, behind two bytes of padding, and a widened
load: 36 bytes. -/
def body : List RawInstruction :=
  [.fixed .aload0 [], .fixed .checkcast [0, 2], .fixed .arraylength [],
    .tableSwitch [0xCA, 0xFE] 23 5 6 [23, 26], .fixed .sipush [1, 2], .wide .iload 400,
    .fixed .ireturn []]

def decoded : List Instruction :=
  [.load .reference 0, .typeCheck 0xC0 "[I", .other 0xBE, .other 0xAA, .other 0x11,
    .load .int 400, .leave 0xAC]

theorem decode_body_twice :
    LaidOut 0 body ∧ 4 ∣ (body.flatMap encode).length ∧
      decode intArrays (body.flatMap encode ++ body.flatMap encode) = .ok (decoded ++ decoded) ∧
      ∃ is, LaidOut 0 is ∧ is.flatMap encode = body.flatMap encode ∧
        is.mapM (image intArrays) = .ok decoded := by
  have hlaid : LaidOut 0 body := by decide
  have hfour : 4 ∣ (body.flatMap encode).length := by decide
  obtain ⟨hdecode, hencoded, happend⟩ := decode_exact intArrays
  have himages : body.mapM (image intArrays) = .ok decoded := rfl
  have honce := (hdecode body hlaid).trans himages
  refine ⟨hlaid, hfour, ?_, hencoded _ _ honce⟩
  rw [happend _ _ honce hfour, honce]
  rfl

end Sample

end RawInstruction

end ClassFile
end Lineage
