import Lineage.Proofs.ClassFile.File
import Lineage.Proofs.ClassFile.Reading

/-!
Reading a table of constants.

The pool that is read has what is kept of every constant at the constant's
index, and nothing to use at the second index of a wide one.  Looking an index
up in the pool therefore gives what the table says of it, and an error where the
table says nothing.
-/

namespace Lineage
namespace ClassFile

open ModifiedUtf8 (encodeUnits)
open Reader (Reads)

theorem toOption_eq_some {α : Type} {e : Except ReadError α} {a : α} :
    e.toOption = some a ↔ e = .ok a := by
  cases e <;> simp [Except.toOption]

theorem exists_of_isOk {α : Type} {e : Except ReadError α} (h : e.isOk) : ∃ a, e = .ok a := by
  cases e with
  | error e => cases h
  | ok a => exact ⟨a, rfl⟩

/-! ## From bytes to entries -/

namespace ConstantInfo

theorem width_eq (c : ConstantInfo) : c.width = 1 ∨ c.width = 2 := by
  cases c <;> first | exact Or.inl rfl | exact Or.inr rfl

theorem kept_ne_unusable (c : ConstantInfo) : c.kept ≠ .unusable := by
  cases c <;> simp [kept]

theorem reads_read {c : ConstantInfo} (h : c.textLength < 65536) :
    Reads Constant.read c.encode (c.kept, c.width) := by
  have hword (w : UInt16) : Reads (Reader.skip 2) (Bytes.ofUInt16 w) () := .skip rfl
  have hdword (w : UInt32) : Reads (Reader.skip 4) (Bytes.ofUInt32 w) () := .skip rfl
  have hpair (v w : UInt16) : Reads (Reader.skip 4) (Bytes.ofUInt16 v ++ Bytes.ofUInt16 w) () :=
    .skip rfl
  have hwide (v w : UInt32) : Reads (Reader.skip 8) (Bytes.ofUInt32 v ++ Bytes.ofUInt32 w) () :=
    .skip rfl
  unfold Constant.read
  cases c with
  | utf8 units =>
    have hlen : (encodeUnits units).length = (UInt16.ofNat (encodeUnits units).length).toNat :=
      (UInt16.toNat_ofNat_of_lt' h).symm
    refine (Reads.u1 1).bind <| (Reads.u2 _).bind <| (Reads.slice hlen).bind_end ?_
    rw [ModifiedUtf8.decode_encodeUnits]
    exact .pure _
  | integer value => exact (Reads.u1 3).bind <| (hdword value).bind_end (.pure (Constant.other, 1))
  | float bits => exact (Reads.u1 4).bind <| (hdword bits).bind_end (.pure (Constant.other, 1))
  | long high low =>
    exact (Reads.u1 5).bind <| (hwide high low).bind_end (.pure (Constant.other, 2))
  | double high low =>
    exact (Reads.u1 6).bind <| (hwide high low).bind_end (.pure (Constant.other, 2))
  | className name => exact (Reads.u1 7).bind <| (Reads.u2 name).bind_end (.pure _)
  | string text => exact (Reads.u1 8).bind <| (hword text).bind_end (.pure (Constant.other, 1))
  | field owner typed =>
    exact (Reads.u1 9).bind <| (Reads.u2 owner).bind <| (Reads.u2 typed).bind_end (.pure _)
  | method owner typed =>
    exact (Reads.u1 10).bind <| (Reads.u2 owner).bind <| (Reads.u2 typed).bind_end (.pure _)
  | interfaceMethod owner typed =>
    exact (Reads.u1 11).bind <| (Reads.u2 owner).bind <| (Reads.u2 typed).bind_end (.pure _)
  | nameAndType name descriptor =>
    exact (Reads.u1 12).bind <| (Reads.u2 name).bind <| (Reads.u2 descriptor).bind_end (.pure _)
  | methodHandle kind member =>
    exact (Reads.u1 15).bind <| (Reads.u1 kind).bind <| (Reads.u2 member).bind_end (.pure _)
  | methodType descriptor =>
    exact (Reads.u1 16).bind <| (hword descriptor).bind_end (.pure (Constant.other, 1))
  | dynamic bootstrap typed =>
    exact (Reads.u1 17).bind <| (hpair bootstrap typed).bind_end (.pure (Constant.other, 1))
  | invokeDynamic bootstrap typed =>
    exact (Reads.u1 18).bind <| (Reads.u2 bootstrap).bind <| (Reads.u2 typed).bind_end (.pure _)
  | moduleName name => exact (Reads.u1 19).bind <| (hword name).bind_end (.pure (Constant.other, 1))
  | packageName name =>
    exact (Reads.u1 20).bind <| (hword name).bind_end (.pure (Constant.other, 1))

/-- Indices stay aligned: as many of them go by as the constants take. -/
theorem reads_readEntries {cs : List ConstantInfo} (h : ∀ c ∈ cs, c.textLength < 65536) :
    Reads (Pool.readEntries (cs.foldr (fun c n => c.width + n) 0)) (cs.flatMap encode)
      (cs.flatMap slots) := by
  induction cs with
  | nil =>
    rw [List.foldr_nil, Pool.readEntries]
    exact .pure []
  | cons c cs ih =>
    have hc : Reads Constant.read c.encode (c.kept, c.width) :=
      reads_read (h c List.mem_cons_self)
    have hcs := ih fun d hd => h d (List.mem_cons_of_mem c hd)
    rw [List.foldr_cons, List.flatMap_cons, List.flatMap_cons]
    obtain hwidth | hwidth := c.width_eq
    · have hslots : c.slots = [c.kept] := by rw [slots, hwidth]; rfl
      rw [hwidth, Nat.add_comm, Pool.readEntries, hslots]
      refine hc.bind ?_
      simp only [if_pos hwidth]
      exact hcs.bind_end (.pure _)
    · have hslots : c.slots = [c.kept, .unusable] := by rw [slots, hwidth]; rfl
      have hwide : c.width ≠ 1 := by rw [hwidth]; exact Nat.succ_ne_self 1
      rw [hwidth, Nat.add_comm, Pool.readEntries, hslots]
      refine hc.bind ?_
      simp only [if_neg hwide]
      exact hcs.bind_end (.pure _)

/-- The entries that can be used are those of the constants. -/
theorem getElem?_slots (cs : List ConstantInfo) (i : Nat) :
    (cs.flatMap slots)[i]?.filter (· ≠ .unusable) = (at? cs i).map kept := by
  fun_induction at? cs i with
  | case1 i => rfl
  | case2 c cs => simp [slots, kept_ne_unusable]
  | case3 c cs i hlt =>
    have hwidth : c.width = 2 := by have := c.width_eq; omega
    have hi : i = 0 := by omega
    rw [List.flatMap_cons, slots, hwidth, hi]
    rfl
  | case4 c cs i hge ih =>
    have hlen : c.slots.length = c.width := by
      obtain hwidth | hwidth := c.width_eq <;> rw [slots, hwidth] <;> rfl
    rw [List.flatMap_cons, List.getElem?_append_right (by omega), hlen, ih]

end ConstantInfo

namespace ConstantTable

variable {t : ConstantTable}

theorem reads_encode (hsize : t.size < 65535) (h : ∀ c ∈ t.constants, c.textLength < 65536) :
    Reads Pool.read t.encode t.pool := by
  have hcount : (UInt16.ofNat (t.size + 1)).toNat - 1 = t.size := by
    have hsize : t.size + 1 < 65536 := Nat.succ_lt_succ hsize
    rw [UInt16.toNat_ofNat_of_lt' hsize, Nat.add_sub_cancel]
  refine (Reads.u2 (UInt16.ofNat (t.size + 1))).bind ?_
  rw [hcount]
  exact (ConstantInfo.reads_readEntries h).bind_end (.pure _)

/-! ## From indices to constants -/

theorem getElem?_pool (t : ConstantTable) (index : UInt16) :
    t.pool.entries[index.toNat]?.filter (· ≠ .unusable)
      = (t.get? index).map ConstantInfo.kept := by
  rw [pool, List.getElem?_toArray, get?]
  by_cases hzero : index = 0
  · rw [if_pos hzero, hzero]
    rfl
  · have hpos : index.toNat ≠ 0 := fun h => hzero (UInt16.toNat_inj.mp h)
    obtain ⟨i, hi⟩ := Nat.exists_eq_succ_of_ne_zero hpos
    rw [if_neg hzero, hi, List.getElem?_cons_succ, ConstantInfo.getElem?_slots]
    rfl

theorem get_pool {index : UInt16} {c : ConstantInfo} (h : t.get? index = some c) :
    t.pool.get index = .ok c.kept := by
  have hentry := t.getElem?_pool index
  rw [h, Option.map_some, Option.filter_eq_some_iff] at hentry
  rw [Pool.get, hentry.1]

theorem get_pool_of_none {index : UInt16} (h : t.get? index = none) :
    t.pool.get index = .ok .unusable ∨ t.pool.get index = .error (.badConstantIndex index) := by
  have hentry := t.getElem?_pool index
  rw [h, Option.map_none, Option.filter_eq_none_iff] at hentry
  rw [Pool.get]
  cases hget : t.pool.entries[index.toNat]? with
  | none => exact Or.inr rfl
  | some c =>
    have hc : c = .unusable := by simpa using hentry c hget
    exact Or.inl (by rw [hc])

/-! ## From indices to names -/

theorem text?_eq (t : ConstantTable) (index : UInt16) :
    t.text? index = (t.pool.utf8 index).toOption := by
  rw [text?, Pool.utf8]
  cases h : t.get? index with
  | some c =>
    rw [get_pool h]
    cases c <;> rfl
  | none => obtain hget | hget := get_pool_of_none h <;> rw [hget] <;> rfl

theorem className?_eq (t : ConstantTable) (index : UInt16) :
    t.className? index = (t.pool.className index).toOption := by
  rw [className?, Pool.className]
  cases h : t.get? index with
  | some c =>
    rw [get_pool h]
    cases c with
    | className name => exact t.text?_eq name
    | _ => rfl
  | none => obtain hget | hget := get_pool_of_none h <;> rw [hget] <;> rfl

theorem nameAndType?_eq (t : ConstantTable) (index : UInt16) :
    t.nameAndType? index = (t.pool.nameAndType index).toOption := by
  rw [nameAndType?, Pool.nameAndType]
  cases h : t.get? index with
  | some c =>
    rw [get_pool h]
    cases c with
    | nameAndType name descriptor =>
      simp only [ConstantInfo.kept, text?_eq]
      cases hname : t.pool.utf8 name with
      | error e => simp [hname, bind, Except.bind, Except.toOption]
      | ok a =>
        cases hdescriptor : t.pool.utf8 descriptor <;>
          simp [hname, hdescriptor, bind, Except.bind, Except.toOption]
    | _ => rfl
  | none => obtain hget | hget := get_pool_of_none h <;> rw [hget] <;> rfl

theorem member?_eq (t : ConstantTable) (index : UInt16) :
    t.member? index = (t.pool.member index).toOption := by
  rw [member?, Pool.member]
  cases h : t.get? index with
  | some c =>
    rw [get_pool h]
    cases c with
    | field owner typed | method owner typed | interfaceMethod owner typed =>
      simp only [ConstantInfo.kept, className?_eq, nameAndType?_eq]
      cases howner : t.pool.className owner with
      | error e => simp [howner, bind, Except.bind, Except.toOption]
      | ok a =>
        cases htyped : t.pool.nameAndType typed <;>
          simp [howner, htyped, bind, Except.bind, Except.toOption]
    | _ => rfl
  | none => obtain hget | hget := get_pool_of_none h <;> rw [hget] <;> rfl

theorem handle?_eq (t : ConstantTable) (index : UInt16) :
    t.handle? index = (t.pool.methodHandle? index).toOption.join := by
  rw [handle?, Pool.methodHandle?]
  cases h : t.get? index with
  | some c =>
    rw [get_pool h]
    cases c with
    | methodHandle kind member =>
      show t.member? member = ((t.pool.member member).map some).toOption.join
      rw [member?_eq]
      cases t.pool.member member <;> rfl
    | _ => rfl
  | none => obtain hget | hget := get_pool_of_none h <;> rw [hget] <;> rfl

variable {index : UInt16}

theorem utf8_pool (h : (t.text? index).isSome) : t.pool.utf8 index = .ok (t.text index) := by
  obtain ⟨text, htext⟩ := Option.isSome_iff_exists.mp h
  rw [ConstantTable.text, htext]
  rw [text?_eq, toOption_eq_some] at htext
  exact htext

theorem className_pool (h : (t.className? index).isSome) :
    t.pool.className index = .ok (t.className index) := by
  obtain ⟨name, hname⟩ := Option.isSome_iff_exists.mp h
  rw [ConstantTable.className, hname]
  rw [className?_eq, toOption_eq_some] at hname
  exact hname

theorem className?_zero (t : ConstantTable) : t.className? 0 = none := rfl

theorem className?_pool (h : index = 0 ∨ (t.className? index).isSome) :
    t.pool.className? index = .ok (t.className? index) := by
  rw [Pool.className?]
  by_cases hzero : index = 0
  · rw [if_pos hzero, hzero, className?_zero]
  · obtain ⟨name, hname⟩ := Option.isSome_iff_exists.mp (h.resolve_left hzero)
    rw [if_neg hzero, hname]
    rw [className?_eq, toOption_eq_some] at hname
    rw [hname]
    rfl

theorem methodHandle?_pool (h : t.refers index) :
    t.pool.methodHandle? index = .ok (t.handle? index) := by
  rw [refers] at h
  rw [Pool.methodHandle?, handle?]
  cases hc : t.get? index with
  | none => simp [hc] at h
  | some c =>
    rw [hc] at h
    rw [get_pool hc]
    cases c with
    | methodHandle kind member =>
      obtain ⟨ref, href⟩ := Option.isSome_iff_exists.mp h
      have hpool := href
      rw [member?_eq, toOption_eq_some] at hpool
      show (t.pool.member member).map some = .ok (t.member? member)
      rw [hpool, href]
      rfl
    | _ => rfl

end ConstantTable
end ClassFile
end Lineage
