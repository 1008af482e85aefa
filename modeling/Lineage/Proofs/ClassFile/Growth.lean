import Lineage.Proofs.ClassFile.Constants

/-!
More constants.

Constants that are added at the end of a table leave the indices of those
before them.  What is looked up or decoded with success comes out the same with
the longer table, since each step of it does.
-/

namespace Lineage
namespace ClassFile

/-- `y` succeeds where `x` does, with the same answer. -/
def Keeps {α : Type} (x y : Except ReadError α) : Prop := ∀ a, x = .ok a → y = .ok a

namespace Keeps

variable {α β : Type}

theorem refl (x : Except ReadError α) : Keeps x x := fun _ h => h

theorem error (e : ReadError) (y : Except ReadError α) : Keeps (.error e) y := by
  intro a h
  cases h

theorem bind {x y : Except ReadError α} {f g : α → Except ReadError β} (h : Keeps x y)
    (hf : ∀ a, Keeps (f a) (g a)) : Keeps (x >>= f) (y >>= g) := by
  intro b hb
  cases hx : x with
  | error e => simp [hx, Bind.bind, Except.bind] at hb
  | ok a =>
    rw [hx] at hb
    rw [h a hx]
    exact hf a b hb

theorem map {x y : Except ReadError α} (h : Keeps x y) (f : α → β) :
    Keeps (x.map f) (y.map f) := by
  cases x with
  | error e => exact .error e _
  | ok a =>
    rw [h a rfl]
    exact .refl _

theorem toOption_eq {x y : Except ReadError α} (h : Keeps x y) (hx : x.toOption.isSome) :
    y.toOption = x.toOption := by
  cases x with
  | error e => cases hx
  | ok a => rw [h a rfl]

end Keeps

/-! ## Lookups -/

namespace Pool

/-- The entries of `p` are at their indices in `q`. -/
def Grows (p q : Pool) : Prop := ∀ index, Keeps (p.get index) (q.get index)

namespace Grows

variable {p q : Pool}

theorem utf8 (h : p.Grows q) (index : UInt16) : Keeps (p.utf8 index) (q.utf8 index) :=
  (h index).bind fun _ => .refl _

theorem className (h : p.Grows q) (index : UInt16) :
    Keeps (p.className index) (q.className index) := by
  refine (h index).bind fun c => ?_
  cases c with
  | className name => exact h.utf8 name
  | _ => exact .refl _

theorem nameAndType (h : p.Grows q) (index : UInt16) :
    Keeps (p.nameAndType index) (q.nameAndType index) := by
  refine (h index).bind fun c => ?_
  cases c with
  | nameAndType name descriptor =>
    exact (h.utf8 name).bind fun _ => (h.utf8 descriptor).bind fun _ => .refl _
  | _ => exact .refl _

theorem member (h : p.Grows q) (index : UInt16) : Keeps (p.member index) (q.member index) := by
  refine (h index).bind fun c => ?_
  cases c with
  | field owner typed =>
    exact (h.className owner).bind fun _ => (h.nameAndType typed).bind fun _ => .refl _
  | method owner typed =>
    exact (h.className owner).bind fun _ => (h.nameAndType typed).bind fun _ => .refl _
  | interfaceMethod owner typed =>
    exact (h.className owner).bind fun _ => (h.nameAndType typed).bind fun _ => .refl _
  | _ => exact .refl _

theorem methodHandle? (h : p.Grows q) (index : UInt16) :
    Keeps (p.methodHandle? index) (q.methodHandle? index) := by
  refine (h index).bind fun c => ?_
  cases c with
  | methodHandle kind member => exact (h.member member).map some
  | _ => exact .refl _

theorem invokeDynamic (h : p.Grows q) (index : UInt16) :
    Keeps (p.invokeDynamic index) (q.invokeDynamic index) := by
  refine (h index).bind fun c => ?_
  cases c with
  | invokeDynamic bootstrap typed => exact (h.nameAndType typed).bind fun _ => .refl _
  | _ => exact .refl _

/-! ## Bodies -/

theorem readOperands (h : p.Grows q) (offset : Nat) (opcode : UInt8) (operands : Bytes) :
    Keeps (Instruction.readOperands p offset opcode operands)
      (Instruction.readOperands q offset opcode operands) := by
  have hlift {α : Type} {x y : Except ReadError α} (hxy : Keeps x y) (s : Bytes) :
      Keeps (Reader.ofExcept x s) (Reader.ofExcept y s) := hxy.map (·, s)
  unfold Instruction.readOperands
  cases Form.of? opcode with
  | none => exact .refl _
  | some form =>
    cases form with
    | typeCheck =>
      exact .bind (.refl _) fun a => (hlift (h.className a.1) a.2).bind fun _ => .refl _
    | getField =>
      exact .bind (.refl _) fun a => (hlift (h.member a.1) a.2).bind fun _ => .refl _
    | invoke =>
      exact .bind (.refl _) fun a => (hlift (h.member a.1) a.2).bind fun _ => .refl _
    | invokeInterface =>
      exact .bind (.refl _) fun a => (hlift (h.member a.1) a.2).bind fun _ => .refl _
    | invokeDynamic =>
      exact .bind (.refl _) fun a => (hlift (h.invokeDynamic a.1) a.2).bind fun _ => .refl _
    | _ => exact .refl _

theorem decodeFrom (h : p.Grows q) (offset : Nat) (bytes : Bytes) :
    Keeps (Instruction.decodeFrom p offset bytes) (Instruction.decodeFrom q offset bytes) := by
  fun_induction Instruction.decodeFrom p offset bytes with
  | case1 offset =>
    rw [Instruction.decodeFrom]
    exact .refl _
  | case2 offset opcode operands e herror => exact .error e _
  | case3 offset opcode operands i rest hok hconsumes next ih =>
    have hq := h.readOperands offset opcode operands _ hok
    rw [Instruction.decodeFrom]
    split
    next e herror =>
      rw [hq] at herror
      cases herror
    next j rest' hok' =>
      rw [hq] at hok'
      cases hok'
      exact ih.map _

theorem decode (h : p.Grows q) (code : Bytes) :
    Keeps (Instruction.decode p code) (Instruction.decode q code) := h.decodeFrom 0 code

end Grows
end Pool

/-! ## Tables -/

namespace ConstantTable

variable {t t' : ConstantTable} {index : UInt16}

theorem grows_pool {extra : List ConstantInfo} (h : t'.constants = t.constants ++ extra) :
    t.pool.Grows t'.pool := by
  intro index c hc
  have hentries : t'.pool.entries
      = t.pool.entries ++ (extra.flatMap ConstantInfo.slots).toArray := by
    rw [pool, pool, h, List.flatMap_append]
    simp
  rw [Pool.get] at hc ⊢
  cases hentry : t.pool.entries[index.toNat]? with
  | none => simp [hentry] at hc
  | some d =>
    rw [hentry] at hc
    rw [hentries, Array.getElem?_append_left (Array.getElem?_eq_some_iff.mp hentry).1, hentry]
    exact hc

theorem text?_of_grows (h : t.pool.Grows t'.pool) (hi : (t.text? index).isSome) :
    t'.text? index = t.text? index := by
  rw [text?_eq] at hi
  rw [text?_eq, text?_eq]
  exact (h.utf8 index).toOption_eq hi

theorem className?_of_grows (h : t.pool.Grows t'.pool) (hi : (t.className? index).isSome) :
    t'.className? index = t.className? index := by
  rw [className?_eq] at hi
  rw [className?_eq, className?_eq]
  exact (h.className index).toOption_eq hi

theorem handle?_of_grows (h : t.pool.Grows t'.pool) (hi : t.refers index) :
    t'.handle? index = t.handle? index := by
  have hpool := h.methodHandle? index _ (methodHandle?_pool hi)
  rw [handle?_eq t', hpool]
  rfl

theorem text_of_grows (h : t.pool.Grows t'.pool) (hi : (t.text? index).isSome) :
    t'.text index = t.text index := by
  rw [text, text, text?_of_grows h hi]

theorem className_of_grows (h : t.pool.Grows t'.pool) (hi : (t.className? index).isSome) :
    t'.className index = t.className index := by
  rw [className, className, className?_of_grows h hi]

end ConstantTable
end ClassFile
end Lineage
