import Lineage.Proofs.Assembly.RoundTrip
import Lineage.Proofs.ClassFile.Summary

/-!
Where a class file ends.

A reader delimits what it takes if a success tells a front part of the input that is
read in the same way whatever follows it, while anything less of it ends too early.  The
readers of words and of runs of bytes do, looking something up takes nothing, and a
sequence delimits if its steps do, because a cut falls into one of them.  A frame of its
own length is a run of bytes to the reader around it, so nothing that goes on inside can
move its end.  The layout of a class is a sequence of such steps, and bodies are decoded
from what it has kept.
-/

namespace Lineage
namespace ClassFile
namespace Reader

variable {α β : Type}

/-- `r` takes exactly `bytes` and cannot do with less of them. -/
structure Needs (r : Reader α) (bytes : Bytes) (a : α) : Prop where
  reads : Reads r bytes a
  cut : ∀ front more, bytes = front ++ more → more ≠ [] → r front = .error .unexpectedEnd

namespace Needs

variable {r : Reader α} {f : α → Reader β} {front back bytes : Bytes} {a : α} {b : β}

theorem of_nil (h : Reads r [] a) : Needs r [] a where
  reads := h
  cut _ _ hnil hmore := absurd (List.append_eq_nil_iff.mp hnil.symm).2 hmore

theorem of_length {n : Nat} (h : Reads r bytes a) (hn : bytes.length = n)
    (hshort : ∀ s : Bytes, s.length < n → r s = .error .unexpectedEnd) : Needs r bytes a where
  reads := h
  cut front more hbytes hmore := by
    have hpos := List.length_pos_iff.mpr hmore
    refine hshort front ?_
    rw [← hn, hbytes, List.length_append]
    omega

/-- A cut falls into the part of the first step, or it leaves the first step all that it
needs. -/
theorem bind (hr : Needs r front a) (hf : Needs (f a) back b) :
    Needs (r >>= f) (front ++ back) b where
  reads := hr.reads.bind hf.reads
  cut start more hbytes hmore := by
    show (r start >>= fun p => f p.1 p.2) = _
    obtain ⟨first, rfl, hback⟩ | ⟨first, hfront, rfl⟩ := List.append_eq_append_iff.mp hbytes
    · rw [hr.reads]
      exact hf.cut first more hback hmore
    · cases first with
      | nil =>
        rw [List.append_nil] at hfront
        subst hfront
        rw [hr.reads.eq_ok]
        exact hf.cut [] _ rfl hmore
      | cons byte first =>
        rw [hr.cut start (byte :: first) hfront (List.cons_ne_nil _ _)]
        rfl

end Needs

/-- A success of `r` tells what it needed. -/
def Delimits (r : Reader α) : Prop :=
  ∀ ⦃s a rest⦄, r s = .ok (a, rest) → ∃ bytes, s = bytes ++ rest ∧ Needs r bytes a

namespace Delimits

variable {r : Reader α} {f : α → Reader β}

theorem pure (a : α) : Delimits (pure a : Reader α) := by
  intro s b rest h
  obtain ⟨rfl, rfl⟩ := pure_eq_ok.1 h
  exact ⟨[], rfl, .of_nil (.pure a)⟩

theorem fail (e : ReadError) : Delimits (fail e : Reader α) := by
  intro s a rest h
  cases h

theorem ofExcept (e : Except ReadError α) : Delimits (ofExcept e) := by
  intro s a rest h
  obtain ⟨he, rfl⟩ := ofExcept_eq_ok.1 h
  exact ⟨[], rfl, .of_nil (.ofExcept he)⟩

theorem u1 : Delimits u1 := by
  intro s byte rest h
  refine ⟨[byte], u1_eq_ok.1 h, .of_length (.u1 byte) rfl fun s hs => ?_⟩
  rw [List.length_eq_zero_iff.mp (Nat.lt_one_iff.mp hs)]
  rfl

theorem u2 : Delimits u2 := by
  intro s w rest h
  have hlen := Bytes.length_ofUInt16 w
  refine ⟨Bytes.ofUInt16 w, u2_eq_ok.1 h, .of_length (.u2 w) hlen fun s hs => ?_⟩
  unfold Reader.u2
  split
  · simp only [List.length_cons] at hs
    omega
  · rfl

theorem u4 : Delimits u4 := by
  intro s w rest h
  have hlen := Bytes.length_ofUInt32 w
  refine ⟨Bytes.ofUInt32 w, u4_eq_ok.1 h, .of_length (.u4 w) hlen fun s hs => ?_⟩
  unfold Reader.u4
  split
  · simp only [List.length_cons] at hs
    omega
  · rfl

theorem slice (n : Nat) : Delimits (slice n) := by
  intro s bytes rest h
  obtain ⟨hlen, hs⟩ := slice_eq_ok.1 h
  exact ⟨bytes, hs, .of_length (.slice hlen) hlen fun _ => slice_of_lt⟩

theorem skip (n : Nat) : Delimits (skip n) := by
  intro s u rest h
  obtain ⟨bytes, hlen, hs⟩ := skip_eq_ok.1 h
  exact ⟨bytes, hs, .of_length (.skip hlen) hlen fun _ => skip_of_lt⟩

theorem bind (hr : Delimits r) (hf : ∀ a, Delimits (f a)) : Delimits (r >>= f) := by
  intro s b rest h
  obtain ⟨a, mid, hs, hmid⟩ := bind_eq_ok.1 h
  obtain ⟨front, rfl, hfront⟩ := hr hs
  obtain ⟨back, rfl, hback⟩ := hf a hmid
  exact ⟨front ++ back, (List.append_assoc front back rest).symm, hfront.bind hback⟩

theorem times (hr : Delimits r) (n : Nat) : Delimits (times r n) := by
  induction n with
  | zero => exact .pure []
  | succ n ih => exact hr.bind fun _ => ih.bind fun _ => .pure _

/-- Whatever is read inside a frame, the frame is taken as a whole. -/
theorem within (n : Nat) (r : Reader α) : Delimits (within n r) :=
  (slice n).bind fun _ => .ofExcept _

end Delimits
end Reader

open Reader (Delimits Reads)

/-! ## The parts of a class file -/

theorem delimits_constant : Delimits Constant.read := by
  have hskip (n width : Nat) :
      Delimits (do Reader.skip n; pure (Constant.other, width)) := .bind (.skip n) fun _ => .pure _
  have hword (make : UInt16 → Constant) : Delimits (do pure (make (← Reader.u2), 1)) :=
    .bind .u2 fun _ => .pure _
  have hwords (make : UInt16 → UInt16 → Constant) :
      Delimits (do pure (make (← Reader.u2) (← Reader.u2), 1)) :=
    .bind .u2 fun _ => .bind .u2 fun _ => .pure _
  unfold Constant.read
  refine .bind .u1 fun tag => ?_
  split
  · exact .bind .u2 fun length => .bind (.slice _) fun _ => .pure _
  · exact hskip 4 1
  · exact hskip 4 1
  · exact hskip 4 1
  · exact hskip 8 2
  · exact hskip 8 2
  · exact hword Constant.className
  · exact hskip 2 1
  · exact hskip 2 1
  · exact hskip 2 1
  · exact hskip 2 1
  · exact hwords Constant.field
  · exact hwords Constant.method
  · exact hwords Constant.interfaceMethod
  · exact hwords Constant.nameAndType
  · exact .bind .u1 fun _ => .bind .u2 fun _ => .pure _
  · exact hwords Constant.invokeDynamic
  · exact .fail _

theorem delimits_readEntries (n : Nat) : Delimits (Pool.readEntries n) := by
  induction n using Nat.strongRecOn with
  | ind n ih =>
    cases n with
    | zero =>
      rw [Pool.readEntries]
      exact .pure []
    | succ n =>
      rw [Pool.readEntries]
      refine .bind delimits_constant fun entry => ?_
      obtain ⟨constant, width⟩ := entry
      show Delimits (if width = 1 then _ else _)
      split
      · exact .bind (ih n (Nat.lt_succ_self n)) fun _ => .pure _
      · exact .bind (ih (n - 1) (by omega)) fun _ => .pure _

theorem delimits_pool : Delimits Pool.read :=
  .bind .u2 fun _ => .bind (delimits_readEntries _) fun _ => .pure _

variable {pool : Pool}

theorem delimits_readAttributes {σ : Type} {one : String → Nat → σ → Reader σ}
    (hone : ∀ name length said, Delimits (one name length said)) (n : Nat) (said : σ) :
    Delimits (readAttributes pool one n said) := by
  induction n generalizing said with
  | zero => exact .pure said
  | succ n ih =>
    exact .bind .u2 fun _ => .bind (.ofExcept _) fun _ => .bind .u4 fun _ =>
      .bind (hone _ _ _) fun _ => ih _

theorem delimits_readSignature (length : Nat) : Delimits (readSignature pool length) :=
  .bind .u2 fun _ => .bind (.ofExcept _) fun _ => .bind (.skip _) fun _ => .pure _

theorem delimits_fieldAttribute (name : String) (length : Nat) (said : Option String) :
    Delimits (fieldAttribute pool name length said) := by
  unfold fieldAttribute
  split
  · exact .bind (delimits_readSignature length) fun _ => .pure _
  · exact .bind (.skip length) fun _ => .pure _

theorem delimits_methodAttribute (name : String) (length : Nat) (said : MethodAttributes) :
    Delimits (methodAttribute pool name length said) := by
  unfold methodAttribute
  split
  · exact .bind (.within length _) fun _ => .pure _
  · split
    · exact .bind (delimits_readSignature length) fun _ => .pure _
    · exact .bind (.skip length) fun _ => .pure _

theorem delimits_classAttribute (name : String) (length : Nat) (said : ClassAttributes) :
    Delimits (classAttribute pool name length said) := by
  unfold classAttribute
  split
  · exact .bind (delimits_readSignature length) fun _ => .pure _
  · split
    · exact .bind (.within length _) fun _ => .pure _
    · exact .bind (.skip length) fun _ => .pure _

theorem delimits_readField : Delimits (readField pool) :=
  .bind .u2 fun _ => .bind .u2 fun _ => .bind (.ofExcept _) fun _ =>
    .bind .u2 fun _ => .bind (.ofExcept _) fun _ => .bind .u2 fun _ =>
    .bind (delimits_readAttributes delimits_fieldAttribute _ _) fun _ => .pure _

theorem delimits_readMethod : Delimits (readMethod pool) :=
  .bind .u2 fun _ => .bind .u2 fun _ => .bind (.ofExcept _) fun _ =>
    .bind .u2 fun _ => .bind (.ofExcept _) fun _ => .bind .u2 fun _ =>
    .bind (delimits_readAttributes delimits_methodAttribute _ _) fun _ => .pure _

theorem delimits_readMagic : Delimits readMagic := by
  unfold readMagic
  refine .bind .u4 fun word => ?_
  split
  · exact .pure ()
  · exact .fail _

theorem delimits_readInterface : Delimits (readInterface pool) :=
  .bind .u2 fun _ => .ofExcept _

theorem delimits_layout : Delimits Layout.read :=
  .bind delimits_readMagic fun _ => .bind .u2 fun _ => .bind .u2 fun _ =>
    .bind delimits_pool fun _ => .bind .u2 fun _ => .bind .u2 fun _ => .bind .u2 fun _ =>
    .bind (.ofExcept _) fun _ => .bind (.ofExcept _) fun _ =>
    .bind .u2 fun _ => .bind (.times delimits_readInterface _) fun _ =>
    .bind .u2 fun _ => .bind (.times delimits_readField _) fun _ =>
    .bind .u2 fun _ => .bind (.times delimits_readMethod _) fun _ =>
    .bind .u2 fun _ => .bind (delimits_readAttributes delimits_classAttribute _ _) fun _ => .pure _

/-! ## The end of a file -/

/-- The class file at the front of `bytes` is the first `n` of them: it says `s` whatever
follows, and is cut short by anything less. -/
structure EndsAt (bytes : Bytes) (s : Summary) (n : Nat) : Prop where
  le_length : n ≤ bytes.length
  parse_append : ∀ more, parse (bytes.take n ++ more) = .ok s
  parse_take : ∀ m < n, parse (bytes.take m) = .error .unexpectedEnd

namespace EndsAt

variable {bytes front rest : Bytes} {s : Summary} {layout : Layout}

theorem of_needs (h : Reader.Needs Layout.read front layout) (hs : layout.summary = .ok s)
    (rest : Bytes) : EndsAt (front ++ rest) s front.length where
  le_length := by simp
  parse_append more := by
    rw [List.take_left, parse, h.reads]
    exact hs
  parse_take m hm := by
    have hmore : front.drop m ≠ [] := by simpa using hm
    have hcut := h.cut (front.take m) (front.drop m) (List.take_append_drop m front).symm hmore
    rw [List.take_append_of_le_length (Nat.le_of_lt hm), parse, hcut]
    rfl

/-- A file that ended earlier would be cut short there. -/
theorem le {n m : Nat} (h : EndsAt bytes s n) {s' : Summary} (h' : EndsAt bytes s' m) : n ≤ m := by
  by_contra hlt
  have hok := h'.parse_append []
  rw [List.append_nil, h.parse_take m (by omega)] at hok
  cases hok

end EndsAt

/-- A class file ends at one place, which it tells by itself; one that has been assembled
ends where its bytes do. -/
theorem parse_endsAt {bytes : Bytes} {s : Summary} (h : parse bytes = .ok s) :
    ∃ n, EndsAt bytes s n ∧ (∀ m, EndsAt bytes s m → m = n) ∧
      ∀ c : Assembly.Sketch, c.Room → c.assemble = bytes → n = bytes.length := by
  obtain ⟨layout, rest, hread, hsummary⟩ := parse_eq_ok h
  obtain ⟨front, rfl, hneeds⟩ := delimits_layout hread
  have hend := EndsAt.of_needs hneeds hsummary rest
  refine ⟨front.length, hend, fun m hm => Nat.le_antisymm (hm.le hend) (hend.le hm), ?_⟩
  intro c hc hassemble
  -- an assembled file is read with nothing left over
  have hall := hc.reads_assemble.eq_ok
  rw [hassemble, hread] at hall
  simp only [Except.ok.injEq, Prod.mk.injEq] at hall
  rw [hall.2, List.append_nil]

namespace Sample

open Assembly.Sketch (gauge fits_gauge)

theorem parse_gauge : parse gauge.assemble = .ok gauge.summary := by
  rw [parse, (Assembly.Sketch.reads_assemble fits_gauge).eq_ok]
  exact Assembly.Sketch.summary_layout fits_gauge

/-- More bytes after the last one change nothing, and the file without its last byte is cut
short. -/
theorem parse_endsAt_gauge :
    parse gauge.assemble = .ok gauge.summary ∧
      parse (gauge.assemble ++ [0xCA, 0xFE]) = .ok gauge.summary ∧
      parse gauge.assemble.dropLast = .error .unexpectedEnd := by
  obtain ⟨n, hend, -, hall⟩ := parse_endsAt parse_gauge
  have hpos : 0 < gauge.assemble.length := by decide +kernel
  rw [hall gauge fits_gauge.room rfl] at hend
  refine ⟨parse_gauge, ?_, ?_⟩
  · have hmore := hend.parse_append [0xCA, 0xFE]
    rwa [List.take_length] at hmore
  · rw [List.dropLast_eq_take]
    exact hend.parse_take _ (Nat.sub_one_lt_of_lt hpos)

end Sample

end ClassFile
end Lineage
