import Lineage.ClassFile.Layout

/-!
What a reader does on the bytes that were written for it.

`Reads r bytes a` says that `r` takes exactly `bytes` off the front of any
input and answers `a`.  It is closed under sequencing, so a reader written as a
sequence of steps is followed along the concatenation that was written for it,
one step at a time: `bind` where a step has bytes of its own, `bind_nil` where
it has none, and `bind_end` where nothing is left for the steps after it.

A reader that looks its answer up can fail on bytes that were written for it;
`Answers r bytes e` leaves open whether it does.

In the other direction there is a lemma for each reader that tells an input on
which it succeeds, and `Takes r n` says that `n` bytes of it are taken.
-/

namespace Lineage
namespace Bytes

theorem ofUInt16_toUInt16 (hi lo : UInt8) : ofUInt16 (toUInt16 hi lo) = [hi, lo] := by
  have hhi := hi.toNat_lt
  have hlo := lo.toNat_lt
  have hvalue : (toUInt16 hi lo).toNat = hi.toNat * 256 + lo.toNat := by
    rw [toUInt16, UInt16.toNat_ofNat']
    omega
  have hfirst : (hi.toNat * 256 + lo.toNat) / 256 = hi.toNat := by omega
  have hsecond : (hi.toNat * 256 + lo.toNat) % 256 = lo.toNat := by omega
  rw [ofUInt16, hvalue, hfirst, hsecond, UInt8.ofNat_toNat, UInt8.ofNat_toNat]

theorem ofUInt32_toUInt32 (a b c d : UInt8) : ofUInt32 (toUInt32 a b c d) = [a, b, c, d] := by
  have ha := a.toNat_lt
  have hb := b.toNat_lt
  have hc := c.toNat_lt
  have hd := d.toNat_lt
  have hvalue : (toUInt32 a b c d).toNat =
      a.toNat * 16777216 + b.toNat * 65536 + c.toNat * 256 + d.toNat := by
    rw [toUInt32, UInt32.toNat_ofNat']
    omega
  have hfirst : (a.toNat * 16777216 + b.toNat * 65536 + c.toNat * 256 + d.toNat) / 16777216
      = a.toNat := by omega
  have hsecond : (a.toNat * 16777216 + b.toNat * 65536 + c.toNat * 256 + d.toNat) / 65536 % 256
      = b.toNat := by omega
  have hthird : (a.toNat * 16777216 + b.toNat * 65536 + c.toNat * 256 + d.toNat) / 256 % 256
      = c.toNat := by omega
  have hfourth : (a.toNat * 16777216 + b.toNat * 65536 + c.toNat * 256 + d.toNat) % 256
      = d.toNat := by omega
  rw [ofUInt32, hvalue, hfirst, hsecond, hthird, hfourth]
  simp only [UInt8.ofNat_toNat]

end Bytes

namespace ClassFile

/-- `r` takes exactly `bytes` off any input that starts with them. -/
def Reader.Reads {α : Type} (r : Reader α) (bytes : Bytes) (a : α) : Prop :=
  ∀ rest, r (bytes ++ rest) = .ok (a, rest)

namespace Reader

variable {α β γ : Type}

namespace Reads

theorem eq_ok {r : Reader α} {bytes : Bytes} {a : α} (h : Reads r bytes a) :
    r bytes = .ok (a, []) := by
  have := h []
  rwa [List.append_nil] at this

theorem pure (a : α) : Reads (pure a : Reader α) [] a := fun _ => rfl

theorem ofExcept {e : Except ReadError α} {a : α} (h : e = .ok a) :
    Reads (ofExcept e) [] a := by
  intro rest
  rw [h]
  rfl

theorem bind {r : Reader α} {f : α → Reader β} {front back : Bytes} {a : α} {b : β}
    (hr : Reads r front a) (hf : Reads (f a) back b) : Reads (r >>= f) (front ++ back) b := by
  intro rest
  show (r (front ++ back ++ rest) >>= fun p => f p.1 p.2) = _
  rw [List.append_assoc, hr]
  exact hf rest

theorem bind_nil {r : Reader α} {f : α → Reader β} {bytes : Bytes} {a : α} {b : β}
    (hr : Reads r [] a) (hf : Reads (f a) bytes b) : Reads (r >>= f) bytes b :=
  hr.bind hf

theorem bind_end {r : Reader α} {f : α → Reader β} {bytes : Bytes} {a : α} {b : β}
    (hr : Reads r bytes a) (hf : Reads (f a) [] b) : Reads (r >>= f) bytes b := by
  have := hr.bind hf
  rwa [List.append_nil] at this

/-- Two steps that were followed together, and what comes after them. -/
theorem bind_pair {r : Reader α} {f : α → Reader β} {g : β → Reader γ} {front back : Bytes}
    {b : β} {c : γ} (hr : Reads (r >>= f) front b) (hg : Reads (g b) back c) :
    Reads (r >>= fun a => f a >>= g) (front ++ back) c := by
  rw [← bind_assoc]
  exact hr.bind hg

theorem bind_pair_end {r : Reader α} {f : α → Reader β} {g : β → Reader γ} {bytes : Bytes}
    {b : β} {c : γ} (hr : Reads (r >>= f) bytes b) (hg : Reads (g b) [] c) :
    Reads (r >>= fun a => f a >>= g) bytes c := by
  rw [← bind_assoc]
  exact hr.bind_end hg

/-! ## Words and runs of bytes -/

theorem u1 (b : UInt8) : Reads u1 [b] b := fun _ => rfl

theorem u2 (w : UInt16) : Reads u2 (Bytes.ofUInt16 w) w := by
  intro rest
  show Except.ok (Bytes.toUInt16 _ _, rest) = _
  rw [Bytes.toUInt16_ofUInt16]

theorem u4 (w : UInt32) : Reads u4 (Bytes.ofUInt32 w) w := by
  intro rest
  show Except.ok (Bytes.toUInt32 _ _ _ _, rest) = _
  rw [Bytes.toUInt32_ofUInt32]

theorem slice {n : Nat} {bytes : Bytes} (h : bytes.length = n) :
    Reads (slice n) bytes bytes := by
  intro rest
  rw [slice_of_le (by simp [h]), ← h, List.take_left, List.drop_left]

theorem skip {n : Nat} {bytes : Bytes} (h : bytes.length = n) : Reads (skip n) bytes () := by
  intro rest
  rw [skip_of_le (by simp [h]), ← h, List.drop_left]

/-- Inside a frame of its own length a reader may leave bytes unread. -/
theorem within {r : Reader α} {bytes front back : Bytes} {n : Nat} {a : α}
    (hn : bytes.length = n) (hbytes : bytes = front ++ back) (hr : Reads r front a) :
    Reads (within n r) bytes a := by
  refine bind_end (slice hn) (ofExcept ?_)
  rw [hbytes, hr]
  rfl

/-! ## Counted runs -/

theorem times {r : Reader β} {encode : α → Bytes} {value : α → β} {xs : List α}
    (h : ∀ x ∈ xs, Reads r (encode x) (value x)) :
    Reads (times r xs.length) (xs.flatMap encode) (xs.map value) := by
  induction xs with
  | nil => exact .pure []
  | cons x xs ih =>
    have hx : Reads r (encode x) (value x) := h x List.mem_cons_self
    have hxs := ih fun y hy => h y (List.mem_cons_of_mem x hy)
    rw [List.flatMap_cons]
    exact hx.bind (hxs.bind_end (.pure _))

/-- A count and then as many values as it says. -/
theorem counted {r : Reader β} {encode : α → Bytes} {value : α → β} {xs : List α}
    (hlen : xs.length < 65536) (h : ∀ x ∈ xs, Reads r (encode x) (value x)) :
    Reads (Reader.u2 >>= fun count => Reader.times r count.toNat)
      (Bytes.ofNat16 xs.length ++ xs.flatMap encode) (xs.map value) := by
  refine (u2 (UInt16.ofNat xs.length)).bind ?_
  have hcount : (UInt16.ofNat xs.length).toNat = xs.length := UInt16.toNat_ofNat_of_lt' hlen
  rw [hcount]
  exact times h

end Reads

/-! ## Readers that look something up -/

/-- `r` takes `bytes` off any input and answers `e`, or fails as `e` does. -/
def Answers (r : Reader α) (bytes : Bytes) (e : Except ReadError α) : Prop :=
  ∀ rest, r (bytes ++ rest) = e.map (·, rest)

namespace Answers

variable {r : Reader α} {f : α → Reader β} {front back bytes : Bytes} {a : α}

theorem of_reads (h : Reads r bytes a) : Answers r bytes (.ok a) := h

theorem eq_ok {e : Except ReadError α} {rest rest' : Bytes} (h : Answers r bytes e)
    (hr : r (bytes ++ rest) = .ok (a, rest')) : e = .ok a := by
  rw [h rest] at hr
  cases e with
  | error e => cases hr
  | ok a' =>
    cases hr
    rfl

theorem after {e : Except ReadError β} (hr : Reads r front a) (hf : Answers (f a) back e) :
    Answers (r >>= f) (front ++ back) e := by
  intro rest
  show (r (front ++ back ++ rest) >>= fun p => f p.1 p.2) = _
  rw [List.append_assoc, hr]
  exact hf rest

theorem after_end {e : Except ReadError β} (hr : Reads r bytes a) (hf : Answers (f a) [] e) :
    Answers (r >>= f) bytes e := by
  have h := after hr hf
  rwa [List.append_nil] at h

theorem lookup (e : Except ReadError α) {g : α → β} (h : ∀ a, Reads (f a) bytes (g a)) :
    Answers (ofExcept e >>= f) bytes (e.map g) := by
  intro rest
  cases e with
  | error e => rfl
  | ok a => exact h a rest

end Answers

/-! ## What was taken

A reader that succeeds on some input took something off its front. -/

section

variable {s rest : Bytes}

@[simp]
theorem bind_eq_ok {r : Reader α} {f : α → Reader β} {b : β} :
    (r >>= f) s = .ok (b, rest) ↔ ∃ a mid, r s = .ok (a, mid) ∧ f a mid = .ok (b, rest) := by
  show (r s >>= fun p => f p.1 p.2) = .ok (b, rest) ↔ _
  cases r s with
  | error e => simp [Bind.bind, Except.bind]
  | ok p =>
    constructor
    · exact fun h => ⟨p.1, p.2, rfl, h⟩
    · rintro ⟨a, mid, h, hf⟩
      cases h
      exact hf

/-- The same with the rest of the sequence named, so that its cases can be told apart
before it is run. -/
theorem exists_next {r : Reader α} {f : α → Reader β} {b : β}
    (h : (r >>= f) s = .ok (b, rest)) :
    ∃ a mid next, r s = .ok (a, mid) ∧ f a = next ∧ next mid = .ok (b, rest) := by
  obtain ⟨a, mid, hr, hf⟩ := bind_eq_ok.1 h
  exact ⟨a, mid, f a, hr, rfl, hf⟩

@[simp]
theorem pure_eq_ok {a b : α} : (pure a : Reader α) s = .ok (b, rest) ↔ a = b ∧ s = rest := by
  show Except.ok (a, s) = .ok (b, rest) ↔ _
  simp

@[simp]
theorem ofExcept_eq_ok {e : Except ReadError α} {a : α} :
    ofExcept e s = .ok (a, rest) ↔ e = .ok a ∧ s = rest := by
  cases e <;> simp [ofExcept, Except.map]

@[simp]
theorem u1_eq_ok {b : UInt8} : u1 s = .ok (b, rest) ↔ s = b :: rest := by
  cases s <;> simp [u1]

@[simp]
theorem u2_eq_ok {w : UInt16} : u2 s = .ok (w, rest) ↔ s = Bytes.ofUInt16 w ++ rest := by
  constructor
  · intro h
    unfold u2 at h
    split at h
    · next a b rest' =>
      cases h
      rw [Bytes.ofUInt16_toUInt16]
      rfl
    · cases h
  · rintro rfl
    exact Reads.u2 w rest

@[simp]
theorem u4_eq_ok {w : UInt32} : u4 s = .ok (w, rest) ↔ s = Bytes.ofUInt32 w ++ rest := by
  constructor
  · intro h
    unfold u4 at h
    split at h
    · next a b c d rest' =>
      cases h
      rw [Bytes.ofUInt32_toUInt32]
      rfl
    · cases h
  · rintro rfl
    exact Reads.u4 w rest

@[simp]
theorem slice_eq_ok {n : Nat} {bytes : Bytes} :
    slice n s = .ok (bytes, rest) ↔ bytes.length = n ∧ s = bytes ++ rest := by
  constructor
  · intro h
    unfold slice at h
    split at h
    · next hlen =>
      cases h
      exact ⟨hlen, (List.take_append_drop n s).symm⟩
    · cases h
  · rintro ⟨hlen, rfl⟩
    exact Reads.slice hlen rest

@[simp]
theorem skip_eq_ok {n : Nat} {u : Unit} :
    skip n s = .ok (u, rest) ↔ ∃ front, front.length = n ∧ s = front ++ rest := by
  constructor
  · intro h
    unfold skip at h
    split at h
    · next hlen =>
      cases h
      exact ⟨s.take n, hlen, (List.take_append_drop n s).symm⟩
    · cases h
  · rintro ⟨front, hfront, rfl⟩
    exact Reads.skip hfront rest

end

/-- A success of `r` takes `n` bytes. -/
def Takes (r : Reader α) (n : Nat) : Prop :=
  ∀ ⦃s a rest⦄, r s = .ok (a, rest) → ∃ front : Bytes, front.length = n ∧ s = front ++ rest

namespace Takes

variable {r : Reader α} {f : α → Reader β} {m n : Nat}

theorem pure (a : α) : Takes (pure a : Reader α) 0 :=
  fun _ _ _ h => ⟨[], rfl, (pure_eq_ok.1 h).2⟩

theorem ofExcept (e : Except ReadError α) : Takes (ofExcept e) 0 :=
  fun _ _ _ h => ⟨[], rfl, (ofExcept_eq_ok.1 h).2⟩

theorem u1 : Takes u1 1 := fun _ byte _ h => ⟨[byte], rfl, u1_eq_ok.1 h⟩

theorem u2 : Takes u2 2 := fun _ w _ h => ⟨Bytes.ofUInt16 w, rfl, u2_eq_ok.1 h⟩

theorem u4 : Takes u4 4 := fun _ w _ h => ⟨Bytes.ofUInt32 w, rfl, u4_eq_ok.1 h⟩

theorem slice (n : Nat) : Takes (slice n) n := fun _ bytes _ h => ⟨bytes, slice_eq_ok.1 h⟩

theorem skip (n : Nat) : Takes (skip n) n := fun _ _ _ h => skip_eq_ok.1 h

theorem bind (hr : Takes r m) (hf : ∀ a, Takes (f a) n) : Takes (r >>= f) (m + n) := by
  intro s b rest h
  obtain ⟨a, mid, hs, hmid⟩ := bind_eq_ok.1 h
  obtain ⟨front, rfl, rfl⟩ := hr hs
  obtain ⟨back, rfl, rfl⟩ := hf a hmid
  exact ⟨front ++ back, List.length_append, (List.append_assoc front back rest).symm⟩

/-- Whatever is read inside a frame, the frame is taken as a whole. -/
theorem within (n : Nat) (r : Reader α) : Takes (within n r) n :=
  (slice n).bind fun _ => .ofExcept _

theorem eq_drop (h : Takes r n) {s rest : Bytes} {a : α} (hr : r s = .ok (a, rest)) :
    n ≤ s.length ∧ rest = s.drop n := by
  obtain ⟨front, rfl, rfl⟩ := h hr
  rw [List.drop_left, List.length_append]
  exact ⟨Nat.le_add_right front.length rest.length, rfl⟩

end Takes

end Reader

/-! ## Attributes -/

open Reader (Reads)

/-- An attribute as it is written: where the pool has its name, and its payload.
`say` is what it adds to what the attributes before it said. -/
structure Attribute (σ : Type) where
  index : UInt16
  name : String
  payload : Bytes
  say : σ → σ

namespace Attribute

variable {σ : Type} {pool : Pool} {one : String → Nat → σ → Reader σ}

def encode (a : Attribute σ) : Bytes :=
  Bytes.ofUInt16 a.index ++ Bytes.ofNat32 a.payload.length ++ a.payload

/-- The name is in the pool, the length fits its word, and `one` gets past the
payload. -/
structure Readable (pool : Pool) (one : String → Nat → σ → Reader σ) (a : Attribute σ) :
    Prop where
  name : pool.utf8 a.index = .ok a.name
  length : a.payload.length < 0x100000000
  payload : ∀ said, Reads (one a.name a.payload.length said) a.payload (a.say said)

theorem reads_readAttributes {attributes : List (Attribute σ)}
    (h : ∀ a ∈ attributes, a.Readable pool one) (said : σ) :
    Reads (readAttributes pool one attributes.length said) (attributes.flatMap encode)
      (attributes.foldl (fun said a => a.say said) said) := by
  induction attributes generalizing said with
  | nil => exact .pure said
  | cons a attributes ih =>
    have ha : a.Readable pool one := h a List.mem_cons_self
    have hword : (UInt32.ofNat a.payload.length).toNat = a.payload.length :=
      UInt32.toNat_ofNat_of_lt' ha.length
    rw [List.flatMap_cons, encode, List.append_assoc, List.append_assoc]
    refine (Reads.u2 a.index).bind <| .bind_nil (.ofExcept ha.name) ?_
    refine (Reads.u4 (UInt32.ofNat a.payload.length)).bind ?_
    rw [hword]
    exact (ha.payload said).bind (ih (fun b hb => h b (List.mem_cons_of_mem a hb)) _)

/-- An attribute table: a count and then as many attributes. -/
theorem reads_table {attributes : List (Attribute σ)} {said said' : σ}
    (hlen : attributes.length < 65536) (h : ∀ a ∈ attributes, a.Readable pool one)
    (hsaid : attributes.foldl (fun said a => a.say said) said = said') :
    Reads (Reader.u2 >>= fun count => readAttributes pool one count.toNat said)
      (Bytes.ofNat16 attributes.length ++ attributes.flatMap encode) said' := by
  refine (Reads.u2 (UInt16.ofNat attributes.length)).bind ?_
  have hcount : (UInt16.ofNat attributes.length).toNat = attributes.length :=
    UInt16.toNat_ofNat_of_lt' hlen
  rw [hcount, ← hsaid]
  exact reads_readAttributes h said

end Attribute

theorem reads_readSignature {pool : Pool} {index : UInt16} {text : String}
    (h : pool.utf8 index = .ok text) :
    Reads (readSignature pool (Bytes.ofUInt16 index).length) (Bytes.ofUInt16 index) text :=
  (Reads.u2 index).bind_end <| .bind_nil (.ofExcept h) <| .bind_nil (.skip rfl) (.pure text)

theorem reads_readMagic : Reads readMagic (Bytes.ofUInt32 magic) () :=
  (Reads.u4 magic).bind_end (.pure ())

end ClassFile
end Lineage
