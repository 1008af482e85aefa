import Lineage.Text.Utf8

/-!
Characters in their bytes.

A byte below 128 is the encoding of one character and occurs in no other, so that runs
of characters up to such a one can be told by bytes alone.
-/

namespace Lineage

open String (utf8EncodeChar)

namespace Utf8

theorem encodeChar_cases (c : Char) :
    c.toNat < 128 ∧ utf8EncodeChar c = [UInt8.ofNat c.toNat] ∨
      128 ≤ c.toNat ∧ ∀ b ∈ utf8EncodeChar c, 128 ≤ b.toNat := by
  have hvalue : c.val.toNat = c.toNat := rfl
  unfold utf8EncodeChar
  rw [hvalue]
  dsimp only
  split
  · next hle => exact .inl ⟨by omega, rfl⟩
  · refine .inr ⟨by omega, ?_⟩
    split
    · simp only [List.forall_mem_cons, List.not_mem_nil, UInt8.toNat_ofNat', false_implies,
        implies_true, and_true]
      omega
    · split
      · simp only [List.forall_mem_cons, List.not_mem_nil, UInt8.toNat_ofNat', false_implies,
          implies_true, and_true]
        omega
      · simp only [List.forall_mem_cons, List.not_mem_nil, UInt8.toNat_ofNat', false_implies,
          implies_true, and_true]
        omega

/-- A byte below 128 is the encoding of one character, and in no other. -/
theorem eq_of_mem_encodeChar {c : Char} {b : UInt8} (hb : b ∈ utf8EncodeChar c)
    (hlt : b.toNat < 128) : c.toNat = b.toNat := by
  obtain ⟨hc, hencode⟩ | ⟨_, hall⟩ := encodeChar_cases c
  · rw [hencode, List.mem_singleton] at hb
    rw [hb, UInt8.toNat_ofNat']
    omega
  · have := hall b hb
    omega

theorem exists_encodeChar_eq_cons (c : Char) : ∃ b bs, utf8EncodeChar c = b :: bs :=
  List.exists_cons_of_ne_nil String.utf8EncodeChar_ne_nil

/-- A character of one byte is told by the first byte of an encoding. -/
theorem head_encodeChar_eq_iff {c d : Char} {b : UInt8} {bs : Bytes} (hd : d.toNat < 128)
    (hc : utf8EncodeChar c = b :: bs) : b = UInt8.ofNat d.toNat ↔ c = d := by
  have hbyte : (UInt8.ofNat d.toNat).toNat = d.toNat := by
    rw [UInt8.toNat_ofNat']
    omega
  constructor
  · rintro rfl
    have hmem : UInt8.ofNat d.toNat ∈ utf8EncodeChar c := hc ▸ List.mem_cons_self
    exact Char.toNat_inj.mp ((eq_of_mem_encodeChar hmem (by omega)).trans hbyte)
  · rintro rfl
    obtain ⟨_, hencode⟩ | ⟨hle, _⟩ := encodeChar_cases c
    · rw [hencode] at hc
      exact (List.cons.inj hc).1.symm
    · omega

theorem length_encode_replicate {c : Char} (hc : c.toNat < 128) (n : Nat) :
    ((List.replicate n c).flatMap utf8EncodeChar).length = n := by
  obtain ⟨_, hencode⟩ | ⟨hle, _⟩ := encodeChar_cases c
  · induction n with
    | zero => rfl
    | succ n ih =>
      rw [List.replicate_succ, List.flatMap_cons, List.length_append, ih, hencode]
      exact Nat.add_comm 1 n
  · omega

/-- Where a run of characters ends, the run of their bytes ends. -/
theorem takeWhile_flatMap_encodeChar {p : UInt8 → Bool} {q : Char → Bool}
    (hkeep : ∀ c, q c = true → ∀ b ∈ utf8EncodeChar c, p b = true)
    (hstop : ∀ c b bs, q c = false → utf8EncodeChar c = b :: bs → p b = false)
    (cs : List Char) :
    (cs.flatMap utf8EncodeChar).takeWhile p = (cs.takeWhile q).flatMap utf8EncodeChar := by
  induction cs with
  | nil => rfl
  | cons c cs ih =>
    rw [List.flatMap_cons]
    cases hc : q c with
    | true =>
      rw [List.takeWhile_append_of_pos (hkeep c hc), List.takeWhile_cons_of_pos hc,
        List.flatMap_cons, ih]
    | false =>
      obtain ⟨b, bs, hb⟩ := exists_encodeChar_eq_cons c
      have hp : ¬ p b = true := by rw [hstop c b bs hc hb]; exact Bool.false_ne_true
      have hq : ¬ q c = true := by rw [hc]; exact Bool.false_ne_true
      rw [hb, List.cons_append, List.takeWhile_cons_of_neg hp, List.takeWhile_cons_of_neg hq]
      rfl

theorem takeWhile_ne_semicolon (cs : List Char) :
    (cs.flatMap utf8EncodeChar).takeWhile (· != 0x3B) =
      (cs.takeWhile (· != ';')).flatMap utf8EncodeChar := by
  refine takeWhile_flatMap_encodeChar (fun c hc b hb => ?_) (fun c b bs hc hb => ?_) cs
  · refine bne_iff_ne.mpr fun he => bne_iff_ne.mp hc ?_
    subst he
    exact Char.toNat_inj.mp (eq_of_mem_encodeChar hb (by decide))
  · obtain rfl : c = ';' := by simpa using hc
    cases hb
    rfl

theorem takeWhile_eq_bracket (cs : List Char) :
    (cs.flatMap utf8EncodeChar).takeWhile (· == 0x5B) =
      (cs.takeWhile (· == '[')).flatMap utf8EncodeChar := by
  refine takeWhile_flatMap_encodeChar (fun c hc b hb => ?_) (fun c b bs hc hb => ?_) cs
  · obtain rfl := eq_of_beq hc
    obtain rfl : b = 0x5B := List.mem_singleton.mp hb
    rfl
  · refine beq_eq_false_iff_ne.mpr fun he => beq_eq_false_iff_ne.mp hc ?_
    exact (head_encodeChar_eq_iff (d := '[') (by decide) hb).mp he

end Utf8

end Lineage
