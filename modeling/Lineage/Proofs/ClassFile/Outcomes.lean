import Lineage.Proofs.ClassFile.Constants

/-!
When readers succeed, and of what they fail.

A frame is read if it is there in full and what reads it succeeds on it; what is made of a
value afterwards makes no difference.  `Starves r` says that `r` fails of nothing but a
lack of bytes, which holds of words and runs of bytes and of all that is put together from
them; a reader that looks something up fails of other causes too.

A counted run is read from an encoding if each of its values is.
-/

namespace Lineage
namespace ClassFile
namespace Reader

variable {α β : Type} {r : Reader α} {n : Nat} {s rest : Bytes}

/-! ## Successes -/

theorem isOk_iff {e : Except ReadError α} : e.isOk ↔ ∃ a, e = .ok a :=
  ⟨exists_of_isOk, fun ⟨_, h⟩ => h ▸ rfl⟩

theorem map_snd_eq_ok {e : Except ReadError (α × Bytes)} :
    e.map Prod.snd = .ok rest ↔ ∃ a, e = .ok (a, rest) := by
  cases e with
  | error e => simp [Except.map]
  | ok p =>
    obtain ⟨a, rest'⟩ := p
    simp [Except.map]

theorem map_snd_eq_error {e : Except ReadError (α × Bytes)} {cause : ReadError} :
    e.map Prod.snd = .error cause ↔ e = .error cause := by
  cases e <;> simp [Except.map]

theorem exists_skip_iff : (∃ p, skip n s = .ok p) ↔ n ≤ s.length := by
  constructor
  · rintro ⟨p, h⟩
    exact ((Takes.skip n).eq_drop h).1
  · intro h
    exact ⟨_, skip_of_le h⟩

theorem exists_within_iff :
    (∃ p, within n r s = .ok p) ↔ n ≤ s.length ∧ ∃ p, r (s.take n) = .ok p := by
  constructor
  · rintro ⟨⟨a, rest⟩, h⟩
    have hn := ((Takes.within n r).eq_drop h).1
    obtain ⟨bytes, mid, hslice, hread⟩ := bind_eq_ok.1 h
    rw [slice_of_le hn] at hslice
    cases hslice
    obtain ⟨hread, -⟩ := ofExcept_eq_ok.1 hread
    refine ⟨hn, ?_⟩
    cases hr : r (s.take n) with
    | error e =>
      rw [hr] at hread
      cases hread
    | ok p => exact ⟨p, rfl⟩
  · rintro ⟨hn, ⟨a, left⟩, h⟩
    refine ⟨(a, s.drop n), bind_eq_ok.2 ⟨s.take n, s.drop n, slice_of_le hn, ?_⟩⟩
    rw [h]
    rfl

/-- What is made of a value afterwards does not change whether there is one. -/
theorem exists_bind_pure_iff {f : α → β} :
    (∃ p, (r >>= fun a => pure (f a)) s = .ok p) ↔ ∃ p, r s = .ok p := by
  constructor
  · rintro ⟨⟨b, rest⟩, h⟩
    obtain ⟨a, mid, hr, -⟩ := bind_eq_ok.1 h
    exact ⟨(a, mid), hr⟩
  · rintro ⟨⟨a, rest⟩, h⟩
    exact ⟨(f a, rest), bind_eq_ok.2 ⟨a, rest, h, rfl⟩⟩

/-! ## Failures -/

/-- The only failure of `r` is to run out of bytes. -/
def Starves (r : Reader α) : Prop := ∀ ⦃s e⦄, r s = .error e → e = .unexpectedEnd

namespace Starves

theorem pure (a : α) : Starves (pure a : Reader α) := fun _ _ h => by cases h

theorem u2 : Starves u2 := by
  intro s e h
  unfold Reader.u2 at h
  split at h <;> cases h
  rfl

theorem u4 : Starves u4 := by
  intro s e h
  unfold Reader.u4 at h
  split at h <;> cases h
  rfl

theorem slice (n : Nat) : Starves (slice n) := by
  intro s e h
  unfold Reader.slice at h
  split at h <;> cases h
  rfl

theorem skip (n : Nat) : Starves (skip n) := by
  intro s e h
  unfold Reader.skip at h
  split at h <;> cases h
  rfl

theorem bind {f : α → Reader β} (hr : Starves r) (hf : ∀ a, Starves (f a)) :
    Starves (r >>= f) := by
  intro s e h
  change (r s >>= fun p => f p.1 p.2) = .error e at h
  cases hs : r s with
  | error e' =>
    rw [hs] at h
    cases h
    exact hr hs
  | ok p =>
    rw [hs] at h
    exact hf p.1 h

theorem times (hr : Starves r) (n : Nat) : Starves (times r n) := by
  induction n with
  | zero => exact .pure []
  | succ n ih => exact hr.bind fun _ => ih.bind fun _ => .pure _

theorem within (n : Nat) (hr : Starves r) : Starves (within n r) := by
  refine (slice n).bind fun bytes => ?_
  intro s e h
  unfold ofExcept at h
  cases hread : r bytes with
  | error e' =>
    rw [hread] at h
    cases h
    exact hr hread
  | ok p =>
    rw [hread] at h
    cases h

end Starves

/-! ## Runs of encodings -/

/-- If each value was read from its encoding, then so was a run of them. -/
theorem eq_flatMap_of_times {encode : α → Bytes} {P : α → Prop}
    (h : ∀ {s a rest}, r s = .ok (a, rest) → P a ∧ s = encode a ++ rest) {as : List α}
    (htimes : times r n s = .ok (as, rest)) :
    as.length = n ∧ (∀ a ∈ as, P a) ∧ s = as.flatMap encode ++ rest := by
  induction n generalizing s as with
  | zero =>
    obtain ⟨rfl, rfl⟩ := pure_eq_ok.1 htimes
    simp
  | succ n ih =>
    obtain ⟨a, mid, ha, htimes⟩ := bind_eq_ok.1 htimes
    obtain ⟨as', mid', has, htimes⟩ := bind_eq_ok.1 htimes
    obtain ⟨rfl, rfl⟩ := pure_eq_ok.1 htimes
    obtain ⟨hP, rfl⟩ := h ha
    obtain ⟨rfl, hPs, rfl⟩ := ih has
    refine ⟨rfl, List.forall_mem_cons.2 ⟨hP, hPs⟩, ?_⟩
    rw [List.flatMap_cons, List.append_assoc]

/-- The count of a run that was read has room in its word. -/
theorem eq_encodeList_of_counted {encode : α → Bytes} {P : α → Prop}
    (h : ∀ {s a rest}, r s = .ok (a, rest) → P a ∧ s = encode a ++ rest) {as : List α}
    (hcounted : (u2 >>= fun count => times r count.toNat) s = .ok (as, rest)) :
    as.length < 65536 ∧ (∀ a ∈ as, P a) ∧ s = encodeList encode as ++ rest := by
  obtain ⟨count, mid, hcount, htimes⟩ := bind_eq_ok.1 hcounted
  obtain ⟨hlen, hP, rfl⟩ := eq_flatMap_of_times h htimes
  obtain rfl := u2_eq_ok.1 hcount
  have hroom : as.length < 65536 := by
    rw [hlen]
    exact count.toNat_lt
  refine ⟨hroom, hP, ?_⟩
  rw [encodeList, Bytes.ofNat16, hlen, UInt16.ofNat_toNat, List.append_assoc]

end Reader
end ClassFile
end Lineage
