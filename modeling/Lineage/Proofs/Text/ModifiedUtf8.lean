import Lineage.Text.ModifiedUtf8

/-!
Reading back what modified UTF-8 writes.

A character that is neither U+0000 nor above U+FFFF is written as in plain
UTF-8; both of the others start with bytes that plain UTF-8 rules out.  So the
plain reading of an encoded text succeeds exactly when the text has neither,
and then it is right; otherwise the text is read unit by unit, and the units
are those that were written.
-/

namespace Lineage

theorem toNat_byte {n : Nat} (h : n < 256) : (UInt8.ofNat n).toNat = n :=
  UInt8.toNat_ofNat_of_lt' h

theorem toNat_scalar (c : Char) :
    c.toNat < 0xD800 ∨ 0xDFFF < c.toNat ∧ c.toNat < 0x110000 := c.valid

namespace Utf8

theorem decode?_cons {b : UInt8} {bytes rest : Bytes} {c : Char}
    (h : first b bytes = (some c, rest)) :
    decode? (b :: bytes) = (decode? rest).map (c :: ·) := by
  rw [decode?]
  split
  next h' => rw [h] at h'; cases h'
  next h' => rw [h] at h'; cases h'; rfl

theorem decode?_cons_eq_none {b : UInt8} {bytes : Bytes} (h : (first b bytes).1 = none) :
    decode? (b :: bytes) = none := by
  rw [decode?]
  split
  next => rfl
  next h' => rw [h'] at h; cases h

/-! ## First bytes -/

theorem lead?_one {n : Nat} (h : n < 0x80) : lead? n = some (n, []) := by
  rw [lead?, if_pos h]

theorem lead?_two {n : Nat} (hlo : 2 ≤ n) (hhi : n < 32) :
    lead? (0xC0 + n) = some (n, [tail]) := by
  rw [lead?, if_neg (by omega), if_neg (by omega), if_pos (by omega), Nat.add_sub_cancel_left]

/-- The first byte of a three-byte form leaves room for every second byte that
a character can have there. -/
theorem lead?_three {n : Nat} (hlo : 0x800 ≤ n) (hhi : n < 0x10000)
    (hsurrogate : n < 0xD800 ∨ 0xDFFF < n) :
    ∃ lo hi, lead? (0xE0 + n / 4096) = some (n / 4096, [(lo, hi), tail]) ∧
      lo ≤ 0x80 + n / 64 % 64 ∧ 0x80 + n / 64 % 64 ≤ hi := by
  unfold lead?
  rw [if_neg (by omega), if_neg (by omega), if_neg (by omega)]
  by_cases hzero : n / 4096 = 0
  · refine ⟨0xA0, 0xBF, ?_, by omega, by omega⟩
    rw [if_pos (by omega), hzero]
  · rw [if_neg (by omega)]
    by_cases hd : n / 4096 = 13
    · refine ⟨0x80, 0x9F, ?_, by omega, by omega⟩
      rw [if_pos (by omega), hd]
    · refine ⟨0x80, 0xBF, ?_, by omega, by omega⟩
      rw [if_neg (by omega), if_pos (by omega), Nat.add_sub_cancel_left]
      rfl

end Utf8

namespace ModifiedUtf8

open Utf8 (decode?)

/-- The characters that plain UTF-8 writes in the same way. -/
def isPlain (c : Char) : Bool := 0 < c.toNat && c.toNat < 0x10000

theorem encodeChar_of_lt {c : Char} (h : c.toNat < 0x10000) :
    encodeChar c = encodeUnit c.toNat := by
  rw [encodeChar, charUnits, if_pos h, List.flatMap_singleton]

/-! ## The plain reading -/

theorem first_encodeUnit {c : Char} {u : Nat} (hu : c.toNat = u) (hpos : 0 < u)
    (hlt : u < 0x10000) (rest : Bytes) :
    ∃ b bytes, encodeUnit u = b :: bytes ∧ Utf8.first b (bytes ++ rest) = (some c, rest) := by
  have hvalid := toNat_scalar c
  rw [hu] at hvalid
  have hchar : Char.ofNat u = c := by rw [← hu, Char.ofNat_toNat]
  unfold encodeUnit
  by_cases hone : u < 0x80
  · rw [if_pos ⟨hpos, hone⟩]
    refine ⟨_, _, rfl, ?_⟩
    have hbyte : (UInt8.ofNat u).toNat = u := toNat_byte (by omega)
    rw [Utf8.first, hbyte, Utf8.lead?_one hone]
    exact Prod.ext (congrArg some hchar) rfl
  rw [if_neg (fun h => hone h.2)]
  have hlow : (UInt8.ofNat (0x80 + u % 64)).toNat = 0x80 + u % 64 :=
    toNat_byte (by omega)
  by_cases htwo : u < 0x800
  · rw [if_pos htwo]
    refine ⟨_, _, rfl, ?_⟩
    have hbyte : (UInt8.ofNat (0xC0 + u / 64)).toNat = 0xC0 + u / 64 :=
      toNat_byte (by omega)
    have hvalue : u / 64 * 64 + (0x80 + u % 64) % 64 = u := by omega
    rw [Utf8.first, hbyte, Utf8.lead?_two (by omega) (by omega)]
    simp only [Utf8.tail, List.cons_append, List.nil_append, Utf8.follow, hlow, hvalue]
    rw [if_pos ⟨by omega, by omega⟩]
    exact Prod.ext (congrArg some hchar) rfl
  · rw [if_neg htwo]
    refine ⟨_, _, rfl, ?_⟩
    have hbyte : (UInt8.ofNat (0xE0 + u / 4096)).toNat = 0xE0 + u / 4096 :=
      toNat_byte (by omega)
    have hmid : (UInt8.ofNat (0x80 + u / 64 % 64)).toNat = 0x80 + u / 64 % 64 :=
      toNat_byte (by omega)
    have hvalue : (u / 4096 * 64 + (0x80 + u / 64 % 64) % 64) * 64 + (0x80 + u % 64) % 64 = u := by
      omega
    obtain ⟨lo, hi, hlead, hlo, hhi⟩ := Utf8.lead?_three (by omega) hlt (by omega)
    rw [Utf8.first, hbyte, hlead]
    simp only [Utf8.tail, List.cons_append, List.nil_append, Utf8.follow, hmid, hlow, hvalue]
    rw [if_pos ⟨hlo, hhi⟩, if_pos ⟨by omega, by omega⟩]
    exact Prod.ext (congrArg some hchar) rfl

theorem decode?_encodeChar_append {c : Char} (hc : isPlain c = true) (rest : Bytes) :
    decode? (encodeChar c ++ rest) = (decode? rest).map (c :: ·) := by
  have hc : 0 < c.toNat ∧ c.toNat < 0x10000 := by simpa [isPlain] using hc
  obtain ⟨b, bytes, hunit, hfirst⟩ := first_encodeUnit rfl hc.1 hc.2 rest
  rw [encodeChar_of_lt hc.2, hunit]
  exact Utf8.decode?_cons hfirst

/-- The byte C0 and a surrogate both stop the plain reading. -/
theorem decode?_encodeUnit_append_eq_none {u : Nat}
    (hu : u = 0 ∨ isHighSurrogate u = true ∨ isLowSurrogate u = true) (rest : Bytes) :
    decode? (encodeUnit u ++ rest) = none := by
  have hu : u = 0 ∨ 0xD800 ≤ u ∧ u < 0xE000 := by
    simp only [isHighSurrogate, isLowSurrogate, Bool.and_eq_true, decide_eq_true_eq] at hu
    omega
  obtain rfl | ⟨hlo, hhi⟩ := hu
  · exact Utf8.decode?_cons_eq_none rfl
  · have hbyte : 0xE0 + u / 4096 = 0xED := by omega
    have hmid : (UInt8.ofNat (0x80 + u / 64 % 64)).toNat = 0x80 + u / 64 % 64 :=
      toNat_byte (by omega)
    have hlead : Utf8.lead? (UInt8.ofNat 0xED).toNat = some (0xD, [(0x80, 0x9F), Utf8.tail]) := rfl
    rw [encodeUnit, if_neg (by omega), if_neg (by omega), hbyte]
    simp only [List.cons_append, List.nil_append]
    refine Utf8.decode?_cons_eq_none ?_
    rw [Utf8.first, hlead]
    simp only [Utf8.follow, hmid]
    rw [if_neg (by omega)]
    rfl

theorem decode?_encodeChar_append_eq_none {c : Char} (hc : isPlain c = false) (rest : Bytes) :
    decode? (encodeChar c ++ rest) = none := by
  have hc : c.toNat = 0 ∨ 0x10000 ≤ c.toNat := by
    simp only [isPlain, Bool.and_eq_false_iff, decide_eq_false_iff_not] at hc
    omega
  obtain hzero | hlarge := hc
  · rw [encodeChar_of_lt (by omega)]
    exact decode?_encodeUnit_append_eq_none (Or.inl hzero) rest
  · have hvalid := toNat_scalar c
    have hhigh : isHighSurrogate (0xD800 + (c.toNat - 0x10000) / 0x400) = true := by
      simp only [isHighSurrogate, Bool.and_eq_true, decide_eq_true_eq]
      omega
    rw [encodeChar, charUnits, if_neg (by omega), List.flatMap_cons, List.append_assoc]
    exact decode?_encodeUnit_append_eq_none (Or.inr (Or.inl hhigh)) _

theorem decode?_flatMap_encodeChar (cs : List Char) :
    decode? (cs.flatMap encodeChar) = if cs.all isPlain then some cs else none := by
  induction cs with
  | nil => rw [List.flatMap_nil, decode?]; rfl
  | cons c cs ih =>
    rw [List.flatMap_cons, List.all_cons]
    by_cases hc : isPlain c = true
    · rw [decode?_encodeChar_append hc, ih, hc, Bool.true_and]
      by_cases hcs : cs.all isPlain = true
      · rw [if_pos hcs, if_pos hcs]
        rfl
      · rw [if_neg hcs, if_neg hcs]
        rfl
    · rw [decode?_encodeChar_append_eq_none (Bool.eq_false_iff.mpr hc), Bool.eq_false_iff.mpr hc]
      rfl

/-! ## The reading by units -/

theorem firstUnit_encodeUnit {u : Nat} (hu : u < 0x10000) (rest : Bytes) :
    ∃ b bytes, encodeUnit u = b :: bytes ∧ firstUnit b (bytes ++ rest) = (u, rest) := by
  have hlow : (UInt8.ofNat (0x80 + u % 64)).toNat = 0x80 + u % 64 := toNat_byte (by omega)
  unfold encodeUnit
  by_cases hone : 0 < u ∧ u < 0x80
  · have hbyte : (UInt8.ofNat u).toNat = u := toNat_byte (by omega)
    rw [if_pos hone]
    refine ⟨_, _, rfl, ?_⟩
    unfold firstUnit
    rw [hbyte, if_pos hone.2]
    rfl
  rw [if_neg hone]
  by_cases htwo : u < 0x800
  · have hbyte : (UInt8.ofNat (0xC0 + u / 64)).toNat = 0xC0 + u / 64 := toNat_byte (by omega)
    have hvalue : (0xC0 + u / 64) % 32 * 64 + (0x80 + u % 64) % 64 = u := by omega
    rw [if_pos htwo]
    refine ⟨_, _, rfl, ?_⟩
    unfold firstUnit
    rw [hbyte, if_neg (by omega), if_pos (by omega)]
    simp only [List.cons_append, List.nil_append, hlow, hvalue]
  · have hbyte : (UInt8.ofNat (0xE0 + u / 4096)).toNat = 0xE0 + u / 4096 := toNat_byte (by omega)
    have hmid : (UInt8.ofNat (0x80 + u / 64 % 64)).toNat = 0x80 + u / 64 % 64 :=
      toNat_byte (by omega)
    have hvalue : (0xE0 + u / 4096) % 16 * 4096 + (0x80 + u / 64 % 64) % 64 * 64
        + (0x80 + u % 64) % 64 = u := by omega
    rw [if_neg htwo]
    refine ⟨_, _, rfl, ?_⟩
    unfold firstUnit
    rw [hbyte, if_neg (by omega), if_neg (by omega), if_pos (by omega)]
    simp only [List.cons_append, List.nil_append, hmid, hlow, hvalue]

theorem units_encodeUnit_append {u : Nat} (hu : u < 0x10000) (rest : Bytes) :
    units (encodeUnit u ++ rest) = u :: units rest := by
  obtain ⟨b, bytes, hunit, hfirst⟩ := firstUnit_encodeUnit hu rest
  rw [hunit, List.cons_append, units, hfirst]

theorem charUnits_lt {c : Char} {u : Nat} (h : u ∈ charUnits c) : u < 0x10000 := by
  have hvalid := toNat_scalar c
  unfold charUnits at h
  split at h
  · next hlt =>
    rw [List.mem_singleton] at h
    omega
  · simp only [List.mem_cons, List.not_mem_nil, or_false] at h
    omega

theorem units_flatMap_encodeUnit {us : List Nat} (h : ∀ u ∈ us, u < 0x10000) :
    units (us.flatMap encodeUnit) = us := by
  induction us with
  | nil => rw [List.flatMap_nil, units]
  | cons u us ih =>
    rw [List.flatMap_cons, units_encodeUnit_append (h u List.mem_cons_self),
      ih fun v hv => h v (List.mem_cons_of_mem u hv)]

theorem units_flatMap_encodeChar (cs : List Char) :
    units (cs.flatMap encodeChar) = cs.flatMap charUnits := by
  have hassoc : cs.flatMap encodeChar = (cs.flatMap charUnits).flatMap encodeUnit :=
    List.flatMap_assoc.symm
  rw [hassoc]
  refine units_flatMap_encodeUnit fun u hu => ?_
  obtain ⟨c, -, hc⟩ := List.mem_flatMap.mp hu
  exact charUnits_lt hc

/-- A unit that starts no pair stands for itself. -/
theorem join_cons_of_not_high {u : Nat} (h : isHighSurrogate u = false) (us : List Nat) :
    join (u :: us) = lone u :: join us := by
  cases us with
  | nil => rfl
  | cons v us => rw [join, h, Bool.false_and, if_neg Bool.false_ne_true]

theorem join_charUnits_append (c : Char) (us : List Nat) :
    join (charUnits c ++ us) = c :: join us := by
  have hvalid := toNat_scalar c
  unfold charUnits
  by_cases hlt : c.toNat < 0x10000
  · have hhigh : isHighSurrogate c.toNat = false := by
      simp only [isHighSurrogate, Bool.and_eq_false_iff, decide_eq_false_iff_not]
      omega
    have hlow : isLowSurrogate c.toNat = false := by
      simp only [isLowSurrogate, Bool.and_eq_false_iff, decide_eq_false_iff_not]
      omega
    rw [if_pos hlt, List.singleton_append, join_cons_of_not_high hhigh, lone, hhigh, hlow,
      Bool.or_self, if_neg Bool.false_ne_true, Char.ofNat_toNat]
  · have hhigh : isHighSurrogate (0xD800 + (c.toNat - 0x10000) / 0x400) = true := by
      simp only [isHighSurrogate, Bool.and_eq_true, decide_eq_true_eq]
      omega
    have hlow : isLowSurrogate (0xDC00 + (c.toNat - 0x10000) % 0x400) = true := by
      simp only [isLowSurrogate, Bool.and_eq_true, decide_eq_true_eq]
      omega
    have hvalue : 0x10000 + (0xD800 + (c.toNat - 0x10000) / 0x400 - 0xD800) * 0x400
        + (0xDC00 + (c.toNat - 0x10000) % 0x400 - 0xDC00) = c.toNat := by omega
    rw [if_neg hlt, List.cons_append, List.singleton_append, join, hhigh, hlow, Bool.true_and,
      if_pos rfl, hvalue, Char.ofNat_toNat]

theorem join_flatMap_charUnits (cs : List Char) : join (cs.flatMap charUnits) = cs := by
  induction cs with
  | nil => rfl
  | cons c cs ih => rw [List.flatMap_cons, join_charUnits_append, ih]

/-! ## Whole texts -/

/-- The plain reading succeeds on texts that plain UTF-8 writes in the same way, and on
no others. -/
theorem decode?_encode (s : String) :
    decode? (encode s) = if s.toList.all isPlain then some s.toList else none :=
  decode?_flatMap_encodeChar s.toList

/-- The reading by units recovers any text, the plain ones too. -/
theorem join_units_encode (s : String) : String.ofList (join (units (encode s))) = s := by
  rw [encode, units_flatMap_encodeChar, join_flatMap_charUnits, String.ofList_toList]

/-- Either reading recovers the text. -/
theorem decode_encode (s : String) : decode (encode s) = s := by
  rw [decode, decode?_encode]
  by_cases h : s.toList.all isPlain = true
  · rw [if_pos h]
    exact String.ofList_toList
  · rw [if_neg h]
    exact join_units_encode s

theorem encode_append (s t : String) : encode (s ++ t) = encode s ++ encode t := by
  rw [encode, String.toList_append, List.flatMap_append]
  rfl

/-- What has been written is read back.  The plain reading refuses a text or agrees with
the reading by units, which recovers every text, so it does not matter which is taken;
and a text is written piece by piece. -/
theorem encode_reads_back (s : String) :
    decode (encode s) = s ∧
      decode? (encode s) = (if s.toList.all isPlain then some s.toList else none) ∧
      String.ofList (join (units (encode s))) = s ∧
      ∀ t, encode (s ++ t) = encode s ++ encode t :=
  ⟨decode_encode s, decode?_encode s, join_units_encode s, encode_append s⟩

/-- U+0000 and a character above U+FFFF between plain ones. -/
example : encode "a\x00é😀" =
    [0x61, 0xC0, 0x80, 0xC3, 0xA9, 0xED, 0xA0, 0xBD, 0xED, 0xB8, 0x80] := by decide +kernel

/-! ## Texts by units

A text in a class file is a list of units, of which some may be surrogates
without a partner. -/

/-- The text that units stand for. -/
def ofUnits (us : List UInt16) : String := String.ofList (join (us.map UInt16.toNat))

def encodeUnits (us : List UInt16) : Bytes := us.flatMap fun u => encodeUnit u.toNat

/-- The units that plain UTF-8 writes in the same way. -/
def isPlainUnit (u : Nat) : Bool := 0 < u && !(isHighSurrogate u || isLowSurrogate u)

theorem toNat_ofNat {n : Nat} (h : n < 0xD800 ∨ 0xDFFF < n ∧ n < 0x110000) :
    (Char.ofNat n).toNat = n := by
  have hvalid : n.isValidChar := h
  rw [Char.ofNat, dif_pos hvalid]
  rfl

theorem decode?_encodeUnit_append {u : Nat} (hu : u < 0x10000) (hplain : isPlainUnit u = true)
    (rest : Bytes) : decode? (encodeUnit u ++ rest) = (decode? rest).map (lone u :: ·) := by
  rw [isPlainUnit, Bool.and_eq_true, decide_eq_true_eq, Bool.not_eq_true'] at hplain
  obtain ⟨hpos, hsurrogate⟩ := hplain
  have hscalar : u < 0xD800 ∨ 0xDFFF < u ∧ u < 0x110000 := by
    simp only [isHighSurrogate, isLowSurrogate, Bool.or_eq_false_iff, Bool.and_eq_false_iff,
      decide_eq_false_iff_not] at hsurrogate
    omega
  have hchar := toNat_ofNat hscalar
  have hplain : isPlain (Char.ofNat u) = true := by
    rw [isPlain, hchar, Bool.and_eq_true, decide_eq_true_eq, decide_eq_true_eq]
    exact ⟨hpos, hu⟩
  have hdecode := decode?_encodeChar_append hplain rest
  rw [encodeChar_of_lt (by rw [hchar]; exact hu), hchar] at hdecode
  rw [hdecode, lone, hsurrogate, if_neg Bool.false_ne_true]

theorem decode?_flatMap_encodeUnit {us : List Nat} (hus : ∀ u ∈ us, u < 0x10000) :
    decode? (us.flatMap encodeUnit) = if us.all isPlainUnit then some (us.map lone) else none := by
  induction us with
  | nil => rw [List.flatMap_nil, decode?]; rfl
  | cons u us ih =>
    rw [List.flatMap_cons, List.all_cons, List.map_cons]
    by_cases hu : isPlainUnit u = true
    · rw [decode?_encodeUnit_append (hus u List.mem_cons_self) hu,
        ih fun v hv => hus v (List.mem_cons_of_mem u hv), hu, Bool.true_and]
      by_cases hplain : us.all isPlainUnit = true
      · rw [if_pos hplain, if_pos hplain]
        rfl
      · rw [if_neg hplain, if_neg hplain]
        rfl
    · have hstop : u = 0 ∨ isHighSurrogate u = true ∨ isLowSurrogate u = true := by
        cases hhigh : isHighSurrogate u
        · cases hlow : isLowSurrogate u
          · exact Or.inl (by simpa [isPlainUnit, hhigh, hlow] using hu)
          · exact Or.inr (Or.inr rfl)
        · exact Or.inr (Or.inl rfl)
      rw [decode?_encodeUnit_append_eq_none hstop, Bool.eq_false_iff.mpr hu]
      rfl

/-- Where there are no surrogates, none can be paired. -/
theorem join_of_plain {us : List Nat} (h : us.all isPlainUnit = true) : join us = us.map lone := by
  induction us with
  | nil => rfl
  | cons u us ih =>
    rw [List.all_cons, Bool.and_eq_true] at h
    have hhigh : isHighSurrogate u = false := by
      have hu := h.1
      rw [isPlainUnit, Bool.and_eq_true, Bool.not_eq_true', Bool.or_eq_false_iff] at hu
      exact hu.2.1
    rw [join_cons_of_not_high hhigh, ih h.2, List.map_cons]

/-- Whatever units a text has, either reading recovers what they stand for. -/
theorem decode_encodeUnits (us : List UInt16) : decode (encodeUnits us) = ofUnits us := by
  have hus : ∀ u ∈ us.map UInt16.toNat, u < 0x10000 := by
    intro u hu
    obtain ⟨w, _, rfl⟩ := List.mem_map.mp hu
    exact w.toNat_lt
  have hbytes : encodeUnits us = (us.map UInt16.toNat).flatMap encodeUnit := by
    rw [encodeUnits, List.flatMap_map]
  rw [decode, hbytes, decode?_flatMap_encodeUnit hus, ofUnits]
  by_cases h : (us.map UInt16.toNat).all isPlainUnit = true
  · rw [if_pos h, join_of_plain h]
  · rw [if_neg h]
    show String.ofList (join (units _)) = _
    rw [units_flatMap_encodeUnit hus]

end ModifiedUtf8
end Lineage
