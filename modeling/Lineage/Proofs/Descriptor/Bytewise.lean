import Lineage.Proofs.Descriptor.Counted
import Lineage.Proofs.Text.Utf8

/-!
Reading a descriptor byte by byte.

The reader here goes over the UTF-8 bytes of the text with an offset, and cuts class
names out of the text between two offsets.  A cut that is not between characters aborts.
It never comes to one: letters, brackets and semicolons have encodings of one byte that
no other encoding has in it, so the offsets stay between characters, and the reader
answers, or complains, as the one does that goes over the characters.
-/

namespace Lineage

open String (utf8EncodeChar)

/-! ## The reader over characters -/

namespace FieldType

theorem read_of_letter {c : Char} {t : FieldType} (h : ofLetter? c = some t) (cs : List Char) :
    read (c :: cs) = .ok (t, cs) := by
  unfold ofLetter? at h
  split at h <;> cases h <;> rfl

theorem toNat_lt_of_letter {c : Char} {t : FieldType} (h : ofLetter? c = some t) :
    c.toNat < 128 := by
  unfold ofLetter? at h
  split at h <;> first | decide | cases h

theorem read_of_other {c : Char} (hbracket : c ≠ '[') (hclass : c ≠ 'L')
    (h : ofLetter? c = none) (cs : List Char) : read (c :: cs) = .error (.ofTag c) := by
  rw [read]
  · rw [h]
  · exact hbracket
  · exact hclass

theorem read_replicate (n : Nat) (cs : List Char) :
    read (List.replicate n '[' ++ cs) = (read cs).map fun r => (r.1.arrays n, r.2) := by
  induction n with
  | zero => cases h : read cs <;> simp [h, arrays, Except.map]
  | succ n ih =>
    rw [List.replicate_succ, List.cons_append, read, ih]
    cases read cs <;> rfl

end FieldType

namespace MethodType

theorem read_of_ne {c : Char} (hc : c ≠ '(') (cs : List Char) :
    read (c :: cs) = .error (.expected '(') := by
  rw [read]
  exact hc

end MethodType

namespace Descriptor

/-! ## The reader over bytes -/

/-- The text between two byte offsets, if both are between characters. -/
def cut? (text : String) (start stop : Nat) : Option String :=
  if h : (String.Pos.Raw.IsValid text ⟨start⟩ ∧ String.Pos.Raw.IsValid text ⟨stop⟩) ∧
      start ≤ stop then
    some (text.extract (text.pos ⟨start⟩ h.1.1) (text.pos ⟨stop⟩ h.1.2))
  else none

theorem cut?_append (before text after : String) :
    cut? (before ++ text ++ after) before.utf8ByteSize
      (before.utf8ByteSize + text.utf8ByteSize) = some text := by
  have hstart : String.Pos.Raw.IsValid (before ++ text ++ after) ⟨before.utf8ByteSize⟩ :=
    String.Pos.Raw.isValid_iff_exists_append.mpr
      ⟨before, text ++ after, String.append_assoc, rfl⟩
  have hstop : String.Pos.Raw.IsValid (before ++ text ++ after)
      ⟨before.utf8ByteSize + text.utf8ByteSize⟩ :=
    String.Pos.Raw.isValid_iff_exists_append.mpr
      ⟨before ++ text, after, rfl, String.Pos.Raw.ext String.utf8ByteSize_append.symm⟩
  rw [cut?, dif_pos ⟨⟨hstart, hstop⟩, Nat.le_add_right _ _⟩]
  refine congrArg some (String.toByteArray_inj.mp ?_)
  show (before ++ text ++ after).toByteArray.extract before.utf8ByteSize
    (before.utf8ByteSize + text.utf8ByteSize) = text.toByteArray
  rw [String.append_assoc, String.toByteArray_append, String.toByteArray_append]
  exact (ByteArray.extract_append_size_add (i := 0)).trans (ByteArray.extract_append_eq_left rfl)

namespace Bytewise

/-- A value or a complaint; `none` if a cut failed. -/
abbrev Outcome := ExceptT DescriptorError Option

def letter? (b : UInt8) : Option CountedType :=
  match b with
  | 0x42 => some .byte
  | 0x43 => some .char
  | 0x44 => some .double
  | 0x46 => some .float
  | 0x49 => some .int
  | 0x4A => some .long
  | 0x53 => some .short
  | 0x5A => some .boolean
  | _ => none

/-- The class name from `start` on, up to a semicolon, and the offset after that. -/
def readName (text : String) (start : Nat) : Outcome (String × Nat) :=
  let stop := start + (((Utf8.encode text).drop start).takeWhile (· != 0x3B)).length
  if stop < (Utf8.encode text).length then do
    let name ← (cut? text start stop : Option String)
    pure (name, stop + 1)
  else throw .unterminated

def brackets (text : String) (start : Nat) : Nat :=
  (((Utf8.encode text).drop start).takeWhile (· == 0x5B)).length

theorem brackets_pos {text : String} {start : Nat} (h : (Utf8.encode text)[start]? = some 0x5B) :
    0 < brackets text start := by
  obtain ⟨hlt, hbyte⟩ := List.getElem?_eq_some_iff.mp h
  rw [brackets, List.drop_eq_getElem_cons hlt, hbyte]
  exact Nat.succ_pos _

def readType (text : String) (start : Nat) : Outcome (CountedType × Nat) :=
  match h : (Utf8.encode text)[start]? with
  | none => throw .ended
  | some b =>
    match letter? b with
    | some t => pure (t, start + 1)
    | none =>
      if b = 0x4C then do
        let (name, next) ← readName text (start + 1)
        pure (.object name, next)
      else if hb : b = 0x5B then do
        let dimensions := brackets text start
        have : 0 < brackets text start := brackets_pos (hb ▸ h)
        have : start < (Utf8.encode text).length := (List.getElem?_eq_some_iff.mp h).1
        let (element, next) ← readType text (start + dimensions)
        pure (.array element dimensions, next)
      else throw (.unexpectedTag b)
  termination_by (Utf8.encode text).length - start

theorem exists_of_bind_eq_pure {α β : Type} {x : Outcome α} {f : α → Outcome β} {b : β}
    (h : x >>= f = pure b) : ∃ a, x = pure a ∧ f a = pure b := by
  match x, h with
  | some (.ok a), h => exact ⟨a, rfl, h⟩

theorem lt_of_readName {text name : String} {start next : Nat}
    (h : readName text start = pure (name, next)) : start < next := by
  unfold readName at h
  dsimp only at h
  split at h
  · obtain ⟨_, _, hpure⟩ := exists_of_bind_eq_pure h
    cases hpure
    omega
  · cases h

theorem lt_of_readType {text : String} {start next : Nat} {t : CountedType}
    (h : readType text start = pure (t, next)) : start < next := by
  fun_induction readType text start generalizing t next with
  | case1 => cases h
  | case2 => cases h; exact Nat.lt_succ_self _
  | case3 =>
    obtain ⟨⟨_, _⟩, hname, hpure⟩ := exists_of_bind_eq_pure h
    cases hpure
    have := lt_of_readName hname
    omega
  | case4 =>
    rename_i ih
    obtain ⟨⟨_, _⟩, helement, hpure⟩ := exists_of_bind_eq_pure h
    cases hpure
    have := ih helement
    omega
  | case5 => cases h

def readParameters (text : String) (start : Nat) : Outcome (List CountedType × Nat) :=
  match hb : (Utf8.encode text)[start]? with
  | none => throw .ended
  | some b =>
    if b = 0x29 then pure ([], start + 1)
    else
      match h : readType text start with
      | some (.ok (t, next)) => do
        have : start < next := lt_of_readType h
        have : start < (Utf8.encode text).length := (List.getElem?_eq_some_iff.mp hb).1
        let (parameters, last) ← readParameters text next
        pure (t :: parameters, last)
      | some (.error e) => throw e
      | none => ExceptT.mk none
  termination_by (Utf8.encode text).length - start

def readResult (text : String) (start : Nat) : Outcome (Option CountedType × Nat) :=
  match (Utf8.encode text)[start]? with
  | none => throw .ended
  | some b =>
    if b = 0x56 then pure (none, start + 1)
    else do
      let (t, next) ← readType text start
      pure (some t, next)

def readMethod (text : String) : Outcome (CountedMethod × Nat) :=
  match (Utf8.encode text)[0]? with
  | none => throw .ended
  | some b =>
    if b = 0x28 then do
      let (parameters, next) ← readParameters text 1
      let (result, last) ← readResult text next
      pure ({ parameters, result }, last)
    else throw (.expected '(')

/-- A text has to be used up. -/
def finish {α : Type} (text : String) (read : Outcome (α × Nat)) : Outcome α := do
  let (a, next) ← read
  if next < (Utf8.encode text).length then throw (.trailing text) else pure a

/-- The whole text as a field type. -/
def parseType (text : String) : Outcome CountedType := finish text (readType text 0)

/-- The whole text as a method type. -/
def parseMethod (text : String) : Outcome CountedMethod := finish text (readMethod text)

/-! ## Offsets between characters -/

/-- The offset is that of `rest` in the text. -/
def At (text : String) (offset : Nat) (rest : List Char) : Prop :=
  ∃ front, text.toList = front ++ rest ∧ offset = (front.flatMap utf8EncodeChar).length

namespace At

variable {text : String} {offset : Nat} {front rest : List Char}

theorem start (text : String) : At text 0 text.toList := ⟨[], rfl, rfl⟩

theorem advance (h : At text offset (front ++ rest)) :
    At text (offset + (front.flatMap utf8EncodeChar).length) rest := by
  obtain ⟨before, htext, rfl⟩ := h
  refine ⟨before ++ front, by rw [htext, List.append_assoc], ?_⟩
  rw [List.flatMap_append, List.length_append]

theorem drop_encode (h : At text offset rest) :
    (Utf8.encode text).drop offset = rest.flatMap utf8EncodeChar := by
  obtain ⟨front, htext, rfl⟩ := h
  rw [Utf8.encode, htext, List.flatMap_append, List.drop_left]

theorem getElem?_encode (h : At text offset rest) :
    (Utf8.encode text)[offset]? = (rest.flatMap utf8EncodeChar).head? := by
  rw [← h.drop_encode, List.head?_drop]

theorem getElem?_encode_of_cons {c : Char} {b : UInt8} {bs : Bytes}
    (h : At text offset (c :: rest)) (hc : utf8EncodeChar c = b :: bs) :
    (Utf8.encode text)[offset]? = some b := by
  rw [h.getElem?_encode, List.flatMap_cons, hc]
  rfl

theorem exists_byte {c d : Char} (hd : d.toNat < 128) (h : At text offset (c :: rest)) :
    ∃ b, (Utf8.encode text)[offset]? = some b ∧ (b = UInt8.ofNat d.toNat ↔ c = d) := by
  obtain ⟨b, bs, hc⟩ := Utf8.exists_encodeChar_eq_cons c
  exact ⟨b, h.getElem?_encode_of_cons hc, Utf8.head_encodeChar_eq_iff hd hc⟩

theorem step {c : Char} (hc : c.toNat < 128) (h : At text offset (c :: rest)) :
    At text (offset + 1) rest := by
  obtain ⟨_, hencode⟩ | ⟨hle, _⟩ := Utf8.encodeChar_cases c
  · have hsplit : At text offset ([c] ++ rest) := h
    have hnext := hsplit.advance
    rwa [List.flatMap_singleton, hencode] at hnext
  · omega

theorem lt_length_iff (h : At text offset rest) :
    offset < (Utf8.encode text).length ↔ rest ≠ [] := by
  have hleft : (Utf8.encode text).length - offset = (rest.flatMap utf8EncodeChar).length := by
    rw [← h.drop_encode, List.length_drop]
  cases rest with
  | nil =>
    rw [List.flatMap_nil, List.length_nil] at hleft
    simp only [ne_eq, not_true_eq_false, iff_false]
    omega
  | cons c rest =>
    obtain ⟨b, bs, hb⟩ := Utf8.exists_encodeChar_eq_cons c
    rw [List.flatMap_cons, hb, List.cons_append, List.length_cons] at hleft
    simp only [ne_eq, reduceCtorEq, not_false_eq_true, iff_true]
    omega

theorem cut?_eq (h : At text offset (front ++ rest)) :
    cut? text offset (offset + (front.flatMap utf8EncodeChar).length) =
      some (String.ofList front) := by
  have hsize (cs : List Char) :
      (String.ofList cs).utf8ByteSize = (cs.flatMap utf8EncodeChar).length := by
    rw [← String.size_toByteArray, String.toByteArray_ofList, List.utf8Encode,
      List.size_toByteArray]
  obtain ⟨before, htext, rfl⟩ := h
  have htext' : text = String.ofList before ++ String.ofList front ++ String.ofList rest := by
    rw [← String.ofList_append, ← String.ofList_append, List.append_assoc, ← htext,
      String.ofList_toList]
  rw [htext', ← hsize before, ← hsize front]
  exact cut?_append _ _ _

end At

/-! ## Both readers -/

variable {text : String} {offset : Nat}

/-- A step over the bytes goes as one over the characters: it has the same complaint,
or the value in its other form and an offset before what is left. -/
def Tracks {α β : Type} (text : String) (f : α → β) (step : Outcome (β × Nat))
    (read : Except DescriptorError (α × List Char)) : Prop :=
  match read with
  | .error e => step = throw e
  | .ok (a, rest) => ∃ next, step = pure (f a, next) ∧ At text next rest

namespace Tracks

variable {α β γ δ : Type} {f : α → β} {g : γ → δ} {step : Outcome (β × Nat)}
  {read : Except DescriptorError (α × List Char)}

theorem bind {step' : β × Nat → Outcome (δ × Nat)}
    {read' : α × List Char → Except DescriptorError (γ × List Char)}
    (h : Tracks text f step read)
    (h' : ∀ a offset rest, read = .ok (a, rest) → At text offset rest →
      Tracks text g (step' (f a, offset)) (read' (a, rest))) :
    Tracks text g (step >>= step') (read >>= read') := by
  cases read with
  | error e =>
    obtain rfl : step = throw e := h
    exact rfl
  | ok r =>
    obtain ⟨next, rfl, hnext⟩ := h
    exact h' r.1 next r.2 rfl hnext

theorem map (k : β → δ) (k' : α → γ) (h : Tracks text f step read)
    (hk : ∀ a rest, read = .ok (a, rest) → k (f a) = g (k' a)) :
    Tracks text g (step >>= fun r => pure (k r.1, r.2)) (read.map fun r => (k' r.1, r.2)) := by
  cases read with
  | error e =>
    obtain rfl : step = throw e := h
    exact rfl
  | ok r =>
    obtain ⟨next, rfl, hnext⟩ := h
    refine ⟨next, ?_, hnext⟩
    show (pure (k (f r.1), next) : Outcome _) = _
    rw [hk r.1 r.2 rfl]

theorem finish_eq (h : Tracks text f step read) :
    finish text step = ExceptT.mk (some ((do
      let (a, rest) ← read
      if rest.isEmpty then .ok a else .error (.trailing text)).map f)) := by
  cases read with
  | error e =>
    obtain rfl : step = throw e := h
    rfl
  | ok r =>
    obtain ⟨a, rest⟩ := r
    obtain ⟨next, rfl, hnext⟩ := h
    show (if next < (Utf8.encode text).length then _ else _) = _
    cases rest with
    | nil =>
      rw [if_neg (by rw [hnext.lt_length_iff]; simp)]
      rfl
    | cons c rest =>
      rw [if_pos (by rw [hnext.lt_length_iff]; simp)]
      rfl

end Tracks

theorem letter?_eq {c : Char} {b : UInt8} {bs : Bytes} (h : utf8EncodeChar c = b :: bs) :
    letter? b = (FieldType.ofLetter? c).map FieldType.counted := by
  obtain ⟨hlt, hc⟩ | ⟨hle, hall⟩ := Utf8.encodeChar_cases c
  · have hascii : ∀ n : Fin 128, letter? (UInt8.ofNat n.val) =
        (FieldType.ofLetter? (Char.ofNat n.val)).map FieldType.counted := by decide
    have hn := hascii ⟨c.toNat, hlt⟩
    rw [Char.ofNat_toNat] at hn
    rw [hc] at h
    cases h
    exact hn
  · have hhigh : ∀ n : Fin 256, 128 ≤ n.val → letter? (UInt8.ofNat n.val) = none := by
      decide +kernel
    have hb : letter? b = none := by
      have hn := hhigh ⟨b.toNat, b.toNat_lt⟩ (hall b (h ▸ List.mem_cons_self))
      rwa [UInt8.ofNat_toNat] at hn
    have hnone : FieldType.ofLetter? c = none := by
      unfold FieldType.ofLetter?
      split
      all_goals first | rfl | exact absurd hle (by decide)
    rw [hb, hnone]
    rfl

theorem tracks_readName {cs : List Char} (h : At text offset cs) :
    match cs.dropWhile (· != ';') with
    | [] => readName text offset = throw .unterminated
    | _ :: rest => ∃ next,
        readName text offset = pure (String.ofList (cs.takeWhile (· != ';')), next) ∧
          At text next rest := by
  have hsplit : cs.takeWhile (· != ';') ++ cs.dropWhile (· != ';') = cs :=
    List.takeWhile_append_dropWhile
  have hname : At text offset (cs.takeWhile (· != ';') ++ cs.dropWhile (· != ';')) := by
    rwa [hsplit]
  have hstop := hname.advance
  have hcut := hname.cut?_eq
  rw [readName, h.drop_encode, Utf8.takeWhile_ne_semicolon]
  cases hrest : cs.dropWhile (· != ';') with
  | nil =>
    rw [hrest] at hstop
    rw [if_neg (by rw [hstop.lt_length_iff]; simp)]
  | cons c rest =>
    have hsemicolon : c = ';' := by
      have hc := List.head?_dropWhile_not (· != ';') cs
      rw [hrest, List.head?_cons] at hc
      simpa using hc
    subst hsemicolon
    rw [hrest] at hstop
    rw [if_pos (by rw [hstop.lt_length_iff]; simp), hcut]
    exact ⟨_, rfl, hstop.step (by decide)⟩

theorem readType_of_none (hb : (Utf8.encode text)[offset]? = none) :
    readType text offset = throw .ended := by
  rw [readType]
  split
  · rfl
  · next hb' =>
    rw [hb] at hb'
    cases hb'

theorem readType_of_some {b : UInt8} (hb : (Utf8.encode text)[offset]? = some b) :
    readType text offset =
      match letter? b with
      | some t => pure (t, offset + 1)
      | none =>
        if b = 0x4C then (do
          let r ← readName text (offset + 1)
          pure (.object r.1, r.2))
        else if b = 0x5B then (do
          let r ← readType text (offset + brackets text offset)
          pure (.array r.1 (brackets text offset), r.2))
        else throw (.unexpectedTag b) := by
  rw [readType]
  split
  · next hb' =>
    rw [hb] at hb'
    cases hb'
  · next hb' =>
    rw [hb] at hb'
    cases hb'
    rfl

/-- A type that is no array is told by its first character, and so by one byte. -/
theorem tracks_readElement {cs : List Char} (h : At text offset cs)
    (hhead : cs.head? ≠ some '[') :
    Tracks text FieldType.counted (readType text offset) (FieldType.read cs) := by
  cases cs with
  | nil =>
    rw [readType_of_none h.getElem?_encode]
    exact rfl
  | cons c cs =>
    obtain ⟨b, bs, hc⟩ := Utf8.exists_encodeChar_eq_cons c
    have hbracket : c ≠ '[' := fun he => hhead (congrArg some he)
    have harray : b ≠ 0x5B :=
      mt (Utf8.head_encodeChar_eq_iff (d := '[') (by decide) hc).mp hbracket
    have hclass : b = 0x4C ↔ c = 'L' := Utf8.head_encodeChar_eq_iff (d := 'L') (by decide) hc
    rw [readType_of_some (h.getElem?_encode_of_cons hc), letter?_eq hc]
    cases hletter : FieldType.ofLetter? c with
    | some t =>
      rw [FieldType.read_of_letter hletter]
      exact ⟨offset + 1, rfl, h.step (FieldType.toNat_lt_of_letter hletter)⟩
    | none =>
      dsimp only [Option.map_none]
      by_cases hl : c = 'L'
      · have hname := tracks_readName (h.step (by rw [hl]; decide))
        rw [if_pos (hclass.mpr hl), hl, FieldType.read]
        cases hdrop : cs.dropWhile (· != ';') with
        | nil =>
          rw [hdrop] at hname
          rw [hname]
          rfl
        | cons _ rest =>
          rw [hdrop] at hname
          obtain ⟨next, hname, hnext⟩ := hname
          rw [hname]
          exact ⟨next, rfl, hnext⟩
      · rw [if_neg (mt hclass.mp hl), if_neg harray, FieldType.read_of_other hbracket hl hletter,
          DescriptorError.ofTag, hc]
        exact rfl

/-- What a reader answers that is not at a bracket is no array. -/
theorem isArray_counted_of_read {cs rest : List Char} {t : FieldType}
    (hhead : cs.head? ≠ some '[') (h : FieldType.read cs = .ok (t, rest)) :
    t.counted.isArray = false := by
  obtain ⟨hcs, _⟩ := FieldType.chars_of_read h
  cases t with
  | array component => exact absurd (by rw [hcs]; rfl) hhead
  | _ => rfl

theorem brackets_eq {n : Nat} {rest : List Char}
    (h : At text offset (List.replicate n '[' ++ rest)) (hrest : rest.head? ≠ some '[') :
    brackets text offset = n := by
  have hrun : (List.replicate n '[' ++ rest).takeWhile (· == '[') = List.replicate n '[' := by
    rw [List.takeWhile_append_of_pos fun c hc => beq_iff_eq.mpr (List.eq_of_mem_replicate hc)]
    cases rest with
    | nil => exact List.append_nil _
    | cons c rest =>
      have hc : ¬ (c == '[') = true := fun he => hrest (congrArg some (eq_of_beq he))
      rw [List.takeWhile_cons_of_neg (p := (· == '[')) hc, List.append_nil]
  rw [brackets, h.drop_encode, Utf8.takeWhile_eq_bracket, hrun,
    Utf8.length_encode_replicate (by decide)]

theorem exists_eq_replicate_append (c : Char) (cs : List Char) :
    ∃ n rest, cs = List.replicate n c ++ rest ∧ rest.head? ≠ some c := by
  induction cs with
  | nil => exact ⟨0, [], rfl, fun h => by cases h⟩
  | cons d cs ih =>
    by_cases hd : d = c
    · obtain ⟨n, rest, rfl, hrest⟩ := ih
      exact ⟨n + 1, rest, by rw [hd]; rfl, hrest⟩
    · exact ⟨0, d :: cs, rfl, fun he => hd (Option.some.inj he)⟩

/-- The brackets at the front are passed over at once by one reader and one at a time by
the other. -/
theorem tracks_readType {cs : List Char} (h : At text offset cs) :
    Tracks text FieldType.counted (readType text offset) (FieldType.read cs) := by
  obtain ⟨n, rest, rfl, hrest⟩ := exists_eq_replicate_append '[' cs
  cases n with
  | zero => exact tracks_readElement h hrest
  | succ n =>
    have hafter := h.advance
    rw [Utf8.length_encode_replicate (by decide)] at hafter
    have hbyte : (Utf8.encode text)[offset]? = some 0x5B := h.getElem?_encode
    rw [readType_of_some hbyte, brackets_eq h hrest, FieldType.read_replicate]
    refine Tracks.map (CountedType.array · (n + 1)) (FieldType.arrays (n + 1))
      (tracks_readElement hafter hrest) fun t rest' hread => ?_
    exact (FieldType.counted_arrays_succ (isArray_counted_of_read hrest hread) n).symm

theorem readParameters_of_none (hb : (Utf8.encode text)[offset]? = none) :
    readParameters text offset = throw .ended := by
  rw [readParameters]
  split
  · rfl
  · next b hb' =>
    rw [hb] at hb'
    cases hb'

theorem readParameters_of_bracket (hb : (Utf8.encode text)[offset]? = some 0x29) :
    readParameters text offset = pure ([], offset + 1) := by
  rw [readParameters]
  split
  · next hb' =>
    rw [hb] at hb'
    cases hb'
  · next b hb' =>
    rw [hb] at hb'
    cases hb'
    exact if_pos rfl

theorem readParameters_of_ne {b : UInt8} (hb : (Utf8.encode text)[offset]? = some b)
    (hne : b ≠ 0x29) :
    readParameters text offset = (do
      let r ← readType text offset
      let s ← readParameters text r.2
      pure (r.1 :: s.1, s.2)) := by
  rw [readParameters]
  split
  · next hnone =>
    rw [hb] at hnone
    cases hnone
  · next b' hb' =>
    rw [hb] at hb'
    cases hb'
    rw [if_neg hne]
    split
    · next hread =>
      dsimp only
      rw [hread]
      rfl
    · next hread =>
      rw [hread]
      rfl
    · next hread =>
      rw [hread]
      rfl

theorem tracks_readParameters {cs : List Char} (h : At text offset cs) :
    Tracks text (List.map FieldType.counted) (readParameters text offset)
      (MethodType.readParameters cs) := by
  induction hn : cs.length using Nat.strongRecOn generalizing offset cs with
  | ind n ih =>
    subst hn
    cases cs with
    | nil =>
      have hbyte : (Utf8.encode text)[offset]? = none := h.getElem?_encode
      rw [readParameters_of_none hbyte, MethodType.readParameters]
      exact rfl
    | cons c cs =>
      obtain ⟨b, hb, (hiff : b = 0x29 ↔ c = ')')⟩ := h.exists_byte (d := ')') (by decide)
      by_cases hc : c = ')'
      · subst hc
        rw [hiff.mpr rfl] at hb
        rw [readParameters_of_bracket hb, MethodType.readParameters]
        exact ⟨offset + 1, rfl, h.step (by decide)⟩
      · rw [readParameters_of_ne hb (mt hiff.mp hc), MethodType.readParameters_of_ne hc]
        refine (tracks_readType h).bind fun t next rest hread hnext => ?_
        have hrest := ih rest.length (FieldType.length_lt_of_read hread) hnext rfl
        exact hrest.map (t.counted :: ·) (t :: ·) fun _ _ _ => rfl

theorem tracks_readResult {cs : List Char} (h : At text offset cs) :
    Tracks text (Option.map FieldType.counted) (readResult text offset)
      (MethodType.readResult cs) := by
  cases cs with
  | nil =>
    have hbyte : (Utf8.encode text)[offset]? = none := h.getElem?_encode
    rw [readResult, hbyte]
    exact rfl
  | cons c cs =>
    obtain ⟨b, hb, (hiff : b = 0x56 ↔ c = 'V')⟩ := h.exists_byte (d := 'V') (by decide)
    rw [readResult, hb]
    dsimp only
    by_cases hc : c = 'V'
    · rw [if_pos (hiff.mpr hc), hc]
      exact ⟨offset + 1, rfl, h.step (by rw [hc]; decide)⟩
    · rw [if_neg (mt hiff.mp hc), MethodType.readResult_of_ne hc]
      exact (tracks_readType h).map some some fun _ _ _ => rfl

theorem tracks_readMethod (text : String) :
    Tracks text MethodType.counted (readMethod text) (MethodType.read text.toList) := by
  have hstart := At.start text
  generalize text.toList = cs at hstart
  cases cs with
  | nil =>
    have hbyte : (Utf8.encode text)[0]? = none := hstart.getElem?_encode
    rw [readMethod, hbyte]
    exact rfl
  | cons c cs =>
    obtain ⟨b, hb, (hiff : b = 0x28 ↔ c = '(')⟩ := hstart.exists_byte (d := '(') (by decide)
    rw [readMethod, hb]
    dsimp only
    by_cases hc : c = '('
    · have hafter := hstart.step (by rw [hc]; decide)
      rw [if_pos (hiff.mpr hc), hc, MethodType.read]
      refine (tracks_readParameters hafter).bind fun parameters next rest _ h => ?_
      exact (tracks_readResult h).map (CountedMethod.mk (parameters.map FieldType.counted))
        (MethodType.mk parameters) fun _ _ _ => rfl
    · rw [if_neg (mt hiff.mp hc), MethodType.read_of_ne hc]
      exact rfl

/-- Going over the bytes of a text comes to what reading its characters comes to, and no
cut fails on the way. -/
theorem parseType_eq (text : String) :
    parseType text = ExceptT.mk (some ((FieldType.parse text).map FieldType.counted)) :=
  (tracks_readType (At.start text)).finish_eq

theorem parseMethod_eq (text : String) :
    parseMethod text = ExceptT.mk (some ((MethodType.parse text).map MethodType.counted)) :=
  (tracks_readMethod text).finish_eq

end Bytewise
end Descriptor
end Lineage
