import Lineage.Proofs.ClassFile.RawAttributes
import Lineage.Proofs.ClassFile.Tour

/-!
Where attributes end.

Whatever its name and whatever is in it, an attribute that is not refused ends as many
bytes behind its head as it declares, and it is refused if what is looked for in it does
not lie within them.  The one exception is a signature that declares less than the two
bytes of its index: they are read nevertheless, and the reading goes on behind them.

A payload is either a frame of its own, or is skipped, or is an index with the rest of the
payload skipped.  The first two take the declared length by what they are; the third takes
the larger of this and two, which is the whole difference.
-/

namespace Lineage
namespace ClassFile

open Reader (Reads Takes)

/-! ## What is looked for -/

/-- Limits, and as many bytes of instructions as are announced. -/
def BeginsWithCode (content : Bytes) : Prop :=
  ∃ maxStack maxLocals length code tail, code.length = length.toNat ∧
    content = Bytes.ofUInt16 maxStack ++ (Bytes.ofUInt16 maxLocals ++
      (Bytes.ofUInt32 length ++ (code ++ tail)))

def BeginsWithBootstraps (content : Bytes) : Prop :=
  ∃ methods tail, methods.length < 65536 ∧ (∀ b ∈ methods, b.arguments.length < 65536) ∧
    content = encodeList BootstrapMethod.encode methods ++ tail

/-- What the holder looks for under the name is at the front of the content. -/
def Holder.Finds : Holder → String → Bytes → Prop
  | .field, _, _ => True
  | .method, name, content => name = "Code" → BeginsWithCode content
  | .cls, name, content => name = "BootstrapMethods" → BeginsWithBootstraps content

theorem Holder.finds_signature (holder : Holder) (content : Bytes) :
    holder.Finds "Signature" content := by
  cases holder with
  | field => trivial
  | method => exact fun h => absurd h (by decide)
  | cls => exact fun h => absurd h (by decide)

namespace Visit

/-- The reading goes on `n` bytes behind the start of the attribute. -/
def EndsAfter (v : Visit) (n : Nat) : Prop :=
  n ≤ v.start.length ∧ v.next = .ok (v.start.drop n)

instance (v : Visit) (n : Nat) : Decidable (v.EndsAfter n) := inferInstanceAs (Decidable (_ ∧ _))

/-- The bytes that are the attribute's by its declared length, as far as there are so many. -/
def content (v : Visit) : Bytes := (v.start.drop 6).take v.declared

/-- A signature that has no room for the two bytes of its index. -/
def Overruns (v : Visit) : Prop := v.name = "Signature" ∧ v.declared < 2

instance (v : Visit) : Decidable v.Overruns := inferInstanceAs (Decidable (_ ∧ _))

/-- All that is read of the attribute lies within its declared length, and this within the
file. -/
structure Fits (v : Visit) : Prop where
  room : 6 + v.declared ≤ v.start.length
  index : ¬ v.Overruns
  finds : v.holder.Finds v.name v.content

/-- The attribute is in the file, with the declared length in the four bytes behind the
index of its name. -/
def LiesIn (v : Visit) (bytes : Bytes) : Prop :=
  v.start <:+ bytes ∧ ∃ index length body,
    v.start = Bytes.ofUInt16 index ++ (Bytes.ofUInt32 length ++ body) ∧
      v.declared = length.toNat

theorem EndsAfter.eq {v : Visit} {m n : Nat} (hm : v.EndsAfter m) (hn : v.EndsAfter n) :
    m = n := by
  obtain ⟨hroom, hm⟩ := hm
  obtain ⟨hroom', hn⟩ := hn
  have hdrop : v.start.drop m = v.start.drop n := Except.ok.inj (hm.symm.trans hn)
  have hlen := congrArg List.length hdrop
  rw [List.length_drop, List.length_drop] at hlen
  omega

end Visit

/-! ## Code and bootstrap methods -/

theorem starves_readCode : Reader.Starves readCode :=
  .bind .u2 fun _ => .bind .u2 fun _ => .bind .u4 fun _ => .slice _

theorem starves_readBootstraps : Reader.Starves readBootstraps :=
  .bind .u2 fun _ => .times (.bind .u2 fun _ => .bind .u2 fun _ =>
    .bind (.times .u2 _) fun _ => .pure _) _

theorem beginsWithCode_iff {content : Bytes} :
    BeginsWithCode content ↔ ∃ p, readCode content = .ok p := by
  constructor
  · rintro ⟨maxStack, maxLocals, length, code, tail, hlen, rfl⟩
    have hreads : Reads readCode
        (Bytes.ofUInt16 maxStack ++ (Bytes.ofUInt16 maxLocals ++
          (Bytes.ofUInt32 length ++ code))) code :=
      (Reads.u2 _).bind <| (Reads.u2 _).bind <| (Reads.u4 _).bind <| .slice hlen
    have hread := hreads tail
    simp only [List.append_assoc] at hread
    exact ⟨_, hread⟩
  · rintro ⟨⟨code, tail⟩, h⟩
    simp only [readCode, Reader.bind_eq_ok, Reader.u2_eq_ok, Reader.u4_eq_ok,
      Reader.slice_eq_ok] at h
    obtain ⟨maxStack, _, rfl, maxLocals, _, rfl, length, _, rfl, hlen, rfl⟩ := h
    exact ⟨maxStack, maxLocals, length, code, tail, hlen, rfl⟩

instance (content : Bytes) : Decidable (BeginsWithCode content) :=
  decidable_of_iff (readCode content).isOk (Reader.isOk_iff.trans beginsWithCode_iff.symm)

theorem eq_encode_of_readBootstrap {s rest : Bytes} {b : BootstrapMethod}
    (h : readBootstrap s = .ok (b, rest)) :
    b.arguments.length < 65536 ∧ s = b.encode ++ rest := by
  obtain ⟨handle, s₁, hhandle, h⟩ := Reader.bind_eq_ok.1 h
  obtain ⟨count, s₂, hcount, h⟩ := Reader.bind_eq_ok.1 h
  obtain ⟨arguments, s₃, harguments, h⟩ := Reader.bind_eq_ok.1 h
  obtain ⟨rfl, rfl⟩ := Reader.pure_eq_ok.1 h
  have hcounted : (Reader.u2 >>= fun count => Reader.times Reader.u2 count.toNat) s₁
      = .ok (arguments, s₃) := Reader.bind_eq_ok.2 ⟨count, s₂, hcount, harguments⟩
  obtain ⟨hlen, -, rfl⟩ := Reader.eq_encodeList_of_counted (P := fun _ => True)
    (fun hword => ⟨trivial, Reader.u2_eq_ok.1 hword⟩) hcounted
  obtain rfl := Reader.u2_eq_ok.1 hhandle
  refine ⟨hlen, ?_⟩
  rw [BootstrapMethod.encode, List.append_assoc]

theorem beginsWithBootstraps_iff {content : Bytes} :
    BeginsWithBootstraps content ↔ ∃ p, readBootstraps content = .ok p := by
  constructor
  · rintro ⟨methods, tail, hlen, hmethods, rfl⟩
    exact ⟨_, reads_bootstraps hlen hmethods tail⟩
  · rintro ⟨⟨methods, tail⟩, h⟩
    obtain ⟨hlen, hmethods, rfl⟩ := Reader.eq_encodeList_of_counted eq_encode_of_readBootstrap h
    exact ⟨methods, tail, hlen, hmethods, rfl⟩

instance (content : Bytes) : Decidable (BeginsWithBootstraps content) :=
  decidable_of_iff (readBootstraps content).isOk
    (Reader.isOk_iff.trans beginsWithBootstraps_iff.symm)

instance (holder : Holder) (name : String) (content : Bytes) :
    Decidable (holder.Finds name content) :=
  match holder with
  | .field => inferInstanceAs (Decidable True)
  | .method => inferInstanceAs (Decidable (_ → _))
  | .cls => inferInstanceAs (Decidable (_ → _))

instance (v : Visit) : Decidable v.Fits :=
  decidable_of_iff
    (6 + v.declared ≤ v.start.length ∧ ¬ v.Overruns ∧ v.holder.Finds v.name v.content)
    ⟨fun ⟨room, index, finds⟩ => ⟨room, index, finds⟩, fun h => ⟨h.room, h.index, h.finds⟩⟩

/-! ## One payload -/

/-- How far an attribute reaches behind its head, unless it is refused. -/
def extent (name : String) (declared : Nat) : Nat :=
  if name = "Signature" then max 2 declared else declared

variable {pool : Pool}

/-- The ways to read a payload: for the index in front of it, as a frame of its own, or not
at all. -/
inductive ReadsAs {σ : Type} (pool : Pool) (holder : Holder) (name : String) (declared : Nat) :
    Reader σ → Prop
  | index (say : String → σ) (hname : name = "Signature") :
      ReadsAs pool holder name declared (readSignature pool declared >>= fun a => pure (say a))
  | frame {α : Type} {r : Reader α} (say : α → σ) (hname : name ≠ "Signature")
      (hstarves : Reader.Starves r)
      (hfinds : ∀ content, holder.Finds name content ↔ ∃ p, r content = .ok p) :
      ReadsAs pool holder name declared (Reader.within declared r >>= fun a => pure (say a))
  | skipped (said : σ) (hname : name ≠ "Signature")
      (hfinds : ∀ content, holder.Finds name content) :
      ReadsAs pool holder name declared (Reader.skip declared >>= fun _ => pure said)

theorem Holder.readsAs_readPayload (holder : Holder) (name : String) (declared : Nat)
    (said : holder.Said) :
    ReadsAs pool holder name declared (holder.readPayload pool name declared said) := by
  cases holder with
  | field =>
    show ReadsAs pool .field name declared (fieldAttribute pool name declared said)
    unfold fieldAttribute
    split
    · next hname => exact .index some hname
    · next hname => exact .skipped said hname fun _ => trivial
  | method =>
    show ReadsAs pool .method name declared (methodAttribute pool name declared said)
    unfold methodAttribute
    split
    · next hcode =>
      have hname : name ≠ "Signature" := by
        rw [hcode]
        decide
      refine .frame (fun code => { said with code := some code }) hname starves_readCode
        fun content => ?_
      rw [Finds, forall_prop_of_true hcode, beginsWithCode_iff]
    · next hcode =>
      split
      · next hname => exact .index (fun text => { said with signature := some text }) hname
      · next hname => exact .skipped said hname fun _ h => absurd h hcode
  | cls =>
    show ReadsAs pool .cls name declared (classAttribute pool name declared said)
    unfold classAttribute
    split
    · next hname => exact .index (fun text => { said with signature := some text }) hname
    · next hname =>
      split
      · next hbootstraps =>
        refine .frame (fun bootstraps => { said with bootstraps }) hname starves_readBootstraps
          fun content => ?_
        rw [Finds, forall_prop_of_true hbootstraps, beginsWithBootstraps_iff]
      · next hbootstraps => exact .skipped said hname fun _ h => absurd h hbootstraps

theorem takes_readSignature (declared : Nat) :
    Takes (readSignature pool declared) (max 2 declared) := by
  have htakes : Takes (readSignature pool declared) (2 + (0 + (declared - 2 + 0))) :=
    .bind .u2 fun _ => .bind (.ofExcept _) fun _ => .bind (.skip _) fun _ => .pure _
  have hlen : 2 + (0 + (declared - 2 + 0)) = max 2 declared := by omega
  rwa [hlen] at htakes

namespace ReadsAs

variable {σ : Type} {holder : Holder} {name : String} {declared : Nat} {r : Reader σ}

theorem takes (h : ReadsAs pool holder name declared r) : Takes r (extent name declared) := by
  unfold extent
  cases h with
  | index say hname =>
    rw [if_pos hname]
    exact .bind (takes_readSignature declared) fun _ => .pure _
  | frame say hname hstarves hfinds =>
    rw [if_neg hname]
    exact .bind (.within declared _) fun _ => .pure _
  | skipped said hname hfinds =>
    rw [if_neg hname]
    exact .bind (.skip declared) fun _ => .pure _

theorem starves (h : ReadsAs pool holder name declared r) (hother : name ≠ "Signature") :
    Reader.Starves r := by
  cases h with
  | index say hname => exact absurd hname hother
  | frame say hname hstarves hfinds => exact .bind (.within declared hstarves) fun _ => .pure _
  | skipped said hname hfinds => exact .bind (.skip declared) fun _ => .pure _

/-- A payload that is no signature is got past exactly if all its bytes are there and what
is looked for is in them. -/
theorem exists_ok_iff (h : ReadsAs pool holder name declared r) (hother : name ≠ "Signature")
    (body : Bytes) :
    (∃ p, r body = .ok p) ↔
      declared ≤ body.length ∧ holder.Finds name (body.take declared) := by
  cases h with
  | index say hname => exact absurd hname hother
  | frame say hname hstarves hfinds =>
    rw [Reader.exists_bind_pure_iff, Reader.exists_within_iff, hfinds]
  | skipped said hname hfinds =>
    rw [Reader.exists_bind_pure_iff, Reader.exists_skip_iff]
    exact (and_iff_left (hfinds _)).symm

end ReadsAs

/-! ## One attribute -/

theorem takes_attributeHead : Takes (attributeHead pool) 6 :=
  .bind .u2 fun _ => .bind (.ofExcept _) fun _ => .bind .u4 fun _ => .pure _

theorem eq_of_attributeHead {s body : Bytes} {name : String} {declared : Nat}
    (h : attributeHead pool s = .ok ((name, declared), body)) :
    ∃ index length, s = Bytes.ofUInt16 index ++ (Bytes.ofUInt32 length ++ body) ∧
      declared = length.toNat := by
  simp only [attributeHead, Reader.bind_eq_ok, Reader.u2_eq_ok, Reader.ofExcept_eq_ok,
    Reader.u4_eq_ok, Reader.pure_eq_ok, Prod.mk.injEq] at h
  obtain ⟨index, _, rfl, _, _, ⟨-, rfl⟩, length, _, rfl, ⟨rfl, rfl⟩, rfl⟩ := h
  exact ⟨index, length, rfl, rfl⟩

namespace Visit

variable {v : Visit} {rest : Bytes}

theorem extent_of_not_overruns (h : ¬ v.Overruns) : extent v.name v.declared = v.declared := by
  unfold extent
  split
  · next hname =>
    have hlen : ¬ v.declared < 2 := fun hlt => h ⟨hname, hlt⟩
    omega
  · rfl

theorem Overruns.extent_eq (h : v.Overruns) : extent v.name v.declared = 2 := by
  obtain ⟨hname, hlt⟩ := h
  rw [extent, if_pos hname]
  omega

namespace Occurs

theorem exists_head (h : v.Occurs) : ∃ index length body,
    v.start = Bytes.ofUInt16 index ++ (Bytes.ofUInt32 length ++ body) ∧
      v.declared = length.toNat := by
  obtain ⟨pool, said, body, hhead, -⟩ := h
  obtain ⟨index, length, hstart, hdeclared⟩ := eq_of_attributeHead hhead
  exact ⟨index, length, body, hstart, hdeclared⟩

theorem endsAfter (h : v.Occurs) (hnext : v.next = .ok rest) :
    v.EndsAfter (6 + extent v.name v.declared) := by
  obtain ⟨pool, said, body, hhead, hread⟩ := h
  rw [hread, Reader.map_snd_eq_ok] at hnext
  obtain ⟨said', hpayload⟩ := hnext
  obtain ⟨hsix, rfl⟩ := takes_attributeHead.eq_drop hhead
  obtain ⟨hlen, rfl⟩ := (v.holder.readsAs_readPayload v.name v.declared said).takes.eq_drop hpayload
  rw [List.length_drop] at hlen
  refine ⟨by omega, ?_⟩
  rw [hread, hpayload, List.drop_drop]
  rfl

theorem endsAfter_declared_iff (h : v.Occurs) (hnext : v.next = .ok rest) :
    v.EndsAfter (6 + v.declared) ↔ ¬ v.Overruns := by
  have hends := h.endsAfter hnext
  constructor
  · intro hdeclared hover
    have hsame := hdeclared.eq hends
    rw [hover.extent_eq] at hsame
    have hshort : v.declared < 2 := hover.2
    omega
  · intro hover
    rwa [extent_of_not_overruns hover] at hends

theorem endsAfter_of_overruns (h : v.Occurs) (hnext : v.next = .ok rest) (hover : v.Overruns) :
    v.EndsAfter 8 := by
  have hends := h.endsAfter hnext
  rwa [hover.extent_eq] at hends

theorem eq_unexpectedEnd (h : v.Occurs) (hname : v.name ≠ "Signature") {e : ReadError}
    (hnext : v.next = .error e) : e = .unexpectedEnd := by
  obtain ⟨pool, said, body, -, hread⟩ := h
  rw [hread, Reader.map_snd_eq_error] at hnext
  exact (v.holder.readsAs_readPayload v.name v.declared said).starves hname hnext

theorem exists_next_iff (h : v.Occurs) (hname : v.name ≠ "Signature") :
    (∃ rest, v.next = .ok rest) ↔ v.Fits := by
  obtain ⟨pool, said, body, hhead, hread⟩ := h
  obtain ⟨hsix, rfl⟩ := takes_attributeHead.eq_drop hhead
  calc (∃ rest, v.next = .ok rest)
    _ ↔ ∃ p, v.holder.readPayload pool v.name v.declared said (v.start.drop 6) = .ok p := by
      simp only [hread, Reader.map_snd_eq_ok, Prod.exists]
      exact exists_comm
    _ ↔ v.declared ≤ (v.start.drop 6).length ∧ v.holder.Finds v.name v.content :=
      (v.holder.readsAs_readPayload v.name v.declared said).exists_ok_iff hname _
    _ ↔ v.Fits := by
      rw [List.length_drop]
      constructor
      · rintro ⟨hlen, hfinds⟩
        exact ⟨by omega, fun hover => hname hover.1, hfinds⟩
      · intro hfits
        have hroom := hfits.room
        exact ⟨by omega, hfits.finds⟩

theorem fits (h : v.Occurs) (hnext : v.next = .ok rest) (hover : ¬ v.Overruns) : v.Fits := by
  by_cases hname : v.name = "Signature"
  · have hends := (h.endsAfter_declared_iff hnext).2 hover
    refine ⟨hends.1, hover, ?_⟩
    rw [hname]
    exact v.holder.finds_signature v.content
  · exact (h.exists_next_iff hname).1 ⟨rest, hnext⟩

theorem endsAfter_of_fits (h : v.Occurs) (hname : v.name ≠ "Signature") (hfits : v.Fits) :
    v.EndsAfter (6 + v.declared) := by
  obtain ⟨rest, hnext⟩ := (h.exists_next_iff hname).2 hfits
  exact (h.endsAfter_declared_iff hnext).2 hfits.index

end Occurs
end Visit

/-! ## The declared length decides -/

/-- A table that is read has each attribute visited, one behind the other.  And of every
attribute that the reading of a file comes to: in a file that is accepted the reading goes on
where the declared length says, unless it is a signature that overruns it; and any other
attribute that does not fit its declared length has the file refused. -/
theorem attributes_end_as_declared (bytes : Bytes) :
    Layout.tour.answer bytes = Layout.read bytes ∧
    (∀ pool (holder : Holder) n (said said' : holder.Said) s rest,
      readAttributes pool (holder.readPayload pool) n said s = .ok (said', rest) →
        ((tourAttributes pool holder n said).visits s).length = n ∧
          Tiles rest s ((tourAttributes pool holder n said).visits s)) ∧
    ∀ v ∈ Layout.tour.visits bytes, v.LiesIn bytes ∧
      (∀ s, parse bytes = .ok s →
        (v.EndsAfter (6 + v.declared) ↔ ¬ v.Overruns) ∧ (v.Overruns → v.EndsAfter 8)) ∧
      (¬ v.Overruns → ¬ v.Fits →
        ∃ e, parse bytes = .error e ∧ (v.name ≠ "Signature" → e = .unexpectedEnd)) ∧
      (v.name ≠ "Signature" → v.Fits → v.EndsAfter (6 + v.declared)) := by
  refine ⟨recounts_tour.answer bytes, ?_, fun v hv => ?_⟩
  · intro pool holder n said said' s rest hread
    rw [← (recounts_tourAttributes holder n said).answer s] at hread
    exact tiles_tourAttributes hread
  obtain ⟨hoccurs, hstart, hrefused⟩ := recounts_tour.visit hv
  refine ⟨⟨hstart, hoccurs.exists_head⟩, ?_, ?_, hoccurs.endsAfter_of_fits⟩
  · intro s hs
    obtain ⟨layout, rest, hread, -⟩ := parse_eq_ok hs
    cases hnext : v.next with
    | error e =>
      have herror := hrefused e hnext
      rw [hread] at herror
      cases herror
    | ok next =>
      exact ⟨hoccurs.endsAfter_declared_iff hnext, hoccurs.endsAfter_of_overruns hnext⟩
  · intro hover hfits
    cases hnext : v.next with
    | error e =>
      refine ⟨e, ?_, fun hname => hoccurs.eq_unexpectedEnd hname hnext⟩
      rw [parse, hrefused e hnext]
      rfl
    | ok next => exact absurd (hoccurs.fits hnext hover) hfits

namespace Sample

open File.Sample (notedBox)

/-- A class with one field, and a signature of it that declares `declared` bytes.  Behind
its head are two bytes, and then no methods and no attributes of the class. -/
def signed (declared : UInt32) : Bytes :=
  Bytes.ofUInt32 magic ++ [0, 0, 0, 52] ++
    [0, 6, 1, 0, 1, 65, 7, 0, 1, 1, 0, 1, 120, 1, 0, 1, 73] ++
    [1, 0, 9, 83, 105, 103, 110, 97, 116, 117, 114, 101] ++
    [0, 33, 0, 2, 0, 0, 0, 0] ++ [0, 1, 0, 2, 0, 3, 0, 4, 0, 1] ++
    [0, 5] ++ Bytes.ofUInt32 declared ++ [0, 1] ++
    [0, 0, 0, 0]

/-- Two attributes of a field, and a byte behind them. -/
def notes : Bytes := [0, 1, 0, 0, 0, 2, 7, 8, 0, 1, 0, 0, 0, 0, 9]

theorem attributes_end_as_declared_notedBox :
    ((tourAttributes ⟨#[.unusable, .utf8 "Note"]⟩ .field 2 none).visits notes).length = 2 ∧
      parse notedBox.encode = .ok notedBox.summary ∧
      (Layout.tour.visits notedBox.encode).map (fun v => (v.name, v.declared)) =
        [("Note", 3), ("Signature", 2), ("Note", 3), ("Code", 24), ("Note", 3), ("Code", 19),
          ("Note", 3), ("Code", 13), ("Note", 3), ("BootstrapMethods", 12)] ∧
      (∀ v ∈ Layout.tour.visits notedBox.encode, v.EndsAfter (6 + v.declared)) ∧
      (∃ v ∈ Layout.tour.visits notedBox.encode, v.name = "Code" ∧ v.Fits ∧
        v.EndsAfter (6 + v.declared)) ∧
      ∃ v ∈ Layout.tour.visits (signed 9), ¬ v.Overruns ∧ ¬ v.Fits ∧
        ∃ e, parse (signed 9) = .error e := by
  have hbox : notedBox.Valid := by decide +kernel
  have hparse := File.parse_eq_summary hbox
  obtain ⟨-, htables, hvisits⟩ := attributes_end_as_declared notedBox.encode
  refine ⟨?_, hparse, by decide +kernel, ?_, ?_, ?_⟩
  · have hread : readAttributes ⟨#[.unusable, .utf8 "Note"]⟩
        (Holder.field.readPayload ⟨#[.unusable, .utf8 "Note"]⟩) 2 none notes
          = .ok (none, [9]) := by
      decide +kernel
    exact (htables _ .field 2 none none notes [9] hread).1
  · have hnone : ∀ v ∈ Layout.tour.visits notedBox.encode, ¬ v.Overruns := by decide +kernel
    intro v hv
    obtain ⟨-, haccepted, -, -⟩ := hvisits v hv
    exact (haccepted notedBox.summary hparse).1.2 (hnone v hv)
  · have hcode : ∃ v ∈ Layout.tour.visits notedBox.encode, v.name = "Code" ∧ v.Fits := by
      decide +kernel
    obtain ⟨v, hv, hname, hfits⟩ := hcode
    obtain ⟨-, -, -, hends⟩ := hvisits v hv
    have hother : v.name ≠ "Signature" := by
      rw [hname]
      decide
    exact ⟨v, hv, hname, hfits, hends hother hfits⟩
  · have hlong : ∃ v ∈ Layout.tour.visits (signed 9), ¬ v.Overruns ∧ ¬ v.Fits := by
      decide +kernel
    obtain ⟨v, hv, hover, hfits⟩ := hlong
    obtain ⟨-, -, hrefused, -⟩ := (attributes_end_as_declared (signed 9)).2.2 v hv
    obtain ⟨e, he, -⟩ := hrefused hover hfits
    exact ⟨v, hv, hover, hfits, e, he⟩

/-- A signature that declares no bytes: the file is accepted, though the index does not fit
and the reading goes on two bytes behind the declared end. -/
theorem empty_signature_overrun :
    (parse (signed 0)).isOk ∧
      ∃ v ∈ Layout.tour.visits (signed 0), v.name = "Signature" ∧ v.declared = 0 ∧ ¬ v.Fits ∧
        ¬ v.EndsAfter (6 + v.declared) ∧ v.EndsAfter 8 := by
  decide +kernel

end Sample
end ClassFile
end Lineage
