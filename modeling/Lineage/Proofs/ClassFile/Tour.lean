import Lineage.Proofs.ClassFile.Ending
import Lineage.Proofs.ClassFile.Outcomes

/-!
The attributes that a reading comes to.

A tour reads what a reader reads and notes each attribute that it comes to: where the
attribute begins, the length it declares, and where the reading goes on behind it.  Notes
are kept when a tour fails, so they tell of refused files as well.

Every step of a tour that is not the reading of an attribute is a step of the reader, so
the two give the same answer, and the reader fails of an attribute that the tour notes as
refused (`recounts_tour`).  In a table that is read to its end no attribute is left out, and
each begins where the reading goes on behind the one before (`tiles_tourAttributes`).
-/

namespace Lineage
namespace ClassFile

open Reader (Delimits)

/-! ## Visits -/

/-- What a table of attributes belongs to. -/
inductive Holder where
  | field
  | method
  | cls
  deriving DecidableEq, Repr

namespace Holder

/-- What the attributes of the holder say. -/
abbrev Said : Holder → Type
  | field => Option String
  | method => MethodAttributes
  | cls => ClassAttributes

/-- What reads the payload of an attribute of the holder. -/
def readPayload (pool : Pool) :
    (holder : Holder) → String → Nat → holder.Said → Reader holder.Said
  | field => fieldAttribute pool
  | method => methodAttribute pool
  | cls => classAttribute pool

theorem delimits_readPayload {pool : Pool} (holder : Holder) (name : String) (declared : Nat)
    (said : holder.Said) : Delimits (holder.readPayload pool name declared said) := by
  cases holder with
  | field => exact delimits_fieldAttribute name declared said
  | method => exact delimits_methodAttribute name declared said
  | cls => exact delimits_classAttribute name declared said

end Holder

/-- The head of an attribute: its name and the length it declares. -/
def attributeHead (pool : Pool) : Reader (String × Nat) := do
  let index ← Reader.u2
  let name ← Reader.ofExcept (pool.utf8 index)
  let length ← Reader.u4
  pure (name, length.toNat)

theorem delimits_attributeHead {pool : Pool} : Delimits (attributeHead pool) :=
  .bind .u2 fun _ => .bind (.ofExcept _) fun _ => .bind .u4 fun _ => .pure _

/-- An attribute that a reading has come to. -/
structure Visit where
  holder : Holder
  name : String
  declared : Nat
  /-- What is left of the file where the attribute begins. -/
  start : Bytes
  /-- What is left when the next attribute or structure is read, or why none is. -/
  next : Except ReadError Bytes

/-- The visit is what its holder makes of what is left. -/
def Visit.Occurs (v : Visit) : Prop :=
  ∃ pool said body, attributeHead pool v.start = .ok ((v.name, v.declared), body) ∧
    v.next = (v.holder.readPayload pool v.name v.declared said body).map Prod.snd

/-- The visits lie one behind the other, the first at `s`, and the reading goes on at `rest`
behind the last. -/
def Tiles (rest : Bytes) : Bytes → List Visit → Prop
  | s, [] => s = rest
  | s, v :: vs => v.start = s ∧ ∃ next, v.next = .ok next ∧ Tiles rest next vs

/-! ## Tours -/

/-- A reading with the attributes it comes to, whether it fails afterwards or not. -/
def Tour (α : Type) : Type := Bytes → Except ReadError (α × Bytes) × List Visit

namespace Tour

variable {α β : Type}

def answer (x : Tour α) (s : Bytes) : Except ReadError (α × Bytes) := (x s).1

def visits (x : Tour α) (s : Bytes) : List Visit := (x s).2

protected def bind (x : Tour α) (f : α → Tour β) : Tour β := fun s =>
  match x s with
  | (.ok (a, rest), visits) =>
    let (answer, more) := f a rest
    (answer, visits ++ more)
  | (.error e, visits) => (.error e, visits)

instance : Monad Tour where
  pure a s := (.ok (a, s), [])
  bind := Tour.bind

theorem answer_bind (x : Tour α) (f : α → Tour β) (s : Bytes) :
    (x >>= f).answer s = (x.answer s >>= fun p => (f p.1).answer p.2) := by
  show (Tour.bind x f s).1 = ((x s).1 >>= fun p => (f p.1).answer p.2)
  unfold Tour.bind
  obtain ⟨_ | _, visits⟩ := x s <;> rfl

theorem visits_bind_of_ok {x : Tour α} {f : α → Tour β} {s rest : Bytes} {a : α}
    (h : x.answer s = .ok (a, rest)) :
    (x >>= f).visits s = x.visits s ++ (f a).visits rest := by
  have hx : x s = (.ok (a, rest), x.visits s) := Prod.ext h rfl
  show (Tour.bind x f s).2 = _
  rw [Tour.bind, hx]
  rfl

theorem visits_bind_of_error {x : Tour α} {f : α → Tour β} {s : Bytes} {e : ReadError}
    (h : x.answer s = .error e) : (x >>= f).visits s = x.visits s := by
  have hx : x s = (.error e, x.visits s) := Prod.ext h rfl
  show (Tour.bind x f s).2 = _
  rw [Tour.bind, hx]

/-- Read on, past no attribute. -/
def onward (r : Reader α) : Tour α := fun s => (r s, [])

instance : MonadLift Reader Tour where
  monadLift := onward

def times (x : Tour α) : Nat → Tour (List α)
  | 0 => pure []
  | n + 1 => do
    let a ← x
    let as ← times x n
    pure (a :: as)

end Tour

/-! ## The tour of a class -/

def tourAttribute (pool : Pool) (holder : Holder) (said : holder.Said) : Tour holder.Said :=
  fun s =>
    match attributeHead pool s with
    | .error e => (.error e, [])
    | .ok ((name, declared), body) =>
      let read := holder.readPayload pool name declared said body
      (read, [{ holder, name, declared, start := s, next := read.map Prod.snd }])

def tourAttributes (pool : Pool) (holder : Holder) : Nat → holder.Said → Tour holder.Said
  | 0, said => pure said
  | n + 1, said => do
    let said ← tourAttribute pool holder said
    tourAttributes pool holder n said

def tourField (pool : Pool) : Tour FieldLayout := do
  let access ← Reader.u2
  let name ← Reader.u2
  let name ← Reader.ofExcept (pool.utf8 name)
  let descriptor ← Reader.u2
  let descriptor ← Reader.ofExcept (pool.utf8 descriptor)
  let count ← Reader.u2
  let signature ← tourAttributes pool .field count.toNat none
  pure { access := ⟨access⟩, name, descriptor, signature }

def tourMethod (pool : Pool) : Tour MethodLayout := do
  let access ← Reader.u2
  let name ← Reader.u2
  let name ← Reader.ofExcept (pool.utf8 name)
  let descriptor ← Reader.u2
  let descriptor ← Reader.ofExcept (pool.utf8 descriptor)
  let count ← Reader.u2
  let said ← tourAttributes pool .method count.toNat { signature := none, code := none }
  pure { access := ⟨access⟩, name, descriptor, signature := said.signature, code := said.code }

def Layout.tour : Tour Layout := do
  readMagic
  let _minor ← Reader.u2
  let _major ← Reader.u2
  let pool ← Pool.read
  let access ← Reader.u2
  let thisClass ← Reader.u2
  let superClass ← Reader.u2
  let name ← Reader.ofExcept (pool.className thisClass)
  let superName ← Reader.ofExcept (pool.className? superClass)
  let count ← Reader.u2
  let interfaces ← Reader.times (readInterface pool) count.toNat
  let count ← Reader.u2
  let fields ← Tour.times (tourField pool) count.toNat
  let count ← Reader.u2
  let methods ← Tour.times (tourMethod pool) count.toNat
  let count ← Reader.u2
  let said ← tourAttributes pool .cls count.toNat { signature := none, bootstraps := [] }
  pure
    { pool, access := ⟨access⟩, name, superName, interfaces, fields, methods,
      signature := said.signature, bootstraps := said.bootstraps }

/-! ## A tour recounts what is read -/

/-- A successful reader leaves the end of what it was given. -/
theorem Reader.Delimits.isSuffix {α : Type} {r : Reader α} (hr : Delimits r) {s rest : Bytes}
    {a : α} (h : r s = .ok (a, rest)) : rest <:+ s := by
  obtain ⟨bytes, hs, -⟩ := hr h
  exact ⟨bytes, hs.symm⟩

namespace Tour

variable {α β : Type} {x : Tour α} {r : Reader α}

/-- The tour reads what `r` reads.  The attributes that it notes occur in what it was
given, and if one of them is refused then this is what `r` fails of. -/
structure Recounts (x : Tour α) (r : Reader α) : Prop where
  answer : ∀ s, x.answer s = r s
  delimits : Delimits r
  visit : ∀ ⦃s v⦄, v ∈ x.visits s →
    v.Occurs ∧ v.start <:+ s ∧ ∀ e, v.next = .error e → r s = .error e

namespace Recounts

theorem onward (hr : Delimits r) : Recounts (onward r) r where
  answer _ := rfl
  delimits := hr
  visit s v hv := by cases hv

theorem pure (a : α) : Recounts (Pure.pure a) (Pure.pure a) where
  answer _ := rfl
  delimits := .pure a
  visit s v hv := by cases hv

theorem bind {f : α → Tour β} {g : α → Reader β} (hx : Recounts x r)
    (hf : ∀ a, Recounts (f a) (g a)) : Recounts (x >>= f) (r >>= g) where
  answer s := by
    rw [answer_bind, hx.answer]
    show _ = (r s >>= fun p => g p.1 p.2)
    cases r s with
    | error e => rfl
    | ok p => exact (hf p.1).answer p.2
  delimits := hx.delimits.bind fun a => (hf a).delimits
  visit s v hv := by
    show _ ∧ _ ∧ ∀ e, v.next = .error e → (r s >>= fun p => g p.1 p.2) = .error e
    have hanswer := hx.answer s
    cases hs : r s with
    | error e =>
      rw [hs] at hanswer
      rw [visits_bind_of_error hanswer] at hv
      obtain ⟨hoccurs, hstart, hrefused⟩ := hx.visit hv
      rw [hs] at hrefused
      exact ⟨hoccurs, hstart, fun e' he' => by cases hrefused e' he'; rfl⟩
    | ok p =>
      rw [hs] at hanswer
      rw [visits_bind_of_ok hanswer] at hv
      obtain hv | hv := List.mem_append.1 hv
      · -- `x` went on, so nothing that it noted was refused
        obtain ⟨hoccurs, hstart, hrefused⟩ := hx.visit hv
        rw [hs] at hrefused
        exact ⟨hoccurs, hstart, fun e he => by cases hrefused e he⟩
      · obtain ⟨hoccurs, hstart, hrefused⟩ := (hf p.1).visit hv
        exact ⟨hoccurs, hstart.trans (hx.delimits.isSuffix hs), hrefused⟩

theorem times (hx : Recounts x r) (n : Nat) : Recounts (times x n) (Reader.times r n) := by
  induction n with
  | zero => exact .pure []
  | succ n ih => exact hx.bind fun _ => ih.bind fun _ => .pure _

end Recounts
end Tour

open Tour (Recounts)

variable {pool : Pool}

theorem recounts_tourAttribute (holder : Holder) (said : holder.Said) :
    Recounts (tourAttribute pool holder said)
      (attributeHead pool >>= fun head => holder.readPayload pool head.1 head.2 said) where
  answer s := by
    show (tourAttribute pool holder said s).1
      = (attributeHead pool s >>= fun p => holder.readPayload pool p.1.1 p.1.2 said p.2)
    unfold tourAttribute
    cases attributeHead pool s <;> rfl
  delimits := delimits_attributeHead.bind fun _ => holder.delimits_readPayload _ _ said
  visit s v hv := by
    show _ ∧ _ ∧ ∀ e, v.next = .error e →
      (attributeHead pool s >>= fun p => holder.readPayload pool p.1.1 p.1.2 said p.2) = .error e
    change v ∈ (tourAttribute pool holder said s).2 at hv
    unfold tourAttribute at hv
    cases hhead : attributeHead pool s with
    | error e =>
      rw [hhead] at hv
      cases hv
    | ok p =>
      obtain ⟨⟨name, declared⟩, body⟩ := p
      rw [hhead] at hv
      obtain rfl := List.mem_singleton.1 hv
      exact ⟨⟨pool, said, body, hhead, rfl⟩, List.suffix_refl s,
        fun e hnext => Reader.map_snd_eq_error.1 hnext⟩

theorem recounts_tourAttributes (holder : Holder) (n : Nat) (said : holder.Said) :
    Recounts (tourAttributes pool holder n said)
      (readAttributes pool (holder.readPayload pool) n said) := by
  induction n generalizing said with
  | zero => exact .pure said
  | succ n ih =>
    have hstep : readAttributes pool (holder.readPayload pool) (n + 1) said
        = (attributeHead pool >>= fun head => holder.readPayload pool head.1 head.2 said) >>=
            readAttributes pool (holder.readPayload pool) n := by
      simp only [readAttributes, attributeHead, bind_assoc, pure_bind]
    rw [hstep]
    exact (recounts_tourAttribute holder said).bind ih

theorem exists_visits_tourAttribute {holder : Holder} {said said' : holder.Said} {s rest : Bytes}
    (h : (tourAttribute pool holder said).answer s = .ok (said', rest)) :
    ∃ v, (tourAttribute pool holder said).visits s = [v] ∧ v.start = s ∧ v.next = .ok rest := by
  change (tourAttribute pool holder said s).1 = .ok (said', rest) at h
  show ∃ v, (tourAttribute pool holder said s).2 = [v] ∧ _
  unfold tourAttribute at h ⊢
  cases hhead : attributeHead pool s with
  | error e =>
    rw [hhead] at h
    cases h
  | ok p =>
    obtain ⟨⟨name, declared⟩, body⟩ := p
    rw [hhead] at h
    exact ⟨_, rfl, rfl, Reader.map_snd_eq_ok.2 ⟨said', h⟩⟩

/-- All attributes of a table are visited, and each begins where the reading goes on behind
the one before. -/
theorem tiles_tourAttributes {holder : Holder} {n : Nat} {said said' : holder.Said}
    {s rest : Bytes} (h : (tourAttributes pool holder n said).answer s = .ok (said', rest)) :
    ((tourAttributes pool holder n said).visits s).length = n ∧
      Tiles rest s ((tourAttributes pool holder n said).visits s) := by
  induction n generalizing said s with
  | zero =>
    cases h
    exact ⟨rfl, rfl⟩
  | succ n ih =>
    rw [tourAttributes, Tour.answer_bind] at h
    cases hfirst : (tourAttribute pool holder said).answer s with
    | error e =>
      rw [hfirst] at h
      cases h
    | ok p =>
      obtain ⟨said₁, mid⟩ := p
      rw [hfirst] at h
      obtain ⟨hlen, htiles⟩ := ih h
      obtain ⟨v, hvisits, hstart, hnext⟩ := exists_visits_tourAttribute hfirst
      rw [tourAttributes, Tour.visits_bind_of_ok hfirst, hvisits, List.singleton_append,
        List.length_cons, hlen]
      exact ⟨rfl, hstart, mid, hnext, htiles⟩

theorem recounts_tourField : Recounts (tourField pool) (readField pool) :=
  .bind (.onward .u2) fun _ =>
    .bind (.onward .u2) fun _ => .bind (.onward (.ofExcept _)) fun _ =>
    .bind (.onward .u2) fun _ => .bind (.onward (.ofExcept _)) fun _ =>
    .bind (.onward .u2) fun _ => .bind (recounts_tourAttributes .field _ _) fun _ => .pure _

theorem recounts_tourMethod : Recounts (tourMethod pool) (readMethod pool) :=
  .bind (.onward .u2) fun _ =>
    .bind (.onward .u2) fun _ => .bind (.onward (.ofExcept _)) fun _ =>
    .bind (.onward .u2) fun _ => .bind (.onward (.ofExcept _)) fun _ =>
    .bind (.onward .u2) fun _ => .bind (recounts_tourAttributes .method _ _) fun _ => .pure _

theorem recounts_tour : Recounts Layout.tour Layout.read :=
  .bind (.onward delimits_readMagic) fun _ =>
    .bind (.onward .u2) fun _ => .bind (.onward .u2) fun _ =>
    .bind (.onward delimits_pool) fun _ =>
    .bind (.onward .u2) fun _ => .bind (.onward .u2) fun _ => .bind (.onward .u2) fun _ =>
    .bind (.onward (.ofExcept _)) fun _ => .bind (.onward (.ofExcept _)) fun _ =>
    .bind (.onward .u2) fun _ => .bind (.onward (.times delimits_readInterface _)) fun _ =>
    .bind (.onward .u2) fun _ => .bind (.times recounts_tourField _) fun _ =>
    .bind (.onward .u2) fun _ => .bind (.times recounts_tourMethod _) fun _ =>
    .bind (.onward .u2) fun _ => .bind (recounts_tourAttributes .cls _ _) fun _ => .pure _

end ClassFile
end Lineage
