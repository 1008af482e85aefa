import Lineage.Metadata.Decode
import Lineage.Metadata.Encode
import Lineage.Proofs.Json.RoundTrip
import Lineage.Proofs.Tables

/-!
Metadata read back from the text it is written as.

Each entry is an object whose members are some of a fixed list of slots.  A slot
that is left out is read as the value that it was left out for: no value, an
empty list or table, or an access word without bits.
-/

namespace Lineage
namespace Metadata

open JsonValue
open Std (ExtTreeMap ExtTreeSet)

theorem mapM_map_eq_some {α β γ : Type} {f : α → β} {g : β → Option γ} {h : α → γ} {l : List α}
    (hl : ∀ a ∈ l, g (f a) = some (h a)) : (l.map f).mapM g = some (l.map h) := by
  induction l with
  | nil => rfl
  | cons a l ih =>
    rw [List.map_cons, List.mapM_cons, hl a List.mem_cons_self,
      ih fun b hb => hl b (List.mem_cons_of_mem a hb)]
    rfl

/-! ## Slots -/

abbrev Slots := List (String × Option JsonValue)

/-- The members of the slots that have a value. -/
def present (slots : Slots) : Members :=
  slots.filterMap fun s => s.2.map (s.1, ·)

/-- A value, unless it would say nothing. -/
def filled (silent : Bool) (v : JsonValue) : Option JsonValue := if silent then none else some v

theorem present_nil : present [] = [] := rfl

theorem present_cons (s : String × Option JsonValue) (slots : Slots) :
    present (s :: slots) = s.2.toList.map (s.1, ·) ++ present slots := by
  rw [present, List.filterMap_cons]
  cases s.2 <;> rfl

section Members

variable {α : Type} (name : String) (encode : α → JsonValue)

theorem someMember_eq (o : Option α) :
    someMember name encode o = present [(name, o.map encode)] := by
  cases o <;> rfl

theorem listMember_eq (items : List α) :
    listMember name encode items =
      present [(name, filled items.isEmpty (.array (items.map encode)))] := by
  cases items <;> rfl

theorem accessMember_eq (a : Access) :
    accessMember a = present [("access", filled a.isEmpty (.ofNat a.bits.toNat))] := by
  unfold accessMember filled
  cases a.isEmpty <;> rfl

theorem tableMember_eq (t : ExtTreeMap String α) :
    tableMember name encode t = present [(name, filled t.isEmpty (encodeTable encode t))] := by
  unfold tableMember filled
  cases t.isEmpty <;> rfl

end Members

theorem filter_present_of_not_mem {slots : Slots} {name : String}
    (hname : name ∉ slots.map Prod.fst) :
    (present slots).filter (fun m => m.1 == name) = [] := by
  refine List.filter_eq_nil_iff.mpr fun m hm he => hname ?_
  obtain ⟨s, hs, hsm⟩ := List.mem_filterMap.mp hm
  obtain ⟨v, _, rfl⟩ := Option.map_eq_some_iff.mp hsm
  exact List.mem_map.mpr ⟨s, hs, beq_iff_eq.mp he⟩

theorem filter_present {slots : Slots}
    (hn : (slots.map Prod.fst).Nodup) {s : String × Option JsonValue} (hs : s ∈ slots) :
    (present slots).filter (fun m => m.1 == s.1) = s.2.toList.map (s.1, ·) := by
  induction slots with
  | nil => cases hs
  | cons t slots ih =>
    rw [List.map_cons, List.nodup_cons] at hn
    rw [present_cons, List.filter_append]
    rcases List.mem_cons.mp hs with rfl | hs
    · have hself : s.2.toList.filter ((fun m => m.1 == s.1) ∘ (s.1, ·)) = s.2.toList :=
        List.filter_eq_self.mpr fun _ _ => beq_self_eq_true s.1
      rw [filter_present_of_not_mem hn.1, List.append_nil, List.filter_map, hself]
    · have hne : t.1 ≠ s.1 := fun h => hn.1 (List.mem_map.mpr ⟨s, hs, h.symm⟩)
      rw [ih hn.2 hs, List.filter_map]
      simp [Function.comp_def, hne]

/-- The slots are read from the members by their names. -/
theorem values?_present {slots : Slots}
    (hn : (slots.map Prod.fst).Nodup) :
    values? (slots.map Prod.fst) (.ofMembers (present slots)) = some (slots.map Prod.snd) := by
  have hmembers : ((present slots).map fun m => (chars m.1, m.2)).mapM
      (fun m => (text? m.1).map fun name => (name, m.2)) = some (present slots) := by
    refine (mapM_map_eq_some fun m _ => ?_).trans (congrArg some (List.map_id _))
    rw [text?_chars]
    rfl
  rw [ofMembers, values?, hmembers]
  refine mapM_map_eq_some fun s hs => ?_
  rw [member?, filter_present hn hs]
  cases s.2 <;> rfl

/-! ## Values of slots -/

/-- A decoder that reads what an encoder writes. -/
structure Codec {α : Type} (encode : α → JsonValue) (decode : JsonValue → Option α) : Prop where
  reads : ∀ a, decode (encode a) = some a
  plain : ∀ a, Plain (encode a)
  rejectsNull : decode .null = none

namespace Codec

variable {α : Type} {encode : α → JsonValue} {decode : JsonValue → Option α}

theorem required (c : Codec encode decode) (a : α) :
    Metadata.required decode (some (encode a)) = some a :=
  c.reads a

theorem optional (c : Codec encode decode) (o : Option α) :
    Metadata.optional decode (o.map encode) = some o := by
  cases o with
  | none => rfl
  | some a =>
    have hnull : encode a ≠ .null := by
      intro h
      have hread := c.reads a
      rw [h, c.rejectsNull] at hread
      cases hread
    rw [Option.map_some, Metadata.optional]
    · rw [c.reads]
      rfl
    · exact hnull

/-- What is left out is the value that stands in for it. -/
theorem defaulted (c : Codec encode decode) {default a : α} {silent : Bool}
    (h : silent = true → a = default) :
    Metadata.defaulted default decode (filled silent (encode a)) = some a := by
  cases silent with
  | false => exact c.reads a
  | true => exact congrArg some (h rfl).symm

theorem plain_some (c : Codec encode decode) (a : α) : ∀ v ∈ some (encode a), Plain v :=
  fun _ hv => Option.some.inj hv ▸ c.plain a

theorem plain_map (c : Codec encode decode) (o : Option α) :
    ∀ v ∈ o.map encode, Plain v := fun _ hv => by
  obtain ⟨a, _, rfl⟩ := Option.map_eq_some_iff.mp hv
  exact c.plain a

theorem plain_filled (c : Codec encode decode) (silent : Bool) (a : α) :
    ∀ v ∈ filled silent (encode a), Plain v := by
  cases silent with
  | false => exact c.plain_some a
  | true => exact fun _ hv => nomatch hv

theorem list (c : Codec encode decode) :
    Codec (fun as => .array (as.map encode)) (list? decode) where
  reads as := (mapM_map_eq_some fun a _ => c.reads a).trans (congrArg some (List.map_id as))
  plain as := .array fun v hv => by
    obtain ⟨a, _, rfl⟩ := List.mem_map.mp hv
    exact c.plain a
  rejectsNull := rfl

theorem table (c : Codec encode decode) : Codec (encodeTable encode) (table? decode) where
  reads t := by
    have hentries : ((t.toList.map fun e => (e.1, encode e.2)).map fun m => (chars m.1, m.2)).mapM
        (fun m => do
          let name ← text? m.1
          let entry ← decode m.2
          some (name, entry)) = some t.toList := by
      rw [List.map_map]
      refine (mapM_map_eq_some fun e _ => ?_).trans (congrArg some (List.map_id _))
      simp [text?_chars, c.reads]
    rw [encodeTable, ofMembers, table?, hentries]
    exact congrArg some (Tables.foldl_insert_toList t)
  plain t := .object fun m hm => by
    obtain ⟨e, _, rfl⟩ := List.mem_map.mp hm
    exact c.plain e.2
  rejectsNull := rfl

end Codec

theorem codec_ofString : Codec .ofString string? where
  reads := text?_chars
  plain := .string
  rejectsNull := rfl

theorem access?_bits (a : Access) : access? (.ofNat a.bits.toNat) = some a := by
  have hdigits : (Nat.repr a.bits.toNat).toList.all Char.isDigit := by
    rw [Nat.toList_repr]
    exact List.all_eq_true.mpr fun c hc => JsonToken.isDigit_of_mem_toDigits hc
  have hvalue : (Nat.repr a.bits.toNat).toList.foldl
      (fun n c => n * 10 + (c.toNat - '0'.toNat)) 0 = a.bits.toNat := by
    rw [Nat.toList_repr]
    refine Eq.trans ?_ Nat.ofDigitChars_ten_toDigits
    rw [Nat.ofDigitChars]
    simp only [Nat.mul_comm 10]
  rw [ofNat, access?, if_pos hdigits, hvalue, if_pos a.bits.toNat_lt, UInt16.ofNat_toNat]

theorem codec_access : Codec (fun a => .ofNat a.bits.toNat) access? where
  reads := access?_bits
  plain a := .number a.bits.toNat
  rejectsNull := rfl

theorem eq_zero_of_isEmpty {a : Access} (h : a.isEmpty = true) : a = ⟨0⟩ :=
  congrArg Access.mk (beq_iff_eq.mp h)

/-! ## Entries -/

theorem plain_present {slots : Slots}
    (h : ∀ s ∈ slots, ∀ v ∈ s.2, Plain v) : Plain (.ofMembers (present slots)) := by
  refine .object fun m hm => ?_
  obtain ⟨s, hs, hsm⟩ := List.mem_filterMap.mp hm
  obtain ⟨v, hv, rfl⟩ := Option.map_eq_some_iff.mp hsm
  exact h s hs v hv

/-- The slots of a reference.  None is ever left out. -/
def refSlots (m : MemberRef) : Slots :=
  [("owner", some (.ofString m.owner)), ("name", some (.ofString m.name)),
    ("desc", some (.ofString m.descriptor))]

theorem codec_ref : Codec encodeRef ref? where
  reads m := by
    have hvalues : values? ["owner", "name", "desc"] (encodeRef m) = some _ :=
      @values?_present (refSlots m) (by simp [refSlots])
    rw [ref?, hvalues]
    simp [refSlots, codec_ofString.required]
  plain m := by
    refine @plain_present (refSlots m) ?_
    simp only [refSlots, List.forall_mem_cons]
    exact ⟨codec_ofString.plain_some _, codec_ofString.plain_some _, codec_ofString.plain_some _,
      List.forall_mem_nil _⟩
  rejectsNull := rfl

theorem codec_refs : Codec (fun ms : MemberSet => .array (ms.toList.map encodeRef)) refs? where
  reads ms := by
    rw [refs?, codec_ref.list.reads]
    refine congrArg some (ExtTreeSet.ext_mem fun m => ?_)
    rw [ExtTreeSet.mem_ofList, List.contains_iff_mem, ExtTreeSet.mem_toList]
  plain ms := codec_ref.list.plain ms.toList
  rejectsNull := rfl

namespace FieldEntry

def slots (f : FieldEntry) : Slots :=
  [("desc", some (.ofString f.descriptor)),
    ("access", filled f.access.isEmpty (.ofNat f.access.bits.toNat)),
    ("signature", f.signature.map .ofString), ("force", f.force.map .ofString)]

theorem encode_eq (f : FieldEntry) : f.encode = .ofMembers (present f.slots) := by
  simp [encode, slots, accessMember_eq, someMember_eq, present_cons, present_nil]

theorem codec : Codec encode decode? where
  reads f := by
    have hvalues : values? ["desc", "access", "signature", "force"] f.encode = some _ :=
      f.encode_eq ▸ values?_present (by simp [slots])
    rw [decode?, hvalues]
    simp [slots, codec_ofString.required, codec_ofString.optional,
      codec_access.defaulted eq_zero_of_isEmpty]
  plain f := by
    rw [encode_eq]
    refine plain_present ?_
    simp only [slots, List.forall_mem_cons]
    exact ⟨codec_ofString.plain_some _, codec_access.plain_filled _ _,
      codec_ofString.plain_map _, codec_ofString.plain_map _, List.forall_mem_nil _⟩
  rejectsNull := rfl

end FieldEntry

namespace BounceEntry

def slots (b : BounceEntry) : Slots :=
  [("target", some (encodeRef b.target)), ("owner", b.owner.map encodeRef)]

theorem encode_eq (b : BounceEntry) : b.encode = .ofMembers (present b.slots) := by
  simp [encode, slots, someMember_eq, present_cons, present_nil]

theorem codec : Codec encode decode? where
  reads b := by
    have hvalues : values? ["target", "owner"] b.encode = some _ :=
      b.encode_eq ▸ values?_present (by simp [slots])
    rw [decode?, hvalues]
    simp [slots, codec_ref.required, codec_ref.optional]
  plain b := by
    rw [encode_eq]
    refine plain_present ?_
    simp only [slots, List.forall_mem_cons]
    exact ⟨codec_ref.plain_some _, codec_ref.plain_map _, List.forall_mem_nil _⟩
  rejectsNull := rfl

end BounceEntry

namespace MethodEntry

def slots (m : MethodEntry) : Slots :=
  [("access", filled m.access.isEmpty (.ofNat m.access.bits.toNat)),
    ("signature", m.signature.map .ofString), ("bouncer", m.bouncer.map BounceEntry.encode),
    ("force", m.force.map .ofString),
    ("overrides", filled m.overrides.isEmpty (.array (m.overrides.toList.map encodeRef))),
    ("parent", m.parent.map encodeRef)]

theorem encode_eq (m : MethodEntry) : m.encode = .ofMembers (present m.slots) := by
  simp [encode, slots, accessMember_eq, someMember_eq, listMember_eq, present_cons, present_nil]

theorem codec : Codec encode decode? where
  reads m := by
    have hvalues : values? ["access", "signature", "bouncer", "force", "overrides", "parent"]
        m.encode = some _ := m.encode_eq ▸ values?_present (by simp [slots])
    rw [decode?, hvalues]
    simp [slots, codec_ofString.optional, codec_ref.optional, BounceEntry.codec.optional,
      codec_access.defaulted eq_zero_of_isEmpty, codec_refs.defaulted ExtTreeSet.isEmpty_iff.mp]
  plain m := by
    rw [encode_eq]
    refine plain_present ?_
    simp only [slots, List.forall_mem_cons]
    exact ⟨codec_access.plain_filled _ _, codec_ofString.plain_map _,
      BounceEntry.codec.plain_map _, codec_ofString.plain_map _, codec_refs.plain_filled _ _,
      codec_ref.plain_map _, List.forall_mem_nil _⟩
  rejectsNull := rfl

end MethodEntry

namespace ComponentEntry

def slots (c : ComponentEntry) : Slots :=
  [("field", some (.ofString c.field)), ("desc", some (.ofString c.descriptor)),
    ("methods", filled c.methods.isEmpty (.array (c.methods.map .ofString)))]

theorem encode_eq (c : ComponentEntry) : c.encode = .ofMembers (present c.slots) := by
  simp [encode, slots, listMember_eq, present_cons, present_nil]

theorem codec : Codec encode decode? where
  reads c := by
    have hvalues : values? ["field", "desc", "methods"] c.encode = some _ :=
      c.encode_eq ▸ values?_present (by simp [slots])
    rw [decode?, hvalues]
    simp [slots, codec_ofString.required, codec_ofString.list.defaulted List.isEmpty_iff.mp]
  plain c := by
    rw [encode_eq]
    refine plain_present ?_
    simp only [slots, List.forall_mem_cons]
    exact ⟨codec_ofString.plain_some _, codec_ofString.plain_some _,
      codec_ofString.list.plain_filled _ _, List.forall_mem_nil _⟩
  rejectsNull := rfl

end ComponentEntry

namespace ClassEntry

def slots (c : ClassEntry) : Slots :=
  [("superName", c.superName.map .ofString),
    ("interfaces", filled c.interfaces.isEmpty (.array (c.interfaces.map .ofString))),
    ("access", filled c.access.isEmpty (.ofNat c.access.bits.toNat)),
    ("signature", c.signature.map .ofString),
    ("fields", filled c.fields.isEmpty (encodeTable FieldEntry.encode c.fields)),
    ("methods", filled c.methods.isEmpty (encodeTable MethodEntry.encode c.methods)),
    ("records", c.records.map fun cs => .array (cs.map ComponentEntry.encode))]

theorem encode_eq (c : ClassEntry) : c.encode = .ofMembers (present c.slots) := by
  simp [encode, slots, accessMember_eq, someMember_eq, listMember_eq, tableMember_eq,
    present_cons, present_nil]

theorem codec : Codec encode decode? where
  reads c := by
    have hvalues : values?
        ["superName", "interfaces", "access", "signature", "fields", "methods", "records"]
        c.encode = some _ := c.encode_eq ▸ values?_present (by simp [slots])
    rw [decode?, hvalues]
    simp [slots, codec_ofString.optional, codec_ofString.list.defaulted List.isEmpty_iff.mp,
      codec_access.defaulted eq_zero_of_isEmpty, ComponentEntry.codec.list.optional,
      FieldEntry.codec.table.defaulted ExtTreeMap.isEmpty_iff.mp,
      MethodEntry.codec.table.defaulted ExtTreeMap.isEmpty_iff.mp]
  plain c := by
    rw [encode_eq]
    refine plain_present ?_
    simp only [slots, List.forall_mem_cons]
    exact ⟨codec_ofString.plain_map _, codec_ofString.list.plain_filled _ _,
      codec_access.plain_filled _ _, codec_ofString.plain_map _,
      FieldEntry.codec.table.plain_filled _ _, MethodEntry.codec.table.plain_filled _ _,
      ComponentEntry.codec.list.plain_map _, List.forall_mem_nil _⟩
  rejectsNull := rfl

end ClassEntry

/-- Metadata reads back from its text, and so the text tells all of it. -/
theorem parse?_render (m : Metadata) :
    parse? m.render = some m ∧ ∀ n : Metadata, n.render = m.render ↔ n = m := by
  have hread : ∀ m : Metadata, parse? m.render = some m := by
    intro m
    have htext : JsonValue.parse? m.render = some m.encode :=
      JsonValue.parse?_pretty (ClassEntry.codec.table.plain m.classes)
    rw [parse?, htext, Option.bind_some, decode?, encode, ClassEntry.codec.table.reads]
    rfl
  refine ⟨hread m, fun n => ⟨fun h => ?_, congrArg render⟩⟩
  have hn := hread n
  rw [h, hread m] at hn
  exact (Option.some.inj hn).symm

end Metadata
end Lineage
