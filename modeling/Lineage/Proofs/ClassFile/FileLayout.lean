import Lineage.Proofs.ClassFile.Constants

/-!
The layout that is read from a file.

An attribute is passed over by its length, whoever asked for it: one that is
described by its content takes up as many bytes as its length says, and so does
one that is just bytes.  Hence each table is read as what its described
attributes say, and what comes after the table is read from where it begins.
-/

namespace Lineage
namespace ClassFile

open Reader (Reads)

variable {t : ConstantTable}

/-! ## What a table of attributes says -/

theorem getLast?_filterMap_cons {α β : Type} (g : α → Option β) (a : α) (as : List α) :
    ((a :: as).filterMap g).getLast? = (as.filterMap g).getLast?.or (g a) := by
  rw [List.filterMap_cons]
  cases ha : g a with
  | none => rw [Option.or_none]
  | some b =>
    rw [List.getLast?_cons]
    cases (as.filterMap g).getLast? <;> rfl

namespace Content

/-- What content adds to what a field's attributes said before. -/
def sayField (t : ConstantTable) (content : Content) (said : Option String) : Option String :=
  (content.signature?.map t.text).or said

def sayMethod (t : ConstantTable) (content : Content) (said : MethodAttributes) :
    MethodAttributes :=
  { signature := (content.signature?.map t.text).or said.signature
    code := (content.code?.map CodeInfo.code).or said.code }

def sayClass (t : ConstantTable) (content : Content) (said : ClassAttributes) :
    ClassAttributes :=
  { signature := (content.signature?.map t.text).or said.signature
    bootstraps := content.bootstraps?.getD said.bootstraps }

theorem foldl_sayField (t : ConstantTable) (as : List AttributeInfo) (said : Option String) :
    as.foldl (fun said a => a.content.sayField t said) said
      = ((AttributeInfo.signature? as).map t.text).or said := by
  induction as generalizing said with
  | nil => rfl
  | cons a as ih =>
    rw [List.foldl_cons, ih, AttributeInfo.signature?, AttributeInfo.signature?,
      getLast?_filterMap_cons, Option.map_or, Option.or_assoc, sayField]

theorem foldl_sayMethod (t : ConstantTable) (as : List AttributeInfo) (said : MethodAttributes) :
    as.foldl (fun said a => a.content.sayMethod t said) said
      = { signature := ((AttributeInfo.signature? as).map t.text).or said.signature
          code := ((AttributeInfo.code? as).map CodeInfo.code).or said.code } := by
  induction as generalizing said with
  | nil => rfl
  | cons a as ih =>
    rw [List.foldl_cons, ih]
    simp only [AttributeInfo.signature?, AttributeInfo.code?, getLast?_filterMap_cons,
      Option.map_or, Option.or_assoc, sayMethod]

theorem foldl_sayClass (t : ConstantTable) (as : List AttributeInfo) (said : ClassAttributes) :
    as.foldl (fun said a => a.content.sayClass t said) said
      = { signature := ((AttributeInfo.signature? as).map t.text).or said.signature
          bootstraps := (AttributeInfo.bootstraps? as).getD said.bootstraps } := by
  induction as generalizing said with
  | nil => rfl
  | cons a as ih =>
    rw [List.foldl_cons, ih]
    simp only [AttributeInfo.signature?, AttributeInfo.bootstraps?, getLast?_filterMap_cons,
      Option.map_or, Option.or_assoc, Option.getD_or, sayClass]

end Content

/-! ## One attribute -/

theorem reads_code {c : CodeInfo} (h : c.encode.length < 0x100000000) :
    Reads (Reader.within c.encode.length readCode) c.encode c.code := by
  have hcode : c.code.length = (UInt32.ofNat c.code.length).toNat := by
    refine (UInt32.toNat_ofNat_of_lt' (show _ < 0x100000000 from ?_)).symm
    simp only [CodeInfo.encode, List.length_append] at h
    omega
  have hfront : Reads readCode
      (Bytes.ofUInt16 c.maxStack ++ (Bytes.ofUInt16 c.maxLocals ++
        (Bytes.ofNat32 c.code.length ++ c.code))) c.code :=
    (Reads.u2 _).bind <| (Reads.u2 _).bind <| (Reads.u4 _).bind <| .slice hcode
  have hbytes : c.encode =
      (Bytes.ofUInt16 c.maxStack ++ (Bytes.ofUInt16 c.maxLocals ++
        (Bytes.ofNat32 c.code.length ++ c.code))) ++
      (encodeList Handler.encode c.handlers ++ encodeList RawAttribute.encode c.attributes) := by
    simp only [CodeInfo.encode, List.append_assoc]
  exact .within rfl hbytes hfront

theorem reads_bootstrap {b : BootstrapMethod} (h : b.arguments.length < 65536) :
    Reads readBootstrap b.encode b := by
  have harguments := Reads.counted h fun index _ => Reads.u2 index
  rw [List.map_id'] at harguments
  exact (Reads.u2 b.handle).bind <| harguments.bind_pair_end (.pure _)

theorem reads_bootstraps {methods : List BootstrapMethod} (hlen : methods.length < 65536)
    (h : ∀ b ∈ methods, b.arguments.length < 65536) :
    Reads readBootstraps (encodeList BootstrapMethod.encode methods) methods := by
  have htable := Reads.counted hlen fun b hb => reads_bootstrap (h b hb)
  rwa [List.map_id'] at htable

theorem reads_signature {text : UInt16} (h : (t.text? text).isSome) :
    Reads (readSignature t.pool (Content.signature text).encode.length)
      (Content.signature text).encode (t.text text) :=
  reads_readSignature (ConstantTable.utf8_pool h)

theorem reads_fieldAttribute {name : String} {content : Content}
    (h : content.Suits t File.fieldNames name) (said : Option String) :
    Reads (fieldAttribute t.pool name content.encode.length said) content.encode
      (content.sayField t said) := by
  rw [fieldAttribute]
  cases content with
  | signature text =>
    obtain ⟨rfl, _, htext⟩ := h
    rw [if_pos rfl]
    exact (reads_signature htext).bind_end (.pure _)
  | code c =>
    obtain ⟨rfl, hknown⟩ := h
    exact absurd hknown (by decide)
  | bootstraps methods =>
    obtain ⟨rfl, hknown, _⟩ := h
    exact absurd hknown (by decide)
  | raw payload =>
    have hname : name ≠ "Signature" := by simpa [Content.Suits, File.fieldNames] using h
    rw [if_neg hname]
    exact (Reads.skip rfl).bind_end (.pure _)

theorem reads_methodAttribute {name : String} {content : Content}
    (h : content.Suits t File.methodNames name) (hlen : content.encode.length < 0x100000000)
    (said : MethodAttributes) :
    Reads (methodAttribute t.pool name content.encode.length said) content.encode
      (content.sayMethod t said) := by
  rw [methodAttribute]
  cases content with
  | signature text =>
    obtain ⟨rfl, _, htext⟩ := h
    rw [if_neg (by decide), if_pos rfl]
    exact (reads_signature htext).bind_end (.pure _)
  | code c =>
    obtain ⟨rfl, _⟩ := h
    rw [if_pos rfl]
    exact (reads_code hlen).bind_end (.pure _)
  | bootstraps methods =>
    obtain ⟨rfl, hknown, _⟩ := h
    exact absurd hknown (by decide)
  | raw payload =>
    have hname : name ≠ "Code" ∧ name ≠ "Signature" := by
      simpa [Content.Suits, File.methodNames] using h
    rw [if_neg hname.1, if_neg hname.2]
    exact (Reads.skip rfl).bind_end (.pure _)

theorem reads_classAttribute {name : String} {content : Content}
    (h : content.Suits t File.classNames name) (said : ClassAttributes) :
    Reads (classAttribute t.pool name content.encode.length said) content.encode
      (content.sayClass t said) := by
  rw [classAttribute]
  cases content with
  | signature text =>
    obtain ⟨rfl, _, htext⟩ := h
    rw [if_pos rfl]
    exact (reads_signature htext).bind_end (.pure _)
  | code c =>
    obtain ⟨rfl, hknown⟩ := h
    exact absurd hknown (by decide)
  | bootstraps methods =>
    obtain ⟨rfl, _, hcount, hmethods⟩ := h
    have hframe := Reads.within rfl (List.append_nil _).symm (reads_bootstraps hcount hmethods)
    rw [if_neg (by decide), if_pos rfl]
    exact hframe.bind_end (.pure _)
  | raw payload =>
    have hname : name ≠ "Signature" ∧ name ≠ "BootstrapMethods" := by
      simpa [Content.Suits, File.classNames] using h
    rw [if_neg hname.1, if_neg hname.2]
    exact (Reads.skip rfl).bind_end (.pure _)

/-! ## Tables -/

/-- The attribute as it is read from a table, when `say` tells what its content
adds. -/
def AttributeInfo.toAttribute {σ : Type} (t : ConstantTable) (say : Content → σ → σ)
    (a : AttributeInfo) : Attribute σ :=
  { index := a.name, name := t.text a.name, payload := a.content.encode, say := say a.content }

/-- Any attributes may stand in the table, in any order. -/
theorem reads_attributes {σ : Type} {one : String → Nat → σ → Reader σ}
    (say : Content → σ → σ) {known : List String} {as : List AttributeInfo}
    (hlen : as.length < 65536) (has : ∀ a ∈ as, a.Valid t known)
    (hone : ∀ name (content : Content) said, content.Suits t known name →
      content.encode.length < 0x100000000 →
      Reads (one name content.encode.length said) content.encode (say content said))
    (said : σ) :
    Reads (Reader.u2 >>= fun count => readAttributes t.pool one count.toNat said)
      (encodeList AttributeInfo.encode as)
      (as.foldl (fun said a => say a.content said) said) := by
  have hreadable : ∀ b ∈ as.map (AttributeInfo.toAttribute t say), b.Readable t.pool one := by
    intro b hb
    obtain ⟨a, ha, rfl⟩ := List.mem_map.mp hb
    obtain ⟨hlength, name, hname, hsuits⟩ := has a ha
    have htext : t.text a.name = name := by rw [ConstantTable.text, hname]; rfl
    have hpool : t.pool.utf8 a.name = .ok (t.text a.name) :=
      ConstantTable.utf8_pool (by rw [hname]; rfl)
    rw [← htext] at hsuits
    exact ⟨hpool, hlength, fun said => hone _ _ said hsuits hlength⟩
  have hfold : (as.map (AttributeInfo.toAttribute t say)).foldl (fun said b => b.say said) said
      = as.foldl (fun said a => say a.content said) said := List.foldl_map
  have htable := Attribute.reads_table (by rwa [List.length_map]) hreadable hfold
  rwa [List.length_map, List.flatMap_map] at htable

/-! ## Members -/

namespace MemberInfo

def fieldLayout (t : ConstantTable) (f : MemberInfo) : FieldLayout :=
  { access := f.access
    name := t.text f.name
    descriptor := t.text f.descriptor
    signature := f.signature t }

def methodLayout (t : ConstantTable) (m : MemberInfo) : MethodLayout :=
  { access := m.access
    name := t.text m.name
    descriptor := t.text m.descriptor
    signature := m.signature t
    code := m.code?.map CodeInfo.code }

theorem reads_readField {f : MemberInfo} (hf : f.Valid t File.fieldNames) :
    Reads (readField t.pool) f.encode (f.fieldLayout t) := by
  have hattributes := reads_attributes (Content.sayField t) hf.attributeCount hf.attributes
    (fun name content said hsuits _ => reads_fieldAttribute hsuits said) none
  rw [Content.foldl_sayField, Option.or_none] at hattributes
  unfold MemberInfo.encode
  simp only [List.append_assoc]
  exact (Reads.u2 f.access.bits).bind <|
    (Reads.u2 _).bind <| .bind_nil (.ofExcept (ConstantTable.utf8_pool hf.name)) <|
    (Reads.u2 _).bind <| .bind_nil (.ofExcept (ConstantTable.utf8_pool hf.descriptor)) <|
    hattributes.bind_pair_end (.pure _)

theorem reads_readMethod {m : MemberInfo} (hm : m.Valid t File.methodNames) :
    Reads (readMethod t.pool) m.encode (m.methodLayout t) := by
  have hattributes := reads_attributes (Content.sayMethod t) hm.attributeCount
    hm.attributes (fun name content said hsuits hlen => reads_methodAttribute hsuits hlen said)
    { signature := none, code := none }
  rw [Content.foldl_sayMethod, Option.or_none, Option.or_none] at hattributes
  unfold MemberInfo.encode
  simp only [List.append_assoc]
  exact (Reads.u2 m.access.bits).bind <|
    (Reads.u2 _).bind <| .bind_nil (.ofExcept (ConstantTable.utf8_pool hm.name)) <|
    (Reads.u2 _).bind <| .bind_nil (.ofExcept (ConstantTable.utf8_pool hm.descriptor)) <|
    hattributes.bind_pair_end (.pure _)

end MemberInfo

/-! ## The file -/

namespace File

variable {f : File}

/-- The layout that is read. -/
def layout (f : File) : Layout :=
  { pool := f.table.pool
    access := f.access
    name := f.table.className f.thisClass
    superName := f.table.className? f.superClass
    interfaces := f.interfaces.map f.table.className
    fields := f.fields.map (MemberInfo.fieldLayout f.table)
    methods := f.methods.map (MemberInfo.methodLayout f.table)
    signature := (AttributeInfo.signature? f.attributes).map f.table.text
    bootstraps := f.bootstraps }

theorem reads_encode (hf : f.Valid) : Reads Layout.read f.encode f.layout := by
  have hnames := List.all_eq_true.mp hf.interfaces
  have hinterfaces := Reads.counted hf.interfaceCount fun index hindex =>
    (Reads.u2 index).bind_end (.ofExcept (ConstantTable.className_pool (hnames index hindex)))
  have hfields := Reads.counted hf.fieldCount fun m hm =>
    MemberInfo.reads_readField (hf.fields m hm)
  have hmethods := Reads.counted hf.methodCount fun m hm =>
    MemberInfo.reads_readMethod (hf.methods m hm)
  have hattributes := reads_attributes (Content.sayClass f.table) hf.attributeCount
    hf.attributes (fun name content said hsuits _ => reads_classAttribute hsuits said)
    { signature := none, bootstraps := [] }
  rw [Content.foldl_sayClass, Option.or_none] at hattributes
  unfold File.encode
  simp only [List.append_assoc]
  exact reads_readMagic.bind <| (Reads.u2 f.minor).bind <| (Reads.u2 f.major).bind <|
    (ConstantTable.reads_encode hf.size hf.texts).bind <| (Reads.u2 f.access.bits).bind <|
    (Reads.u2 f.thisClass).bind <| (Reads.u2 f.superClass).bind <|
    .bind_nil (.ofExcept (ConstantTable.className_pool hf.thisClass)) <|
    .bind_nil (.ofExcept (ConstantTable.className?_pool hf.superClass)) <|
    hinterfaces.bind_pair <| hfields.bind_pair <| hmethods.bind_pair <|
    hattributes.bind_pair_end (.pure _)

end File
end ClassFile
end Lineage
