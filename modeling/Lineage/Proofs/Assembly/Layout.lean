import Lineage.Proofs.Assembly.Requests
import Lineage.Proofs.Assembly.Sites

/-!
The layout that is read from an assembled class.  Each part of the file is read
as what it was written for; the parts are then followed in the order in which
they were written.
-/

namespace Lineage
namespace Assembly

open ClassFile (Attribute BootstrapMethod ClassAttributes FieldLayout Layout MethodAttributes
  MethodLayout)
open ClassFile.Reader (Reads)

theorem encodeTable_map {α : Type} (encode : α → Bytes) (xs : List α) :
    encodeTable (xs.map encode) = Bytes.ofNat16 xs.length ++ xs.flatMap encode := by
  rw [encodeTable, List.length_map, List.flatMap_def]

variable {pool : SymbolPool}

/-! ## Attributes -/

/-- A generic signature, said by `say`. -/
def signatureAttribute {σ : Type} (pool : SymbolPool) (say : String → σ → σ) (text : String) :
    Attribute σ :=
  { index := pool.index (.utf8 "Signature")
    name := "Signature"
    payload := Bytes.ofUInt16 (pool.index (.utf8 text))
    say := say text }

theorem readable_signatureAttribute (hpool : pool.Loadable) {σ : Type}
    {one : String → Nat → σ → ClassFile.Reader σ} {say : String → σ → σ} {text : String}
    (hname : .utf8 "Signature" ∈ pool.symbols) (htext : .utf8 text ∈ pool.symbols)
    (hone : ∀ said, one "Signature" 2 said = (do
      let text ← ClassFile.readSignature pool.loaded 2
      pure (say text said))) :
    (signatureAttribute pool say text).Readable pool.loaded one where
  name := SymbolPool.utf8_index hpool hname
  length := by
    show 2 < 0x100000000
    omega
  payload said := by
    show Reads (one "Signature" 2 said) (Bytes.ofUInt16 (pool.index (.utf8 text))) (say text said)
    rw [hone]
    exact (ClassFile.reads_readSignature (SymbolPool.utf8_index hpool htext)).bind_end (.pure _)

/-! ## Fields -/

namespace FieldSketch

def layout (f : FieldSketch) : FieldLayout :=
  { access := f.access, name := f.name, descriptor := f.descriptor, signature := f.signature }

def attributes (pool : SymbolPool) (f : FieldSketch) : List (Attribute (Option String)) :=
  f.signature.toList.map (signatureAttribute pool fun text _ => some text)

/-- The constants that a field is written with. -/
structure Covered (pool : SymbolPool) (f : FieldSketch) : Prop where
  name : .utf8 f.name ∈ pool.symbols
  descriptor : .utf8 f.descriptor ∈ pool.symbols
  signature : ∀ t ∈ f.signature, .utf8 t ∈ pool.symbols
  signatureAttribute : .utf8 "Signature" ∈ pool.symbols

theorem reads_attributes (hpool : pool.Loadable) {f : FieldSketch} (hf : f.Covered pool) :
    Reads
      (ClassFile.Reader.u2 >>= fun count =>
        ClassFile.readAttributes pool.loaded (ClassFile.fieldAttribute pool.loaded)
          count.toNat none)
      (encodeTable (f.signature.toList.map (encodeSignature pool))) f.signature := by
  have hbytes : f.signature.toList.map (encodeSignature pool)
      = (f.attributes pool).map Attribute.encode := by
    rw [attributes, List.map_map]
    rfl
  rw [hbytes, encodeTable_map]
  refine Attribute.reads_table ?_ (fun a ha => ?_) ?_
  · cases hsig : f.signature <;> simp [attributes, hsig]
  · obtain ⟨text, htext, rfl⟩ := List.mem_map.mp ha
    exact readable_signatureAttribute hpool hf.signatureAttribute
      (hf.signature text (Option.mem_toList.mp htext)) fun _ => rfl
  · cases hsig : f.signature <;> simp [attributes, hsig, signatureAttribute]

theorem reads_encode (hpool : pool.Loadable) {f : FieldSketch} (hf : f.Covered pool) :
    Reads (ClassFile.readField pool.loaded) (f.encode pool) f.layout := by
  unfold FieldSketch.encode
  simp only [List.append_assoc]
  exact (Reads.u2 f.access.bits).bind <|
    (Reads.u2 _).bind <| .bind_nil (.ofExcept (SymbolPool.utf8_index hpool hf.name)) <|
    (Reads.u2 _).bind <| .bind_nil (.ofExcept (SymbolPool.utf8_index hpool hf.descriptor)) <|
    (reads_attributes hpool hf).bind_pair_end (.pure _)

end FieldSketch

/-! ## Methods -/

namespace MethodSketch

def layout (pool : SymbolPool) (sites : Nat) (m : MethodSketch) : MethodLayout :=
  { access := m.access, name := m.name, descriptor := m.descriptor, signature := m.signature,
    code := m.body.map (encodeBody pool sites) }

def codeAttribute (pool : SymbolPool) (sites : Nat) (m : MethodSketch) (steps : List CodeStep) :
    Attribute MethodAttributes :=
  { index := pool.index (.utf8 "Code")
    name := "Code"
    payload := m.encodeCode pool sites steps
    say := fun said => { said with code := some (encodeBody pool sites steps) } }

def attributes (pool : SymbolPool) (sites : Nat) (m : MethodSketch) :
    List (Attribute MethodAttributes) :=
  m.body.toList.map (m.codeAttribute pool sites) ++
    m.signature.toList.map
      (signatureAttribute pool fun text said => { said with signature := some text })

/-- The constants that a method is written with, and room for its code. -/
structure Covered (pool : SymbolPool) (sites : Nat) (m : MethodSketch) : Prop where
  name : .utf8 m.name ∈ pool.symbols
  descriptor : .utf8 m.descriptor ∈ pool.symbols
  signature : ∀ t ∈ m.signature, .utf8 t ∈ pool.symbols
  signatureAttribute : .utf8 "Signature" ∈ pool.symbols
  codeAttribute : .utf8 "Code" ∈ pool.symbols
  code : ∀ steps ∈ m.body, (m.encodeCode pool sites steps).length < 0x100000000

theorem reads_encodeCode {sites : Nat} {m : MethodSketch} {steps : List CodeStep}
    (hlen : (m.encodeCode pool sites steps).length < 0x100000000) :
    Reads (ClassFile.Reader.within (m.encodeCode pool sites steps).length ClassFile.readCode)
      (m.encodeCode pool sites steps) (encodeBody pool sites steps) := by
  refine .within rfl rfl ?_
  have hcode : (encodeBody pool sites steps).length
      = (UInt32.ofNat (encodeBody pool sites steps).length).toNat := by
    refine (UInt32.toNat_ofNat_of_lt' (show _ < 0x100000000 from ?_)).symm
    simp only [encodeCode, List.length_append] at hlen
    omega
  simp only [List.append_assoc]
  exact (Reads.u2 _).bind <| (Reads.u2 _).bind <| (Reads.u4 _).bind <| .slice hcode

theorem readable_codeAttribute (hpool : pool.Loadable) {sites : Nat} {m : MethodSketch}
    (hm : m.Covered pool sites) {steps : List CodeStep} (hsteps : steps ∈ m.body) :
    (m.codeAttribute pool sites steps).Readable pool.loaded
      (ClassFile.methodAttribute pool.loaded) where
  name := SymbolPool.utf8_index hpool hm.codeAttribute
  length := hm.code steps hsteps
  payload _ := (reads_encodeCode (hm.code steps hsteps)).bind_end (.pure _)

theorem reads_attributes (hpool : pool.Loadable) {sites : Nat} {m : MethodSketch}
    (hm : m.Covered pool sites) :
    Reads
      (ClassFile.Reader.u2 >>= fun count =>
        ClassFile.readAttributes pool.loaded (ClassFile.methodAttribute pool.loaded) count.toNat
          { signature := none, code := none })
      (encodeTable
        (m.body.toList.map
            (fun steps => encodeAttribute pool "Code" (m.encodeCode pool sites steps)) ++
          m.signature.toList.map (encodeSignature pool)))
      { signature := m.signature, code := m.body.map (encodeBody pool sites) } := by
  have hbytes : m.body.toList.map
        (fun steps => encodeAttribute pool "Code" (m.encodeCode pool sites steps)) ++
      m.signature.toList.map (encodeSignature pool)
      = (m.attributes pool sites).map Attribute.encode := by
    rw [attributes, List.map_append, List.map_map, List.map_map]
    rfl
  rw [hbytes, encodeTable_map]
  refine Attribute.reads_table ?_ (fun a ha => ?_) ?_
  · cases hbody : m.body <;> cases hsig : m.signature <;> simp [attributes, hbody, hsig]
  · obtain ha | ha := List.mem_append.mp ha
    · obtain ⟨steps, hsteps, rfl⟩ := List.mem_map.mp ha
      exact readable_codeAttribute hpool hm (Option.mem_toList.mp hsteps)
    · obtain ⟨text, htext, rfl⟩ := List.mem_map.mp ha
      exact readable_signatureAttribute hpool hm.signatureAttribute
        (hm.signature text (Option.mem_toList.mp htext)) fun _ => rfl
  · cases hbody : m.body <;> cases hsig : m.signature <;>
      simp [attributes, hbody, hsig, MethodSketch.codeAttribute, signatureAttribute]

theorem reads_encode (hpool : pool.Loadable) {sites : Nat} {m : MethodSketch}
    (hm : m.Covered pool sites) :
    Reads (ClassFile.readMethod pool.loaded) (m.encode pool sites) (m.layout pool sites) := by
  unfold MethodSketch.encode
  simp only [List.append_assoc]
  exact (Reads.u2 m.access.bits).bind <|
    (Reads.u2 _).bind <| .bind_nil (.ofExcept (SymbolPool.utf8_index hpool hm.name)) <|
    (Reads.u2 _).bind <| .bind_nil (.ofExcept (SymbolPool.utf8_index hpool hm.descriptor)) <|
    (reads_attributes hpool hm).bind_pair_end (.pure _)

end MethodSketch

/-! ## Bootstrap methods -/

namespace LambdaSite

theorem reads_encodeBootstrap (pool : SymbolPool) (s : LambdaSite) :
    Reads ClassFile.readBootstrap (s.encodeBootstrap pool) (s.bootstrap pool) := by
  have hlen : s.arguments.length < 65536 := by
    cases halt : s.alternative <;> simp [arguments, halt]
  have harguments := Reads.counted hlen fun a _ => Reads.u2 (pool.index a)
  unfold encodeBootstrap
  rw [List.append_assoc]
  exact (Reads.u2 _).bind <| harguments.bind_pair_end (.pure _)

theorem length_encodeBootstrap_le (pool : SymbolPool) (s : LambdaSite) :
    (s.encodeBootstrap pool).length ≤ 12 := by
  cases halt : s.alternative <;>
    simp [encodeBootstrap, arguments, halt, Bytes.length_ofUInt16, Bytes.ofNat16]

end LambdaSite

theorem length_flatMap_le {α : Type} {encode : α → Bytes} {n : Nat}
    (h : ∀ a, (encode a).length ≤ n) (xs : List α) :
    (xs.flatMap encode).length ≤ n * xs.length := by
  induction xs with
  | nil => exact Nat.le_refl 0
  | cons a xs ih =>
    have ha := h a
    rw [List.flatMap_cons, List.length_append, List.length_cons, Nat.mul_succ]
    omega

/-! ## The class -/

namespace Sketch

variable {c : Sketch}

/-- What the format has room for: an index for every constant, a length word for
every text and every code, and a count word for every table.  The steps of
bodies are instructions on their own. -/
structure Fits (c : Sketch) : Prop where
  constants : c.pool.symbols.length < 65535
  texts : ∀ s ∈ c.pool.symbols, s.textLength < 65536
  interfaces : c.interfaces.length < 65536
  fields : c.fields.length < 65536
  methods : c.methods.length < 65536
  lambdas : c.lambdas.length < 65536
  steps : ∀ m ∈ c.methods, ∀ s ∈ m.2.body.getD [], s.isRegular = true
  codes : ∀ m ∈ c.methods, ∀ steps ∈ m.2.body,
    (m.2.encodeCode c.pool m.1 steps).length < 0x100000000

/-- What the format has room for, whatever the steps of bodies spell. -/
structure Room (c : Sketch) : Prop where
  constants : c.pool.symbols.length < 65535
  texts : ∀ s ∈ c.pool.symbols, s.textLength < 65536
  interfaces : c.interfaces.length < 65536
  fields : c.fields.length < 65536
  methods : c.methods.length < 65536
  lambdas : c.lambdas.length < 65536
  codes : ∀ m ∈ c.methods, ∀ steps ∈ m.2.body,
    (m.2.encodeCode c.pool m.1 steps).length < 0x100000000

theorem Fits.room (h : c.Fits) : c.Room := { h with }

theorem Room.loadable (h : c.Room) : c.pool.Loadable where
  size := h.constants
  texts := h.texts
  closed := SymbolPool.closed_ofRequests c.requests

theorem Fits.loadable (h : c.Fits) : c.pool.Loadable := h.room.loadable

def bootstrapAttribute (c : Sketch) : Attribute ClassAttributes :=
  { index := c.pool.index (.utf8 "BootstrapMethods")
    name := "BootstrapMethods"
    payload := encodeTable (c.lambdas.map (LambdaSite.encodeBootstrap c.pool))
    say := fun said => { said with bootstraps := c.lambdas.map (LambdaSite.bootstrap c.pool) } }

def attributes (c : Sketch) : List (Attribute ClassAttributes) :=
  c.signature.toList.map
      (signatureAttribute c.pool fun text said => { said with signature := some text }) ++
    if c.lambdas.isEmpty then [] else [c.bootstrapAttribute]

/-- The layout that is read. -/
def layout (c : Sketch) : Layout :=
  { pool := c.pool.loaded
    access := c.access
    name := c.name
    superName := c.superName
    interfaces := c.interfaces
    fields := c.fields.map FieldSketch.layout
    methods := c.methods.map fun m => m.2.layout c.pool m.1
    signature := c.signature
    bootstraps := c.lambdas.map (LambdaSite.bootstrap c.pool) }

theorem readable_bootstrapAttribute (h : c.Room) (hempty : c.lambdas.isEmpty = false) :
    c.bootstrapAttribute.Readable c.pool.loaded (ClassFile.classAttribute c.pool.loaded) where
  name := SymbolPool.utf8_index h.loadable (bootstrapMethods_mem_pool hempty)
  length := by
    have hle := length_flatMap_le (LambdaSite.length_encodeBootstrap_le c.pool) c.lambdas
    have hlen := h.lambdas
    show (encodeTable (c.lambdas.map (LambdaSite.encodeBootstrap c.pool))).length < 0x100000000
    rw [encodeTable_map, List.length_append, Bytes.ofNat16, Bytes.length_ofUInt16]
    omega
  payload said := by
    have htable := Reads.counted h.lambdas fun s _ => s.reads_encodeBootstrap c.pool
    rw [← encodeTable_map] at htable
    have hframe := Reads.within rfl (List.append_nil _).symm htable
    exact hframe.bind_end (.pure _)

theorem reads_attributes (h : c.Room) :
    Reads
      (ClassFile.Reader.u2 >>= fun count =>
        ClassFile.readAttributes c.pool.loaded (ClassFile.classAttribute c.pool.loaded)
          count.toNat { signature := none, bootstraps := [] })
      (encodeTable
        (c.signature.toList.map (encodeSignature c.pool) ++ c.encodeBootstraps c.pool))
      { signature := c.signature, bootstraps := c.layout.bootstraps } := by
  have hbytes : c.signature.toList.map (encodeSignature c.pool) ++ c.encodeBootstraps c.pool
      = c.attributes.map Attribute.encode := by
    rw [attributes, List.map_append, List.map_map, encodeBootstraps]
    cases c.lambdas.isEmpty <;> rfl
  rw [hbytes, encodeTable_map]
  refine Attribute.reads_table ?_ (fun a ha => ?_) ?_
  · cases hsig : c.signature <;> cases hempty : c.lambdas.isEmpty <;>
      simp [attributes, hsig, hempty]
  · obtain ha | ha := List.mem_append.mp ha
    · obtain ⟨text, htext, rfl⟩ := List.mem_map.mp ha
      exact readable_signatureAttribute h.loadable signature_mem_pool
        (signatureText_mem_pool text (Option.mem_toList.mp htext)) fun _ => rfl
    · cases hempty : c.lambdas.isEmpty with
      | true => simp [hempty] at ha
      | false =>
        have ha : a = c.bootstrapAttribute := by simpa [hempty] using ha
        rw [ha]
        exact readable_bootstrapAttribute h hempty
  · have hnil : c.lambdas.isEmpty = true → c.lambdas = [] := List.isEmpty_iff.mp
    cases hsig : c.signature <;> cases hempty : c.lambdas.isEmpty <;>
      simp [attributes, hsig, hempty, hnil, signatureAttribute, bootstrapAttribute, layout]

theorem reads_interfaces (h : c.Room) :
    Reads (ClassFile.Reader.u2 >>= fun count =>
        ClassFile.Reader.times (ClassFile.readInterface c.pool.loaded) count.toNat)
      (encodeTable (c.interfaces.map fun name => Bytes.ofUInt16 (c.pool.index (.className name))))
      c.interfaces := by
  have hread : ∀ name ∈ c.interfaces, Reads (ClassFile.readInterface c.pool.loaded)
      (Bytes.ofUInt16 (c.pool.index (.className name))) name := fun name hname =>
    (Reads.u2 _).bind_end <|
      .ofExcept (SymbolPool.className_index h.loadable (interface_mem_pool name hname))
  have htable := Reads.counted h.interfaces hread
  rwa [← encodeTable_map, List.map_id'] at htable

theorem reads_fields (h : c.Room) :
    Reads (ClassFile.Reader.u2 >>= fun count =>
        ClassFile.Reader.times (ClassFile.readField c.pool.loaded) count.toNat)
      (encodeTable (c.fields.map (FieldSketch.encode c.pool))) c.layout.fields := by
  have hread : ∀ f ∈ c.fields,
      Reads (ClassFile.readField c.pool.loaded) (f.encode c.pool) f.layout := by
    intro f hf
    obtain ⟨hname, hdescriptor, hsignature⟩ := field_mem_pool hf
    exact FieldSketch.reads_encode h.loadable
      ⟨hname, hdescriptor, hsignature, signature_mem_pool⟩
  have htable := Reads.counted h.fields hread
  rwa [← encodeTable_map] at htable

theorem reads_methods (h : c.Room) :
    Reads (ClassFile.Reader.u2 >>= fun count =>
        ClassFile.Reader.times (ClassFile.readMethod c.pool.loaded) count.toNat)
      (encodeTable (c.methods.map fun m => m.2.encode c.pool m.1)) c.layout.methods := by
  have hread : ∀ m ∈ c.methods,
      Reads (ClassFile.readMethod c.pool.loaded) (m.2.encode c.pool m.1)
        (m.2.layout c.pool m.1) := by
    intro m hm
    obtain ⟨hname, hdescriptor, hsignature⟩ := method_mem_pool hm
    exact MethodSketch.reads_encode h.loadable
      ⟨hname, hdescriptor, hsignature, signature_mem_pool, code_mem_pool, h.codes m hm⟩
  have htable := Reads.counted h.methods hread
  rwa [← encodeTable_map] at htable

theorem Room.reads_assemble (h : c.Room) : Reads Layout.read c.assemble c.layout := by
  have hheader : ([0xCA, 0xFE, 0xBA, 0xBE, 0, 0, 0, 52] : Bytes)
      = Bytes.ofUInt32 ClassFile.magic ++ (Bytes.ofUInt16 0 ++ Bytes.ofUInt16 52) := rfl
  unfold assemble
  simp only [hheader, List.append_assoc]
  exact ClassFile.reads_readMagic.bind <| (Reads.u2 0).bind <| (Reads.u2 52).bind <|
    (SymbolPool.reads_encode h.loadable).bind <| (Reads.u2 c.access.bits).bind <|
    (Reads.u2 _).bind <| (Reads.u2 _).bind <|
    .bind_nil (.ofExcept (SymbolPool.className_index h.loadable className_mem_pool)) <|
    .bind_nil (.ofExcept (SymbolPool.className?_index h.loadable superName_mem_pool)) <|
    (reads_interfaces h).bind_pair <| (reads_fields h).bind_pair <| (reads_methods h).bind_pair <|
    (reads_attributes h).bind_pair_end (.pure _)

theorem reads_assemble (h : c.Fits) : Reads Layout.read c.assemble c.layout :=
  h.room.reads_assemble

end Sketch
end Assembly
end Lineage
