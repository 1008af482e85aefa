import Lineage.ClassFile.Summary
import Lineage.Proofs.Text.ModifiedUtf8

/-!
Class files part by part.

A file is described as the format lays it out: version words, a table of
constants, and members and attributes that refer to constants by index.
`File.encode` writes it out.  `File.summary` is what it says: every index stands
for the constant that has it, and the shapes are those of the decoded bodies.

Of the attributes of a table those with certain names are described by what is
in them; which names these are depends on the table.  Any other attribute is
just a run of bytes.
-/

namespace Lineage
namespace ClassFile

open ModifiedUtf8 (encodeUnits ofUnits)

/-! ## Constants -/

/-- A constant: its content, or the indices of the constants it is made of. -/
inductive ConstantInfo where
  | utf8 (units : List UInt16)
  | integer (value : UInt32)
  | float (bits : UInt32)
  | long (high low : UInt32)
  | double (high low : UInt32)
  | className (name : UInt16)
  | string (text : UInt16)
  | field (owner nameAndType : UInt16)
  | method (owner nameAndType : UInt16)
  | interfaceMethod (owner nameAndType : UInt16)
  | nameAndType (name descriptor : UInt16)
  | methodHandle (kind : UInt8) (member : UInt16)
  | methodType (descriptor : UInt16)
  | dynamic (bootstrap nameAndType : UInt16)
  | invokeDynamic (bootstrap nameAndType : UInt16)
  | moduleName (name : UInt16)
  | packageName (name : UInt16)
  deriving DecidableEq, Repr

namespace ConstantInfo

/-- How many indices the constant takes. -/
def width : ConstantInfo → Nat
  | long _ _ | double _ _ => 2
  | _ => 1

def encode : ConstantInfo → Bytes
  | utf8 units => 1 :: (Bytes.ofNat16 (encodeUnits units).length ++ encodeUnits units)
  | integer value => 3 :: Bytes.ofUInt32 value
  | float bits => 4 :: Bytes.ofUInt32 bits
  | long high low => 5 :: (Bytes.ofUInt32 high ++ Bytes.ofUInt32 low)
  | double high low => 6 :: (Bytes.ofUInt32 high ++ Bytes.ofUInt32 low)
  | className name => 7 :: Bytes.ofUInt16 name
  | string text => 8 :: Bytes.ofUInt16 text
  | field owner typed => 9 :: (Bytes.ofUInt16 owner ++ Bytes.ofUInt16 typed)
  | method owner typed => 10 :: (Bytes.ofUInt16 owner ++ Bytes.ofUInt16 typed)
  | interfaceMethod owner typed =>
    11 :: (Bytes.ofUInt16 owner ++ Bytes.ofUInt16 typed)
  | nameAndType name descriptor => 12 :: (Bytes.ofUInt16 name ++ Bytes.ofUInt16 descriptor)
  | methodHandle kind member => 15 :: kind :: Bytes.ofUInt16 member
  | methodType descriptor => 16 :: Bytes.ofUInt16 descriptor
  | dynamic bootstrap typed =>
    17 :: (Bytes.ofUInt16 bootstrap ++ Bytes.ofUInt16 typed)
  | invokeDynamic bootstrap typed =>
    18 :: (Bytes.ofUInt16 bootstrap ++ Bytes.ofUInt16 typed)
  | moduleName name => 19 :: Bytes.ofUInt16 name
  | packageName name => 20 :: Bytes.ofUInt16 name

/-- What a pool keeps of the constant. -/
def kept : ConstantInfo → Constant
  | utf8 units => .utf8 (ofUnits units)
  | className name => .className name
  | field owner typed => .field owner typed
  | method owner typed => .method owner typed
  | interfaceMethod owner typed => .interfaceMethod owner typed
  | nameAndType name descriptor => .nameAndType name descriptor
  | methodHandle kind member => .methodHandle kind member
  | invokeDynamic bootstrap typed => .invokeDynamic bootstrap typed
  | integer _ | float _ | long _ _ | double _ _ | string _ | methodType _ | dynamic _ _
  | moduleName _ | packageName _ => .other

/-- The entries at the indices of the constant. -/
def slots (c : ConstantInfo) : List Constant :=
  c.kept :: List.replicate (c.width - 1) .unusable

/-- Bytes of text that the constant holds. -/
def textLength : ConstantInfo → Nat
  | utf8 units => (encodeUnits units).length
  | _ => 0

/-- The constant `i` indices after the first one of a list.  The second index of
a wide constant is that of none. -/
def at? : List ConstantInfo → (i : Nat) → Option ConstantInfo
  | [], _ => none
  | c :: _, 0 => some c
  | c :: cs, i + 1 => if i + 1 < c.width then none else at? cs (i + 1 - c.width)

end ConstantInfo

structure ConstantTable where
  constants : List ConstantInfo
  deriving DecidableEq, Repr

namespace ConstantTable

/-- How many indices are taken. -/
def size (t : ConstantTable) : Nat := t.constants.foldr (fun c n => c.width + n) 0

/-- The stored count is one more than the number of indices. -/
def encode (t : ConstantTable) : Bytes :=
  Bytes.ofNat16 (t.size + 1) ++ t.constants.flatMap ConstantInfo.encode

/-- The table as bodies are decoded with it. -/
def pool (t : ConstantTable) : Pool :=
  ⟨(Constant.unusable :: t.constants.flatMap ConstantInfo.slots).toArray⟩

/-- Indices are counted from 1. -/
def get? (t : ConstantTable) (index : UInt16) : Option ConstantInfo :=
  if index = 0 then none else ConstantInfo.at? t.constants (index.toNat - 1)

def text? (t : ConstantTable) (index : UInt16) : Option String :=
  match t.get? index with
  | some (.utf8 units) => some (ofUnits units)
  | _ => none

def className? (t : ConstantTable) (index : UInt16) : Option String :=
  match t.get? index with
  | some (.className name) => t.text? name
  | _ => none

def nameAndType? (t : ConstantTable) (index : UInt16) : Option (String × String) :=
  match t.get? index with
  | some (.nameAndType name descriptor) => do
    let name ← t.text? name
    let descriptor ← t.text? descriptor
    some (name, descriptor)
  | _ => none

def member? (t : ConstantTable) (index : UInt16) : Option MemberRef :=
  match t.get? index with
  | some (.field owner nameAndType)
  | some (.method owner nameAndType)
  | some (.interfaceMethod owner nameAndType) => do
    let owner ← t.className? owner
    let (name, descriptor) ← t.nameAndType? nameAndType
    some { owner, name, descriptor }
  | _ => none

/-- The member behind a method handle. -/
def handle? (t : ConstantTable) (index : UInt16) : Option MemberRef :=
  match t.get? index with
  | some (.methodHandle _ member) => t.member? member
  | _ => none

def text (t : ConstantTable) (index : UInt16) : String := (t.text? index).getD ""

def className (t : ConstantTable) (index : UInt16) : String := (t.className? index).getD ""

/-- There is a constant at the index, and if it is a method handle, a member
behind it. -/
def refers (t : ConstantTable) (index : UInt16) : Bool :=
  match t.get? index with
  | some (.methodHandle _ member) => (t.member? member).isSome
  | c => c.isSome

end ConstantTable

/-! ## Attributes -/

/-- A count and then as many encodings. -/
def encodeList {α : Type} (encode : α → Bytes) (xs : List α) : Bytes :=
  Bytes.ofNat16 xs.length ++ xs.flatMap encode

/-- An attribute that nothing is read from. -/
structure RawAttribute where
  name : UInt16
  payload : Bytes
  deriving DecidableEq, Repr

def RawAttribute.encode (a : RawAttribute) : Bytes :=
  Bytes.ofUInt16 a.name ++ Bytes.ofNat32 a.payload.length ++ a.payload

/-- An entry of an exception table. -/
structure Handler where
  start : UInt16
  stop : UInt16
  target : UInt16
  catchType : UInt16
  deriving DecidableEq, Repr

def Handler.encode (h : Handler) : Bytes :=
  Bytes.ofUInt16 h.start ++ Bytes.ofUInt16 h.stop ++ Bytes.ofUInt16 h.target ++
    Bytes.ofUInt16 h.catchType

structure CodeInfo where
  maxStack : UInt16
  maxLocals : UInt16
  code : Bytes
  handlers : List Handler
  attributes : List RawAttribute
  deriving DecidableEq, Repr

def CodeInfo.encode (c : CodeInfo) : Bytes :=
  Bytes.ofUInt16 c.maxStack ++ Bytes.ofUInt16 c.maxLocals ++ Bytes.ofNat32 c.code.length ++
    c.code ++ encodeList Handler.encode c.handlers ++
    encodeList RawAttribute.encode c.attributes

def BootstrapMethod.encode (b : BootstrapMethod) : Bytes :=
  Bytes.ofUInt16 b.handle ++ encodeList Bytes.ofUInt16 b.arguments

inductive Content where
  | signature (text : UInt16)
  | code (c : CodeInfo)
  | bootstraps (methods : List BootstrapMethod)
  | raw (payload : Bytes)
  deriving DecidableEq, Repr

namespace Content

def encode : Content → Bytes
  | signature text => Bytes.ofUInt16 text
  | code c => c.encode
  | bootstraps methods => encodeList BootstrapMethod.encode methods
  | raw payload => payload

def signature? : Content → Option UInt16
  | signature text => some text
  | _ => none

def code? : Content → Option CodeInfo
  | code c => some c
  | _ => none

def bootstraps? : Content → Option (List BootstrapMethod)
  | bootstraps methods => some methods
  | _ => none

def isRaw : Content → Bool
  | raw _ => true
  | _ => false

/-- The content goes with the name, where `known` are the names of attributes
that the table is read for. -/
def Suits (t : ConstantTable) (known : List String) (name : String) : Content → Prop
  | signature text => name = "Signature" ∧ name ∈ known ∧ (t.text? text).isSome
  | code _ => name = "Code" ∧ name ∈ known
  | bootstraps methods =>
    name = "BootstrapMethods" ∧ name ∈ known ∧ methods.length < 65536 ∧
      ∀ b ∈ methods, b.arguments.length < 65536
  | raw _ => name ∉ known

instance (t : ConstantTable) (known : List String) (name : String) (c : Content) :
    Decidable (c.Suits t known name) :=
  match c with
  | signature _ => inferInstanceAs (Decidable (_ ∧ _))
  | code _ => inferInstanceAs (Decidable (_ ∧ _))
  | bootstraps _ => inferInstanceAs (Decidable (_ ∧ _))
  | raw _ => inferInstanceAs (Decidable (¬_))

end Content

structure AttributeInfo where
  name : UInt16
  content : Content
  deriving DecidableEq, Repr

namespace AttributeInfo

def encode (a : AttributeInfo) : Bytes :=
  Bytes.ofUInt16 a.name ++ Bytes.ofNat32 a.content.encode.length ++ a.content.encode

structure Valid (t : ConstantTable) (known : List String) (a : AttributeInfo) : Prop where
  length : a.content.encode.length < 0x100000000
  suits : ∃ name ∈ t.text? a.name, a.content.Suits t known name

instance (t : ConstantTable) (known : List String) (a : AttributeInfo) :
    Decidable (a.Valid t known) :=
  decidable_of_iff
    (a.content.encode.length < 0x100000000 ∧ ∃ name ∈ t.text? a.name, a.content.Suits t known name)
    ⟨fun ⟨length, suits⟩ => ⟨length, suits⟩, fun ⟨length, suits⟩ => ⟨length, suits⟩⟩

/-- The signature that a table of attributes has.  Of several the last counts,
as with code and bootstrap methods. -/
def signature? (attributes : List AttributeInfo) : Option UInt16 :=
  (attributes.filterMap fun a => a.content.signature?).getLast?

def code? (attributes : List AttributeInfo) : Option CodeInfo :=
  (attributes.filterMap fun a => a.content.code?).getLast?

def bootstraps? (attributes : List AttributeInfo) : Option (List BootstrapMethod) :=
  (attributes.filterMap fun a => a.content.bootstraps?).getLast?

end AttributeInfo

/-! ## Members -/

/-- Fields and methods are laid out in the same way. -/
structure MemberInfo where
  access : Access
  name : UInt16
  descriptor : UInt16
  attributes : List AttributeInfo
  deriving DecidableEq, Repr

namespace MemberInfo

def encode (m : MemberInfo) : Bytes :=
  Bytes.ofUInt16 m.access.bits ++ Bytes.ofUInt16 m.name ++ Bytes.ofUInt16 m.descriptor ++
    encodeList AttributeInfo.encode m.attributes

structure Valid (t : ConstantTable) (known : List String) (m : MemberInfo) : Prop where
  name : (t.text? m.name).isSome
  descriptor : (t.text? m.descriptor).isSome
  attributeCount : m.attributes.length < 65536
  attributes : ∀ a ∈ m.attributes, a.Valid t known

instance (t : ConstantTable) (known : List String) (m : MemberInfo) :
    Decidable (m.Valid t known) :=
  decidable_of_iff
    ((t.text? m.name).isSome ∧ (t.text? m.descriptor).isSome ∧ m.attributes.length < 65536 ∧
      ∀ a ∈ m.attributes, a.Valid t known)
    ⟨fun ⟨name, descriptor, count, attributes⟩ => ⟨name, descriptor, count, attributes⟩,
      fun ⟨name, descriptor, count, attributes⟩ => ⟨name, descriptor, count, attributes⟩⟩

def signature (t : ConstantTable) (m : MemberInfo) : Option String :=
  (AttributeInfo.signature? m.attributes).map t.text

def code? (m : MemberInfo) : Option CodeInfo := AttributeInfo.code? m.attributes

def fieldSummary (t : ConstantTable) (f : MemberInfo) : FieldSummary :=
  { name := t.text f.name
    descriptor := t.text f.descriptor
    access := f.access
    signature := f.signature t }

/-- The decoded body; a method without code has an empty one. -/
def instructions (t : ConstantTable) (m : MemberInfo) : List Instruction :=
  match m.code? with
  | some c => (Instruction.decode t.pool c.code).toOption.getD []
  | none => []

end MemberInfo

/-! ## Files -/

structure File where
  minor : UInt16
  major : UInt16
  table : ConstantTable
  access : Access
  thisClass : UInt16
  superClass : UInt16
  interfaces : List UInt16
  fields : List MemberInfo
  methods : List MemberInfo
  attributes : List AttributeInfo
  deriving DecidableEq, Repr

/-- The member that a lambda made through a bootstrap method runs. -/
def BootstrapMethod.runs? (t : ConstantTable) (b : BootstrapMethod) : Option MemberRef := do
  let factory ← t.handle? b.handle
  if makesLambda factory b.arguments.length then
    let implementation ← b.arguments[1]?
    t.handle? implementation
  else none

namespace File

def encode (f : File) : Bytes :=
  [0xCA, 0xFE, 0xBA, 0xBE] ++ Bytes.ofUInt16 f.minor ++ Bytes.ofUInt16 f.major ++
    f.table.encode ++ Bytes.ofUInt16 f.access.bits ++ Bytes.ofUInt16 f.thisClass ++
    Bytes.ofUInt16 f.superClass ++ encodeList Bytes.ofUInt16 f.interfaces ++
    encodeList MemberInfo.encode f.fields ++ encodeList MemberInfo.encode f.methods ++
    encodeList AttributeInfo.encode f.attributes

def bootstraps (f : File) : List BootstrapMethod :=
  (AttributeInfo.bootstraps? f.attributes).getD []

/-- The member that a lambda runs which the instruction makes. -/
def lambda? (f : File) : Instruction → Option MemberRef
  | .invokeDynamic bootstrap _ _ =>
    f.bootstraps[bootstrap.toNat]?.bind (BootstrapMethod.runs? f.table)
  | _ => none

/-- Some body makes a lambda that runs the member. -/
def isLambdaTarget (f : File) (member : MemberRef) : Bool :=
  (f.methods.flatMap (MemberInfo.instructions f.table)).any fun i => f.lambda? i == some member

def methodSummary (f : File) (m : MemberInfo) : MethodSummary :=
  let cls := f.table.className f.thisClass
  let name := f.table.text m.name
  let descriptor := f.table.text m.descriptor
  let lambdaTarget := f.isLambdaTarget ⟨cls, name, descriptor⟩
  let candidate : Candidate :=
    { access := m.access, descriptor, code := m.instructions f.table }
  { name
    descriptor
    access := m.access
    signature := m.signature f.table
    lambdaTarget
    bouncer := candidate.bounceTarget? cls (f.table.className? f.superClass) lambdaTarget
    getterOf := candidate.getterField? cls }

def summary (f : File) : Summary :=
  { name := f.table.className f.thisClass
    superName := f.table.className? f.superClass
    interfaces := f.interfaces.map f.table.className
    access := f.access
    signature := (AttributeInfo.signature? f.attributes).map f.table.text
    fields := f.fields.map (MemberInfo.fieldSummary f.table)
    methods := f.methods.map f.methodSummary }

/-! ## Valid files -/

/-- The names of the attributes that each table is read for. -/
def fieldNames : List String := ["Signature"]

def methodNames : List String := ["Code", "Signature"]

def classNames : List String := ["Signature", "BootstrapMethods"]

/-- All counts and lengths fit their words, all indices lead to constants of the
right kind, and all bodies can be decoded. -/
structure Valid (f : File) : Prop where
  size : f.table.size < 65535
  texts : ∀ c ∈ f.table.constants, c.textLength < 65536
  thisClass : (f.table.className? f.thisClass).isSome
  superClass : f.superClass = 0 ∨ (f.table.className? f.superClass).isSome
  interfaceCount : f.interfaces.length < 65536
  interfaces : f.interfaces.all fun index => (f.table.className? index).isSome
  fieldCount : f.fields.length < 65536
  fields : ∀ m ∈ f.fields, m.Valid f.table fieldNames
  methodCount : f.methods.length < 65536
  methods : ∀ m ∈ f.methods, m.Valid f.table methodNames
  attributeCount : f.attributes.length < 65536
  attributes : ∀ a ∈ f.attributes, a.Valid f.table classNames
  bodies : ∀ m ∈ f.methods, ∀ c ∈ m.code?, (Instruction.decode f.table.pool c.code).isOk
  handles : ∀ b ∈ f.bootstraps, (b.handle :: b.arguments).all f.table.refers

instance (f : File) : Decidable f.Valid :=
  decidable_of_iff
    ((f.table.size < 65535 ∧ ∀ c ∈ f.table.constants, c.textLength < 65536) ∧
      ((f.table.className? f.thisClass).isSome ∧
        (f.superClass = 0 ∨ (f.table.className? f.superClass).isSome)) ∧
      (f.interfaces.length < 65536 ∧
        f.interfaces.all fun index => (f.table.className? index).isSome) ∧
      (f.fields.length < 65536 ∧ ∀ m ∈ f.fields, m.Valid f.table fieldNames) ∧
      (f.methods.length < 65536 ∧ ∀ m ∈ f.methods, m.Valid f.table methodNames) ∧
      (f.attributes.length < 65536 ∧ ∀ a ∈ f.attributes, a.Valid f.table classNames) ∧
      (∀ m ∈ f.methods, ∀ c ∈ m.code?, (Instruction.decode f.table.pool c.code).isOk) ∧
      ∀ b ∈ f.bootstraps, (b.handle :: b.arguments).all f.table.refers)
    ⟨fun ⟨⟨h₁, h₂⟩, ⟨h₃, h₄⟩, ⟨h₅, h₆⟩, ⟨h₇, h₈⟩, ⟨h₉, h₁₀⟩, ⟨h₁₁, h₁₂⟩, h₁₃, h₁₄⟩ =>
        ⟨h₁, h₂, h₃, h₄, h₅, h₆, h₇, h₈, h₉, h₁₀, h₁₁, h₁₂, h₁₃, h₁₄⟩,
      fun h =>
        ⟨⟨h.size, h.texts⟩, ⟨h.thisClass, h.superClass⟩, ⟨h.interfaceCount, h.interfaces⟩,
          ⟨h.fieldCount, h.fields⟩, ⟨h.methodCount, h.methods⟩,
          ⟨h.attributeCount, h.attributes⟩, h.bodies, h.handles⟩⟩

end File
end ClassFile
end Lineage
