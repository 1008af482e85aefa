import Lineage.Access
import Lineage.ClassFile.Pool

/-!
The layout of a class file, from the magic word to the last class attribute.
Reading resolves names as it goes and keeps the bodies of methods as bytes,
since the bootstrap table that they refer to comes after them.
-/

namespace Lineage
namespace ClassFile

structure BootstrapMethod where
  handle : UInt16
  arguments : List UInt16
  deriving DecidableEq, Repr

structure FieldLayout where
  access : Access
  name : String
  descriptor : String
  signature : Option String
  deriving DecidableEq, Repr

structure MethodLayout where
  access : Access
  name : String
  descriptor : String
  signature : Option String
  code : Option Bytes
  deriving DecidableEq, Repr

structure Layout where
  pool : Pool
  access : Access
  name : String
  superName : Option String
  interfaces : List String
  fields : List FieldLayout
  methods : List MethodLayout
  signature : Option String
  bootstraps : List BootstrapMethod

/-! ## Attributes -/

/-- A table of `n` attributes.  Each is a name, a length and a payload; `one`
is handed the first two and what the attributes before it said, and has to get
past the payload. -/
def readAttributes {σ : Type} (pool : Pool) (one : String → Nat → σ → Reader σ) :
    Nat → σ → Reader σ
  | 0, said => pure said
  | n + 1, said => do
    let index ← Reader.u2
    let name ← Reader.ofExcept (pool.utf8 index)
    let length ← Reader.u4
    let said ← one name length.toNat said
    readAttributes pool one n said

def readSignature (pool : Pool) (length : Nat) : Reader String := do
  let index ← Reader.u2
  let text ← Reader.ofExcept (pool.utf8 index)
  Reader.skip (length - 2)
  pure text

/-- The payload of a method's code: stack and local limits, then the
instructions.  What comes after those is of no interest. -/
def readCode : Reader Bytes := do
  let _ ← Reader.u2
  let _ ← Reader.u2
  let length ← Reader.u4
  Reader.slice length.toNat

def readBootstrap : Reader BootstrapMethod := do
  let handle ← Reader.u2
  let count ← Reader.u2
  let arguments ← Reader.times Reader.u2 count.toNat
  pure { handle, arguments }

def readBootstraps : Reader (List BootstrapMethod) := do
  let count ← Reader.u2
  Reader.times readBootstrap count.toNat

/-! ## Members -/

def fieldAttribute (pool : Pool) (name : String) (length : Nat)
    (signature : Option String) : Reader (Option String) :=
  if name = "Signature" then do
    let text ← readSignature pool length
    pure (some text)
  else do
    Reader.skip length
    pure signature

def readField (pool : Pool) : Reader FieldLayout := do
  let access ← Reader.u2
  let name ← Reader.u2
  let name ← Reader.ofExcept (pool.utf8 name)
  let descriptor ← Reader.u2
  let descriptor ← Reader.ofExcept (pool.utf8 descriptor)
  let count ← Reader.u2
  let signature ← readAttributes pool (fieldAttribute pool) count.toNat none
  pure { access := ⟨access⟩, name, descriptor, signature }

/-- What the attributes of a method have said so far. -/
structure MethodAttributes where
  signature : Option String
  code : Option Bytes

def methodAttribute (pool : Pool) (name : String) (length : Nat)
    (said : MethodAttributes) : Reader MethodAttributes :=
  if name = "Code" then do
    let code ← Reader.within length readCode
    pure { said with code := some code }
  else if name = "Signature" then do
    let text ← readSignature pool length
    pure { said with signature := some text }
  else do
    Reader.skip length
    pure said

def readMethod (pool : Pool) : Reader MethodLayout := do
  let access ← Reader.u2
  let name ← Reader.u2
  let name ← Reader.ofExcept (pool.utf8 name)
  let descriptor ← Reader.u2
  let descriptor ← Reader.ofExcept (pool.utf8 descriptor)
  let count ← Reader.u2
  let said ← readAttributes pool (methodAttribute pool) count.toNat
    { signature := none, code := none }
  pure { access := ⟨access⟩, name, descriptor, signature := said.signature, code := said.code }

/-! ## The class -/

/-- What the attributes of the class have said so far. -/
structure ClassAttributes where
  signature : Option String
  bootstraps : List BootstrapMethod

def classAttribute (pool : Pool) (name : String) (length : Nat)
    (said : ClassAttributes) : Reader ClassAttributes :=
  if name = "Signature" then do
    let text ← readSignature pool length
    pure { said with signature := some text }
  else if name = "BootstrapMethods" then do
    let bootstraps ← Reader.within length readBootstraps
    pure { said with bootstraps }
  else do
    Reader.skip length
    pure said

def magic : UInt32 := 0xCAFEBABE

def readMagic : Reader Unit := do
  let word ← Reader.u4
  if word = magic then pure () else Reader.fail .badMagic

def readInterface (pool : Pool) : Reader String := do
  let index ← Reader.u2
  Reader.ofExcept (pool.className index)

def Layout.read : Reader Layout := do
  readMagic
  let _minor ← Reader.u2
  let _major ← Reader.u2
  let pool ← Pool.read
  let access ← Reader.u2
  let thisClass ← Reader.u2
  let superClass ← Reader.u2
  let name ← Reader.ofExcept (pool.className thisClass)
  let superName ← Reader.ofExcept (pool.className? superClass)
  let count ← Reader.u2
  let interfaces ← Reader.times (readInterface pool) count.toNat
  let count ← Reader.u2
  let fields ← Reader.times (readField pool) count.toNat
  let count ← Reader.u2
  let methods ← Reader.times (readMethod pool) count.toNat
  let count ← Reader.u2
  let said ← readAttributes pool (classAttribute pool) count.toNat
    { signature := none, bootstraps := [] }
  pure
    { pool, access := ⟨access⟩, name, superName, interfaces, fields, methods,
      signature := said.signature, bootstraps := said.bootstraps }

end ClassFile
end Lineage
