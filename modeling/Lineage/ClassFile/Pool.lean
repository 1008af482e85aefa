import Lineage.ClassFile.Reader
import Lineage.MemberRef
import Lineage.Text.ModifiedUtf8

/-!
Constant pools.  Only the constants that hierarchies and bodies refer to keep
their content.  A constant of eight bytes takes two indices, and index 0 is
never a constant.
-/

namespace Lineage
namespace ClassFile

inductive Constant where
  | utf8 (text : String)
  | className (name : UInt16)
  | nameAndType (name descriptor : UInt16)
  | field (owner nameAndType : UInt16)
  | method (owner nameAndType : UInt16)
  | interfaceMethod (owner nameAndType : UInt16)
  | methodHandle (kind : UInt8) (member : UInt16)
  | invokeDynamic (bootstrap nameAndType : UInt16)
  /-- A constant whose content is not kept. -/
  | other
  /-- An index that no constant has. -/
  | unusable
  deriving DecidableEq, Repr

namespace Constant

/-- The constant behind a tag, with the number of indices it takes. -/
def read : Reader (Constant × Nat) := do
  let tag ← Reader.u1
  match tag with
  | 1 => do
    let length ← Reader.u2
    let bytes ← Reader.slice length.toNat
    pure (utf8 (ModifiedUtf8.decode bytes), 1)
  | 3 | 4 | 17 => do
    Reader.skip 4
    pure (other, 1)
  | 5 | 6 => do
    Reader.skip 8
    pure (other, 2)
  | 7 => do pure (className (← Reader.u2), 1)
  | 8 | 16 | 19 | 20 => do
    Reader.skip 2
    pure (other, 1)
  | 9 => do pure (field (← Reader.u2) (← Reader.u2), 1)
  | 10 => do pure (method (← Reader.u2) (← Reader.u2), 1)
  | 11 => do pure (interfaceMethod (← Reader.u2) (← Reader.u2), 1)
  | 12 => do pure (nameAndType (← Reader.u2) (← Reader.u2), 1)
  | 15 => do pure (methodHandle (← Reader.u1) (← Reader.u2), 1)
  | 18 => do pure (invokeDynamic (← Reader.u2) (← Reader.u2), 1)
  | _ => Reader.fail (.unsupportedConstant tag)

end Constant

structure Pool where
  entries : Array Constant
  deriving Repr

namespace Pool

/-- Constants until `n` more indices are taken. -/
def readEntries (n : Nat) : Reader (List Constant) :=
  match n with
  | 0 => pure []
  | n + 1 => do
    let (constant, width) ← Constant.read
    if width = 1 then
      let rest ← readEntries n
      pure (constant :: rest)
    else
      let rest ← readEntries (n - 1)
      pure (constant :: .unusable :: rest)
  termination_by n

/-- The stored count is one more than the number of indices in use. -/
def read : Reader Pool := do
  let count ← Reader.u2
  let entries ← readEntries (count.toNat - 1)
  pure ⟨(Constant.unusable :: entries).toArray⟩

def get (pool : Pool) (index : UInt16) : Except ReadError Constant :=
  match pool.entries[index.toNat]? with
  | some constant => .ok constant
  | none => .error (.badConstantIndex index)

def utf8 (pool : Pool) (index : UInt16) : Except ReadError String := do
  match ← pool.get index with
  | .utf8 text => .ok text
  | _ => .error (.badConstantIndex index)

def className (pool : Pool) (index : UInt16) : Except ReadError String := do
  match ← pool.get index with
  | .className name => pool.utf8 name
  | _ => .error (.badConstantIndex index)

/-- Index 0 stands for no class. -/
def className? (pool : Pool) (index : UInt16) : Except ReadError (Option String) :=
  if index = 0 then .ok none else (pool.className index).map some

def nameAndType (pool : Pool) (index : UInt16) : Except ReadError (String × String) := do
  match ← pool.get index with
  | .nameAndType name descriptor => do
    let name ← pool.utf8 name
    let descriptor ← pool.utf8 descriptor
    .ok (name, descriptor)
  | _ => .error (.badConstantIndex index)

def member (pool : Pool) (index : UInt16) : Except ReadError MemberRef := do
  match ← pool.get index with
  | .field owner nameAndType
  | .method owner nameAndType
  | .interfaceMethod owner nameAndType => do
    let owner ← pool.className owner
    let (name, descriptor) ← pool.nameAndType nameAndType
    .ok { owner, name, descriptor }
  | _ => .error (.badConstantIndex index)

/-- The member behind a method handle; `none` for a constant of another kind. -/
def methodHandle? (pool : Pool) (index : UInt16) :
    Except ReadError (Option MemberRef) := do
  match ← pool.get index with
  | .methodHandle _ member => (pool.member member).map some
  | _ => .ok none

/-- Bootstrap number, name and descriptor of a dynamic call site. -/
def invokeDynamic (pool : Pool) (index : UInt16) :
    Except ReadError (UInt16 × String × String) := do
  match ← pool.get index with
  | .invokeDynamic bootstrap nameAndType => do
    let (name, descriptor) ← pool.nameAndType nameAndType
    .ok (bootstrap, name, descriptor)
  | _ => .error (.badConstantIndex index)

end Pool
end ClassFile
end Lineage
