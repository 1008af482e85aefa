import Lineage.MemberRef
import Lineage.Text.ModifiedUtf8

/-!
Constants by what they stand for, and pools that hold them.

A pool is a list of different constants in which the parts of a constant come
before it; the index of a constant is its place in the list, counted from 1.
Adding constants only ever extends the list, so an index stays good.
-/

namespace Lineage
namespace Assembly

inductive MemberKind where
  | field
  | method
  | interfaceMethod
  deriving DecidableEq, Repr

def MemberKind.tag : MemberKind → UInt8
  | field => 9
  | method => 10
  | interfaceMethod => 11

inductive Symbol where
  | utf8 (text : String)
  | integer (value : UInt32)
  | className (name : String)
  | nameAndType (name descriptor : String)
  | member (kind : MemberKind) (ref : MemberRef)
  | methodHandle (kind : UInt8) (member : MemberKind) (ref : MemberRef)
  | methodType (descriptor : String)
  | invokeDynamic (bootstrap : UInt16) (name descriptor : String)
  deriving DecidableEq, Repr

namespace Symbol

/-- The constant after all of its parts, in the order in which they enter a
pool. -/
def closure : Symbol → List Symbol
  | utf8 text => [utf8 text]
  | integer value => [integer value]
  | className name => [utf8 name, className name]
  | nameAndType name descriptor =>
    [utf8 name, utf8 descriptor, nameAndType name descriptor]
  | member kind ref =>
    [utf8 ref.owner, className ref.owner, utf8 ref.name, utf8 ref.descriptor,
      nameAndType ref.name ref.descriptor, member kind ref]
  | methodHandle kind m ref =>
    [utf8 ref.owner, className ref.owner, utf8 ref.name, utf8 ref.descriptor,
      nameAndType ref.name ref.descriptor, member m ref, methodHandle kind m ref]
  | methodType descriptor => [utf8 descriptor, methodType descriptor]
  | invokeDynamic bootstrap name descriptor =>
    [utf8 name, utf8 descriptor, nameAndType name descriptor,
      invokeDynamic bootstrap name descriptor]

theorem mem_closure (s : Symbol) : s ∈ s.closure := by
  cases s <;> simp [closure]

end Symbol

structure SymbolPool where
  symbols : List Symbol
  deriving DecidableEq, Repr

namespace SymbolPool

/-- The pool that comes from asking for constants one after the other. -/
def ofRequests (requests : List Symbol) : SymbolPool :=
  ⟨(requests.flatMap Symbol.closure).eraseDups⟩

def index (pool : SymbolPool) (s : Symbol) : UInt16 :=
  UInt16.ofNat (pool.symbols.idxOf s + 1)

/-- The constant as bytes: its tag, then its content or the indices of its
parts. -/
def encodeSymbol (pool : SymbolPool) : Symbol → Bytes
  | .utf8 text =>
    let bytes := ModifiedUtf8.encode text
    1 :: Bytes.ofNat16 bytes.length ++ bytes
  | .integer value => 3 :: Bytes.ofUInt32 value
  | .className name => 7 :: Bytes.ofUInt16 (pool.index (.utf8 name))
  | .nameAndType name descriptor =>
    12 :: Bytes.ofUInt16 (pool.index (.utf8 name)) ++
      Bytes.ofUInt16 (pool.index (.utf8 descriptor))
  | .member kind ref =>
    kind.tag :: Bytes.ofUInt16 (pool.index (.className ref.owner)) ++
      Bytes.ofUInt16 (pool.index (.nameAndType ref.name ref.descriptor))
  | .methodHandle kind m ref =>
    15 :: kind :: Bytes.ofUInt16 (pool.index (.member m ref))
  | .methodType descriptor => 16 :: Bytes.ofUInt16 (pool.index (.utf8 descriptor))
  | .invokeDynamic bootstrap name descriptor =>
    18 :: Bytes.ofUInt16 bootstrap ++
      Bytes.ofUInt16 (pool.index (.nameAndType name descriptor))

/-- The count that precedes a pool is one more than the constants in it. -/
def encode (pool : SymbolPool) : Bytes :=
  Bytes.ofNat16 (pool.symbols.length + 1) ++ pool.symbols.flatMap pool.encodeSymbol

end SymbolPool
end Assembly
end Lineage
