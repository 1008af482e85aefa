import Lineage.Assembly.Constants
import Lineage.ClassFile.Instruction
import Lineage.Descriptor.Reader

/-!
Bodies to be assembled.  A body is a list of steps, each of which asks for
constants and turns into bytes once the pool is known.  Lambda sites are
numbered through the whole class, so every step is taken together with the
number of sites before it.
-/

namespace Lineage
namespace Assembly

open ClassFile (LoadKind)

structure LambdaSite where
  /-- The factory that takes flags after the three usual arguments. -/
  alternative : Bool
  name : String
  /-- From captured values to the functional interface. -/
  descriptor : String
  /-- Descriptor of the provided method after erasure. -/
  erased : String
  implementation : MemberRef
  /-- Reference kind of the handle to the implementation. -/
  kind : UInt8
  /-- Descriptor of the provided method at this site. -/
  instantiated : String
  deriving DecidableEq, Repr

inductive CodeStep where
  /-- A byte as it is, usually an instruction without operands. -/
  | op (opcode : UInt8)
  | load (kind : LoadKind) (slot : UInt16)
  | checkCast (className : String)
  | instanceOf (className : String)
  | getField (field : MemberRef)
  | invoke (opcode : UInt8) (method : MemberRef)
  | lambda (site : LambdaSite)
  deriving DecidableEq, Repr

namespace LambdaSite

def metafactory : MemberRef :=
  { owner := "java/lang/invoke/LambdaMetafactory"
    name := "metafactory"
    descriptor := "(Ljava/lang/invoke/MethodHandles$Lookup;Ljava/lang/String;" ++
      "Ljava/lang/invoke/MethodType;Ljava/lang/invoke/MethodType;" ++
      "Ljava/lang/invoke/MethodHandle;Ljava/lang/invoke/MethodType;)" ++
      "Ljava/lang/invoke/CallSite;" }

def altMetafactory : MemberRef :=
  { owner := "java/lang/invoke/LambdaMetafactory"
    name := "altMetafactory"
    descriptor := "(Ljava/lang/invoke/MethodHandles$Lookup;Ljava/lang/String;" ++
      "Ljava/lang/invoke/MethodType;[Ljava/lang/Object;)Ljava/lang/invoke/CallSite;" }

/-- Handles to static methods and to interface methods. -/
def staticKind : UInt8 := 6

def interfaceKind : UInt8 := 9

def factory (s : LambdaSite) : Symbol :=
  .methodHandle staticKind .method (if s.alternative then altMetafactory else metafactory)

/-- The bootstrap arguments; the alternative factory gets a word of no flags. -/
def arguments (s : LambdaSite) : List Symbol :=
  [.methodType s.erased,
    .methodHandle s.kind (if s.kind = interfaceKind then .interfaceMethod else .method)
      s.implementation,
    .methodType s.instantiated] ++
  if s.alternative then [.integer 0] else []

/-- The call site of the lambda whose bootstrap entry has number `n`. -/
def site (s : LambdaSite) (n : Nat) : Symbol :=
  .invokeDynamic (UInt16.ofNat n) s.name s.descriptor

def encodeBootstrap (pool : SymbolPool) (s : LambdaSite) : Bytes :=
  Bytes.ofUInt16 (pool.index s.factory) ++ Bytes.ofNat16 s.arguments.length ++
    s.arguments.flatMap fun a => Bytes.ofUInt16 (pool.index a)

end LambdaSite

/-- Parameter slots that a descriptor calls for; none if it cannot be read. -/
def parameterSlots (descriptor : String) : UInt16 :=
  match MethodType.parse descriptor with
  | .ok m => m.parameterSlots
  | .error _ => 0

namespace CodeStep

def invokeInterface : UInt8 := 0xB9

def callKind (opcode : UInt8) : MemberKind :=
  if opcode = invokeInterface then .interfaceMethod else .method

def lambda? : CodeStep → Option LambdaSite
  | lambda site => some site
  | _ => none

/-- The constants that the step asks for, in order.  `sites` is the number of
lambda sites before it in the class. -/
def requests (sites : Nat) : CodeStep → List Symbol
  | op _ | load _ _ => []
  | checkCast name | instanceOf name => [.className name]
  | getField field => [.member .field field]
  | invoke opcode method => [.member (callKind opcode) method]
  | lambda site => site.factory :: site.arguments ++ [site.site sites]

def encodeLoad (kind : LoadKind) (slot : UInt16) : Bytes :=
  if slot.toNat ≤ 3 then [UInt8.ofNat (0x1A + kind.rank * 4 + slot.toNat)]
  else if slot.toNat < 256 then [UInt8.ofNat (0x15 + kind.rank), slot.toUInt8]
  else 0xC4 :: UInt8.ofNat (0x15 + kind.rank) :: Bytes.ofUInt16 slot

/-- The count operand of an interface call: the parameter slots and the
receiver. -/
def callCount (method : MemberRef) : UInt8 :=
  (parameterSlots method.descriptor + 1).toUInt8

def encode (pool : SymbolPool) (sites : Nat) : CodeStep → Bytes
  | op opcode => [opcode]
  | load kind slot => encodeLoad kind slot
  | checkCast name => 0xC0 :: Bytes.ofUInt16 (pool.index (.className name))
  | instanceOf name => 0xC1 :: Bytes.ofUInt16 (pool.index (.className name))
  | getField field => 0xB4 :: Bytes.ofUInt16 (pool.index (.member .field field))
  | invoke opcode method =>
    opcode :: Bytes.ofUInt16 (pool.index (.member (callKind opcode) method)) ++
      if opcode = invokeInterface then [callCount method, 0] else []
  | lambda site => 0xBA :: Bytes.ofUInt16 (pool.index (site.site sites)) ++ [0, 0]

/-- The first local variable above those that the step touches. -/
def localsEnd : CodeStep → UInt16
  | load kind slot => slot + kind.width
  | _ => 0

end CodeStep

/-- The steps of a body, each with the number of lambda sites before it in the
class; `sites` counts those before the body. -/
def numbered (sites : Nat) : List CodeStep → List (Nat × CodeStep)
  | [] => []
  | s :: steps => (sites, s) :: numbered (sites + s.lambda?.toList.length) steps

def bodyRequests (sites : Nat) (steps : List CodeStep) : List Symbol :=
  (numbered sites steps).flatMap fun s => s.2.requests s.1

def encodeBody (pool : SymbolPool) (sites : Nat) (steps : List CodeStep) : Bytes :=
  (numbered sites steps).flatMap fun s => s.2.encode pool s.1

end Assembly
end Lineage
