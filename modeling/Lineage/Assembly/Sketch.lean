import Lineage.Access
import Lineage.Assembly.Code

/-!
Classes to be assembled.  A sketch names a class and lists its declarations in
order; assembling gathers the constants that they ask for, in that order, and
then writes the file.
-/

namespace Lineage
namespace Assembly

structure MethodSketch where
  access : Access
  name : String
  descriptor : String
  signature : Option String
  body : Option (List CodeStep)
  deriving DecidableEq, Repr

structure FieldSketch where
  access : Access
  name : String
  descriptor : String
  signature : Option String
  deriving DecidableEq, Repr

inductive Declaration where
  | interface (name : String)
  /-- The generic signature of the class.  The last one counts. -/
  | signature (text : String)
  | field (f : FieldSketch)
  | method (m : MethodSketch)
  deriving DecidableEq, Repr

structure Sketch where
  name : String
  superName : Option String
  access : Access
  declarations : List Declaration
  deriving DecidableEq, Repr

namespace Declaration

def abstractMethod (access : Access) (name descriptor : String) : Declaration :=
  method
    { access := access.withModifier .abstract, name, descriptor, signature := none, body := none }

def nativeMethod (access : Access) (name descriptor : String) : Declaration :=
  method
    { access := access.withModifier .native, name, descriptor, signature := none, body := none }

def interface? : Declaration → Option String
  | interface name => some name
  | _ => none

def signature? : Declaration → Option String
  | signature text => some text
  | _ => none

def field? : Declaration → Option FieldSketch
  | field f => some f
  | _ => none

def method? : Declaration → Option MethodSketch
  | method m => some m
  | _ => none

def lambdas : Declaration → List LambdaSite
  | method m => (m.body.getD []).filterMap CodeStep.lambda?
  | _ => []

def requests (sites : Nat) : Declaration → List Symbol
  | interface name => [.className name]
  | signature text => [.utf8 text]
  | field f => .utf8 f.name :: .utf8 f.descriptor :: f.signature.toList.map .utf8
  | method m =>
    bodyRequests sites (m.body.getD []) ++
      .utf8 m.name :: .utf8 m.descriptor :: m.signature.toList.map .utf8

end Declaration

/-- Declarations, each with the number of lambda sites in those before it. -/
def numberedDeclarations (sites : Nat) : List Declaration → List (Nat × Declaration)
  | [] => []
  | d :: ds => (sites, d) :: numberedDeclarations (sites + d.lambdas.length) ds

namespace Sketch

def lambdas (c : Sketch) : List LambdaSite := c.declarations.flatMap Declaration.lambdas

def interfaces (c : Sketch) : List String := c.declarations.filterMap Declaration.interface?

def signature (c : Sketch) : Option String :=
  (c.declarations.filterMap Declaration.signature?).getLast?

def fields (c : Sketch) : List FieldSketch := c.declarations.filterMap Declaration.field?

/-- The methods, each with the number of lambda sites before it. -/
def methods (c : Sketch) : List (Nat × MethodSketch) :=
  (numberedDeclarations 0 c.declarations).filterMap fun d =>
    d.2.method?.map fun m => (d.1, m)

/-- All constants in the order in which they are asked for: the class and its
superclass, the declarations, and the names of attributes. -/
def requests (c : Sketch) : List Symbol :=
  .className c.name :: c.superName.toList.map .className ++
    (numberedDeclarations 0 c.declarations).flatMap (fun d => d.2.requests d.1) ++
    [.utf8 "Code", .utf8 "Signature"] ++
    if c.lambdas.isEmpty then [] else [.utf8 "BootstrapMethods"]

def pool (c : Sketch) : SymbolPool := .ofRequests c.requests

end Sketch

/-! ## Writing -/

def encodeAttribute (pool : SymbolPool) (name : String) (payload : Bytes) : Bytes :=
  Bytes.ofUInt16 (pool.index (.utf8 name)) ++ Bytes.ofNat32 payload.length ++ payload

def encodeTable (entries : List Bytes) : Bytes :=
  Bytes.ofNat16 entries.length ++ entries.flatten

def encodeSignature (pool : SymbolPool) (text : String) : Bytes :=
  encodeAttribute pool "Signature" (Bytes.ofUInt16 (pool.index (.utf8 text)))

namespace MethodSketch

/-- Slots taken on entry: the parameters, and the receiver of an instance
method. -/
def entrySlots (m : MethodSketch) : UInt16 :=
  parameterSlots m.descriptor + if m.access.has .static then 0 else 1

/-- The payload of the code: four more stack slots than on entry are enough for
the straight-line bodies written here.  No exceptions are handled and no nested
attributes follow. -/
def encodeCode (m : MethodSketch) (pool : SymbolPool) (sites : Nat)
    (steps : List CodeStep) : Bytes :=
  let code := encodeBody pool sites steps
  Bytes.ofUInt16 (m.entrySlots + 4) ++
    Bytes.ofUInt16 ((steps.map CodeStep.localsEnd).foldl max m.entrySlots) ++
    Bytes.ofNat32 code.length ++ code ++ [0, 0, 0, 0]

def encode (pool : SymbolPool) (sites : Nat) (m : MethodSketch) : Bytes :=
  Bytes.ofUInt16 m.access.bits ++ Bytes.ofUInt16 (pool.index (.utf8 m.name)) ++
    Bytes.ofUInt16 (pool.index (.utf8 m.descriptor)) ++
    encodeTable
      (m.body.toList.map (fun steps => encodeAttribute pool "Code" (m.encodeCode pool sites steps))
        ++ m.signature.toList.map (encodeSignature pool))

end MethodSketch

def FieldSketch.encode (pool : SymbolPool) (f : FieldSketch) : Bytes :=
  Bytes.ofUInt16 f.access.bits ++ Bytes.ofUInt16 (pool.index (.utf8 f.name)) ++
    Bytes.ofUInt16 (pool.index (.utf8 f.descriptor)) ++
    encodeTable (f.signature.toList.map (encodeSignature pool))

namespace Sketch

def encodeBootstraps (c : Sketch) (pool : SymbolPool) : List Bytes :=
  if c.lambdas.isEmpty then []
  else
    [encodeAttribute pool "BootstrapMethods"
      (encodeTable (c.lambdas.map (LambdaSite.encodeBootstrap pool)))]

/-- The class file, in version 52 of the format. -/
def assemble (c : Sketch) : Bytes :=
  let pool := c.pool
  [0xCA, 0xFE, 0xBA, 0xBE, 0, 0, 0, 52] ++ pool.encode ++
    Bytes.ofUInt16 c.access.bits ++
    Bytes.ofUInt16 (pool.index (.className c.name)) ++
    Bytes.ofUInt16 ((c.superName.map fun name => pool.index (.className name)).getD 0) ++
    encodeTable (c.interfaces.map fun name => Bytes.ofUInt16 (pool.index (.className name))) ++
    encodeTable (c.fields.map (FieldSketch.encode pool)) ++
    encodeTable (c.methods.map fun m => m.2.encode pool m.1) ++
    encodeTable
      (c.signature.toList.map (encodeSignature pool) ++ c.encodeBootstraps pool)

end Sketch
end Assembly
end Lineage
