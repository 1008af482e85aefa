import Lineage.ClassFile.Body
import Lineage.ClassFile.Layout
import Lineage.ClassFile.Shape

/-!
What a class file says about its class: names, flags, generic signatures and
members, and what the bodies of its methods are good for.  Bytes after the last
class attribute are not looked at.
-/

namespace Lineage
namespace ClassFile

structure FieldSummary where
  name : String
  descriptor : String
  access : Access
  signature : Option String
  deriving DecidableEq, Repr

structure MethodSummary where
  name : String
  descriptor : String
  access : Access
  signature : Option String
  /-- A lambda site of the class uses the method as its implementation. -/
  lambdaTarget : Bool
  /-- What the method forwards to, if it is a bouncer. -/
  bouncer : Option MemberRef
  /-- The field that the method returns, if it is a getter. -/
  getterOf : Option String
  deriving DecidableEq, Repr

structure Summary where
  name : String
  superName : Option String
  interfaces : List String
  access : Access
  signature : Option String
  fields : List FieldSummary
  methods : List MethodSummary
  deriving DecidableEq, Repr

/-! ## Lambda sites -/

def lambdaFactory : String := "java/lang/invoke/LambdaMetafactory"

/-- The factory methods that make lambdas, and the arguments each is given. -/
def makesLambda (factory : MemberRef) (arguments : Nat) : Bool :=
  factory.owner == lambdaFactory &&
    ((factory.name == "metafactory" && arguments == 3) ||
      (factory.name == "altMetafactory" && 3 ≤ arguments))

namespace BootstrapMethod

/-- The method that a lambda made through this entry runs. -/
def implementation? (pool : Pool) (b : BootstrapMethod) :
    Except ReadError (Option MemberRef) := do
  match ← pool.methodHandle? b.handle with
  | none => .ok none
  | some factory =>
    if makesLambda factory b.arguments.length then
      match b.arguments with
      | _ :: implementation :: _ => pool.methodHandle? implementation
      | _ => .ok none
    else .ok none

end BootstrapMethod

/-- The bootstrap numbers of all dynamic call sites, each once, in the order of
their first sites. -/
def bootstrapNumbers (bodies : List (List Instruction)) : List UInt16 :=
  (bodies.flatten.filterMap fun
    | .invokeDynamic bootstrap _ _ => some bootstrap
    | _ => none).eraseDups

def implementations (pool : Pool) :
    List BootstrapMethod → Except ReadError (List MemberRef)
  | [] => .ok []
  | b :: bs => do
    let implementation ← b.implementation? pool
    let rest ← implementations pool bs
    .ok (implementation.toList ++ rest)

/-- The implementation methods of the lambda sites of a class.  A site whose
bootstrap number is not in the table adds nothing. -/
def lambdaTargets (pool : Pool) (table : List BootstrapMethod)
    (bodies : List (List Instruction)) : Except ReadError (List MemberRef) :=
  implementations pool ((bootstrapNumbers bodies).filterMap fun n => table[n.toNat]?)

/-! ## The summary -/

def decodeBodies (pool : Pool) :
    List MethodLayout → Except ReadError (List (List Instruction))
  | [] => .ok []
  | m :: ms => do
    let body ← match m.code with
      | some code => Instruction.decode pool code
      | none => .ok []
    let bodies ← decodeBodies pool ms
    .ok (body :: bodies)

def FieldLayout.summary (f : FieldLayout) : FieldSummary :=
  { name := f.name, descriptor := f.descriptor, access := f.access, signature := f.signature }

def MethodLayout.summary (m : MethodLayout) (className : String)
    (superName : Option String) (targets : List MemberRef) (code : List Instruction) :
    MethodSummary :=
  let candidate : Candidate := { access := m.access, descriptor := m.descriptor, code }
  let lambdaTarget := targets.contains ⟨className, m.name, m.descriptor⟩
  { name := m.name
    descriptor := m.descriptor
    access := m.access
    signature := m.signature
    lambdaTarget
    bouncer := candidate.bounceTarget? className superName lambdaTarget
    getterOf := candidate.getterField? className }

def Layout.summary (c : Layout) : Except ReadError Summary := do
  let bodies ← decodeBodies c.pool c.methods
  let targets ← lambdaTargets c.pool c.bootstraps bodies
  .ok
    { name := c.name
      superName := c.superName
      interfaces := c.interfaces
      access := c.access
      signature := c.signature
      fields := c.fields.map FieldLayout.summary
      methods := (c.methods.zip bodies).map fun m =>
        m.1.summary c.name c.superName targets m.2 }

def parse (bytes : Bytes) : Except ReadError Summary := do
  let (layout, _) ← Layout.read bytes
  layout.summary

end ClassFile
end Lineage
