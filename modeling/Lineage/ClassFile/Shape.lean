import Lineage.Access
import Lineage.ClassFile.Instruction
import Lineage.Descriptor.Reader

/-!
Bodies told by their shape.

A bouncer only forwards: it loads the receiver and then its arguments in order,
checking types in between if need be, calls a method of its own class or its
superclass, and returns what it got.  Lambda bodies can look the same, so a
method that a lambda site points to is none.

A getter returns a field of its own class.
-/

namespace Lineage
namespace ClassFile

structure Candidate where
  access : Access
  descriptor : String
  code : List Instruction

namespace Candidate

/-- The instructions between the receiver load and the call only load
parameters, each from the slot it arrives in, and check types.  `slot` is where
the next of `parameters` arrives. -/
def forwards (parameters : List FieldType) (slot : UInt16) : List Instruction → Bool
  | [] => true
  | .load _ s :: rest =>
    match parameters with
    | p :: ps => s == slot && forwards ps (slot + p.slots) rest
    | [] => false
  | .typeCheck _ _ :: rest => forwards parameters slot rest
  | _ :: _ => false

/-- The call that a body ends in and what stands before it, if the body ends in
a call and a return. -/
def tailCall? (code : List Instruction) : Option (List Instruction × MemberRef) :=
  match code.reverse with
  | .leave _ :: .invoke _ method :: body => some (body.reverse, method)
  | _ => none

def bounceTarget? (m : Candidate) (className : String) (superName : Option String)
    (lambdaTarget : Bool) : Option MemberRef := do
  guard (!lambdaTarget && !m.access.has .static)
  guard (m.access.has .synthetic || m.access.has .bridge)
  let receiver :: rest := m.code | none
  guard receiver.isReceiverLoad
  let (body, target) ← tailCall? rest
  let own ← (MethodType.parse m.descriptor).toOption
  guard (forwards own.parameters 1 body)
  guard (target.owner == className || some target.owner == superName)
  let callee ← (MethodType.parse target.descriptor).toOption
  guard (callee.stackShape == own.stackShape)
  some target

def getterField? (m : Candidate) (className : String) : Option String := do
  guard (!m.access.has .static)
  guard (['(', ')'].isPrefixOf m.descriptor.toList)
  match m.code with
  | receiver :: .getField field :: .leave _ :: _ =>
    guard (receiver.isReceiverLoad && field.owner == className)
    some field.name
  | _ => none

end Candidate
end ClassFile
end Lineage
