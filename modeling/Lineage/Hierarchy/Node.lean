import Lineage.ClassFile.Summary
import Lineage.Platform.Foundation

/-!
Classes as they stand in a hierarchy: what their class files say, and what
resolution finds out about them.  A class that has just been read has no
findings yet.
-/

namespace Lineage

open Std (ExtTreeMap)

/-- Where a bouncer forwards to. -/
structure Bounce where
  target : MemberRef
  /-- The override root that the chain of bouncers ends at, if another class
  declares it. -/
  landing : Option MemberRef
  deriving DecidableEq

structure FieldNode where
  name : String
  descriptor : String
  access : Access
  signature : Option String
  forcedName : Option String
  /-- The getters of a record's field, in file order. -/
  accessors : List MemberRef
  deriving DecidableEq

structure MethodNode where
  owner : String
  name : String
  descriptor : String
  access : Access
  signature : Option String
  lambdaTarget : Bool
  bounce : Option Bounce
  forcedName : Option String
  /-- The forced name must not be replaced. -/
  pinned : Bool
  /-- The roots whose names the method has to share. -/
  overrides : MemberSet
  /-- The bouncers that forward to the method. -/
  forwarders : MemberSet
  /-- The nearest declaration above it among the primary classes. -/
  parent : Option MemberRef
  deriving DecidableEq

namespace MethodNode

def ref (m : MethodNode) : MemberRef := ⟨m.owner, m.name, m.descriptor⟩

def key (m : MethodNode) : String := m.ref.key

def isBouncer (m : MethodNode) : Bool := m.bounce.isSome

/-- Static methods, private methods, constructors and class initialisers take
no part in overriding. -/
def isOverridable (m : MethodNode) : Bool :=
  !m.access.has .static && !m.access.has .priv && !m.name.startsWith "<"

/-- Subclasses may override the method, as far as its own modifiers go. -/
def isInheritable (m : MethodNode) : Bool :=
  !m.access.has .final && !m.access.has .priv

/-- Force a name, unless one has been pinned. -/
def force (m : MethodNode) (name : String) : MethodNode :=
  if m.pinned then m else { m with forcedName := some name }

/-- Force a name for good. -/
def pin (m : MethodNode) (name : String) : MethodNode :=
  { m with forcedName := some name, pinned := true }

def addOverrides (m : MethodNode) (roots : MemberSet) : MethodNode :=
  { m with overrides := m.overrides ∪ roots }

def addForwarder (m : MethodNode) (bouncer : MemberRef) : MethodNode :=
  { m with forwarders := m.forwarders.insert bouncer }

def retarget (m : MethodNode) (target : MemberRef) : MethodNode :=
  { m with bounce := m.bounce.map fun b => { b with target } }

def land (m : MethodNode) (root : MemberRef) : MethodNode :=
  { m with bounce := m.bounce.map fun b => { b with landing := some root } }

def ofSummary (owner : String) (m : ClassFile.MethodSummary) : MethodNode :=
  { owner
    name := m.name
    descriptor := m.descriptor
    access := m.access
    signature := m.signature
    lambdaTarget := m.lambdaTarget
    bounce := m.bouncer.map fun target => { target, landing := none }
    forcedName := none
    pinned := false
    overrides := ∅
    forwarders := ∅
    parent := none }

end MethodNode

structure RecordComponent where
  field : String
  descriptor : String
  accessor : Option String
  deriving DecidableEq

structure ClassNode where
  name : String
  superName : Option String
  /-- The interfaces in file order, each once. -/
  interfaces : List String
  access : Access
  signature : Option String
  isRecord : Bool
  /-- The class comes from a primary archive. -/
  isLocal : Bool
  /-- By name; of two fields with one name the later counts. -/
  fields : ExtTreeMap String FieldNode
  /-- By key; of two methods with one key the later counts. -/
  methods : ExtTreeMap String MethodNode
  resolved : Bool
  /-- The components of a record, in file order. -/
  components : List RecordComponent
  deriving DecidableEq

namespace ClassNode

/-- The direct supertypes, the superclass before the interfaces. -/
def supertypes (c : ClassNode) : List String := c.superName.toList ++ c.interfaces

def isInterface (c : ClassNode) : Bool := c.access.has .interface

def isAbstract (c : ClassNode) : Bool := c.access.has .abstract

def isEnum (c : ClassNode) : Bool := c.access.has .enum

def method? (c : ClassNode) (key : String) : Option MethodNode := c.methods[key]?

def modifyMethod (c : ClassNode) (key : String) (f : MethodNode → MethodNode) : ClassNode :=
  { c with methods := c.methods.modify key f }

/-! ## Reading a class -/

def isRecordSummary (c : ClassFile.Summary) : Bool := c.superName == some Foundation.record

/-- The getters of a field.  Only a record's fields have them. -/
def accessorsOf (c : ClassFile.Summary) (field : String) : List MemberRef :=
  if isRecordSummary c then
    (c.methods.filter fun m => m.getterOf == some field).map fun m =>
      ⟨c.name, m.name, m.descriptor⟩
  else []

def fieldOfSummary (c : ClassFile.Summary) (f : ClassFile.FieldSummary) : FieldNode :=
  { name := f.name
    descriptor := f.descriptor
    access := f.access
    signature := f.signature
    forcedName := none
    accessors := accessorsOf c f.name }

/-- The components of a record are its final fields that are not static. -/
def componentsOf (c : ClassFile.Summary) : List RecordComponent :=
  if isRecordSummary c then
    (c.fields.filter fun f => f.access.has .final && !f.access.has .static).map fun f =>
      { field := f.name, descriptor := f.descriptor, accessor := none }
  else []

def ofSummary (c : ClassFile.Summary) (isLocal : Bool) : ClassNode :=
  { name := c.name
    superName := c.superName
    interfaces := c.interfaces.eraseDups
    access := c.access
    signature := c.signature
    isRecord := isRecordSummary c
    isLocal
    fields := c.fields.foldl (fun fs f => fs.insert f.name (fieldOfSummary c f)) ∅
    methods := c.methods.foldl
      (fun ms m =>
        let node := MethodNode.ofSummary c.name m
        ms.insert node.key node) ∅
    resolved := false
    components := componentsOf c }

/-- The class in some bytes, if they are a class file that declares the name
they are found under. -/
def ofBytes? (name : String) (bytes : Bytes) (isLocal : Bool) : Option ClassNode :=
  match ClassFile.parse bytes with
  | .ok c => if c.name = name then some (ofSummary c isLocal) else none
  | .error _ => none

end ClassNode
end Lineage
