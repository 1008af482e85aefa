import Lineage.Classpath.Basic

/-!
Metadata: what is handed on about the classes of a primary archive once they
have been resolved.
-/

namespace Lineage

open Std (ExtTreeMap)

namespace Metadata

structure FieldEntry where
  descriptor : String
  access : Access
  signature : Option String
  force : Option String
  deriving DecidableEq

structure BounceEntry where
  target : MemberRef
  owner : Option MemberRef
  deriving DecidableEq

structure MethodEntry where
  access : Access
  signature : Option String
  bouncer : Option BounceEntry
  force : Option String
  overrides : MemberSet
  parent : Option MemberRef
  deriving DecidableEq

structure ComponentEntry where
  field : String
  descriptor : String
  methods : List String
  deriving DecidableEq

structure ClassEntry where
  superName : Option String
  interfaces : List String
  access : Access
  signature : Option String
  fields : ExtTreeMap String FieldEntry
  methods : ExtTreeMap String MethodEntry
  records : Option (List ComponentEntry)
  deriving DecidableEq

end Metadata

structure Metadata where
  classes : ExtTreeMap String Metadata.ClassEntry
  deriving DecidableEq

namespace Metadata

/-! ## Collecting -/

def FieldEntry.ofNode (f : FieldNode) : FieldEntry :=
  { descriptor := f.descriptor, access := f.access, signature := f.signature,
    force := f.forcedName }

def BounceEntry.ofBounce (b : Bounce) : BounceEntry := { target := b.target, owner := b.landing }

def MethodEntry.ofNode (m : MethodNode) : MethodEntry :=
  { access := m.access
    signature := m.signature
    bouncer := m.bounce.map BounceEntry.ofBounce
    force := m.forcedName
    overrides := m.overrides
    parent := m.parent }

def ComponentEntry.ofComponent (c : RecordComponent) : ComponentEntry :=
  { field := c.field, descriptor := c.descriptor, methods := c.accessor.toList }

/-- The root of all classes is not named as a superclass, and a class without
components has no list of them. -/
def ClassEntry.ofNode (c : ClassNode) : ClassEntry :=
  { superName := c.superName.filter (· != Foundation.object)
    interfaces := c.interfaces
    access := c.access
    signature := c.signature
    fields := c.fields.map fun _ => FieldEntry.ofNode
    methods := c.methods.map fun _ => MethodEntry.ofNode
    records :=
      if c.components.isEmpty then none
      else some (c.components.map ComponentEntry.ofComponent) }

/-- The metadata of some classes.  A class that has not been loaded is left
out. -/
def collect (path : ClassPath) (names : List String) : Metadata :=
  ⟨names.foldl
    (fun classes name =>
      match path.peek? name with
      | some c => classes.insert name (ClassEntry.ofNode c)
      | none => classes)
    ∅⟩

def names (m : Metadata) : List String := m.classes.keys

end Metadata
end Lineage
