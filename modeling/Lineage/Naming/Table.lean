import Lineage.MemberRef
import Lineage.Descriptor.Renaming

/-!
Naming tables.  A table gives classes, and their fields and methods, other
names; reversing it leads from the other names back.  The descriptors that
methods are found under use the class names of the side that is looked up.
-/

namespace Lineage

open Std (ExtTreeMap)

structure ClassNaming where
  target : String
  fields : ExtTreeMap String String
  methods : ExtTreeMap Selector String
  deriving DecidableEq

namespace ClassNaming

def empty : ClassNaming := { target := "", fields := ∅, methods := ∅ }

def addField (c : ClassNaming) (source target : String) : ClassNaming :=
  { c with fields := c.fields.insert source target }

def addMethod (c : ClassNaming) (source : Selector) (target : String) : ClassNaming :=
  { c with methods := c.methods.insert source target }

/-- Add what `c` says, read backwards: its targets lead to its sources, and
descriptors pass through `rename`. -/
def addReversed (into c : ClassNaming) (rename : String → String) : ClassNaming :=
  let withFields := c.fields.foldl (fun r source target => r.addField target source) into
  c.methods.foldl
    (fun r source target =>
      r.addMethod ⟨target, rename source.descriptor⟩ source.name)
    withFields

end ClassNaming

structure NamingTable where
  classes : ExtTreeMap String ClassNaming
  deriving DecidableEq

namespace NamingTable

def empty : NamingTable := ⟨∅⟩

/-- Change the entry of a class, which starts out empty. -/
def update (t : NamingTable) (source : String) (f : ClassNaming → ClassNaming) :
    NamingTable :=
  ⟨t.classes.alter source fun c => some (f (c.getD .empty))⟩

/-- Name a class.  A class that the table knows takes the new name and keeps
its members. -/
def addClass (t : NamingTable) (source target : String) : NamingTable :=
  t.update source fun c => { c with target }

def className? (t : NamingTable) (name : String) : Option String :=
  t.classes[name]?.map ClassNaming.target

def field? (t : NamingTable) (cls field : String) : Option String := do
  let c ← t.classes[cls]?
  c.fields[field]?

def method? (t : NamingTable) (cls : String) (method : Selector) : Option String := do
  let c ← t.classes[cls]?
  c.methods[method]?

def reversed (t : NamingTable) : NamingTable :=
  t.classes.foldl
    (fun r source c =>
      (r.addClass c.target source).update c.target
        (·.addReversed c (Descriptor.rename t.className?)))
    empty

end NamingTable

/-- Where official member names come from: `none` for the members of a class that
nothing is known of. -/
structure Names where
  field? : (cls field : String) → Option String
  method? : (cls : String) → (method : Selector) → Option String

namespace Names

/-- The names in the class files are the official ones. -/
def asWritten : Names where
  field? _ field := some field
  method? _ method := some method.name

/-- The names in a table.  A table that knows a class answers for all of its members:
one that is not listed keeps its name. -/
def table (t : NamingTable) : Names where
  field? cls field := t.classes[cls]?.map fun c => c.fields[field]?.getD field
  method? cls method := t.classes[cls]?.map fun c => c.methods[method]?.getD method.name

end Names
end Lineage
