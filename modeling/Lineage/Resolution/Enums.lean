import Lineage.Hierarchy.Basic
import Lineage.Naming.Table

/-!
Enum classes.  The platform finds an enum's constants, their array and the two
methods that list them by name, so these members get their official names.
-/

namespace Lineage
namespace Resolution

def constantFlags : UInt16 :=
  Modifier.final.bit ||| Modifier.enum.bit ||| Modifier.pub.bit ||| Modifier.static.bit

/-- The field that holds all constants of an enum. -/
def valuesField : String := "$VALUES"

/-- Constants and the array of all constants are forced to their official
names.  A field without an official name is left alone. -/
def nameEnumField (names : Names) (cls : String) (f : FieldNode) : FieldNode :=
  match names.field? cls f.name with
  | some official =>
    if f.access.contains constantFlags || official == valuesField then
      { f with forcedName := some official }
    else f
  | none => f

/-- The official names and the descriptors of the methods that every enum
has. -/
def enumMethods (cls : String) : List Selector :=
  [⟨"values", "()[L" ++ cls ++ ";"⟩, ⟨"valueOf", "(Ljava/lang/String;)L" ++ cls ++ ";"⟩]

def nameEnumMethod (names : Names) (cls : String) (m : MethodNode) : MethodNode :=
  match names.method? cls ⟨m.name, m.descriptor⟩ with
  | some official =>
    if ⟨official, m.descriptor⟩ ∈ enumMethods cls then m.pin official else m
  | none => m

def nameEnum (names : Names) (c : ClassNode) : ClassNode :=
  if c.isEnum then
    { c with
      fields := c.fields.map fun _ => nameEnumField names c.name
      methods := c.methods.map fun _ => nameEnumMethod names c.name }
  else c

def nameEnums (names : Names) (cls : String) (h : Hierarchy) : Hierarchy :=
  h.modifyClass cls (nameEnum names)

end Resolution
end Lineage
