import Lineage.Hierarchy.Basic
import Lineage.Resolution.Finding

/-! Record classes: every component gets the getter of its field. -/

namespace Lineage
namespace Resolution

def accessorNames (c : ClassNode) (field : String) : List String :=
  ((c.fields[field]?.map FieldNode.accessors).getD []).map MemberRef.name

/-- Of several getters the first counts. -/
def nameAccessor (c : ClassNode) (component : RecordComponent) : RecordComponent :=
  { component with accessor := (accessorNames c component.field).head? }

def nameAccessors (c : ClassNode) : ClassNode :=
  { c with components := c.components.map (nameAccessor c) }

/-- A finding for each component with more than one getter. -/
def crowdedComponents (c : ClassNode) : List Finding :=
  c.components.filterMap fun component =>
    let accessors := accessorNames c component.field
    if 1 < accessors.length then some (.crowdedComponent c.name component.field accessors)
    else none

def resolveComponents (cls : String) (h : Hierarchy) : Hierarchy × List Finding :=
  (h.modifyClass cls nameAccessors, ((h.class? cls).map crowdedComponents).getD [])

end Resolution
end Lineage
