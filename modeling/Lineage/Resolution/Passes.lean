import Lineage.Resolution.Bounces
import Lineage.Resolution.Contracts
import Lineage.Resolution.Enums
import Lineage.Resolution.Overrides
import Lineage.Resolution.Records

/-! What is done to one class once its supertypes have been dealt with. -/

namespace Lineage
namespace Resolution

def markResolved (c : ClassNode) : ClassNode := { c with resolved := true }

/-- All passes over a class, in order.  Only a concrete class has to have its
contracts bound. -/
def settle (names : Names) (cls : String) (h : Hierarchy) : Hierarchy × List Finding :=
  match h.class? cls with
  | none => (h, [])
  | some c =>
    let named := nameEnums names cls h
    let (bounced, bounceFindings) := resolveBounces cls named
    let linked := linkMethods cls bounced
    let (bound, contractFindings) :=
      if c.isAbstract then (linked, []) else bindContracts cls linked
    let (recorded, recordFindings) := resolveComponents cls bound
    (recorded.modifyClass cls markResolved,
      bounceFindings ++ contractFindings ++ recordFindings)

end Resolution
end Lineage
