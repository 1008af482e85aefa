import Lineage.Hierarchy.Viewpoint

/-! Linking the methods of a class to the declarations above them. -/

namespace Lineage
namespace Resolution

/-- The references to the methods of a class, in the order of their keys. -/
def methodsOf (h : Hierarchy) (cls : String) : List MemberRef :=
  ((h.class? cls).map fun c => c.methods.values.map MethodNode.ref).getD []

def linkMethod (cls : String) (h : Hierarchy) (m : MemberRef) : Hierarchy :=
  h.modifyMethod m fun node =>
    { node with overrides := h.overrideRoots m cls, parent := h.nearestParent? m cls }

/-- One method after the other, since the bouncers of a class see the methods
before them. -/
def linkMethods (cls : String) (h : Hierarchy) : Hierarchy :=
  (methodsOf h cls).foldl (linkMethod cls) h

end Resolution
end Lineage
