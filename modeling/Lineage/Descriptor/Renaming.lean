import Lineage.Descriptor.Reader

/-! Renaming the classes inside a descriptor given as text. -/

namespace Lineage
namespace Descriptor

/-- Replace each class name that `f` has an answer for.  A text that opens with
a bracket is read as a method descriptor and any other as a field descriptor;
one that cannot be read is left as it is. -/
def rename (f : String → Option String) (descriptor : String) : String :=
  if descriptor.toList.head? = some '(' then
    match MethodType.parse descriptor with
    | .ok m => (m.rename f).render
    | .error _ => descriptor
  else
    match FieldType.parse descriptor with
    | .ok t => (t.rename f).render
    | .error _ => descriptor

end Descriptor
end Lineage
