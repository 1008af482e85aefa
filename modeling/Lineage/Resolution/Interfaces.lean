import Lineage.Hierarchy.Basic

/-!
Interface methods that a class meets only through a descendant, as where `C`
extends `B` and implements `I`, and `B` declares the method of `I`.  All
implementations get the interface's method as a root.
-/

namespace Lineage
namespace Resolution

open Std (ExtTreeSet)

def interfaceMethods (c : ClassNode) : List MethodNode :=
  c.methods.values.filter fun m => !m.access.has .static && !m.access.has .priv

/-- The ancestors of all loaded instances of an interface. -/
def scope (h : Hierarchy) (loaded : List String) (cls : String) : ExtTreeSet String :=
  (loaded.filter fun c => c != cls && h.isInstance c cls).foldl
    (fun s c => s.insertMany (h.ancestors c)) ∅

/-- The overridable methods with a key in some classes. -/
def siblings (h : Hierarchy) (classes : List String) (key : String) : List MethodNode :=
  ((classes.filterMap h.class?).filterMap (·.method? key)).filter MethodNode.isOverridable

/-- Methods of unrelated interfaces do not implement the interface. -/
def isImplementation (h : Hierarchy) (cls : String) (m : MethodNode) : Bool :=
  !(h.class? m.owner).any ClassNode.isInterface || h.isInstance m.owner cls

/-- Where one of some methods lies outside the primary archive its name is
fixed, and all of them are forced to it. -/
def forceExternalName (isPrimary : String → Bool) (siblings : List MethodNode)
    (h : Hierarchy) : Hierarchy :=
  match siblings.find? fun m => !isPrimary m.owner with
  | some outside => siblings.foldl (fun h m => h.modifyMethod m.ref (·.force outside.name)) h
  | none => h

def unifyMethod (isPrimary : String → Bool) (cls : String) (classes : List String)
    (h : Hierarchy) (m : MethodNode) : Hierarchy :=
  let siblings := siblings h classes m.key
  let implementations := siblings.filter (isImplementation h cls)
  if implementations.isEmpty then h
  else
    forceExternalName isPrimary siblings
      ((implementations.filter fun i => i.owner != cls).foldl
        (fun h i => h.modifyMethod i.ref (·.addOverrides {m.ref})) h)

/-- Unify the methods of an interface.  `loaded` are the classes in which its
instances are looked for. -/
def unifyInterface (isPrimary : String → Bool) (loaded : List String) (cls : String)
    (h : Hierarchy) : Hierarchy :=
  match h.class? cls with
  | some c =>
    if c.isInterface then
      (interfaceMethods c).foldl
        (unifyMethod isPrimary cls (scope h loaded cls).toList) h
    else h
  | none => h

end Resolution
end Lineage
