import Lineage.Classpath.Basic
import Lineage.Graph.Traversal
import Lineage.Resolution.Interfaces
import Lineage.Resolution.Passes

/-!
Resolving a class path.

Classes are dealt with parents first, each once.  A whole archive is resolved in
three rounds: bouncers are linked to their targets, every class is resolved, and
interface methods are unified, which needs every implementor resolved.

The names that a round asks for are told for the whole round, not at each
look-up.  That its walks look at no others is what `Resolution.Agree.link`,
`Resolution.Agree.resolve` and `Resolution.Agree.unify` come to: class paths with
the same under these names are dealt with alike, as
`Resolution.agree_resolve_of_lineage` says of a class that has just been read.
-/

namespace Lineage

structure Resolution where
  path : ClassPath
  /-- What was noticed, in order, each finding once. -/
  findings : List Finding

namespace Resolution

def start (path : ClassPath) : Resolution := { path, findings := [] }

def record (r : Resolution) (findings : List Finding) : Resolution :=
  { r with findings := Finding.record r.findings findings }

/-- The supertype relation between classes that have not been resolved. -/
def unresolvedGraph (h : Hierarchy) : Graph String where
  next name := ((h.class? name).filter fun c => !c.resolved).map ClassNode.supertypes
  finite := by
    refine ⟨h.classes.keys, fun a ha => Hierarchy.mem_keys_of_class? ?_⟩
    rw [Option.isSome_map] at ha
    exact Option.isSome_of_isSome_filter _ _ ha

/-! ## One class -/

/-- A class that is open when it is met again inherits from itself. -/
def handle (names : Names) (r : Resolution) : Graph.Event String → Resolution
  | .closed cls =>
    let (h, findings) := settle names cls r.path.hierarchy
    { r with path := { r.path with hierarchy := h } }.record findings
  | .cycle cls => r.record [.cyclicHierarchy cls]

/-- Resolve a class and, before it, all its ancestors.  This asks for all of
them. -/
def resolve (names : Names) (r : Resolution) (cls : String) : Resolution :=
  let h := r.path.hierarchy
  ((unresolvedGraph h).traversal cls).foldl (handle names)
    { r with path := r.path.ask (h.lineage cls) }

/-! ## A whole archive -/

/-- Link the bouncers of some classes.  This asks for the classes and for the
owners of the targets. -/
def link (r : Resolution) (classes : List String) : Resolution :=
  let h := r.path.hierarchy
  let owners := (classes.flatMap (bouncesOf h)).map fun b => b.2.owner
  { r with
    path := { r.path.ask (classes ++ owners) with hierarchy := classes.foldl linkBouncers h } }

/-- Unify the methods of a class, if it is an interface that has any.  This asks
for all ancestors of the classes that are loaded. -/
def unify (r : Resolution) (cls : String) : Resolution :=
  let path := r.path.ask [cls]
  let h := path.hierarchy
  let relevant := (h.class? cls).any fun c => c.isInterface && !(interfaceMethods c).isEmpty
  if relevant then
    let others := path.loaded.filter (· != cls)
    { r with
      path := { path.ask (others.flatMap h.lineage) with
        hierarchy := unifyInterface path.isPrimary path.loaded cls h } }
  else { r with path }

/-- Resolve the classes of a primary archive, which are given in order. -/
def resolveArchive (names : Names) (r : Resolution) (classes : List String) : Resolution :=
  classes.foldl unify (classes.foldl (resolve names) (r.link classes))

/-- Everything noticed, and after it the classes that are missing. -/
def allFindings (r : Resolution) : List Finding :=
  r.findings ++ r.path.missing.map .missingClass

end Resolution
end Lineage
