import Lineage.Classpath.Table
import Lineage.Hierarchy.Basic

/-!
Class paths.

A class path is filled from archives, and behind these stand runtime sources.
The first archive that registers a name decides on the class, and once a name
has been asked for the answer stays what it was.  A name is missing when it was
asked for and there is no class to be had under it.
-/

namespace Lineage

open Std (ExtTreeMap ExtTreeSet)

structure ClassPath where
  /-- Every class that can be had, asked for or not. -/
  hierarchy : Hierarchy
  registered : ExtTreeSet String
  /-- The names that a primary archive was the first to register. -/
  primary : ExtTreeSet String
  asked : ExtTreeSet String
  deriving DecidableEq

namespace ClassPath

/-- The classes of some sources.  The first source that has a name decides on
it, even if its bytes are no class of that name. -/
def hierarchyOf (sources : List ClassTable) : Hierarchy :=
  let table := sources.foldl ClassTable.orElse .empty
  ⟨table.entries.filterMap fun name bytes => ClassNode.ofBytes? name bytes false⟩

def ofSources (sources : List ClassTable) : ClassPath :=
  { hierarchy := hierarchyOf sources, registered := ∅, primary := ∅, asked := ∅ }

/-! ## Registering archives -/

/-- Register the bytes for a name that has none yet.  A name that has been asked
for keeps its answer. -/
def add (p : ClassPath) (name : String) (bytes : Bytes) (isPrimary : Bool) : ClassPath :=
  { p with
    hierarchy :=
      if name ∈ p.asked then p.hierarchy
      else ⟨p.hierarchy.classes.alter name fun _ => ClassNode.ofBytes? name bytes isPrimary⟩
    registered := p.registered.insert name
    primary := if isPrimary then p.primary.insert name else p.primary }

/-- Register the entries of an archive, and answer the names that are new. -/
def register (p : ClassPath) (entries : List (String × Bytes)) (isPrimary : Bool) :
    ExtTreeSet String × ClassPath :=
  entries.foldl
    (fun (added, p) e =>
      if e.1 ∈ p.registered then (added, p)
      else (added.insert e.1, p.add e.1 e.2 isPrimary))
    (∅, p)

/-! ## Asking for classes -/

def ask (p : ClassPath) (names : List String) : ClassPath :=
  { p with asked := p.asked.insertMany names }

@[simp]
theorem hierarchy_ask (p : ClassPath) (names : List String) :
    (p.ask names).hierarchy = p.hierarchy := rfl

@[simp]
theorem registered_ask (p : ClassPath) (names : List String) :
    (p.ask names).registered = p.registered := rfl

@[simp]
theorem primary_ask (p : ClassPath) (names : List String) :
    (p.ask names).primary = p.primary := rfl

def get? (p : ClassPath) (name : String) : Option ClassNode × ClassPath :=
  (p.hierarchy.class? name, p.ask [name])

/-- The class under a name, if it has been asked for. -/
def peek? (p : ClassPath) (name : String) : Option ClassNode :=
  if name ∈ p.asked then p.hierarchy.class? name else none

def update (p : ClassPath) (name : String) (f : ClassNode → ClassNode) : ClassPath :=
  { p.ask [name] with hierarchy := p.hierarchy.modifyClass name f }

def isPrimary (p : ClassPath) (name : String) : Bool := name ∈ p.primary

/-- The names that the runtime sources were asked for. -/
def sought (p : ClassPath) : List String :=
  p.asked.toList.filter fun n => n ∉ p.registered

/-- The names that were asked for in vain. -/
def missing (p : ClassPath) : List String :=
  p.asked.toList.filter fun n => (p.hierarchy.class? n).isNone

/-- The names that were asked for with success. -/
def loaded (p : ClassPath) : List String :=
  p.asked.toList.filter fun n => (p.hierarchy.class? n).isSome

/-- Whether `target` can be reached from `name`.  This asks for the names met
before `target`. -/
def isInstance (p : ClassPath) (name target : String) : Bool × ClassPath :=
  if name = target then (true, p)
  else
    (p.hierarchy.isInstance name target,
      p.ask ((p.hierarchy.lineage name).takeWhile (· != target)))

end ClassPath
end Lineage
