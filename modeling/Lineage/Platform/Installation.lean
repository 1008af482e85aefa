import Lineage.Archive.Classes
import Lineage.Classpath.Table

/-!
Platforms that are installed.

The archives of a platform keep their classes in a directory of their own or at
the top.  An entry that cannot be unpacked is passed over, so that another entry
or archive may supply the class.  Only the class that is looked for is unpacked,
and if there is no room for it the program stops.

A platform that was not named is looked for: at the place that a variable names,
and else by the command that runs its programs, which lies two steps below it.
-/

namespace Lineage
namespace Installation

/-- The archives that a platform at some place may have, the newest kind
first. -/
def archives (t : FileTree) (home : Path) : List Path :=
  (["jmods/java.base.jmod", "lib/rt.jar", "jre/lib/rt.jar"].map fun p =>
    home.join (Path.ofString p)).filter t.isFile

/-- The directory in an archive that has its classes. -/
def classesDirectory : String := "classes/"

/-- The names of the entries that may hold a class, the likelier first. -/
def candidates (name : String) : List String :=
  [classesDirectory ++ name ++ Archive.extension, name ++ Archive.extension]

/-- The classes that an entry may hold. -/
def namesOf (entry : String) : List String :=
  match Archive.stem? entry with
  | none => []
  | some stem =>
    if stem.startsWith classesDirectory then
      [String.ofList (stem.toList.drop classesDirectory.length), stem]
    else [stem]

/-- Entries by their names.  Of two entries with one name the later counts. -/
def byName (entries : List (Zip.Entry × Zip.Content)) :
    Std.ExtTreeMap String (Zip.Entry × Zip.Content) :=
  entries.foldl (fun m e => m.insert e.1.name e) ∅

def bytes? (all : Std.ExtTreeMap String (Zip.Entry × Zip.Content)) (entry : String) :
    Option Bytes :=
  match all[entry]? with
  | some (_, .intact b) => some b
  | _ => none

def table (entries : List (Zip.Entry × Zip.Content)) : ClassTable :=
  let all := byName entries
  (entries.flatMap fun e => namesOf e.1.name).foldl
    (fun t name =>
      match (candidates name).findSome? (bytes? all) with
      | some b => t.insert name b
      | none => t)
    .empty

/-- The classes of several archives, of which the first that has a class
supplies it. -/
def tableOfAll (archives : List (List (Zip.Entry × Zip.Content))) : ClassTable :=
  (archives.map table).foldl ClassTable.orElse .empty

/-- Looking for a class comes to an entry that there is no room for, before one that
can be unpacked. -/
def stops (archives : List (List (Zip.Entry × Zip.Content))) (name : String) : Bool :=
  let met := archives.flatMap fun entries => (candidates name).filterMap ((byName entries)[·]?)
  match met.find? fun e => !Zip.fits e || e.2.isIntact with
  | some e => !Zip.fits e
  | none => false

def openArchive (t : FileTree) (p : Path) (reader : Zip.Reader := .plain) :
    Except LoadError (List (Zip.Entry × Zip.Content)) :=
  match t.find p with
  | .error e => .error (.unreadable p e)
  | .ok (_, .directory) => .error (.notArchive p)
  | .ok (_, .file content) =>
    match reader.entries? content with
    | some entries => .ok entries
    | none => .error (.notArchive p)

/-- The classes of the archives at some paths. -/
def openAll (t : FileTree) (paths : List Path) (reader : Zip.Reader := .plain) :
    Except LoadError ClassTable :=
  (paths.mapM (openArchive t · reader)).map tableOfAll

end Installation

/-! ## Looking for a platform -/

/-- What there is to find a platform by.  How a command is searched for is not told
here, only that the search looks at nothing but some paths and comes to one of
these. -/
structure Surroundings where
  /-- The place that the variable names. -/
  stated : Option Path
  /-- Where the command may be. -/
  searched : List Path
  command? : FileTree → Option Path
  mem_searched : ∀ {t p}, command? t = some p → p ∈ searched
  command?_congr : ∀ {t s : FileTree}, (∀ p ∈ searched, t.find p = s.find p) →
    command? t = command? s

namespace Surroundings

/-- There is nothing to find a platform by. -/
def bare : Surroundings where
  stated := none
  searched := []
  command? _ := none
  mem_searched h := nomatch h
  command?_congr _ := rfl

/-- The place that the variable names, if there is something. -/
def named? (s : Surroundings) (t : FileTree) : Option Path := s.stated.filter t.isThere

/-- The place of the platform. -/
def home? (s : Surroundings) (t : FileTree) : Option Path :=
  (s.named? t).or do
    let below ← (t.canonical (← s.command? t)).parent?
    below.parent?

/-- The paths that are looked at to find the platform. -/
def looked (s : Surroundings) (t : FileTree) : List Path :=
  s.stated.toList ++ if (s.named? t).isSome then [] else s.searched

end Surroundings
end Lineage
