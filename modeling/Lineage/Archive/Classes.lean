import Lineage.Archive.Zip
import Lineage.Files.Tree

/-!
The classes in archives and in directories.

An entry that is in the archive but cannot be unpacked stands for a class all
the same: it has no bytes, and so is no class file, but it keeps later archives
from supplying the class.  Room is made for the bytes of a class before they are
unpacked, as many as the directory says that there are.  If no list can be so
long the program stops.
-/

namespace Lineage

inductive LoadError where
  | unreadable (path : Path) (cause : FileError)
  | notArchive (path : Path)
  deriving DecidableEq, Repr

namespace LoadError

def path : LoadError → Path
  | unreadable path _ => path
  | notArchive path => path

/-- The program stops, instead of going on with the error. -/
def stops : LoadError → Bool
  | unreadable _ .beyondCapacity => true
  | _ => false

end LoadError

namespace Archive

def extension : String := ".class"

def moduleInfo : String := "module-info"

/-- A text without the extension of class files. -/
def stem? (name : String) : Option String :=
  if name.endsWith extension then
    some (String.ofList (name.toList.take (name.length - extension.length)))
  else none

/-- The class that an entry holds.  Entries about the archive itself and module
descriptions hold none. -/
def className? (entry : String) : Option String :=
  if entry.startsWith "META-INF/" then none
  else
    (stem? entry).filter fun stem =>
      stem != moduleInfo && !stem.endsWith ("/" ++ moduleInfo)

def classOfEntry? (entry : Zip.Entry × Zip.Content) : Option (String × Bytes) :=
  if entry.1.isDirectory then none
  else
    match entry.2 with
    | .unreadable => none
    | .damaged => (className? entry.1.name).map fun name => (name, [])
    | .intact b => (className? entry.1.name).map fun name => (name, b)

/-- There is no room for the class that an entry holds. -/
def overflows (entry : Zip.Entry × Zip.Content) : Bool :=
  !entry.1.isDirectory && (className? entry.1.name).isSome && !Zip.fits entry

def ofEntries (entries : List (Zip.Entry × Zip.Content)) : List (String × Bytes) :=
  entries.filterMap classOfEntry?

/-- The class in a file below a directory.  The file must have a name in front
of the extension. -/
def classOfFile? (file : Place × Bytes) : Option (String × Bytes) :=
  if (file.1.getLastD "").length ≤ extension.length then none
  else (className? ("/".intercalate file.1)).map fun name => (name, file.2)

def ofDirectory (files : List (Place × Bytes)) : List (String × Bytes) :=
  files.filterMap classOfFile?

def load (t : FileTree) (p : Path) (reader : Zip.Reader := .plain) :
    Except LoadError (List (String × Bytes)) :=
  match t.find p with
  | .ok (place, .directory) => .ok (ofDirectory (t.filesBelow place))
  | .ok (_, .file content) =>
    match reader.entries? content with
    | some entries =>
      if entries.any overflows then .error (.unreadable p .beyondCapacity)
      else .ok (ofEntries entries)
    | none => .error (.notArchive p)
  | .error e => .error (.unreadable p e)

end Archive

/-- What to say about a path that cannot be read.  Of a file that is no archive
nothing more is said. -/
def LoadError.message? : LoadError → Option String
  | unreadable path cause =>
    some ("IO error while reading " ++ path.render ++ ": " ++ cause.message)
  | notArchive _ => none

end Lineage
