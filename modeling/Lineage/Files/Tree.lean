import Lineage.Bytes
import Lineage.Files.Path
import Std.Data.ExtTreeMap

/-!
Trees of files.

A tree is made up of regular files and directories, all of which may be read and
written.  There are no links in it, so every file is at one place only, and no
devices, so what is written to a file is found there.

A place in a tree is the list of names that leads to it from the top, which is a
directory.  Going along a path takes a directory at every part of it but the
last.  Relative paths start from the top as well.
-/

namespace Lineage

open Std (ExtTreeMap)

inductive FileError where
  | notFound
  | alreadyThere
  | notDirectory
  | isDirectory
  /-- There are more bytes than a list can have.  Making room for them does not fail
  but stops the program. -/
  | beyondCapacity
  deriving DecidableEq, Repr

def FileError.message : FileError → String
  | notFound => "No such file or directory (os error 2)"
  | alreadyThere => "File exists (os error 17)"
  | notDirectory => "Not a directory (os error 20)"
  | isDirectory => "Is a directory (os error 21)"
  | beyondCapacity => "capacity overflow"

inductive FileNode where
  | file (content : Bytes)
  | directory
  deriving DecidableEq, Repr

abbrev Place := List String

structure FileTree where
  /-- Everything below the top. -/
  nodes : ExtTreeMap Place FileNode
  deriving DecidableEq

namespace FileTree

def empty : FileTree := ⟨∅⟩

/-! ## Finding -/

/-- Go on by one part. -/
def step (t : FileTree) (here : Place × FileNode) (part : String) :
    Except FileError (Place × FileNode) :=
  match here.2 with
  | .file _ => .error .notDirectory
  | .directory =>
    if Path.isIdle part then .ok here
    else if part = ".." then .ok (here.1.dropLast, .directory)
    else
      match t.nodes[here.1 ++ [part]]? with
      | some node => .ok (here.1 ++ [part], node)
      | none => .error .notFound

/-- What some parts lead to from the top. -/
def follow (t : FileTree) (parts : List String) : Except FileError (Place × FileNode) :=
  parts.foldlM (step t) ([], .directory)

def find (t : FileTree) (p : Path) : Except FileError (Place × FileNode) :=
  if p = Path.empty then .error .notFound else t.follow p.parts

def isThere (t : FileTree) (p : Path) : Bool := (t.find p).isOk

/-- The path that leads straight down to where a path leads. -/
def canonical (t : FileTree) (p : Path) : Path :=
  match t.find p with
  | .ok (place, _) => .ofPlace place
  | .error _ => p

def isFile (t : FileTree) (p : Path) : Bool :=
  match t.find p with
  | .ok (_, .file _) => true
  | _ => false

def isDirectory (t : FileTree) (p : Path) : Bool :=
  match t.find p with
  | .ok (_, .directory) => true
  | _ => false

def read (t : FileTree) (p : Path) : Except FileError Bytes :=
  match t.find p with
  | .ok (_, .file content) => .ok content
  | .ok (_, .directory) => .error .isDirectory
  | .error e => .error e

/-- All files below a directory, by the names that lead to them from there. -/
def filesBelow (t : FileTree) (directory : Place) : List (Place × Bytes) :=
  t.nodes.toList.filterMap fun e =>
    match e.2 with
    | .file content =>
      if directory.isPrefixOf e.1 then some (e.1.drop directory.length, content) else none
    | .directory => none

/-! ## Changing -/

/-- The place that a path would give to something new, with its last part. -/
def target (t : FileTree) (p : Path) : Except FileError (Place × String) := do
  if p = Path.empty then .error .notFound
  else
    match ← t.follow p.parts.dropLast with
    | (place, .directory) => .ok (place, p.parts.getLastD "")
    | (_, .file _) => .error .notDirectory

/-- Write a file, over the one that is there or in a directory that is there. -/
def write (t : FileTree) (p : Path) (content : Bytes) : Except FileError FileTree := do
  let (place, name) ← t.target p
  if Path.isIdle name || name == ".." then .error .isDirectory
  else
    match t.nodes[place ++ [name]]? with
    | some .directory => .error .isDirectory
    | _ => .ok ⟨t.nodes.insert (place ++ [name]) (.file content)⟩

/-- Make a directory in one that is there. -/
def makeDirectory (t : FileTree) (p : Path) : Except FileError FileTree := do
  let (place, name) ← t.target p
  if Path.isIdle name || name == ".." then .error .alreadyThere
  else
    match t.nodes[place ++ [name]]? with
    | some _ => .error .alreadyThere
    | none => .ok ⟨t.nodes.insert (place ++ [name]) .directory⟩

/-- Make a directory, or be content with one that is there. -/
def ensureDirectory (t : FileTree) (p : Path) : Except FileError Unit × FileTree :=
  match t.makeDirectory p with
  | .ok t => (.ok (), t)
  | .error e => (if t.isDirectory p then .ok () else .error e, t)

/-- Make a directory and, where they are missing, all directories above it.  Those
that have been made stay, even if a later one cannot be made. -/
def makeDirectories (t : FileTree) (p : Path) : Except FileError Unit × FileTree :=
  if p = Path.empty then (.ok (), t)
  else
    match t.makeDirectory p with
    | .error .notFound =>
      match _h : p.parent? with
      | none => (.error .notFound, t)
      | some q =>
        if _hq : q = Path.empty then t.ensureDirectory p
        else
          match t.makeDirectories q with
          | (.ok _, t) => t.ensureDirectory p
          | (.error e, t) => (.error e, t)
    | _ => t.ensureDirectory p
  termination_by p.parts.length
  decreasing_by exact Path.length_parent?_lt _h _hq

/-- Write a file where its directory is there.  A failure comes with its path. -/
def saveHere (t : FileTree) (p : Path) (content : Bytes) :
    Except (Path × FileError) Unit × FileTree :=
  match t.write p content with
  | .ok t => (.ok (), t)
  | .error e => (.error (p, e), t)

/-- Write a file and, where they are missing, the directories above it.  A failure
comes with the path that could not be made. -/
def save (t : FileTree) (p : Path) (content : Bytes) :
    Except (Path × FileError) Unit × FileTree :=
  match p.parent?.filter (· != Path.empty) with
  | none => t.saveHere p content
  | some q =>
    match t.makeDirectories q with
    | (.ok _, t) => t.saveHere p content
    | (.error e, t) => (.error (q, e), t)

/-- The place of a path that does not go up, dots left out. -/
def placeOf (p : Path) : Place := p.parts.filter (!Path.isIdle ·)

/-- Put something at a path, whatever is there, and directories above it. -/
def put (t : FileTree) (p : Path) (node : FileNode) : FileTree :=
  let place := placeOf p
  let above := (List.range place.length).filterMap fun n =>
    if n = 0 then none else some (place.take n)
  ⟨(above.foldl (fun nodes d => nodes.insert d .directory) t.nodes).insert place node⟩

end FileTree
end Lineage
