import Lineage.Metadata.Encode
import Lineage.Platform.Installation
import Lineage.Resolution.Basic

/-!
Jobs: the metadata of one primary archive with the libraries that it needs.
-/

namespace Lineage

/-- What all jobs of a run share. -/
structure Config where
  outputDirectory : Path
  /-- Write even where the output is there already. -/
  force : Bool
  /-- Member names are not the official ones. -/
  obfuscated : Bool
  /-- The place of the platform, if it is not to be looked for. -/
  platformHome : Option Path
  usePlatform : Bool
  reader : Zip.Reader := .plain
  surroundings : Surroundings := .bare

namespace Config

def initial : Config :=
  { outputDirectory := Path.ofString "./out"
    force := false
    obfuscated := false
    platformHome := none
    usePlatform := true }

/-- The place of the platform, if one is to be used. -/
def home? (c : Config) (t : FileTree) : Option Path :=
  if c.usePlatform then c.platformHome.or (c.surroundings.home? t) else none

/-- What is in the archives of the platform, if it has some and they can be
opened. -/
def archives? (c : Config) (t : FileTree) : Option (List (List (Zip.Entry × Zip.Content))) := do
  let home ← c.home? t
  match Installation.archives t home with
  | [] => none
  | paths => (paths.mapM (Installation.openArchive t · c.reader)).toOption

def platform? (c : Config) (t : FileTree) : Option ClassTable :=
  (c.archives? t).map Installation.tableOfAll

/-- The program stops when it looks for a class in the platform. -/
def stops (c : Config) (t : FileTree) (name : String) : Bool :=
  (c.archives? t).any (Installation.stops · name)

/-- The sources behind all archives.  The stand-ins for the foundational classes
come last. -/
def sources (c : Config) (t : FileTree) : List ClassTable :=
  (c.platform? t).toList ++ [Foundation.table]

/-- Where official names come from.  Names that are not obfuscated are official
as they are. -/
def names (c : Config) (official : Names) : Names :=
  if c.obfuscated then official else .asWritten

end Config

structure Job where
  label : String
  primary : Path
  libraries : List Path
  deriving DecidableEq, Repr

structure Generation where
  metadata : Metadata
  findings : List Finding

inductive JobError where
  | load (cause : LoadError)
  | write (path : Path) (cause : FileError)
  deriving DecidableEq, Repr

def JobError.stops : JobError → Bool
  | load cause => cause.stops
  | write .. => false

namespace Job

def outputPath (j : Job) (c : Config) : Path :=
  c.outputDirectory.join (Path.ofString (j.label ++ "_meta.json"))

/-- Register the classes at a path, and answer the names that are new. -/
def register (c : Config) (t : FileTree) (path : ClassPath) (p : Path) (isPrimary : Bool) :
    Except LoadError (Std.ExtTreeSet String × ClassPath) :=
  (Archive.load t p c.reader).map fun classes => path.register classes isPrimary

/-- Resolve the primary classes of a job.  The primary archive is registered
before the libraries, so its classes count where both have one.  The sources are
asked for the names that no archive has. -/
def resolve (j : Job) (c : Config) (official : Names) (t : FileTree) :
    Except LoadError Generation := do
  let (classes, path) ← register c t (.ofSources (c.sources t)) j.primary true
  let path ← j.libraries.foldlM (fun path p => (register c t path p false).map Prod.snd) path
  let r := (Resolution.start path).resolveArchive (c.names official) classes.toList
  if r.path.sought.any (c.stops t) then
    .error (.unreadable ((c.home? t).getD .empty) .beyondCapacity)
  else
    .ok { metadata := Metadata.collect r.path classes.toList, findings := r.allFindings }

/-- Write the metadata of a job, and answer where.  Output that is there already
is left alone unless it is to be forced. -/
def make (j : Job) (c : Config) (official : Names) (t : FileTree) :
    Except JobError (Option Path) × FileTree :=
  let output := j.outputPath c
  if !c.force && t.isFile output then (.ok none, t)
  else
    match j.resolve c official t with
    | .error e => (.error (.load e), t)
    | .ok g =>
      match t.save output (Utf8.encode g.metadata.render) with
      | (.ok _, t) => (.ok (some output), t)
      | (.error (p, e), t) => (.error (.write p e), t)

end Job

/-- What to say about a job that failed. -/
def JobError.message? : JobError → Option String
  | load cause => cause.message?
  | write path cause =>
    some ("failed to write metadata to " ++ path.render ++ ": " ++ cause.message)

end Lineage
