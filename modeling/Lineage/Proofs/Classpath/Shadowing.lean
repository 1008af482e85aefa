import Lineage.Archive.Classes
import Lineage.Proofs.Classpath.Laziness

/-!
Which entries of an archive stand for their class.

The first entry that is registered for a class decides on it.  An entry whose
bytes turn out damaged is registered like any other and holds no class, so it
hides the class for good: nothing that is loaded later and no runtime source is
tried.  An entry that cannot even be opened is never registered.  The archive is
loaded as if it were not in the directory, and the class comes from the next
that has it.

All this holds for every reader of archives.  What it says of an entry, that it is
damaged or cannot be opened, follows from the laws that every reader keeps.
-/

namespace Lineage

open Std (ExtTreeSet)

/-! ## Entries that cannot be read -/

namespace Zip

/-- The entry can be opened, but no bytes with its checksum come out. -/
def Damaged (e : Entry × Content) : Prop :=
  e.2 ≠ .unreadable ∧ ∀ b, e.2 = .intact b → (Crc32.checksum b).toNat ≠ e.1.checksum

namespace Reader

variable {r : Reader} {archive : Bytes} {entries : List (Entry × Content)} {e : Entry × Content}

/-- The entry cannot be opened, as one that is encrypted or packed in a way that the
reader does not know. -/
def Refuses (r : Reader) (e : Entry × Content) : Prop :=
  e.1.encrypted = true ∨ r.knows e.1.method = false ∨ e.2 = .unreadable

theorem content_of_damaged (h : r.entries? archive = some entries) (he : e ∈ entries)
    (hdamaged : Damaged e) : e.2 = .damaged := by
  obtain ⟨hopen, hchecksum⟩ := hdamaged
  cases hc : e.2 with
  | unreadable => exact absurd hc hopen
  | damaged => rfl
  | intact b => exact absurd (r.checksum_of_intact h e he b hc) (hchecksum b hc)

theorem content_of_refuses (h : r.entries? archive = some entries) (he : e ∈ entries)
    (hrefuses : r.Refuses e) : e.2 = .unreadable := by
  rcases hrefuses with hencrypted | hmethod | hunreadable
  · exact r.unreadable_of_encrypted h e he hencrypted
  · exact r.unreadable_of_unknown h e he hmethod
  · exact hunreadable

end Reader
end Zip

/-! ## Loads -/

/-- Something to be loaded: what is at a path of some files, with a reader for it if
it is an archive. -/
structure Load where
  tree : FileTree
  path : Path
  isPrimary : Bool
  reader : Zip.Reader := .plain

namespace Load

/-- What is registered by a load.  One that fails registers nothing. -/
def entries (d : Load) : Entries :=
  ((Archive.load d.tree d.path d.reader).toOption.getD [], d.isPrimary)

/-- What is to be loaded is an archive with these bytes and this directory, and there
is room for its classes. -/
structure Lists (d : Load) (archive : Bytes) (directory : List (Zip.Entry × Zip.Content)) :
    Prop where
  isArchive : ∃ place, d.tree.find d.path = .ok (place, .file archive)
  entries?_eq : d.reader.entries? archive = some directory
  fits : ∀ e ∈ directory, Archive.overflows e = false

namespace Lists

variable {d : Load} {archive : Bytes} {directory : List (Zip.Entry × Zip.Content)}

theorem load_eq (h : d.Lists archive directory) :
    Archive.load d.tree d.path d.reader = .ok (directory.filterMap Archive.classOfEntry?) := by
  obtain ⟨⟨place, hfind⟩, hentries, hfits⟩ := h
  have hany : directory.any Archive.overflows = false := by simpa using hfits
  rw [Archive.load, hfind]
  dsimp only
  rw [hentries]
  dsimp only
  rw [hany, if_neg Bool.false_ne_true, Archive.ofEntries]

theorem entries_eq (h : d.Lists archive directory) :
    d.entries = (directory.filterMap Archive.classOfEntry?, d.isPrimary) := by
  rw [entries, h.load_eq]
  rfl

end Lists

end Load

namespace Loader

/-- Register what is at a path, and answer the names that are new.  What cannot
be loaded changes nothing. -/
def load (l : Loader) (d : Load) : Except LoadError (ExtTreeSet String) × Loader :=
  match Archive.load d.tree d.path d.reader with
  | .ok classes => (.ok (l.register classes d.isPrimary).1, (l.register classes d.isPrimary).2)
  | .error e => (.error e, l)

def loadAll (l : Loader) (loads : List Load) : Loader :=
  loads.foldl (fun l d => (l.load d).2) l

theorem load_snd (l : Loader) (d : Load) :
    (l.load d).2 = (l.register d.entries.1 d.entries.2).2 := by
  rw [load, Load.entries]
  cases Archive.load d.tree d.path d.reader with
  | error e => rfl
  | ok classes => rfl

theorem loadAll_eq (l : Loader) (loads : List Load) :
    l.loadAll loads = (l.registerAll (loads.map Load.entries)).2 := by
  induction loads generalizing l with
  | nil => rfl
  | cons d loads ih =>
    rw [loadAll, List.foldl_cons, load_snd]
    exact ih _

/-! ## Uses -/

/-- What is done to a loader over time. -/
inductive Use where
  | load (d : Load)
  | look (q : Lookup)

def after (l : Loader) : Use → Loader
  | .load d => (l.load d).2
  | .look q => (l.look q).2

def afterAll (l : Loader) (uses : List Use) : Loader := uses.foldl after l

end Loader

namespace ClassPath

def after (p : ClassPath) : Loader.Use → ClassPath
  | .load d => (p.register d.entries.1 d.entries.2).2
  | .look q => (p.look q).2

def afterAll (p : ClassPath) (uses : List Loader.Use) : ClassPath := uses.foldl after p

theorem registered_look (p : ClassPath) (q : Lookup) : (p.look q).2.registered = p.registered := by
  cases q with
  | get name => rfl
  | update name f => rfl
  | isInstance name target =>
    rw [look, isInstance]
    split <;> rfl

theorem mem_asked_after {p : ClassPath} {name : String} (h : name ∈ p.asked) (u : Loader.Use) :
    name ∈ (p.after u).asked := by
  cases u with
  | load d =>
    exact register_induction (P := fun q => name ∈ q.asked) d.entries.1 d.entries.2 h
      fun q _ _ hq _ => hq
  | look q => exact mem_asked_look h q

theorem mem_asked_afterAll {p : ClassPath} {name : String} (h : name ∈ p.asked)
    (uses : List Loader.Use) : name ∈ (p.afterAll uses).asked :=
  List.foldlRecOn (motive := fun q : ClassPath => name ∈ q.asked) uses _ h
    fun _ hq u _ => mem_asked_after hq u

/-! ## Hidden classes -/

/-- The name is taken, but there is no class under it. -/
structure Hides (p : ClassPath) (name : String) : Prop where
  registered : name ∈ p.registered
  class?_eq : p.hierarchy.class? name = none

namespace Hides

variable {p : ClassPath} {name : String}

theorem add (h : p.Hides name) {other : String} (hnew : other ∉ p.registered) (bytes : Bytes)
    (isPrimary : Bool) : (p.add other bytes isPrimary).Hides name where
  registered := ExtTreeSet.mem_insert.mpr (Or.inr h.registered)
  class?_eq := by
    have hne : other ≠ name := fun heq => hnew (heq ▸ h.registered)
    rw [class?_add, if_neg fun hn => hne hn.1, h.class?_eq]

/-- What is hidden stays so: its name is not registered again, and a lookup adds
no class. -/
theorem after (h : p.Hides name) (u : Loader.Use) : (p.after u).Hides name := by
  cases u with
  | load d =>
    exact register_induction (P := fun q => q.Hides name) d.entries.1 d.entries.2 h
      fun _ _ bytes hq hnew => hq.add hnew bytes d.entries.2
  | look q =>
    refine ⟨(registered_look p q).symm ▸ h.registered, ?_⟩
    have hclass := class?_lookAll p [q] name
    rwa [h.class?_eq] at hclass

theorem afterAll (h : p.Hides name) (uses : List Loader.Use) : (p.afterAll uses).Hides name :=
  List.foldlRecOn (motive := fun q : ClassPath => q.Hides name) uses _ h
    fun _ hq u _ => hq.after u

end Hides

end ClassPath

namespace Loader

variable {l : Loader} {p : ClassPath}

theorem Mirrors.after (h : Mirrors l p) (u : Use) : Mirrors (l.after u) (p.after u) := by
  cases u with
  | load d =>
    show Mirrors (l.load d).2 _
    rw [load_snd]
    exact (h.registerAll [d.entries]).2
  | look q => exact (h.look q).2

theorem Mirrors.afterAll (h : Mirrors l p) (uses : List Use) :
    Mirrors (l.afterAll uses) (p.afterAll uses) := by
  induction uses generalizing l p with
  | nil => exact h
  | cons u uses ih => exact ih (h.after u)

/-- A hidden class is never given, and is known to be missing once it has been
asked for. -/
theorem Mirrors.get?_of_hides (h : Mirrors l p) {name : String} (hp : p.Hides name) :
    (l.get? name).1 = none ∧ ∀ more, name ∈ ((l.get? name).2.afterAll more).missing := by
  refine ⟨(h.get? name).1.trans hp.class?_eq, fun more => ?_⟩
  have hlast := (h.get? name).2.afterAll more
  have hasked : name ∈ (p.get? name).2.asked :=
    ClassPath.mem_asked_ask.mpr (Or.inr List.mem_cons_self)
  have hhidden : (p.get? name).2.Hides name := ⟨hp.registered, hp.class?_eq⟩
  rw [hlast.mem_missing, hlast.class?_eq]
  exact ⟨ClassPath.mem_asked_afterAll hasked more, (hhidden.afterAll more).class?_eq⟩

/-! ## The entries of an archive -/

/-- The archive of a load has, between entries `earlier` and `later`, the file
`e` that names a class, and neither an earlier entry nor a load `before` has
registered that class. -/
structure FirstEntry (before : List Load) (d : Load) (archive : Bytes)
    (earlier later : List (Zip.Entry × Zip.Content)) (e : Zip.Entry × Zip.Content)
    (name : String) : Prop where
  lists : d.Lists archive (earlier ++ e :: later)
  isFile : e.1.isDirectory = false
  className : Archive.className? e.1.name = some name
  first : ∀ r ∈ ClassPath.registrations (before.map Load.entries ++
    [(earlier.filterMap Archive.classOfEntry?, d.isPrimary)]), r.1 ≠ name

namespace FirstEntry

variable {before : List Load} {d : Load} {archive : Bytes}
  {earlier later : List (Zip.Entry × Zip.Content)} {e : Zip.Entry × Zip.Content} {name : String}

theorem classOfEntry?_of_damaged (h : FirstEntry before d archive earlier later e name)
    (hdamaged : Zip.Damaged e) : Archive.classOfEntry? e = some (name, []) := by
  have hcontent := Zip.Reader.content_of_damaged h.lists.entries?_eq
    (List.mem_append_right _ List.mem_cons_self) hdamaged
  rw [Archive.classOfEntry?, h.isFile, hcontent, h.className]
  rfl

theorem classOfEntry?_of_refuses (h : FirstEntry before d archive earlier later e name)
    (hrefuses : d.reader.Refuses e) : Archive.classOfEntry? e = none := by
  have hcontent := Zip.Reader.content_of_refuses h.lists.entries?_eq
    (List.mem_append_right _ List.mem_cons_self) hrefuses
  rw [Archive.classOfEntry?, h.isFile, hcontent]
  rfl

theorem entries_eq (h : FirstEntry before d archive earlier later e name) :
    d.entries = (earlier.filterMap Archive.classOfEntry? ++
      ((Archive.classOfEntry? e).toList ++
        later.filterMap Archive.classOfEntry?), d.isPrimary) := by
  rw [h.lists.entries_eq, List.filterMap_append]
  cases hclass : Archive.classOfEntry? e with
  | none => rw [List.filterMap_cons_none hclass]; rfl
  | some r => rw [List.filterMap_cons_some hclass]; rfl

/-- What is registered by all loads, from the entry on, decides on the class. -/
theorem lookup?_eq (h : FirstEntry before d archive earlier later e name)
    (tables : List ClassTable) (after : List Load) :
    ClassPath.lookup? tables
        (ClassPath.registrations ((before ++ d :: after).map Load.entries)) name =
      ClassPath.lookup? tables
        ((Archive.classOfEntry? e).toList.map
            (fun r => (r.1, r.2, d.isPrimary)) ++
          ClassPath.registrations
            ((later.filterMap Archive.classOfEntry?, d.isPrimary) :: after.map Load.entries))
        name := by
  have hsplit : ClassPath.registrations ((before ++ d :: after).map Load.entries) =
      ClassPath.registrations (before.map Load.entries ++
          [(earlier.filterMap Archive.classOfEntry?, d.isPrimary)]) ++
        ((Archive.classOfEntry? e).toList.map
            (fun r => (r.1, r.2, d.isPrimary)) ++
          ClassPath.registrations
            ((later.filterMap Archive.classOfEntry?, d.isPrimary) :: after.map Load.entries)) := by
    rw [List.map_append, List.map_cons, h.entries_eq]
    simp only [ClassPath.registrations, List.flatMap_append, List.flatMap_cons, List.flatMap_nil,
      List.map_append, List.append_nil, List.append_assoc]
  rw [hsplit, ClassPath.lookup?_append_of_forall_ne h.first]

end FirstEntry

section Fresh

variable (sources : List Source)

theorem mirrors_loadAll (loads : List Load) :
    Mirrors ((ofSources sources).loadAll loads)
      ((ClassPath.ofSources (sources.map Source.table)).registerAll
        (loads.map Load.entries)).2 := by
  rw [loadAll_eq]
  exact ((Mirrors.ofSources sources).registerAll _).2

/-- After some loads a class is read from the bytes that count for it. -/
theorem get?_loadAll (loads : List Load) (name : String) :
    (((ofSources sources).loadAll loads).get? name).1 =
      ClassPath.lookup? (sources.map Source.table)
        (ClassPath.registrations (loads.map Load.entries)) name := by
  rw [((mirrors_loadAll sources loads).get? name).1]
  exact ClassPath.class?_registerAll _ _ name

theorem loadAll_append_singleton (l : Loader) (loads : List Load) (d : Load) :
    l.loadAll (loads ++ [d]) = ((l.loadAll loads).load d).2 := by
  rw [loadAll, List.foldl_append]
  rfl

section Entry

variable {before : List Load} {d : Load} {archive : Bytes}
  {earlier later : List (Zip.Entry × Zip.Content)} {e : Zip.Entry × Zip.Content}
  {name : String}

/-- The class of a damaged entry is hidden by the load of its archive. -/
theorem FirstEntry.hides (h : FirstEntry before d archive earlier later e name)
    (hdamaged : Zip.Damaged e) (tables : List ClassTable) :
    ((ClassPath.ofSources tables).registerAll ((before ++ [d]).map Load.entries)).2.Hides name where
  registered := by
    refine (((ClassPath.holds_ofSources tables).registerAll _).mem_registered name).mpr
      ⟨(name, [], d.isPrimary), ?_, rfl⟩
    refine List.mem_append_right _ (List.mem_flatMap.mpr ⟨d.entries, ?_, ?_⟩)
    · exact List.mem_map_of_mem (by simp)
    · rw [h.entries_eq, h.classOfEntry?_of_damaged hdamaged]
      simp
  class?_eq := by
    rw [ClassPath.class?_registerAll, h.lookup?_eq, h.classOfEntry?_of_damaged hdamaged]
    exact ClassPath.lookup?_cons_self tables name ([], d.isPrimary) _

/-- A damaged entry counts among the classes that its archive adds. -/
theorem FirstEntry.mem_added (h : FirstEntry before d archive earlier later e name)
    (hdamaged : Zip.Damaged e) :
    ∃ added, (((ofSources sources).loadAll before).load d).1 = .ok added ∧ name ∈ added := by
  have hmirrors := mirrors_loadAll sources before
  have hnew : name ∉ ((ClassPath.ofSources (sources.map Source.table)).registerAll
      (before.map Load.entries)).2.registered := by
    intro hmem
    obtain ⟨r, hr, hname⟩ :=
      (((ClassPath.holds_ofSources _).registerAll _).mem_registered name).mp hmem
    rw [List.nil_append] at hr
    refine h.first r ?_ hname
    rw [ClassPath.registrations_append]
    exact List.mem_append_left _ hr
  have hadded : ∀ entries, (((ofSources sources).loadAll before).register entries d.isPrimary).1 =
      (((ClassPath.ofSources (sources.map Source.table)).registerAll
        (before.map Load.entries)).2.register entries d.isPrimary).1 := fun entries =>
    (Mirrors.registerEntries (s := (∅, _)) (t := (∅, _)) rfl hmirrors d.isPrimary entries).1
  refine ⟨_, by rw [load, h.lists.load_eq], ?_⟩
  rw [hadded, ClassPath.register_eq_foldl, (ClassPath.mem_registerEntries_iff _ name).1]
  refine Or.inr ⟨hnew, List.mem_map.mpr ⟨(name, []), ?_, rfl⟩⟩
  exact List.mem_filterMap.mpr ⟨_, by simp, h.classOfEntry?_of_damaged hdamaged⟩

/-- A file that is the first to name a class hides it for good if it is damaged:
the class counts as added, and after whatever else is loaded and looked up there
is none under its name, which is missing ever after it has been asked for.  If
the entry cannot be opened, its archive is loaded as if it were not there, and
the class is the one that counts among all that comes after it. -/
theorem first_entry_decides (h : FirstEntry before d archive earlier later e name) :
    let loaded := ((ofSources sources).loadAll before).load d
    (Zip.Damaged e →
      (∃ added, loaded.1 = .ok added ∧ name ∈ added) ∧
        ∀ uses, ((loaded.2.afterAll uses).get? name).1 = none ∧
          ∀ more, name ∈ (((loaded.2.afterAll uses).get? name).2.afterAll more).missing) ∧
    (d.reader.Refuses e →
      Archive.load d.tree d.path d.reader =
          .ok ((earlier ++ later).filterMap Archive.classOfEntry?) ∧
        ∀ after, ((loaded.2.loadAll after).get? name).1 =
          ClassPath.lookup? (sources.map Source.table)
            (ClassPath.registrations
              ((later.filterMap Archive.classOfEntry?, d.isPrimary) :: after.map Load.entries))
            name) := by
  intro loaded
  refine ⟨fun hdamaged => ⟨h.mem_added sources hdamaged, fun uses => ?_⟩,
    fun hrefuses => ⟨?_, fun after => ?_⟩⟩
  · have hmirrors := mirrors_loadAll sources (before ++ [d])
    rw [loadAll_append_singleton] at hmirrors
    exact (hmirrors.afterAll uses).get?_of_hides ((h.hides hdamaged _).afterAll uses)
  · rw [h.lists.load_eq, List.filterMap_append,
      List.filterMap_cons_none (h.classOfEntry?_of_refuses hrefuses), List.filterMap_append]
  · have hall : loaded.2.loadAll after = (ofSources sources).loadAll (before ++ d :: after) := by
      rw [loadAll, loadAll, List.foldl_append]
      rfl
    rw [hall, get?_loadAll, h.lookup?_eq, h.classOfEntry?_of_refuses hrefuses]
    rfl

end Entry

end Fresh

/-! ## An archive with entries that cannot be read -/

namespace Sample

open ClassPath.Sample (child parent)

/-- A number of some bytes, the low byte first. -/
def little : (size : Nat) → Nat → Bytes
  | 0, _ => []
  | size + 1, n => UInt8.ofNat n :: little size (n / 256)

/-- A file that is stored as it is. -/
structure Stored where
  name : String
  encrypted : Bool
  checksum : Nat
  content : Bytes

namespace Stored

/-- What stands in front of the file as well as in the directory. -/
def header (e : Stored) : Bytes :=
  little 2 20 ++ little 2 (if e.encrypted then 1 else 0) ++ little 2 0 ++ little 4 0 ++
    little 4 e.checksum ++ little 4 e.content.length ++ little 4 e.content.length ++
    little 2 e.name.length ++ little 2 0

def file (e : Stored) : Bytes :=
  Zip.Entry.localSignature ++ e.header ++ Utf8.encode e.name ++ e.content

def record (offset : Nat) (e : Stored) : Bytes :=
  Zip.Entry.signature ++ little 2 20 ++ e.header ++ little 2 0 ++ little 8 0 ++
    little 4 offset ++ Utf8.encode e.name

def directory : (offset : Nat) → List Stored → Bytes
  | _, [] => []
  | offset, e :: entries => e.record offset ++ directory (offset + e.file.length) entries

def archive (entries : List Stored) : Bytes :=
  let files := entries.flatMap file
  let records := directory 0 entries
  files ++ records ++ Zip.Closing.signature ++ little 2 0 ++ little 2 0 ++
    little 2 entries.length ++ little 2 entries.length ++ little 4 records.length ++
    little 4 files.length ++ little 2 0

end Stored

/-- The child has the wrong checksum, and the parent is encrypted. -/
def broken : Bytes :=
  Stored.archive
    [ { name := "Child.class", encrypted := false, checksum := 1, content := [0xCA, 0xFE] }
    , { name := "Parent.class", encrypted := true, checksum := 1, content := [0xCA, 0xFE] } ]

/-- The archive, and a directory in which both classes are intact. -/
def files : FileTree :=
  ⟨.ofList [(["app.jar"], FileNode.file broken), (["lib"], FileNode.directory),
    (["lib", "Child.class"], FileNode.file child.assemble),
    (["lib", "Parent.class"], FileNode.file parent.assemble)]⟩

def app : Load := { tree := files, path := ⟨["app.jar"]⟩, isPrimary := true }

def lib : Load := { tree := files, path := ⟨["lib"]⟩, isPrimary := false }

def childEntry : Zip.Entry × Zip.Content :=
  ({ name := "Child.class", encrypted := false, method := 0, checksum := 1, packedSize := 2
     size := 2, position := 0 },
    .damaged)

def parentEntry : Zip.Entry × Zip.Content :=
  ({ name := "Parent.class", encrypted := true, method := 0, checksum := 1, packedSize := 2
     size := 2, position := 43 },
    .unreadable)

theorem lists_app : app.Lists broken [childEntry, parentEntry] where
  isArchive := ⟨["app.jar"], by decide +kernel⟩
  entries?_eq := by decide +kernel
  fits := by decide +kernel

theorem firstEntry_child : FirstEntry [] app broken [] [parentEntry] childEntry "Child" where
  lists := lists_app
  isFile := by decide +kernel
  className := by decide +kernel
  first := by decide +kernel

theorem firstEntry_parent : FirstEntry [] app broken [childEntry] [] parentEntry "Parent" where
  lists := lists_app
  isFile := by decide +kernel
  className := by decide +kernel
  first := by decide +kernel

theorem damaged_child : Zip.Damaged childEntry := ⟨nofun, nofun⟩

/-- The damaged child stays hidden though the directory has it, and the parent,
which cannot be opened, comes from the directory. -/
theorem first_entry_decides_app :
    let loaded := ((ofSources []).loadAll []).load app
    let later := loaded.2.afterAll [.load lib, .look (.isInstance "Child" "Parent")]
    (later.get? "Child").1 = none ∧
      "Child" ∈ ((later.get? "Child").2.afterAll [.load lib]).missing ∧
      ((loaded.2.loadAll [lib]).get? "Parent").1.isSome := by
  intro loaded later
  obtain ⟨_, hhidden⟩ := (first_entry_decides [] firstEntry_child).1 damaged_child
  obtain ⟨_, hpassed⟩ := (first_entry_decides [] firstEntry_parent).2 (Or.inl rfl)
  obtain ⟨hnone, hmissing⟩ := hhidden [.load lib, .look (.isInstance "Child" "Parent")]
  refine ⟨hnone, hmissing [.load lib], ?_⟩
  rw [hpassed]
  decide +kernel

/-- The encrypted entry is the first for its class and cannot be opened, but the
class comes from the directory that is loaded after its archive, and is not
missing. -/
theorem encrypted_parent_supplied :
    FirstEntry [] app broken [childEntry] [] parentEntry "Parent" ∧
      parentEntry.1.encrypted = true ∧
      (((ofSources []).loadAll [app, lib]).get? "Parent").1.isSome ∧
      "Parent" ∉ (((ofSources []).loadAll [app, lib]).get? "Parent").2.missing := by
  refine ⟨firstEntry_parent, rfl, ?_, ?_⟩
  · rw [get?_loadAll]
    decide +kernel
  · decide +kernel

end Sample

end Loader
end Lineage
