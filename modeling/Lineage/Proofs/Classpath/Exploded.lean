import Mathlib.Data.List.Nodup
import Lineage.Proofs.Classpath.Shadowing
import Lineage.Proofs.Files.Texts

/-!
Archives and the directories that they are unpacked to.

An entry of an archive and a file of a directory stand for the same class,
which is told by the path.  Different paths stand for different classes, and so
the order in which the entries or the files come does not matter.  Only a file
whose name is nothing but the extension counts in an archive and not in a
directory.
-/

namespace Lineage

open Std (ExtTreeMap ExtTreeSet)

namespace Archive

/-! ## Classes of paths -/

theorem endsWith_iff (text suffix : String) :
    text.endsWith suffix = true ↔ suffix.toList <:+ text.toList := by
  rw [← String.endsWith_toSlice, String.Slice.endsWith_string_iff, String.copy_toSlice]

theorem stem?_eq_some_iff {name stem : String} :
    stem? name = some stem ↔ name = stem ++ extension := by
  rw [stem?]
  constructor
  · intro h
    split at h
    · next hends =>
      obtain ⟨init, hinit⟩ := (endsWith_iff _ _).mp hends
      cases h
      rw [← String.toList_inj, String.toList_append, String.toList_ofList, ← hinit,
        ← String.length_toList, ← String.length_toList, ← hinit, List.length_append,
        Nat.add_sub_cancel, List.take_left]
    · cases h
  · rintro rfl
    have hends : (stem ++ extension).endsWith extension = true := by
      rw [endsWith_iff, String.toList_append]
      exact List.suffix_append _ _
    rw [if_pos hends, String.length_append, Nat.add_sub_cancel, String.toList_append,
      ← String.length_toList, List.take_left, String.ofList_toList]

theorem eq_append_of_className? {entry name : String} (h : className? entry = some name) :
    entry = name ++ extension := by
  rw [className?] at h
  split at h
  · cases h
  · exact stem?_eq_some_iff.mp (Option.filter_eq_some_iff.mp h).1

/-- The name of a class file ends in the letter s. -/
theorem endsWith_eq_false_of_className? {entry name : String} (h : className? entry = some name)
    {c : Char} (hc : c ≠ 's') : entry.endsWith (String.singleton c) = false := by
  rw [Bool.eq_false_iff]
  intro hends
  obtain ⟨init, hinit⟩ := (endsWith_iff _ _).mp hends
  have hlast := congrArg List.getLast? hinit
  rw [eq_append_of_className? h, String.toList_append, String.toList_singleton,
    List.getLast?_concat] at hlast
  simp [extension] at hlast
  exact hc hlast

/-- The class of a file, by its path in an archive. -/
def packedClass? (f : Place × Bytes) : Option (String × Bytes) :=
  (className? (Path.render ⟨f.1⟩)).map fun name => (name, f.2)

/-- An entry that can be read and has the path and the content of a file. -/
def Holds (e : Zip.Entry × Zip.Content) (f : Place × Bytes) : Prop :=
  e.1.name = Path.render ⟨f.1⟩ ∧ e.2 = .intact f.2

instance : DecidableRel Holds := fun _ _ => inferInstanceAs (Decidable (_ ∧ _))

theorem Holds.classOfEntry?_eq {e : Zip.Entry × Zip.Content} {f : Place × Bytes} (h : Holds e f) :
    classOfEntry? e = packedClass? f := by
  obtain ⟨hname, hcontent⟩ := h
  rw [Archive.classOfEntry?, packedClass?, hcontent, ← hname]
  cases hclass : className? e.1.name with
  | none =>
    split <;> rfl
  | some name =>
    have hfile : e.1.isDirectory = false := by
      rw [Zip.Entry.isDirectory, Bool.or_eq_false_iff]
      exact ⟨endsWith_eq_false_of_className? hclass (c := '/') (by decide),
        endsWith_eq_false_of_className? hclass (c := '\\') (by decide)⟩
    rw [hfile]
    rfl

theorem filterMap_classOfEntry? {entries : List (Zip.Entry × Zip.Content)}
    {files : List (Place × Bytes)} (h : List.Forall₂ Holds entries files) :
    entries.filterMap classOfEntry? = files.filterMap packedClass? := by
  induction h with
  | nil => rfl
  | cons hhead _ ih =>
    rw [List.filterMap_cons, List.filterMap_cons, ih, hhead.classOfEntry?_eq]

/-- A file of a directory has the class that it would have in an archive, unless
its name is nothing but the extension. -/
theorem classOfFile?_eq {f : Place × Bytes} (hf : Path.Textual ⟨f.1⟩) :
    classOfFile? f = if f.1.getLast? = some extension then none else packedClass? f := by
  rw [classOfFile?, List.getLastD_eq_getLast?]
  by_cases hext : f.1.getLast? = some extension
  · rw [if_pos hext, hext]
    rfl
  · rw [if_neg hext]
    split
    · next hshort =>
      symm
      rw [packedClass?, Option.map_eq_none_iff]
      by_contra hsome
      obtain ⟨name, hname⟩ := Option.ne_none_iff_exists'.mp hsome
      obtain ⟨last, hlast⟩ := hf.exists_getLast?_eq (by decide) (eq_append_of_className? hname)
      rw [hlast, Option.getD_some, String.length_append] at hshort
      have hempty : last = "" := String.length_eq_zero_iff.mp (by omega)
      rw [hempty, String.empty_append] at hlast
      exact hext hlast
    · rfl

/-- The classes of two files have different names. -/
theorem eq_of_packedClass? {f g : Place × Bytes} (hf : Path.Textual ⟨f.1⟩)
    (hg : Path.Textual ⟨g.1⟩) {a b : String × Bytes} (ha : packedClass? f = some a)
    (hb : packedClass? g = some b) (hname : a.1 = b.1) : f.1 = g.1 := by
  obtain ⟨name, hfname, rfl⟩ := Option.map_eq_some_iff.mp ha
  obtain ⟨name', hgname, rfl⟩ := Option.map_eq_some_iff.mp hb
  have hrender : Path.render ⟨f.1⟩ = Path.render ⟨g.1⟩ := by
    rw [eq_append_of_className? hfname, eq_append_of_className? hgname]
    exact congrArg (· ++ extension) hname
  exact congrArg Path.parts (hf.eq_of_render_eq hg hrender)

/-- A description of a module has a name in front of the extension. -/
theorem ne_append_moduleInfo {place : Place} (hp : Path.Textual ⟨place⟩)
    (hlast : place.getLast? = some extension) {stem : String}
    (hstem : Path.render ⟨place⟩ = stem ++ extension) (text : String) :
    stem ≠ text ++ moduleInfo := by
  intro heq
  have hrender : Path.render ⟨place⟩ = text ++ (moduleInfo ++ extension) := by
    rw [hstem, heq, String.append_assoc]
  obtain ⟨last, hlong⟩ := hp.exists_getLast?_eq (by decide) hrender
  have hlength := congrArg String.length (Option.some.inj (hlast.symm.trans hlong))
  rw [String.length_append, String.length_append] at hlength
  have hpos : 0 < moduleInfo.length := by decide
  omega

/-- A file whose name is nothing but the extension has a class in an archive,
unless it is about the archive itself. -/
theorem packedClass?_eq_none_iff {f : Place × Bytes} (hf : Path.Textual ⟨f.1⟩)
    (hlast : f.1.getLast? = some extension) :
    packedClass? f = none ↔ f.1.head? = some "META-INF" := by
  rw [packedClass?, Option.map_eq_none_iff, className?]
  constructor
  · intro hnone
    split at hnone
    · next hstarts =>
      obtain ⟨text, htext⟩ := String.startsWith_string_iff.mp hstarts
      have hrender : Path.render ⟨f.1⟩ = "META-INF" ++ "/" ++ String.ofList text := by
        rw [← String.toList_inj, String.toList_append, String.toList_ofList]
        exact htext.symm
      exact hf.head?_eq (by decide) hrender
    · obtain ⟨stem, hstem⟩ := Path.exists_render_eq_append hlast
      have hne := ne_append_moduleInfo hf hlast hstem
      rw [stem?_eq_some_iff.mpr hstem, Option.filter_eq_none_iff] at hnone
      have hname := hnone stem rfl
      rw [Bool.and_eq_true, bne_iff_ne, Bool.not_eq_true', not_and, Bool.not_eq_false] at hname
      have hends := hname fun heq => hne "" (by rw [heq, String.empty_append])
      obtain ⟨init, hinit⟩ := (endsWith_iff _ _).mp hends
      refine absurd ?_ (hne (String.ofList init ++ "/"))
      rw [← String.toList_inj, ← hinit]
      simp
  · intro hhead
    obtain ⟨names, hnames⟩ := List.head?_eq_some_iff.mp hhead
    have hne : names ≠ [] := by
      rintro rfl
      rw [hnames] at hlast
      exact absurd hlast (by decide)
    refine if_pos (String.startsWith_string_iff.mpr ?_)
    rw [hnames, Path.render, String.intercalate_cons_of_ne_nil hne, String.toList_append]
    exact List.prefix_append _ _

end Archive

/-! ## Order -/

namespace Loader

open Mirrors (registerEntry)

variable {l : Loader} {classes classes' : List (String × Bytes)}

theorem insert_comm (t : ExtTreeSet String) (name other : String) :
    (t.insert name).insert other = (t.insert other).insert name := by
  refine ExtTreeSet.ext_mem fun k => ?_
  simp only [ExtTreeSet.mem_insert]
  tauto

theorem add_comm {name other : String} (hne : name ≠ other) (b b' : Bytes) (isPrimary : Bool) :
    (l.add name b isPrimary).add other b' isPrimary =
      (l.add other b' isPrimary).add name b isPrimary := by
  have hpending : (l.pending.insert name b).insert other b' =
      (l.pending.insert other b').insert name b := by
    refine congrArg ClassTable.mk (ExtTreeMap.ext_getElem? fun k => ?_)
    simp only [ClassTable.insert, ExtTreeMap.getElem?_insert, Std.LawfulEqOrd.compare_eq_iff_eq]
    by_cases hk : other = k
    · subst hk
      rw [if_pos rfl, if_neg hne, if_pos rfl]
    · rw [if_neg hk, if_neg hk]
  cases isPrimary <;>
    simp only [add, insert_comm _ name other, hpending, if_true, Bool.false_eq_true, if_false]

theorem registerEntry_comm {e e' : String × Bytes} (hne : e.1 ≠ e'.1) (isPrimary : Bool)
    (s : ExtTreeSet String × Loader) :
    registerEntry isPrimary (registerEntry isPrimary s e) e' =
      registerEntry isPrimary (registerEntry isPrimary s e') e := by
  have hset : (s.1.insert e.1).insert e'.1 = (s.1.insert e'.1).insert e.1 :=
    insert_comm s.1 e.1 e'.1
  have hmem : e.1 ∈ (s.2.add e'.1 e'.2 isPrimary).registered ↔ e.1 ∈ s.2.registered := by
    simp [add, hne.symm]
  have hmem' : e'.1 ∈ (s.2.add e.1 e.2 isPrimary).registered ↔ e'.1 ∈ s.2.registered := by
    simp [add, hne]
  by_cases he : e.1 ∈ s.2.registered <;> by_cases he' : e'.1 ∈ s.2.registered <;>
    simp [registerEntry, he, he', hmem, hmem', hset, add_comm hne]

/-- The order of classes with different names does not matter. -/
theorem register_perm (hp : classes.Perm classes') (hnames : (classes.map Prod.fst).Nodup)
    (isPrimary : Bool) (l : Loader) :
    l.register classes isPrimary = l.register classes' isPrimary := by
  refine hp.foldl_eq' (f := registerEntry isPrimary) (fun e he e' he' s => ?_) (∅, l)
  by_cases hname : e.1 = e'.1
  · rw [List.inj_on_of_nodup_map hnames he he' hname]
  · exact registerEntry_comm hname isPrimary s

end Loader

/-! ## Files -/

/-- Files by the names that lead to them, no two of them at one place. -/
structure DistinctFiles (files : List (Place × Bytes)) : Prop where
  textual : ∀ f ∈ files, Path.Textual ⟨f.1⟩
  nodup : (files.map Prod.fst).Nodup

namespace Load

variable {d : Load} {files : List (Place × Bytes)}

/-- What is to be loaded is an archive of these files in some order.  There may be
entries for directories beside them. -/
def Packs (d : Load) (files : List (Place × Bytes)) : Prop :=
  ∃ archive directory order, d.Lists archive directory ∧ order.Perm files ∧
    List.Forall₂ Archive.Holds (directory.filter fun e => !e.1.name.endsWith "/") order

/-- What is to be loaded is a directory with these files in and below it. -/
def Unpacks (d : Load) (files : List (Place × Bytes)) : Prop :=
  ∃ place, d.tree.find d.path = .ok (place, .directory) ∧ (d.tree.filesBelow place).Perm files

theorem Packs.exists_load_eq (h : d.Packs files) : ∃ classes,
    Archive.load d.tree d.path d.reader = .ok classes ∧
      classes.Perm (files.filterMap Archive.packedClass?) := by
  obtain ⟨archive, directory, order, hlists, hperm, hentries⟩ := h
  refine ⟨_, hlists.load_eq, ?_⟩
  have hfilter : directory.filterMap Archive.classOfEntry? =
      (directory.filter fun e => !e.1.name.endsWith "/").filterMap Archive.classOfEntry? := by
    rw [List.filterMap_filter]
    refine List.filterMap_congr fun e _ => ?_
    by_cases hslash : e.1.name.endsWith "/"
    · simp [Archive.classOfEntry?, Zip.Entry.isDirectory, hslash]
    · simp [hslash]
  rw [hfilter, Archive.filterMap_classOfEntry? hentries]
  exact hperm.filterMap _

theorem Unpacks.exists_load_eq (h : d.Unpacks files) : ∃ classes,
    Archive.load d.tree d.path d.reader = .ok classes ∧
      classes.Perm (files.filterMap Archive.classOfFile?) := by
  obtain ⟨place, hfind, hperm⟩ := h
  refine ⟨Archive.ofDirectory (d.tree.filesBelow place), ?_, hperm.filterMap _⟩
  rw [Archive.load, hfind]

end Load

namespace DistinctFiles

variable {files : List (Place × Bytes)}

/-- No two files have classes of one name. -/
theorem nodup_names (h : DistinctFiles files) :
    ((files.filterMap Archive.packedClass?).map Prod.fst).Nodup := by
  rw [List.Nodup, List.pairwise_map, List.pairwise_filterMap]
  refine List.Pairwise.imp_of_mem (fun {f g} hf hg hne a ha b hb hname => ?_)
    (List.pairwise_map.mp h.nodup)
  exact hne (Archive.eq_of_packedClass? (h.textual f hf) (h.textual g hg) ha hb hname)

/-- If none of the files has just the extension as its name, but for files about an
archive itself, they have the same classes in both. -/
theorem filterMap_classOfFile? (h : DistinctFiles files)
    (hbare : ∀ f ∈ files, f.1.getLast? = some Archive.extension →
      f.1.head? = some "META-INF") :
    files.filterMap Archive.classOfFile? = files.filterMap Archive.packedClass? := by
  refine List.filterMap_congr fun f hf => ?_
  rw [Archive.classOfFile?_eq (h.textual f hf)]
  split
  · next hlast =>
    exact ((Archive.packedClass?_eq_none_iff (h.textual f hf) hlast).mpr (hbare f hf hlast)).symm
  · rfl

/-- The class that a file with just the extension as its name has in an archive is
none of the classes that the files have in a directory. -/
theorem name_not_mem (h : DistinctFiles files) {f : Place × Bytes} (hf : f ∈ files)
    (hlast : f.1.getLast? = some Archive.extension) {a : String × Bytes}
    (ha : Archive.packedClass? f = some a) :
    a.1 ∉ (files.filterMap Archive.classOfFile?).map Prod.fst := by
  intro hmem
  obtain ⟨b, hb, hname⟩ := List.mem_map.mp hmem
  obtain ⟨g, hg, hb⟩ := List.mem_filterMap.mp hb
  rw [Archive.classOfFile?_eq (h.textual g hg)] at hb
  split at hb
  · cases hb
  · next hne =>
    have hplace := Archive.eq_of_packedClass? (h.textual f hf) (h.textual g hg) ha hb hname.symm
    exact hne (hplace ▸ hlast)

end DistinctFiles

namespace Loader

theorem mem_register_ofSources (sources : List Source) (classes : List (String × Bytes))
    (isPrimary : Bool) (name : String) :
    name ∈ ((ofSources sources).register classes isPrimary).1 ↔
      name ∈ classes.map Prod.fst := by
  have hfst := (Mirrors.registerEntries (s := (∅, ofSources sources))
    (t := (∅, .ofSources (sources.map Source.table))) rfl (.ofSources sources) isPrimary
    classes).1
  show name ∈ (classes.foldl (Mirrors.registerEntry isPrimary) (∅, ofSources sources)).1 ↔ _
  rw [hfst, (ClassPath.mem_registerEntries_iff classes name).1]
  simp [ClassPath.ofSources]

/-- An archive and a directory of the same files are loaded alike, whatever has
been loaded before, exactly if no file has just the extension as its name, but
for files about an archive itself. -/
theorem load_eq_load_iff {packed unpacked : Load} {files : List (Place × Bytes)}
    (hfiles : DistinctFiles files) (hpacked : packed.Packs files)
    (hunpacked : unpacked.Unpacks files) (hprimary : packed.isPrimary = unpacked.isPrimary) :
    (∀ l : Loader, l.load packed = l.load unpacked) ↔
      ∀ f ∈ files, f.1.getLast? = some Archive.extension → f.1.head? = some "META-INF" := by
  obtain ⟨classes, hload, hp⟩ := hpacked.exists_load_eq
  obtain ⟨classes', hload', hp'⟩ := hunpacked.exists_load_eq
  constructor
  · intro heq f hf hlast
    by_contra hhead
    have hsome := mt (Archive.packedClass?_eq_none_iff (hfiles.textual f hf) hlast).mp hhead
    obtain ⟨a, ha⟩ := Option.ne_none_iff_exists'.mp hsome
    have hadded := congrArg Prod.fst (heq (ofSources []))
    rw [load, load, hload, hload'] at hadded
    have hset := Except.ok.inj hadded
    have hmem : a.1 ∈ classes.map Prod.fst :=
      List.mem_map_of_mem (hp.symm.subset (List.mem_filterMap.mpr ⟨f, hf, ha⟩))
    rw [← mem_register_ofSources [] classes packed.isPrimary, hset, mem_register_ofSources,
      (hp'.map Prod.fst).mem_iff] at hmem
    exact hfiles.name_not_mem hf hlast ha hmem
  · intro hbare l
    rw [hfiles.filterMap_classOfFile? hbare] at hp'
    have hregister : l.register classes packed.isPrimary =
        l.register classes' unpacked.isPrimary := by
      rw [hprimary]
      refine register_perm (hp.trans hp'.symm) ?_ _ l
      exact (hp.map Prod.fst).nodup_iff.mpr hfiles.nodup_names
    rw [load, load, hload, hload']
    simp only [hregister]

end Loader

/-! ## A file without a name in front of the extension -/

namespace Load.Sample

open Loader.Sample (Stored)

def stored (f : Place × Bytes) : Stored where
  name := Path.render ⟨f.1⟩
  encrypted := false
  checksum := (Crc32.checksum f.2).toNat
  content := f.2

/-- An archive with some files, and the directory that it is unpacked to. -/
def tree (files : List (Place × Bytes)) : FileTree :=
  files.foldl (fun t f => t.put ⟨"lib" :: f.1⟩ (.file f.2))
    ⟨.ofList [(["app.jar"], FileNode.file (Stored.archive (files.map stored)))]⟩

def packed (files : List (Place × Bytes)) : Load where
  tree := tree files
  path := ⟨["app.jar"]⟩
  isPrimary := true

def unpacked (files : List (Place × Bytes)) : Load where
  tree := tree files
  path := ⟨["lib"]⟩
  isPrimary := true

/-- An entry for a file, which is stored at a position. -/
def entry (position : Nat) (f : Place × Bytes) : Zip.Entry × Zip.Content :=
  ({ name := Path.render ⟨f.1⟩, encrypted := false, method := 0
     checksum := (Crc32.checksum f.2).toNat, packedSize := f.2.length, size := f.2.length
     position },
    .intact f.2)

def inner : Place × Bytes := (["a", "A.class"], [0xCA, 0xFE])

def hidden : Place × Bytes := (["META-INF", ".class"], [])

theorem packs_pair : (packed [inner, hidden]).Packs [inner, hidden] :=
  ⟨Stored.archive ([inner, hidden].map stored), [entry 0 inner, entry 41 hidden], [inner, hidden],
    ⟨⟨["app.jar"], by decide +kernel⟩, by decide +kernel, by decide +kernel⟩, .refl _,
    by decide +kernel⟩

theorem unpacks_pair : (unpacked [inner, hidden]).Unpacks [inner, hidden] :=
  ⟨["lib"], by decide +kernel, by decide +kernel⟩

/-- A class below a directory, and a file about the archive with just the extension as
its name. -/
theorem load_eq_load_pair :
    (packed [inner, hidden]).Packs [inner, hidden] ∧
      (unpacked [inner, hidden]).Unpacks [inner, hidden] ∧
      ∀ l : Loader, l.load (packed [inner, hidden]) = l.load (unpacked [inner, hidden]) :=
  ⟨packs_pair, unpacks_pair,
    (Loader.load_eq_load_iff ⟨by decide +kernel, by decide +kernel⟩ packs_pair unpacks_pair
      rfl).mpr (by decide +kernel)⟩

def bare : Place × Bytes := ([".class"], [0xCA, 0xFE])

/-- A file with just the extension as its name stands for a class without a name in
an archive, and for none in the directory that the archive is unpacked to. -/
theorem load_ne_load_bare :
    DistinctFiles [bare] ∧ (packed [bare]).Packs [bare] ∧ (unpacked [bare]).Unpacks [bare] ∧
      ((Loader.ofSources []).load (packed [bare])).1.toOption.map (·.toList) = some [""] ∧
      ((Loader.ofSources []).load (unpacked [bare])).1.toOption.map (·.toList) = some [] ∧
      ¬ ∀ l : Loader, l.load (packed [bare]) = l.load (unpacked [bare]) := by
  have hpacked : (packed [bare]).Packs [bare] :=
    ⟨Stored.archive [stored bare], [entry 0 bare], [bare],
      ⟨⟨["app.jar"], by decide +kernel⟩, by decide +kernel, by decide +kernel⟩, .refl _,
    by decide +kernel⟩
  have hadds : ((Loader.ofSources []).load (packed [bare])).1.toOption.map (·.toList) =
      some [""] := by decide +kernel
  have hnothing : ((Loader.ofSources []).load (unpacked [bare])).1.toOption.map (·.toList) =
      some [] := by decide +kernel
  refine ⟨⟨by decide +kernel, by decide +kernel⟩, hpacked,
    ⟨["lib"], by decide +kernel, by decide +kernel⟩, hadds, hnothing, fun halike => ?_⟩
  rw [halike, hnothing] at hadds
  exact absurd hadds (by decide)

end Load.Sample

end Lineage
