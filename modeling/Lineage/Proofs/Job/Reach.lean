import Mathlib.Data.List.Nodup
import Lineage.Job.Basic
import Lineage.Proofs.Classpath.Choice
import Lineage.Proofs.Graph.Evaluation
import Lineage.Proofs.Resolution.Independence
import Lineage.Proofs.Resolution.Settling

/-!
What a generation depends on.

All that resolving the classes of a primary archive looks at lies in the closure
of their names under the supertype relation.  So the metadata and the findings
are settled by the bytes that count for the names in this closure, whatever else
there is in the libraries and the sources, and in whatever order the classes
stand in the archive.
-/

namespace Lineage

open Std (ExtTreeMap ExtTreeSet)
open Relation (ReflTransGen)

namespace Hierarchy

/-- A class that has just been read has no bouncers into it, and its own go no
further than to its superclass. -/
theorem AsRead.inside {S : String → Prop} {h : Hierarchy} (hh : h.AsRead)
    (hclosed : ∀ {a b}, S a → h.supertypeGraph.Edge a b → S b) {r : MemberRef} {m : MethodNode}
    (hr : S r.owner) (hm : h.method? r = some m) : m.Inside S := by
  refine ⟨fun f hf => ?_, fun b hbounce => ?_⟩
  · have hforwarders : m.ties.forwarders = ∅ := by rw [hh.untied hm]; rfl
    exact absurd (hforwarders ▸ hf) ExtTreeSet.not_mem_empty
  · rcases hh.target_of_bounce hm hbounce with howner | hedge
    · rw [howner]
      exact hr
    · exact hclosed hr hedge

theorem AsRead.agree {S : String → Prop} {h h' : Hierarchy} (hh : h.AsRead)
    (hclosed : ∀ {a b}, S a → h.supertypeGraph.Edge a b → S b)
    (heq : ∀ {name}, S name → h.class? name = h'.class? name) : h.Agree S h' where
  class?_eq := heq
  closed := hclosed
  keyed := hh.keyed
  inside := hh.inside hclosed

end Hierarchy

/-- Resolving a class that has just been read looks at nothing but the names that
it asks for.  With the same classes under these it notices the same, and leaves
them alike. -/
theorem Resolution.agree_resolve_of_lineage (names : Names) {p p' : ClassPath} {cls : String}
    (hp : p.hierarchy.AsRead) (hnone : ∀ name, name ∉ p.asked) (hasked : p.asked = p'.asked)
    (hprimary : p.primary = p'.primary)
    (heq : ∀ name ∈ p.hierarchy.lineage cls,
      p.hierarchy.class? name = p'.hierarchy.class? name) :
    (∀ name, name ∈ ((start p).resolve names cls).path.asked ↔
        name ∈ p.hierarchy.lineage cls) ∧
      ((start p).resolve names cls).Agree (· ∈ p.hierarchy.lineage cls)
        ((start p').resolve names cls) := by
  have hclosed : ∀ {a b}, a ∈ p.hierarchy.lineage cls → p.hierarchy.supertypeGraph.Edge a b →
      b ∈ p.hierarchy.lineage cls := fun ha hab =>
    Graph.mem_breadthFirst_iff.mpr ((Graph.mem_breadthFirst_iff.mp ha).tail hab)
  have hstart : (start p).Agree (· ∈ p.hierarchy.lineage cls) (start p') :=
    { path :=
        { hierarchy := hp.agree hclosed fun hname => heq _ hname
          asked := hasked
          within := fun name hname => absurd hname (hnone name)
          primary := hprimary }
      findings := rfl }
  refine ⟨fun name => ?_, hstart.resolve names (Graph.mem_breadthFirst_iff.mpr .refl)⟩
  rw [AtRest.mem_asked_resolve]
  exact ⟨fun h => h.elim (fun h => absurd h (hnone name)) Graph.mem_breadthFirst_iff.mpr,
    fun h => Or.inr (Graph.mem_breadthFirst_iff.mp h)⟩

namespace Generation

/-- A primary archive and the libraries after it. -/
def archives (primary : List (String × Bytes)) (libraries : List (List (String × Bytes))) :
    List Entries :=
  (primary, true) :: libraries.map (·, false)

/-- The class path where all archives have been registered. -/
def filled (tables : List ClassTable) (primary : List (String × Bytes))
    (libraries : List (List (String × Bytes))) : ClassPath :=
  ((ClassPath.ofSources tables).registerAll (archives primary libraries)).2

/-- The classes of the primary archive, in order. -/
def classes (tables : List ClassTable) (primary : List (String × Bytes)) : List String :=
  ((ClassPath.ofSources tables).register primary true).1.toList

/-- What resolving the classes of a primary archive comes to. -/
def generate (names : Names) (tables : List ClassTable) (primary : List (String × Bytes))
    (libraries : List (List (String × Bytes))) : Generation :=
  let r := (Resolution.start (filled tables primary libraries)).resolveArchive names
    (classes tables primary)
  { metadata := Metadata.collect r.path (classes tables primary), findings := r.allFindings }

/-- The bytes that a name would be read from. -/
def supplied? (tables : List ClassTable) (primary : List (String × Bytes))
    (libraries : List (List (String × Bytes))) (name : String) : Option Bytes :=
  (ClassPath.chosen? tables (ClassPath.registrations (archives primary libraries)) name).map
    Prod.fst

/-- A name that the supertype relation leads to from the primary classes. -/
def Reached (tables : List ClassTable) (primary : List (String × Bytes))
    (libraries : List (List (String × Bytes))) (name : String) : Prop :=
  ∃ root ∈ primary.map Prod.fst,
    ReflTransGen (filled tables primary libraries).hierarchy.supertypeGraph.Edge root name

/-! ## Jobs -/

theorem foldlM_register {c : Config} {t : FileTree} {paths : List Path}
    {libraries : List (List (String × Bytes))}
    (hl : paths.mapM (Archive.load t · c.reader) = .ok libraries) (p : ClassPath) :
    (paths.foldlM (fun p path => (Job.register c t p path false).map Prod.snd) p) =
      .ok (p.registerAll (libraries.map (·, false))).2 := by
  induction paths generalizing libraries p with
  | nil =>
    cases hl
    rfl
  | cons path paths ih =>
    rw [List.mapM_cons] at hl
    cases hload : Archive.load t path c.reader with
    | error e => simp [hload, bind, Except.bind] at hl
    | ok entries =>
      cases hrest : paths.mapM (Archive.load t · c.reader) with
      | error e => simp [hload, hrest, bind, Except.bind] at hl
      | ok more =>
        simp only [hload, hrest, bind, Except.bind, pure, Except.pure, Except.ok.injEq] at hl
        subst hl
        rw [List.foldlM_cons, Job.register, hload]
        exact ih hrest _

/-- A job whose archives can be read resolves their entries, if no class of the
platform stops the program. -/
theorem resolve_eq_ok {j : Job} {c : Config} {t : FileTree} {primary : List (String × Bytes)}
    {libraries : List (List (String × Bytes))}
    (hp : Archive.load t j.primary c.reader = .ok primary)
    (hl : j.libraries.mapM (Archive.load t · c.reader) = .ok libraries)
    (hs : ∀ name, c.stops t name = false) (official : Names) :
    j.resolve c official t =
      .ok (generate (c.names official) (c.sources t) primary libraries) := by
  unfold Job.resolve
  have hnone : ∀ names : List String, names.any (c.stops t) = false :=
    fun names => by simp [hs]
  have hprimary : Job.register c t (.ofSources (c.sources t)) j.primary true =
      .ok ((ClassPath.ofSources (c.sources t)).register primary true) := by
    rw [Job.register, hp]
    rfl
  rw [hprimary]
  simp only [bind, Except.bind]
  have hfold := foldlM_register hl ((ClassPath.ofSources (c.sources t)).register primary true).2
  rw [hfold]
  dsimp only
  rw [hnone]
  rfl

/-! ## What archives are filled with -/

variable {tables tables' : List ClassTable} {primary primary' : List (String × Bytes)}
  {libraries libraries' : List (List (String × Bytes))}

theorem mem_register {name : String} :
    name ∈ ((ClassPath.ofSources tables).register primary true).1 ↔
      name ∈ primary.map Prod.fst := by
  have hnone : name ∉ (ClassPath.ofSources tables).registered := ExtTreeSet.not_mem_empty
  rw [ClassPath.register_eq_foldl,
    (ClassPath.mem_registerEntries_iff (s := (∅, ClassPath.ofSources tables)) primary name).1]
  simp [hnone]

theorem mem_classes {name : String} :
    name ∈ classes tables primary ↔ name ∈ primary.map Prod.fst :=
  ExtTreeSet.mem_toList.trans mem_register

theorem classes_eq (tables tables' : List ClassTable) (hl : primary.Perm primary') :
    classes tables primary = classes tables' primary' := by
  refine congrArg ExtTreeSet.toList (ExtTreeSet.ext_mem fun name => ?_)
  rw [mem_register, mem_register, (hl.map Prod.fst).mem_iff]

theorem primary_registerLibraries (p : ClassPath) (libraries : List (List (String × Bytes)))
    (name : String) :
    name ∈ (p.registerAll (libraries.map (·, false))).2.primary ↔ name ∈ p.primary := by
  induction libraries generalizing p with
  | nil => exact Iff.rfl
  | cons entries libraries ih =>
    rw [List.map_cons, ClassPath.registerAll]
    rw [ih, ClassPath.register_eq_foldl,
      (ClassPath.mem_registerEntries_iff (s := (∅, p)) entries name).2]
    simp

theorem mem_primary_filled {name : String} :
    name ∈ (filled tables primary libraries).primary ↔ name ∈ primary.map Prod.fst := by
  have hnone : name ∉ (ClassPath.ofSources tables).registered := ExtTreeSet.not_mem_empty
  have hempty : name ∉ (ClassPath.ofSources tables).primary := ExtTreeSet.not_mem_empty
  rw [filled, archives, ClassPath.registerAll, primary_registerLibraries,
    ClassPath.register_eq_foldl,
    (ClassPath.mem_registerEntries_iff (s := (∅, ClassPath.ofSources tables)) primary name).2]
  simp [hnone, hempty]

theorem holds_filled : ClassPath.Holds tables
    (ClassPath.registrations (archives primary libraries)) (filled tables primary libraries) :=
  (ClassPath.holds_ofSources tables).registerAll (archives primary libraries)

theorem asRead_filled : (filled tables primary libraries).hierarchy.AsRead :=
  ClassPath.asRead_registerAll tables (archives primary libraries)

/-! ## The bytes that count -/

theorem registrations_libraries (libraries : List (List (String × Bytes))) :
    ClassPath.registrations (libraries.map (·, false)) =
      libraries.flatten.map fun e => (e.1, e.2, false) := by
  rw [ClassPath.registrations, List.flatMap_map, List.map_flatten, List.flatMap_def]

theorem find?_registrations (primary : List (String × Bytes))
    (libraries : List (List (String × Bytes))) (name : String) :
    (ClassPath.registrations (archives primary libraries)).find? (·.1 == name) =
      ((primary.find? (·.1 == name)).map fun e => (e.1, e.2, true)).or
        ((libraries.flatten.find? (·.1 == name)).map fun e => (e.1, e.2, false)) := by
  have hcons : ClassPath.registrations (archives primary libraries) =
      (primary.map fun e => (e.1, e.2, true)) ++
        libraries.flatten.map fun e => (e.1, e.2, false) := by
    rw [← registrations_libraries]
    rfl
  rw [hcons, List.find?_append, List.find?_map, List.find?_map]
  rfl

theorem find?_eq_some_iff {entries : List (String × Bytes)} (hn : (entries.map Prod.fst).Nodup)
    {name : String} {e : String × Bytes} :
    entries.find? (·.1 == name) = some e ↔ e ∈ entries ∧ e.1 = name := by
  constructor
  · intro he
    have hname := List.find?_some he
    exact ⟨List.mem_of_find?_eq_some he, beq_iff_eq.mp hname⟩
  · rintro ⟨he, rfl⟩
    cases hf : entries.find? (·.1 == e.1) with
    | none => exact absurd (beq_iff_eq.mpr rfl) (List.find?_eq_none.mp hf e he)
    | some d =>
      have hde := List.find?_some hf
      exact congrArg some (List.inj_on_of_nodup_map hn (List.mem_of_find?_eq_some hf) he
        (beq_iff_eq.mp hde))

/-- In which order names stand that are all different does not matter. -/
theorem find?_eq_of_perm (hl : primary.Perm primary') (hn : (primary.map Prod.fst).Nodup)
    (name : String) : primary.find? (·.1 == name) = primary'.find? (·.1 == name) := by
  refine Option.ext fun e => ?_
  rw [find?_eq_some_iff hn, find?_eq_some_iff ((hl.map Prod.fst).nodup_iff.mp hn), hl.mem_iff]

/-- Only the primary archive makes classes primary. -/
theorem chosen?_of_not_mem {name : String} (hname : name ∉ primary.map Prod.fst) :
    ClassPath.chosen? tables (ClassPath.registrations (archives primary libraries)) name =
      (supplied? tables primary libraries name).map (·, false) := by
  have hnone : primary.find? (·.1 == name) = none := by
    refine List.find?_eq_none.mpr fun e he hen => hname ?_
    exact List.mem_map.mpr ⟨e, he, beq_iff_eq.mp hen⟩
  rw [supplied?, ClassPath.chosen?, find?_registrations, hnone, Option.map_none, Option.none_or]
  cases libraries.flatten.find? (·.1 == name) with
  | some e => rfl
  | none =>
    rw [Option.map_none, Option.map_map, Option.map_map]
    rfl

theorem chosen?_of_mem {name : String} (hl : primary.Perm primary')
    (hn : (primary.map Prod.fst).Nodup) (hname : name ∈ primary.map Prod.fst) :
    ClassPath.chosen? tables (ClassPath.registrations (archives primary libraries)) name =
      ClassPath.chosen? tables' (ClassPath.registrations (archives primary' libraries')) name := by
  obtain ⟨e, he, hen⟩ := List.mem_map.mp hname
  have hfind := (find?_eq_some_iff hn).mpr ⟨he, hen⟩
  rw [ClassPath.chosen?, ClassPath.chosen?, find?_registrations, find?_registrations,
    ← find?_eq_of_perm hl hn, hfind]
  rfl

/-! ## Class paths filled with the same -/

theorem class?_filled_eq {name : String} (hl : primary.Perm primary')
    (hn : (primary.map Prod.fst).Nodup)
    (hs : name ∉ primary.map Prod.fst →
      supplied? tables primary libraries name = supplied? tables' primary' libraries' name) :
    (filled tables primary libraries).hierarchy.class? name =
      (filled tables' primary' libraries').hierarchy.class? name := by
  rw [holds_filled.class?_eq, holds_filled.class?_eq, ClassPath.lookup?, ClassPath.lookup?]
  by_cases hname : name ∈ primary.map Prod.fst
  · rw [chosen?_of_mem hl hn hname]
  · have hname' : name ∉ primary'.map Prod.fst := fun h =>
      hname ((hl.map Prod.fst).mem_iff.mpr h)
    rw [chosen?_of_not_mem hname, chosen?_of_not_mem hname', hs hname]

theorem agree_filled (hl : primary.Perm primary') (hn : (primary.map Prod.fst).Nodup)
    (hs : ∀ name, Reached tables primary libraries name → name ∉ primary.map Prod.fst →
      supplied? tables primary libraries name = supplied? tables' primary' libraries' name) :
    (filled tables primary libraries).Agree (Reached tables primary libraries)
      (filled tables' primary' libraries') := by
  have hclosed : ∀ {a b}, Reached tables primary libraries a →
      (filled tables primary libraries).hierarchy.supertypeGraph.Edge a b →
        Reached tables primary libraries b := by
    rintro a b ⟨root, hroot, hra⟩ hab
    exact ⟨root, hroot, hra.tail hab⟩
  refine { hierarchy := ?_, asked := ?_, within := ?_, primary := ?_ }
  · exact asRead_filled.agree hclosed fun hname => class?_filled_eq hl hn (hs _ hname)
  · refine ExtTreeSet.ext_mem fun name => iff_of_false ?_ ?_
    · exact holds_filled.unasked name
    · exact holds_filled.unasked name
  · exact fun name hname => absurd hname (holds_filled.unasked name)
  · refine ExtTreeSet.ext_mem fun name => ?_
    rw [mem_primary_filled, mem_primary_filled, (hl.map Prod.fst).mem_iff]

/-- What resolving a primary archive comes to is settled by its classes, in
whatever order, and by the bytes that count for the names in their supertype
closure. -/
theorem generate_eq (names : Names) (hl : primary.Perm primary')
    (hn : (primary.map Prod.fst).Nodup)
    (hs : ∀ name, Reached tables primary libraries name → name ∉ primary.map Prod.fst →
      supplied? tables primary libraries name = supplied? tables' primary' libraries' name) :
    generate names tables primary libraries = generate names tables' primary' libraries' := by
  have hstart : (Resolution.start (filled tables primary libraries)).Agree
      (Reached tables primary libraries) (Resolution.start (filled tables' primary' libraries')) :=
    ⟨agree_filled hl hn hs, rfl⟩
  have hclasses : ∀ name ∈ classes tables primary, Reached tables primary libraries name :=
    fun name hname => ⟨name, mem_classes.mp hname, .refl⟩
  have hend := hstart.resolveArchive names hclasses
  unfold generate
  dsimp only
  rw [← classes_eq tables tables' hl, Metadata.collect_eq hend.path hclasses, hend.allFindings_eq]

namespace Sample

open Resolution.Sample (archive base child plain)

/-- A class whose superclass is found nowhere. -/
def orphan : Assembly.Sketch := plain "Orphan" (some "Missing") []

/-- A class that no primary class leads to. -/
def stray : Assembly.Sketch := plain "Stray" (some "Child") []

theorem lineage_child :
    (filled [] (archive [child, orphan]) [archive [base, stray]]).hierarchy.lineage "Child" =
      ["Child", "Base"] := by
  rw [Hierarchy.lineage, Graph.breadthFirst, Graph.visit_eq]
  decide +kernel

theorem lineage_orphan :
    (filled [] (archive [child, orphan]) [archive [base, stray]]).hierarchy.lineage "Orphan" =
      ["Orphan", "Missing"] := by
  rw [Hierarchy.lineage, Graph.breadthFirst, Graph.visit_eq]
  decide +kernel

theorem eq_of_reached {name : String}
    (h : Reached [] (archive [child, orphan]) [archive [base, stray]] name) :
    name ∈ ["Child", "Base", "Orphan", "Missing"] := by
  obtain ⟨root, hroot, hreach⟩ := h
  have hname : name ∈
      (filled [] (archive [child, orphan]) [archive [base, stray]]).hierarchy.lineage root :=
    Graph.mem_breadthFirst_iff.mpr hreach
  have hroots : root = "Child" ∨ root = "Orphan" := by
    simpa [archive, child, orphan, plain] using hroot
  rcases hroots with rfl | rfl
  · rw [lineage_child] at hname
    exact List.mem_append_left _ hname
  · rw [lineage_orphan] at hname
    exact List.mem_append_right ["Child", "Base"] hname

/-- The superclass may come from a library or from a source, and what else there
is does not matter. -/
theorem generate_eq_elsewhere :
    generate .asWritten [] (archive [child, orphan]) [archive [base, stray]] =
      generate .asWritten [.ofList (archive [base])] (archive [orphan, child]) [] := by
  refine generate_eq .asWritten (.swap _ _ _) (by decide +kernel) fun name hname _ => ?_
  have hmem := eq_of_reached hname
  simp only [List.mem_cons, List.not_mem_nil, or_false] at hmem
  rcases hmem with rfl | rfl | rfl | rfl <;> decide +kernel

end Sample

end Generation
end Lineage
