import Mathlib.Tactic.Tauto
import Lineage.Proofs.Classpath.Requests
import Lineage.Proofs.Tables

/-!
Which bytes count for a name.

Of all archives that are registered the first entry under a name counts, and if
there is none, the first source that has the name.  Nothing else is tried when
the bytes turn out to be no class of that name.
-/

namespace Lineage

open Std (ExtTreeMap ExtTreeSet)

namespace ClassTable

@[simp]
theorem find?_orElse (t u : ClassTable) (name : String) :
    (t.orElse u).find? name = (t.find? name).or (u.find? name) := by
  have horElse : (t.orElse u).entries = u.entries.insertMany t.entries.toList := by
    rw [orElse, ExtTreeMap.foldl_eq_foldl_toList, Tables.foldl_insert_eq_insertMany]
  unfold find?
  rw [horElse, Tables.getElem?_insertMany_toList]

theorem find?_foldl_orElse (tables : List ClassTable) (t : ClassTable) (name : String) :
    (tables.foldl orElse t).find? name =
      (t.find? name).or (tables.findSome? fun t => t.find? name) := by
  induction tables generalizing t with
  | nil => simp
  | cons u tables ih =>
    rw [List.foldl_cons, ih, find?_orElse, Option.or_assoc, List.findSome?_cons]
    cases u.find? name <;> rfl

end ClassTable

/-- The entries of an archive, and whether it is a primary one. -/
abbrev Entries := List (String × Bytes) × Bool

namespace ClassPath

/-- All entries of some archives in order, each with what its archive is. -/
def registrations (archives : List Entries) : List (String × Bytes × Bool) :=
  archives.flatMap fun a => a.1.map fun e => (e.1, e.2, a.2)

/-- The bytes that count for a name, and whether a primary archive has them. -/
def chosen? (tables : List ClassTable) (entries : List (String × Bytes × Bool)) (name : String) :
    Option (Bytes × Bool) :=
  match entries.find? (·.1 == name) with
  | some e => some e.2
  | none => (tables.findSome? fun t => t.find? name).map fun bytes => (bytes, false)

/-- The class under a name, read from the bytes that count. -/
def lookup? (tables : List ClassTable) (entries : List (String × Bytes × Bool)) (name : String) :
    Option ClassNode :=
  (chosen? tables entries name).bind fun b => ClassNode.ofBytes? name b.1 b.2

theorem registrations_append (archives more : List Entries) :
    registrations (archives ++ more) = registrations archives ++ registrations more :=
  List.flatMap_append

/-- Register some archives one after the other, and answer what each adds. -/
def registerAll (p : ClassPath) : List Entries → List (ExtTreeSet String) × ClassPath
  | [] => ([], p)
  | a :: archives =>
    ((p.register a.1 a.2).1 :: ((p.register a.1 a.2).2.registerAll archives).1,
      ((p.register a.1 a.2).2.registerAll archives).2)

/-! ## One entry after the other -/

/-- A class path where `entries` have been registered and nothing has been asked
for. -/
structure Holds (tables : List ClassTable) (entries : List (String × Bytes × Bool))
    (p : ClassPath) : Prop where
  unasked : ∀ name, name ∉ p.asked
  mem_registered : ∀ name, name ∈ p.registered ↔ ∃ e ∈ entries, e.1 = name
  class?_eq : ∀ name, p.hierarchy.class? name = lookup? tables entries name

theorem holds_ofSources (tables : List ClassTable) : Holds tables [] (ofSources tables) where
  unasked name := ExtTreeSet.not_mem_empty
  mem_registered name := by simp [ofSources]
  class?_eq name := by
    have hfind := ClassTable.find?_foldl_orElse tables .empty name
    rw [ClassTable.find?_empty, Option.none_or, ClassTable.find?] at hfind
    simp only [ofSources, hierarchyOf, Hierarchy.class?, ExtTreeMap.getElem?_filterMap', hfind,
      lookup?, chosen?, List.find?_nil, Option.bind_map]
    rfl

theorem lookup?_append_of_mem {tables : List ClassTable} {entries : List (String × Bytes × Bool)}
    {e : String × Bytes × Bool} (he : ∃ d ∈ entries, d.1 = e.1) (name : String) :
    lookup? tables (entries ++ [e]) name = lookup? tables entries name := by
  have hfind : (entries ++ [e]).find? (·.1 == name) = entries.find? (·.1 == name) := by
    rw [List.find?_append]
    cases hf : entries.find? (·.1 == name) with
    | some d => rfl
    | none =>
      have hne : (e.1 == name) = false := by
        obtain ⟨d, hd, hde⟩ := he
        have hdn := List.find?_eq_none.mp hf d hd
        rw [hde] at hdn
        exact Bool.eq_false_iff.mpr hdn
      rw [List.find?_cons, hne, List.find?_nil, Option.or_none]
  rw [lookup?, lookup?, chosen?, chosen?, hfind]

/-- Entries of other names do not count. -/
theorem lookup?_append_of_forall_ne {tables : List ClassTable}
    {entries : List (String × Bytes × Bool)} {name : String} (h : ∀ e ∈ entries, e.1 ≠ name)
    (more : List (String × Bytes × Bool)) :
    lookup? tables (entries ++ more) name = lookup? tables more name := by
  have hnone : entries.find? (·.1 == name) = none :=
    List.find?_eq_none.mpr fun e he heq => h e he (beq_iff_eq.mp heq)
  rw [lookup?, lookup?, chosen?, chosen?, List.find?_append, hnone, Option.none_or]

theorem lookup?_cons_self (tables : List ClassTable) (name : String) (b : Bytes × Bool)
    (more : List (String × Bytes × Bool)) :
    lookup? tables ((name, b) :: more) name = ClassNode.ofBytes? name b.1 b.2 := by
  rw [lookup?, chosen?, List.find?_cons, beq_self_eq_true]
  rfl

theorem lookup?_append_of_not_mem {tables : List ClassTable}
    {entries : List (String × Bytes × Bool)} {e : String × Bytes × Bool}
    (he : ¬ ∃ d ∈ entries, d.1 = e.1) (name : String) :
    lookup? tables (entries ++ [e]) name =
      if e.1 = name then ClassNode.ofBytes? e.1 e.2.1 e.2.2 else lookup? tables entries name := by
  by_cases hn : e.1 = name
  · have hne : ∀ d ∈ entries, d.1 ≠ name := fun d hd hdn => he ⟨d, hd, hdn.trans hn.symm⟩
    rw [if_pos hn, lookup?_append_of_forall_ne hne, ← hn]
    exact lookup?_cons_self tables e.1 e.2 []
  · have hfind : (entries ++ [e]).find? (·.1 == name) = entries.find? (·.1 == name) := by
      rw [List.find?_append, List.find?_cons, beq_eq_false_iff_ne.mpr hn, List.find?_nil,
        Option.or_none]
    rw [if_neg hn, lookup?, lookup?, chosen?, chosen?, hfind]

theorem Holds.skip {tables : List ClassTable} {entries : List (String × Bytes × Bool)}
    {p : ClassPath} (h : Holds tables entries p) {e : String × Bytes × Bool}
    (he : e.1 ∈ p.registered) : Holds tables (entries ++ [e]) p where
  unasked := h.unasked
  mem_registered name := by
    rw [h.mem_registered]
    constructor
    · rintro ⟨d, hd, hdn⟩
      exact ⟨d, List.mem_append_left _ hd, hdn⟩
    · rintro ⟨d, hd, rfl⟩
      rcases List.mem_append.mp hd with hd | hd
      · exact ⟨d, hd, rfl⟩
      · rw [List.mem_singleton.mp hd]
        exact (h.mem_registered e.1).mp he
  class?_eq name := by
    rw [h.class?_eq, lookup?_append_of_mem ((h.mem_registered e.1).mp he)]

theorem Holds.add {tables : List ClassTable} {entries : List (String × Bytes × Bool)}
    {p : ClassPath} (h : Holds tables entries p) {e : String × Bytes × Bool}
    (he : e.1 ∉ p.registered) : Holds tables (entries ++ [e]) (p.add e.1 e.2.1 e.2.2) where
  unasked := h.unasked
  mem_registered name := by
    show name ∈ p.registered.insert e.1 ↔ _
    rw [ExtTreeSet.mem_insert, h.mem_registered, Std.LawfulEqOrd.compare_eq_iff_eq]
    constructor
    · rintro (hn | ⟨d, hd, hdn⟩)
      · exact ⟨e, List.mem_append_right _ List.mem_cons_self, hn⟩
      · exact ⟨d, List.mem_append_left _ hd, hdn⟩
    · rintro ⟨d, hd, hdn⟩
      rcases List.mem_append.mp hd with hd | hd
      · exact Or.inr ⟨d, hd, hdn⟩
      · rw [List.mem_singleton.mp hd] at hdn
        exact Or.inl hdn
  class?_eq name := by
    have hnew : ¬ ∃ d ∈ entries, d.1 = e.1 := fun hd => he ((h.mem_registered e.1).mpr hd)
    rw [class?_add, lookup?_append_of_not_mem hnew, h.class?_eq]
    simp only [h.unasked e.1, not_false_eq_true, and_true]

/-! ## Whole archives -/

/-- What is done with one entry of an archive. -/
def registerEntry (isPrimary : Bool) (s : ExtTreeSet String × ClassPath) (e : String × Bytes) :
    ExtTreeSet String × ClassPath :=
  if e.1 ∈ s.2.registered then s else (s.1.insert e.1, s.2.add e.1 e.2 isPrimary)

theorem register_eq_foldl (p : ClassPath) (entries : List (String × Bytes)) (isPrimary : Bool) :
    p.register entries isPrimary = entries.foldl (registerEntry isPrimary) (∅, p) := rfl

theorem Holds.registerEntries {tables : List ClassTable} {done : List (String × Bytes × Bool)}
    {s : ExtTreeSet String × ClassPath} (h : Holds tables done s.2) (isPrimary : Bool)
    (entries : List (String × Bytes)) :
    Holds tables (done ++ entries.map fun e => (e.1, e.2, isPrimary))
      (entries.foldl (registerEntry isPrimary) s).2 := by
  induction entries generalizing done s with
  | nil => rwa [List.map_nil, List.append_nil]
  | cons e entries ih =>
    rw [List.foldl_cons, List.map_cons, ← List.singleton_append, ← List.append_assoc]
    refine ih ?_
    by_cases he : e.1 ∈ s.2.registered
    · rw [registerEntry, if_pos he]
      exact h.skip he
    · rw [registerEntry, if_neg he]
      exact h.add he

theorem Holds.registerAll {tables : List ClassTable} {done : List (String × Bytes × Bool)}
    {p : ClassPath} (h : Holds tables done p) (archives : List Entries) :
    Holds tables (done ++ registrations archives) (p.registerAll archives).2 := by
  induction archives generalizing done p with
  | nil =>
    rw [registrations, List.flatMap_nil, List.append_nil]
    exact h
  | cons a archives ih =>
    rw [registrations, List.flatMap_cons, ← List.append_assoc]
    exact ih (h.registerEntries a.2 a.1)

/-- The class under a name is read from the bytes that count for it. -/
theorem class?_registerAll (tables : List ClassTable) (archives : List Entries) (name : String) :
    ((ofSources tables).registerAll archives).2.hierarchy.class? name =
      lookup? tables (registrations archives) name := by
  have h := (holds_ofSources tables).registerAll archives
  rw [List.nil_append] at h
  exact h.class?_eq name

theorem asRead_registerAll (tables : List ClassTable) (archives : List Entries) :
    ((ofSources tables).registerAll archives).2.hierarchy.AsRead := by
  intro name c hc
  rw [class?_registerAll, lookup?] at hc
  obtain ⟨b, _, hb⟩ := Option.bind_eq_some_iff.mp hc
  exact ⟨b.1, b.2, hb⟩

/-! ## What an archive adds -/

theorem mem_registerEntries {isPrimary : Bool} {s : ExtTreeSet String × ClassPath}
    {entries : List (String × Bytes)} {name : String}
    (h : name ∈ (entries.foldl (registerEntry isPrimary) s).1) :
    name ∈ s.1 ∨ name ∉ s.2.registered := by
  induction entries generalizing s with
  | nil => exact Or.inl h
  | cons e entries ih =>
    rw [List.foldl_cons] at h
    by_cases he : e.1 ∈ s.2.registered
    · rw [registerEntry, if_pos he] at h
      exact ih h
    · rw [registerEntry, if_neg he] at h
      rcases ih h with h | h
      · rcases ExtTreeSet.mem_insert.mp h with hn | hn
        · rw [Std.LawfulEqOrd.eq_of_compare hn] at he
          exact Or.inr he
        · exact Or.inl hn
      · exact Or.inr fun hn => h (ExtTreeSet.mem_insert.mpr (Or.inr hn))

theorem registered_of_mem_registerEntries {isPrimary : Bool} {s : ExtTreeSet String × ClassPath}
    (hs : ∀ name ∈ s.1, name ∈ s.2.registered) (entries : List (String × Bytes)) :
    (∀ name ∈ (entries.foldl (registerEntry isPrimary) s).1,
      name ∈ (entries.foldl (registerEntry isPrimary) s).2.registered) ∧
    ∀ name ∈ s.2.registered, name ∈ (entries.foldl (registerEntry isPrimary) s).2.registered := by
  induction entries generalizing s with
  | nil => exact ⟨hs, fun _ h => h⟩
  | cons e entries ih =>
    rw [List.foldl_cons]
    by_cases he : e.1 ∈ s.2.registered
    · rw [registerEntry, if_pos he]
      exact ih hs
    · rw [registerEntry, if_neg he]
      have hgrown : ∀ name ∈ s.2.registered, name ∈ (s.2.add e.1 e.2 isPrimary).registered :=
        fun name hn => ExtTreeSet.mem_insert.mpr (Or.inr hn)
      have hboth := @ih (s.1.insert e.1, s.2.add e.1 e.2 isPrimary) fun name hn => by
        rcases ExtTreeSet.mem_insert.mp hn with hn | hn
        · exact ExtTreeSet.mem_insert.mpr (Or.inl hn)
        · exact hgrown name (hs name hn)
      exact ⟨hboth.1, fun name hn => hboth.2 name (hgrown name hn)⟩

/-- An archive adds the names that are new, and if it is a primary one these
become primary. -/
theorem mem_registerEntries_iff {isPrimary : Bool} {s : ExtTreeSet String × ClassPath}
    (entries : List (String × Bytes)) (name : String) :
    (name ∈ (entries.foldl (registerEntry isPrimary) s).1 ↔
      name ∈ s.1 ∨ name ∉ s.2.registered ∧ name ∈ entries.map Prod.fst) ∧
    (name ∈ (entries.foldl (registerEntry isPrimary) s).2.primary ↔
      name ∈ s.2.primary ∨
        isPrimary ∧ name ∉ s.2.registered ∧ name ∈ entries.map Prod.fst) := by
  induction entries generalizing s with
  | nil => simp
  | cons e entries ih =>
    rw [List.foldl_cons]
    by_cases he : e.1 ∈ s.2.registered
    · rw [registerEntry, if_pos he, ih.1, ih.2, List.map_cons, List.mem_cons]
      have hnew : name ∉ s.2.registered → name ≠ e.1 := fun hn h => hn (h ▸ he)
      tauto
    · rw [registerEntry, if_neg he, ih.1, ih.2, List.map_cons, List.mem_cons]
      have hregistered : name ∈ (s.2.add e.1 e.2 isPrimary).registered ↔
          e.1 = name ∨ name ∈ s.2.registered := by
        show name ∈ s.2.registered.insert e.1 ↔ _
        rw [ExtTreeSet.mem_insert, Std.LawfulEqOrd.compare_eq_iff_eq]
      have hprimary : name ∈ (s.2.add e.1 e.2 isPrimary).primary ↔
          isPrimary ∧ e.1 = name ∨ name ∈ s.2.primary := by
        cases isPrimary with
        | false => simp [add]
        | true =>
          show name ∈ s.2.primary.insert e.1 ↔ _
          simp [ExtTreeSet.mem_insert]
      rw [ExtTreeSet.mem_insert, Std.LawfulEqOrd.compare_eq_iff_eq, hregistered, hprimary]
      have hnew : e.1 = name → name ∉ s.2.registered := fun h hn => he (h ▸ hn)
      tauto

theorem not_mem_registered_of_mem_registerAll {p : ClassPath} {archives : List Entries}
    {added : ExtTreeSet String compare} (ha : added ∈ (p.registerAll archives).1) {name : String}
    (hn : name ∈ added) : name ∉ p.registered := by
  induction archives generalizing p with
  | nil => cases ha
  | cons a archives ih =>
    rcases List.mem_cons.mp ha with rfl | ha
    · rw [register_eq_foldl] at hn
      rcases mem_registerEntries hn with hn | hn
      · exact absurd hn ExtTreeSet.not_mem_empty
      · exact hn
    · intro hp
      refine ih ha ?_
      exact (registered_of_mem_registerEntries (s := (∅, p))
        (fun _ h => absurd h ExtTreeSet.not_mem_empty) a.1).2 name hp

/-- No name is added twice. -/
theorem pairwise_disjoint_registerAll (p : ClassPath) (archives : List Entries) :
    (p.registerAll archives).1.Pairwise fun s t => ∀ name ∈ s, name ∉ t := by
  induction archives generalizing p with
  | nil => exact .nil
  | cons a archives ih =>
    refine List.pairwise_cons.mpr ⟨fun t ht name hs hn => ?_, ih _⟩
    refine not_mem_registered_of_mem_registerAll ht hn ?_
    exact (registered_of_mem_registerEntries (s := (∅, p))
      (fun _ h => absurd h ExtTreeSet.not_mem_empty) a.1).1 name hs

end ClassPath
end Lineage
