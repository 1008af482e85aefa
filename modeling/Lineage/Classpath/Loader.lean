import Lineage.Classpath.Basic
import Lineage.Graph.Queue

/-!
Loading classes when they are asked for.

A loader reads a class the first time it is asked for it and remembers what came
of that.  The bytes from an archive are handed out once, and no source is asked
twice for a name, so it does not matter what it would answer then.
-/

namespace Lineage

open Std (ExtTreeMap ExtTreeSet)

/-- A source behind the archives: what it answers the first time that it is
asked for a name, and what it answers after that name has been asked for some
more times. -/
structure Source where
  table : ClassTable
  again : (name : String) → (times : Nat) → Option Bytes

def Source.answer (s : Source) (asked : List String) (name : String) : Option Bytes :=
  match asked.count name with
  | 0 => s.table.find? name
  | times + 1 => s.again name times

structure Loader where
  records : ExtTreeMap String ClassNode
  missing : ExtTreeSet String
  /-- Bytes that have been registered and not been handed out yet. -/
  pending : ClassTable
  registered : ExtTreeSet String
  primary : ExtTreeSet String
  /-- The sources in order, each with the names that it has been asked for. -/
  runtime : List (Source × List String)

namespace Loader

def ofSources (sources : List Source) : Loader :=
  { records := ∅, missing := ∅, pending := .empty, registered := ∅, primary := ∅
    runtime := sources.map fun s => (s, []) }

/-! ## Registering archives -/

def add (l : Loader) (name : String) (bytes : Bytes) (isPrimary : Bool) : Loader :=
  { l with
    registered := l.registered.insert name
    primary := if isPrimary then l.primary.insert name else l.primary
    pending := l.pending.insert name bytes }

/-- Register the entries of an archive, and answer the names that are new. -/
def register (l : Loader) (entries : List (String × Bytes)) (isPrimary : Bool) :
    ExtTreeSet String × Loader :=
  entries.foldl
    (fun (added, l) e =>
      if e.1 ∈ l.registered then (added, l)
      else (added.insert e.1, l.add e.1 e.2 isPrimary))
    (∅, l)

/-! ## Reading a class -/

/-- Ask the sources in turn, until one has the name. -/
def askSources (name : String) :
    List (Source × List String) → Option Bytes × List (Source × List String)
  | [] => (none, [])
  | (s, asked) :: rest =>
    match s.answer asked name with
    | some bytes => (some bytes, (s, name :: asked) :: rest)
    | none => ((askSources name rest).1, (s, name :: asked) :: (askSources name rest).2)

/-- The bytes for a name, from the archives or else from the sources. -/
def fetch (l : Loader) (name : String) : Option Bytes × Loader :=
  match l.pending.take name with
  | (some bytes, pending) => (some bytes, { l with pending })
  | (none, _) =>
    ((askSources name l.runtime).1, { l with runtime := (askSources name l.runtime).2 })

/-- Note what came of reading a class. -/
def note (l : Loader) (name : String) : Option ClassNode → Loader
  | some c => { l with records := l.records.insert name c }
  | none => { l with missing := l.missing.insert name }

def ensureLoaded (l : Loader) (name : String) : Loader :=
  if name ∈ l.records ∨ name ∈ l.missing then l
  else
    (l.fetch name).2.note name
      ((l.fetch name).1.bind fun bytes => ClassNode.ofBytes? name bytes (l.primary.contains name))

def get? (l : Loader) (name : String) : Option ClassNode × Loader :=
  ((l.ensureLoaded name).records[name]?, l.ensureLoaded name)

def update (l : Loader) (name : String) (f : ClassNode → ClassNode) : Loader :=
  { l.ensureLoaded name with records := (l.ensureLoaded name).records.modify name f }

/-! ## What there is to be read -/

/-- The bytes that a name would be read from. -/
def bytes? (l : Loader) (name : String) : Option Bytes :=
  (l.pending.find? name).or (l.runtime.findSome? fun s => s.1.answer s.2 name)

/-- The class that asking for a name would give. -/
def class? (l : Loader) (name : String) : Option ClassNode :=
  match l.records[name]? with
  | some c => some c
  | none =>
    if name ∈ l.missing then none
    else (l.bytes? name).bind fun bytes =>
      ClassNode.ofBytes? name bytes (l.primary.contains name)

theorem mem_keys_of_find? {t : ClassTable} {name : String} {bytes : Bytes}
    (h : t.find? name = some bytes) : name ∈ t.entries.keys := by
  rw [ExtTreeMap.mem_keys, ExtTreeMap.mem_iff_isSome_getElem?]
  exact Option.isSome_iff_exists.mpr ⟨bytes, h⟩

/-- A source has classes for the names in its table, and may have some for names
that it has been asked for. -/
theorem mem_of_answer {s : Source} {asked : List String} {name : String} {bytes : Bytes}
    (h : s.answer asked name = some bytes) : name ∈ s.table.entries.keys ++ asked := by
  rw [Source.answer] at h
  split at h
  · exact List.mem_append_left _ (mem_keys_of_find? h)
  · next hcount =>
    refine List.mem_append_right _ (List.count_pos_iff.mp ?_)
    omega

/-- The supertype relation over all classes that there are to be read. -/
def supertypeGraph (l : Loader) : Graph String where
  next name := (l.class? name).map ClassNode.supertypes
  finite := by
    refine ⟨l.records.keys ++ l.pending.entries.keys ++
      l.runtime.flatMap (fun s => s.1.table.entries.keys ++ s.2), fun name h => ?_⟩
    rw [Option.isSome_map, class?] at h
    split at h
    · next c hc =>
      refine List.mem_append_left _ (List.mem_append_left _ ?_)
      rw [ExtTreeMap.mem_keys, ExtTreeMap.mem_iff_isSome_getElem?, hc]
      rfl
    · split at h
      · cases h
      · obtain ⟨c, hc⟩ := Option.isSome_iff_exists.mp h
        obtain ⟨bytes, hb, _⟩ := Option.bind_eq_some_iff.mp hc
        rcases Option.or_eq_some_iff.mp hb with hb | ⟨_, hb⟩
        · exact List.mem_append_left _ (List.mem_append_right _ (mem_keys_of_find? hb))
        · obtain ⟨s, hs, hb⟩ := List.exists_of_findSome?_eq_some hb
          exact List.mem_append_right _ (List.mem_flatMap.mpr ⟨s, hs, mem_of_answer hb⟩)

/-! ## Asking changes nothing about what there is -/

theorem answer_cons_of_ne {s : Source} {asked : List String} {name other : String}
    (h : name ≠ other) : s.answer (name :: asked) other = s.answer asked other := by
  rw [Source.answer, Source.answer, List.count_cons_of_ne h]

theorem askSources_fst (name : String) (runtime : List (Source × List String)) :
    (askSources name runtime).1 = runtime.findSome? fun s => s.1.answer s.2 name := by
  induction runtime with
  | nil => rfl
  | cons s rest ih =>
    rw [askSources, List.findSome?_cons]
    cases s.1.answer s.2 name with
    | some bytes => rfl
    | none => exact ih

theorem findSome?_askSources {name other : String} (h : name ≠ other)
    (runtime : List (Source × List String)) :
    ((askSources name runtime).2.findSome? fun s => s.1.answer s.2 other) =
      runtime.findSome? fun s => s.1.answer s.2 other := by
  induction runtime with
  | nil => rfl
  | cons s rest ih =>
    rw [askSources]
    cases s.1.answer s.2 name with
    | some bytes => simp only [List.findSome?_cons, answer_cons_of_ne h]
    | none => simp only [List.findSome?_cons, answer_cons_of_ne h, ih]

@[simp]
theorem fetch_fst (l : Loader) (name : String) : (l.fetch name).1 = l.bytes? name := by
  rw [fetch, bytes?, ClassTable.take]
  cases l.pending.find? name with
  | some bytes => rfl
  | none => exact askSources_fst name l.runtime

theorem bytes?_fetch_of_ne {name other : String} (h : name ≠ other) (l : Loader) :
    (l.fetch name).2.bytes? other = l.bytes? other := by
  have htake := l.pending.find?_take name other
  rw [if_neg h] at htake
  rw [fetch]
  split
  · next bytes pending hp =>
    rw [hp] at htake
    rw [bytes?, bytes?, htake]
  · rw [bytes?, bytes?, findSome?_askSources h]

@[simp]
theorem records_fetch (l : Loader) (name : String) : (l.fetch name).2.records = l.records := by
  rw [fetch]
  split <;> rfl

@[simp]
theorem missing_fetch (l : Loader) (name : String) : (l.fetch name).2.missing = l.missing := by
  rw [fetch]
  split <;> rfl

@[simp]
theorem primary_fetch (l : Loader) (name : String) : (l.fetch name).2.primary = l.primary := by
  rw [fetch]
  split <;> rfl

@[simp]
theorem registered_fetch (l : Loader) (name : String) :
    (l.fetch name).2.registered = l.registered := by
  rw [fetch]
  split <;> rfl

theorem getElem?_records_note (l : Loader) (name other : String) (c : Option ClassNode) :
    (l.note name c).records[other]? =
      if name = other then c.or l.records[other]? else l.records[other]? := by
  cases c with
  | none =>
    rw [Option.none_or, ite_self]
    rfl
  | some c =>
    simp only [note, ExtTreeMap.getElem?_insert, Std.LawfulEqOrd.compare_eq_iff_eq,
      Option.some_or]

@[simp]
theorem mem_missing_note (l : Loader) (name other : String) (c : Option ClassNode) :
    other ∈ (l.note name c).missing ↔ c = none ∧ name = other ∨ other ∈ l.missing := by
  cases c with
  | none => simp [note, ExtTreeSet.mem_insert]
  | some c => simp [note]

theorem class?_of_new {l : Loader} {name : String} (hr : name ∉ l.records)
    (hm : name ∉ l.missing) : l.class? name = (l.bytes? name).bind fun bytes =>
      ClassNode.ofBytes? name bytes (l.primary.contains name) := by
  rw [class?, ExtTreeMap.getElem?_eq_none hr, if_neg hm]

theorem ensureLoaded_of_new {l : Loader} {name : String} (hr : name ∉ l.records)
    (hm : name ∉ l.missing) :
    l.ensureLoaded name = (l.fetch name).2.note name (l.class? name) := by
  rw [ensureLoaded, if_neg (not_or.mpr ⟨hr, hm⟩), fetch_fst, class?_of_new hr hm]

@[simp]
theorem bytes?_note (l : Loader) (name : String) (c : Option ClassNode) :
    (l.note name c).bytes? = l.bytes? := by
  cases c <;> rfl

@[simp]
theorem primary_note (l : Loader) (name : String) (c : Option ClassNode) :
    (l.note name c).primary = l.primary := by
  cases c <;> rfl

@[simp]
theorem registered_note (l : Loader) (name : String) (c : Option ClassNode) :
    (l.note name c).registered = l.registered := by
  cases c <;> rfl

@[simp]
theorem class?_ensureLoaded (l : Loader) (name other : String) :
    (l.ensureLoaded name).class? other = l.class? other := by
  by_cases hold : name ∈ l.records ∨ name ∈ l.missing
  · rw [ensureLoaded, if_pos hold]
  · obtain ⟨hr, hm⟩ := not_or.mp hold
    rw [ensureLoaded_of_new hr hm]
    by_cases hn : name = other
    · subst hn
      rw [class?, getElem?_records_note, if_pos rfl, records_fetch, ExtTreeMap.getElem?_eq_none hr,
        Option.or_none]
      cases hc : l.class? name with
      | some c => rfl
      | none => simp
    · generalize l.class? name = c
      simp [class?, getElem?_records_note, hn, bytes?_fetch_of_ne hn]

@[simp]
theorem supertypeGraph_ensureLoaded (l : Loader) (name : String) :
    (l.ensureLoaded name).supertypeGraph = l.supertypeGraph := by
  simp only [supertypeGraph, class?_ensureLoaded]

@[simp]
theorem get?_fst (l : Loader) (name : String) : (l.get? name).1 = l.class? name := by
  show (l.ensureLoaded name).records[name]? = l.class? name
  by_cases hr : name ∈ l.records
  · rw [ensureLoaded, if_pos (Or.inl hr), class?]
    obtain ⟨c, hc⟩ := Option.isSome_iff_exists.mp (ExtTreeMap.mem_iff_isSome_getElem?.mp hr)
    rw [hc]
  · by_cases hm : name ∈ l.missing
    · rw [ensureLoaded, if_pos (Or.inr hm), class?, ExtTreeMap.getElem?_eq_none hr, if_pos hm]
    · rw [ensureLoaded_of_new hr hm, getElem?_records_note, if_pos rfl, records_fetch,
        ExtTreeMap.getElem?_eq_none hr, Option.or_none]

/-! ## Looking for a supertype

Both walks over supertypes take a name from a queue and put its supertypes there.
Each time there is less that they can still come to. -/

theorem expansions_of_missing {l : Loader} {name : String} (h : (l.get? name).1 = none)
    (rest known : List String) :
    Prod.Lex (· < ·) (· < ·)
      ((l.get? name).2.supertypeGraph.expansions rest known, rest.length)
      (l.supertypeGraph.expansions (name :: rest) known, (name :: rest).length) := by
  have hnext : l.supertypeGraph.next name = none := by
    rw [get?_fst] at h
    exact congrArg (Option.map ClassNode.supertypes) h
  rw [get?, supertypeGraph_ensureLoaded, Graph.expansions_cons_of_none hnext]
  exact Prod.Lex.right _ (Nat.lt_succ_self _)

theorem expansions_of_class {l : Loader} {name : String} {c : ClassNode}
    (h : (l.get? name).1 = some c) (rest known : List String) :
    let queue := Graph.enqueue c.supertypes rest known
    Prod.Lex (· < ·) (· < ·)
      ((l.get? name).2.supertypeGraph.expansions queue.1 queue.2, queue.1.length)
      (l.supertypeGraph.expansions (name :: rest) known, (name :: rest).length) := by
  have hnext : l.supertypeGraph.next name = some c.supertypes := by
    rw [get?_fst] at h
    exact congrArg (Option.map ClassNode.supertypes) h
  rw [get?, supertypeGraph_ensureLoaded, Graph.expansions_cons_of_some hnext]
  exact Prod.Lex.left _ _ (Nat.lt_succ_of_le (l.supertypeGraph.expansions_enqueue_le _ _ _))

/-- Whether `target` is met from `waiting` on, nearest names first, where the names
in `known` wait or have been met before.  Names are asked for as they are met,
until `target` is. -/
def search (l : Loader) (target : String) (waiting known : List String) : Bool × Loader :=
  match waiting with
  | [] => (false, l)
  | name :: rest =>
    if name = target then (true, l)
    else
      match _hc : (l.get? name).1 with
      | none => (l.get? name).2.search target rest known
      | some c =>
        let queue := Graph.enqueue c.supertypes rest known
        (l.get? name).2.search target queue.1 queue.2
  termination_by (l.supertypeGraph.expansions waiting known, waiting.length)
  decreasing_by
    · exact expansions_of_missing _hc rest known
    · exact expansions_of_class _hc rest known

/-- `target` can be reached from `name`. -/
def isInstance (l : Loader) (name target : String) : Bool × Loader :=
  if name = target then (true, l) else l.search target [name] [name]

/-! ## Listing all supertypes -/

/-- The classes that are met from `waiting` on, nearest first, where the names in
`known` wait or have been met before.  Names are asked for as they are met. -/
def climb (l : Loader) (waiting known : List String) : List String × Loader :=
  match waiting with
  | [] => ([], l)
  | name :: rest =>
    match _hc : (l.get? name).1 with
    | none => (l.get? name).2.climb rest known
    | some c =>
      let queue := Graph.enqueue c.supertypes rest known
      let above := (l.get? name).2.climb queue.1 queue.2
      (name :: above.1, above.2)
  termination_by (l.supertypeGraph.expansions waiting known, waiting.length)
  decreasing_by
    · exact expansions_of_missing _hc rest known
    · exact expansions_of_class _hc rest known

/-- The class under a name and all classes that can be reached from it. -/
def ancestors (l : Loader) (name : String) : List String × Loader := l.climb [name] [name]

end Loader
end Lineage
