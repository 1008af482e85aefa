import Mathlib.Tactic.Tauto
import Lineage.Classpath.Loader
import Lineage.Proofs.Classpath.Choice

/-!
A loader answers as if it had read every class at once.

It mirrors a class path: what either has to answer for a name is the same, and
the names that the class path has been asked for are those that the loader has a
record of or knows to be missing.  Every use of the two keeps it so.
-/

namespace Lineage

open Std (ExtTreeMap ExtTreeSet)

/-! ## Lookups -/

inductive Lookup where
  | get (name : String)
  | update (name : String) (f : ClassNode → ClassNode)
  | isInstance (name target : String)

inductive Answer where
  | record (c : Option ClassNode)
  | verdict (b : Bool)

namespace Lookup

/-- What a lookup changes about the class under a name. -/
def change (name : String) : Lookup → ClassNode → ClassNode
  | update other f => if other = name then f else id
  | _ => id

/-- What some lookups change about the class under a name. -/
def changes (lookups : List Lookup) (name : String) (c : ClassNode) : ClassNode :=
  lookups.foldl (fun c q => q.change name c) c

end Lookup

namespace ClassPath

def look (p : ClassPath) : Lookup → Answer × ClassPath
  | .get name => (.record (p.get? name).1, (p.get? name).2)
  | .update name f => (.record ((p.update name f).hierarchy.class? name), p.update name f)
  | .isInstance name target => (.verdict (p.isInstance name target).1, (p.isInstance name target).2)

def lookAll (p : ClassPath) : List Lookup → List Answer × ClassPath
  | [] => ([], p)
  | q :: lookups =>
    ((p.look q).1 :: ((p.look q).2.lookAll lookups).1, ((p.look q).2.lookAll lookups).2)

/-- Lookups change no class but by what they are told to. -/
theorem class?_lookAll (p : ClassPath) (lookups : List Lookup) (name : String) :
    (p.lookAll lookups).2.hierarchy.class? name =
      (p.hierarchy.class? name).map (Lookup.changes lookups name) := by
  induction lookups generalizing p with
  | nil => exact (Option.map_id' (x := p.hierarchy.class? name)).symm
  | cons q lookups ih =>
    have hq : (p.look q).2.hierarchy.class? name =
        (p.hierarchy.class? name).map (q.change name) := by
      cases q with
      | get other => exact (Option.map_id' (x := p.hierarchy.class? name)).symm
      | isInstance other target =>
        rw [look, isInstance]
        split
        · exact (Option.map_id' (x := p.hierarchy.class? name)).symm
        · exact (Option.map_id' (x := p.hierarchy.class? name)).symm
      | update other f =>
        show (p.hierarchy.modifyClass other f).class? name = _
        rw [Hierarchy.class?_modifyClass, Lookup.change]
        split
        · rfl
        · exact (Option.map_id' (x := p.hierarchy.class? name)).symm
    rw [lookAll, ih, hq, Option.map_map]
    rfl

theorem mem_asked_look {p : ClassPath} {name : String} (h : name ∈ p.asked) (q : Lookup) :
    name ∈ (p.look q).2.asked := by
  cases q with
  | get other => exact mem_asked_ask.mpr (Or.inl h)
  | update other f => exact mem_asked_ask.mpr (Or.inl h)
  | isInstance other target =>
    rw [look, isInstance]
    split
    · exact h
    · exact mem_asked_ask.mpr (Or.inl h)

theorem mem_asked_lookAll {p : ClassPath} {name : String} (h : name ∈ p.asked)
    (lookups : List Lookup) : name ∈ (p.lookAll lookups).2.asked := by
  induction lookups generalizing p with
  | nil => exact h
  | cons q lookups ih => exact ih (mem_asked_look h q)

end ClassPath

namespace Loader

def registerAll (l : Loader) : List Entries → List (ExtTreeSet String) × Loader
  | [] => ([], l)
  | a :: archives =>
    ((l.register a.1 a.2).1 :: ((l.register a.1 a.2).2.registerAll archives).1,
      ((l.register a.1 a.2).2.registerAll archives).2)

def look (l : Loader) : Lookup → Answer × Loader
  | .get name => (.record (l.get? name).1, (l.get? name).2)
  | .update name f => (.record (l.update name f).records[name]?, l.update name f)
  | .isInstance name target => (.verdict (l.isInstance name target).1, (l.isInstance name target).2)

def lookAll (l : Loader) : List Lookup → List Answer × Loader
  | [] => ([], l)
  | q :: lookups =>
    ((l.look q).1 :: ((l.look q).2.lookAll lookups).1, ((l.look q).2.lookAll lookups).2)

theorem contains_primary_add (l : Loader) (name other : String) (bytes : Bytes)
    (isPrimary : Bool) : (l.add name bytes isPrimary).primary.contains other =
      (isPrimary && name == other || l.primary.contains other) := by
  cases isPrimary with
  | false => simp [add]
  | true =>
    rw [Bool.eq_iff_iff]
    simp [add, ExtTreeSet.contains_insert]

/-- What has been read is not read again, whatever is registered for it. -/
theorem class?_add {l : Loader} {name : String} (hp : name ∉ l.primary) (bytes : Bytes)
    (isPrimary : Bool) (other : String) :
    (l.add name bytes isPrimary).class? other =
      if name = other ∧ ¬ (name ∈ l.records ∨ name ∈ l.missing) then
        ClassNode.ofBytes? name bytes isPrimary
      else l.class? other := by
  have hfind : (l.add name bytes isPrimary).pending.find? other =
      if name = other then some bytes else l.pending.find? other :=
    l.pending.find?_insert name other bytes
  by_cases hn : name = other
  · subst hn
    by_cases hold : name ∈ l.records ∨ name ∈ l.missing
    · rw [if_neg fun h => h.2 hold]
      rcases hold with hr | hm
      · obtain ⟨c, hc⟩ := Option.isSome_iff_exists.mp (ExtTreeMap.mem_iff_isSome_getElem?.mp hr)
        have hc' : (l.add name bytes isPrimary).records[name]? = some c := hc
        rw [class?, class?, hc, hc']
      · have hm' : name ∈ (l.add name bytes isPrimary).missing := hm
        have hr' : (l.add name bytes isPrimary).records[name]? = l.records[name]? := rfl
        rw [class?, class?, if_pos hm, if_pos hm', hr']
    · obtain ⟨hr, hm⟩ := not_or.mp hold
      have hr' : name ∉ (l.add name bytes isPrimary).records := hr
      have hm' : name ∉ (l.add name bytes isPrimary).missing := hm
      have hno : l.primary.contains name = false :=
        Bool.eq_false_iff.mpr fun h => hp (ExtTreeSet.mem_iff_contains.mpr h)
      rw [if_pos ⟨rfl, hold⟩, class?_of_new hr' hm', bytes?, hfind, if_pos rfl, Option.some_or,
        Option.bind_some, contains_primary_add, hno, beq_self_eq_true, Bool.and_true,
        Bool.or_false]
  · have hprimary : (l.add name bytes isPrimary).primary.contains other =
        l.primary.contains other := by
      rw [contains_primary_add, beq_eq_false_iff_ne.mpr hn, Bool.and_false, Bool.false_or]
    have hbytes : (l.add name bytes isPrimary).bytes? other = l.bytes? other := by
      rw [bytes?, bytes?, hfind, if_neg hn]
      rfl
    rw [if_neg fun h => hn h.1]
    simp only [class?, hbytes, hprimary]
    rfl

/-! ## Loaders and class paths -/

structure Mirrors (l : Loader) (p : ClassPath) : Prop where
  class?_eq : ∀ name, l.class? name = p.hierarchy.class? name
  mem_asked : ∀ name, name ∈ p.asked ↔ name ∈ l.records ∨ name ∈ l.missing
  registered_eq : l.registered = p.registered
  primary_eq : l.primary = p.primary
  registered_of_primary : ∀ name ∈ l.primary, name ∈ l.registered
  disjoint : ∀ name ∈ l.records, name ∉ l.missing

namespace Mirrors

variable {l : Loader} {p : ClassPath}

theorem ofSources (sources : List Source) :
    Mirrors (.ofSources sources) (.ofSources (sources.map Source.table)) where
  class?_eq name := by
    have hholds := ClassPath.holds_ofSources (sources.map Source.table)
    rw [hholds.class?_eq, class?_of_new ExtTreeMap.not_mem_empty ExtTreeSet.not_mem_empty]
    have hbytes : (Loader.ofSources sources).bytes? name =
        (sources.map Source.table).findSome? fun t => t.find? name := by
      rw [bytes?, Loader.ofSources, ClassTable.find?_empty, Option.none_or, List.findSome?_map,
        List.findSome?_map]
      rfl
    rw [hbytes, ClassPath.lookup?, ClassPath.chosen?, List.find?_nil, Option.bind_map]
    rfl
  mem_asked name := by
    simp [Loader.ofSources, ClassPath.ofSources]
  registered_eq := rfl
  primary_eq := rfl
  registered_of_primary name h := absurd h ExtTreeSet.not_mem_empty
  disjoint name h := absurd h ExtTreeMap.not_mem_empty

/-! ### Registering -/

theorem add (h : Mirrors l p) {name : String} (hn : name ∉ l.registered) (bytes : Bytes)
    (isPrimary : Bool) : Mirrors (l.add name bytes isPrimary) (p.add name bytes isPrimary) where
  class?_eq other := by
    rw [class?_add (fun hp => hn (h.registered_of_primary name hp)), ClassPath.class?_add,
      h.class?_eq]
    simp only [← h.mem_asked]
  mem_asked := h.mem_asked
  registered_eq := congrArg (·.insert name) h.registered_eq
  primary_eq := by
    show (if isPrimary then l.primary.insert name else l.primary) =
      if isPrimary then p.primary.insert name else p.primary
    rw [h.primary_eq]
  registered_of_primary other ho := by
    show other ∈ l.registered.insert name
    rw [ExtTreeSet.mem_insert, Std.LawfulEqOrd.compare_eq_iff_eq]
    have hcontains := ExtTreeSet.mem_iff_contains.mp ho
    rw [contains_primary_add, Bool.or_eq_true, Bool.and_eq_true, beq_iff_eq] at hcontains
    rcases hcontains with ⟨_, hno⟩ | hold
    · exact Or.inl hno
    · exact Or.inr (h.registered_of_primary other (ExtTreeSet.mem_iff_contains.mpr hold))
  disjoint := h.disjoint

/-- What is done with one entry of an archive. -/
def registerEntry (isPrimary : Bool) (s : ExtTreeSet String × Loader) (e : String × Bytes) :
    ExtTreeSet String × Loader :=
  if e.1 ∈ s.2.registered then s else (s.1.insert e.1, s.2.add e.1 e.2 isPrimary)

theorem registerEntries {s : ExtTreeSet String × Loader} {t : ExtTreeSet String × ClassPath}
    (hfst : s.1 = t.1) (h : Mirrors s.2 t.2) (isPrimary : Bool)
    (entries : List (String × Bytes)) :
    (entries.foldl (registerEntry isPrimary) s).1 =
        (entries.foldl (ClassPath.registerEntry isPrimary) t).1 ∧
      Mirrors (entries.foldl (registerEntry isPrimary) s).2
        (entries.foldl (ClassPath.registerEntry isPrimary) t).2 := by
  induction entries generalizing s t with
  | nil => exact ⟨hfst, h⟩
  | cons e entries ih =>
    rw [List.foldl_cons, List.foldl_cons, registerEntry, ClassPath.registerEntry,
      ← h.registered_eq]
    by_cases he : e.1 ∈ s.2.registered
    · rw [if_pos he, if_pos he]
      exact ih hfst h
    · rw [if_neg he, if_neg he]
      exact ih (congrArg (·.insert e.1) hfst) (h.add he e.2 isPrimary)

theorem registerAll (h : Mirrors l p) (archives : List Entries) :
    (l.registerAll archives).1 = (p.registerAll archives).1 ∧
      Mirrors (l.registerAll archives).2 (p.registerAll archives).2 := by
  induction archives generalizing l p with
  | nil => exact ⟨rfl, h⟩
  | cons a archives ih =>
    obtain ⟨hfst, hsnd⟩ := registerEntries (s := (∅, l)) (t := (∅, p)) rfl h a.2 a.1
    obtain ⟨hrest, hall⟩ := ih hsnd
    exact ⟨congrArg₂ List.cons hfst hrest, hall⟩

/-! ### Asking -/

@[simp]
theorem mem_records_note (l : Loader) (name other : String) (c : Option ClassNode) :
    other ∈ (l.note name c).records ↔ c.isSome ∧ name = other ∨ other ∈ l.records := by
  cases c with
  | none => simp [note]
  | some c => simp [note, ExtTreeMap.mem_insert]

theorem ensureLoaded (h : Mirrors l p) (name : String) :
    Mirrors (l.ensureLoaded name) (p.ask [name]) := by
  by_cases hold : name ∈ l.records ∨ name ∈ l.missing
  · rw [Loader.ensureLoaded, if_pos hold]
    refine { h with mem_asked := fun other => ?_ }
    rw [ClassPath.mem_asked_ask, List.mem_singleton, h.mem_asked]
    refine ⟨?_, Or.inl⟩
    rintro (ho | rfl)
    · exact ho
    · exact hold
  · obtain ⟨hr, hm⟩ := not_or.mp hold
    have hnew := ensureLoaded_of_new hr hm
    have hrecords : ∀ other, other ∈ (l.ensureLoaded name).records ↔
        (l.class? name).isSome ∧ name = other ∨ other ∈ l.records := fun other => by
      simp [hnew]
    have hmissing : ∀ other, other ∈ (l.ensureLoaded name).missing ↔
        l.class? name = none ∧ name = other ∨ other ∈ l.missing := fun other => by
      simp [hnew]
    refine
      { class?_eq := fun other => (class?_ensureLoaded l name other).trans (h.class?_eq other)
        mem_asked := fun other => ?_
        registered_eq := ?_
        primary_eq := ?_
        registered_of_primary := ?_
        disjoint := fun other ho hom => ?_ }
    · rw [ClassPath.mem_asked_ask, List.mem_singleton, h.mem_asked, hrecords, hmissing,
        eq_comm (a := other)]
      cases l.class? name with
      | none =>
        simp only [Option.isSome_none, Bool.false_eq_true, false_and, false_or, true_and]
        tauto
      | some c =>
        simp only [Option.isSome_some, reduceCtorEq, false_and, false_or, true_and]
        tauto
    · simpa [hnew] using h.registered_eq
    · simpa [hnew] using h.primary_eq
    · simpa [hnew] using h.registered_of_primary
    · rw [hrecords] at ho
      rw [hmissing] at hom
      rcases ho with ⟨hsome, rfl⟩ | ho
      · rcases hom with ⟨hnone, _⟩ | hom
        · rw [hnone] at hsome
          cases hsome
        · exact hm hom
      · rcases hom with ⟨_, rfl⟩ | hom
        · exact hr ho
        · exact h.disjoint other ho hom

theorem ensureAll (h : Mirrors l p) (names : List String) :
    Mirrors (names.foldl Loader.ensureLoaded l) (p.ask names) := by
  induction names generalizing l p with
  | nil =>
    refine { h with mem_asked := fun other => ?_ }
    rw [ClassPath.mem_asked_ask, h.mem_asked]
    exact ⟨fun ho => ho.resolve_right List.not_mem_nil, Or.inl⟩
  | cons name names ih =>
    refine { ih (h.ensureLoaded name) with mem_asked := fun other => ?_ }
    rw [List.foldl_cons, ← (ih (h.ensureLoaded name)).mem_asked]
    simp only [ClassPath.mem_asked_ask, List.mem_cons, List.not_mem_nil, or_false, or_assoc]

theorem get? (h : Mirrors l p) (name : String) :
    (l.get? name).1 = (p.get? name).1 ∧ Mirrors (l.get? name).2 (p.get? name).2 :=
  ⟨(get?_fst l name).trans (h.class?_eq name), h.ensureLoaded name⟩

theorem supertypeGraph_eq (h : Mirrors l p) :
    l.supertypeGraph = p.hierarchy.supertypeGraph := by
  simp only [Loader.supertypeGraph, Hierarchy.supertypeGraph, Graph.mk.injEq]
  exact funext fun name => congrArg (Option.map ClassNode.supertypes) (h.class?_eq name)

theorem update (h : Mirrors l p) (name : String) (f : ClassNode → ClassNode) :
    (l.update name f).records[name]? = (p.update name f).hierarchy.class? name ∧
      Mirrors (l.update name f) (p.update name f) := by
  have hasked := h.ensureLoaded name
  have hrecord : ∀ other, (l.update name f).records[other]? =
      if name = other then (l.ensureLoaded name).records[other]?.map f
      else (l.ensureLoaded name).records[other]? := fun other => by
    by_cases hn : name = other <;> simp [Loader.update, ExtTreeMap.getElem?_modify, hn]
  have hmem : ∀ other, other ∈ (l.update name f).records ↔
      other ∈ (l.ensureLoaded name).records := fun other => ExtTreeMap.mem_modify
  have hname : (l.update name f).records[name]? = (l.class? name).map f := by
    rw [hrecord, if_pos rfl]
    exact congrArg (Option.map f) (get?_fst l name)
  have hclass : ∀ other, (p.update name f).hierarchy.class? other =
      if name = other then (l.class? other).map f else l.class? other := fun other => by
    show (p.hierarchy.modifyClass name f).class? other = _
    rw [Hierarchy.class?_modifyClass, h.class?_eq]
  refine ⟨?_,
    { class?_eq := fun other => ?_
      mem_asked := fun other => ?_
      registered_eq := hasked.registered_eq
      primary_eq := hasked.primary_eq
      registered_of_primary := hasked.registered_of_primary
      disjoint := fun other ho => ?_ }⟩
  · rw [hname, hclass, if_pos rfl]
  · rw [hclass]
    by_cases hn : name = other
    · subst hn
      rw [if_pos rfl, class?, hname]
      cases hc : l.class? name with
      | some c => rfl
      | none =>
        have hnone : name ∉ (l.ensureLoaded name).records := fun hr => by
          rw [← hmem, ExtTreeMap.mem_iff_isSome_getElem?, hname, hc] at hr
          cases hr
        have hsettled := (hasked.mem_asked name).mp
          (ClassPath.mem_asked_ask.mpr (Or.inr List.mem_cons_self))
        exact if_pos (hsettled.resolve_left hnone)
    · rw [if_neg hn, ← class?_ensureLoaded l name other, class?, class?, hrecord, if_neg hn]
      rfl
  · rw [hmem]
    exact hasked.mem_asked other
  · exact hasked.disjoint other ((hmem other).mp ho)

end Mirrors

/-! ### Searching -/

/-- What a search over `names` answers and asks for. -/
def scan (l : Loader) (target : String) (names : List String) : Bool × Loader :=
  (names.contains target, (names.takeWhile (· != target)).foldl ensureLoaded l)

@[simp]
theorem scan_cons_self (l : Loader) (target : String) (names : List String) :
    l.scan target (target :: names) = (true, l) := by
  simp [scan]

theorem scan_cons_of_ne {name target : String} (h : name ≠ target) (l : Loader)
    (names : List String) :
    l.scan target (name :: names) = (l.ensureLoaded name).scan target names := by
  simp [scan, h, Ne.symm h]

@[simp]
theorem search_cons_self (l : Loader) (target : String) (rest known : List String) :
    l.search target (target :: rest) known = (true, l) := by
  rw [search, if_pos rfl]

theorem search_cons_of_none {l : Loader} {name target : String} (hne : name ≠ target)
    (h : l.class? name = none) (rest known : List String) :
    l.search target (name :: rest) known = (l.ensureLoaded name).search target rest known := by
  rw [search, if_neg hne]
  split
  · rfl
  · next c hc => simp [h] at hc

theorem search_cons_of_some {l : Loader} {name target : String} (hne : name ≠ target)
    {c : ClassNode} (h : l.class? name = some c) (rest known : List String) :
    l.search target (name :: rest) known =
      (l.ensureLoaded name).search target (Graph.enqueue c.supertypes rest known).1
        (Graph.enqueue c.supertypes rest known).2 := by
  rw [search, if_neg hne]
  split
  · next hc => simp [h] at hc
  · next c' hc =>
    obtain rfl : c = c' := by simpa [h] using hc
    rfl

theorem next_eq_none_iff {l : Loader} {name : String} :
    l.supertypeGraph.next name = none ↔ l.class? name = none := Option.map_eq_none_iff

theorem next_eq_some_iff {l : Loader} {name : String} {parents : List String} :
    l.supertypeGraph.next name = some parents ↔
      ∃ c, l.class? name = some c ∧ c.supertypes = parents := Option.map_eq_some_iff

/-- A name that has been seen need not wait to be known. -/
theorem mem_known_of_cons {seen known rest : List String} {name : String} (hn : name ∈ seen)
    (hknown : ∀ n, n ∈ known ↔ n ∈ seen ∨ n ∈ name :: rest) (n : String) :
    n ∈ known ↔ n ∈ seen ∨ n ∈ rest := by
  rw [hknown, List.mem_cons]
  exact ⟨fun h => h.elim Or.inl fun h => h.elim (fun h => Or.inl (h ▸ hn)) Or.inr,
    Or.imp_right Or.inr⟩

/-- A search asks for all names that it meets before its target.  These are the
names that a search over the supertype relation meets from the same queue. -/
theorem search_eq (l : Loader) (target : String) (waiting seen known : List String)
    (hknown : ∀ n, n ∈ known ↔ n ∈ seen ∨ n ∈ waiting) :
    l.search target (Graph.fresh seen waiting) known =
      l.scan target (l.supertypeGraph.visit .breadthFirst waiting seen) := by
  generalize hs : Graph.Strategy.breadthFirst = strategy
  generalize hg : l.supertypeGraph = g
  fun_induction g.visit strategy waiting seen generalizing l known with
  | case1 seen =>
    rw [Graph.fresh, search]
    rfl
  | case2 seen name rest hn ih =>
    rw [Graph.fresh, if_pos hn]
    exact ih l known (mem_known_of_cons hn hknown) hg
  | case3 seen name rest hn hnext ih =>
    have hnone : l.class? name = none := next_eq_none_iff.mp (hg ▸ hnext)
    rw [Graph.fresh, if_neg hn]
    by_cases hne : name = target
    · simp [hne]
    · rw [search_cons_of_none hne hnone, scan_cons_of_ne hne]
      refine ih (l.ensureLoaded name) known (fun n => (hknown n).trans ?_)
        ((supertypeGraph_ensureLoaded l name).trans hg)
      simp only [List.mem_cons, or_assoc, or_left_comm]
  | case4 seen name rest hn parents hnext ih =>
    obtain ⟨c, hc, rfl⟩ := next_eq_some_iff.mp (hg ▸ hnext)
    subst hs
    rw [Graph.fresh, if_neg hn]
    by_cases hne : name = target
    · simp [hne]
    · have hknown' : ∀ n, n ∈ known ↔ n ∈ name :: seen ∨ n ∈ rest := fun n => by
        rw [hknown, List.mem_cons, List.mem_cons, or_assoc, or_left_comm]
      obtain ⟨hwaiting, hmem⟩ := Graph.enqueue_fresh c.supertypes rest (name :: seen) known hknown'
      rw [search_cons_of_some hne hc, scan_cons_of_ne hne, hwaiting]
      exact ih (l.ensureLoaded name) _ hmem ((supertypeGraph_ensureLoaded l name).trans hg)

theorem isInstance_eq (l : Loader) (name target : String) :
    l.isInstance name target =
      if name = target then (true, l)
      else l.scan target (l.supertypeGraph.breadthFirst name) := by
  have hsearch := l.search_eq target [name] [] [name] fun n => by simp
  rw [Graph.fresh, if_neg List.not_mem_nil, Graph.fresh] at hsearch
  rw [isInstance, hsearch]
  rfl

namespace Mirrors

variable {l : Loader} {p : ClassPath}

theorem isInstance (h : Mirrors l p) (name target : String) :
    (l.isInstance name target).1 = (p.isInstance name target).1 ∧
      Mirrors (l.isInstance name target).2 (p.isInstance name target).2 := by
  rw [Loader.isInstance_eq, ClassPath.isInstance]
  by_cases hn : name = target
  · rw [if_pos hn, if_pos hn]
    exact ⟨rfl, h⟩
  · have hlineage : l.supertypeGraph.breadthFirst name = p.hierarchy.lineage name := by
      rw [h.supertypeGraph_eq]
      rfl
    rw [if_neg hn, if_neg hn, hlineage]
    refine ⟨?_, h.ensureAll _⟩
    show (p.hierarchy.lineage name).contains target = p.hierarchy.isInstance name target
    rw [Hierarchy.isInstance, beq_eq_false_iff_ne.mpr hn, Bool.false_or]

/-- A lookup has the same answer on both sides, and they are alike after it. -/
theorem look (h : Mirrors l p) (q : Lookup) :
    (l.look q).1 = (p.look q).1 ∧ Mirrors (l.look q).2 (p.look q).2 := by
  cases q with
  | get name => exact ⟨congrArg Answer.record (h.get? name).1, (h.get? name).2⟩
  | update name f => exact ⟨congrArg Answer.record (h.update name f).1, (h.update name f).2⟩
  | isInstance name target =>
    exact ⟨congrArg Answer.verdict (h.isInstance name target).1, (h.isInstance name target).2⟩

theorem lookAll (h : Mirrors l p) (lookups : List Lookup) :
    (l.lookAll lookups).1 = (p.lookAll lookups).1 ∧
      Mirrors (l.lookAll lookups).2 (p.lookAll lookups).2 := by
  induction lookups generalizing l p with
  | nil => exact ⟨rfl, h⟩
  | cons q lookups ih =>
    obtain ⟨hanswer, hnext⟩ := h.look q
    obtain ⟨hanswers, hlast⟩ := ih hnext
    exact ⟨congrArg₂ List.cons hanswer hanswers, hlast⟩

/-- What a loader knows to be missing has been asked for and is not there. -/
theorem mem_missing (h : Mirrors l p) (name : String) :
    name ∈ l.missing ↔ name ∈ p.asked ∧ l.class? name = none := by
  rw [h.mem_asked]
  constructor
  · intro hm
    have hr : name ∉ l.records := fun hr => h.disjoint name hr hm
    refine ⟨Or.inr hm, ?_⟩
    rw [class?, ExtTreeMap.getElem?_eq_none hr, if_pos hm]
  · rintro ⟨hr | hm, hc⟩
    · obtain ⟨c, hr⟩ := Option.isSome_iff_exists.mp (ExtTreeMap.mem_iff_isSome_getElem?.mp hr)
      rw [class?, hr] at hc
      cases hc
    · exact hm

theorem mem_records (h : Mirrors l p) (name : String) :
    name ∈ l.records ↔ name ∈ p.asked ∧ (l.class? name).isSome := by
  rw [h.mem_asked]
  constructor
  · intro hr
    obtain ⟨c, hc⟩ := Option.isSome_iff_exists.mp (ExtTreeMap.mem_iff_isSome_getElem?.mp hr)
    refine ⟨Or.inl hr, ?_⟩
    rw [class?, hc]
    rfl
  · rintro ⟨hr | hm, hc⟩
    · exact hr
    · have hnone := ((h.mem_missing name).mp hm).2
      rw [hnone] at hc
      cases hc

end Mirrors

/-! ## Results -/

/-- What a loader gives and remembers after archives have been registered and
lookups been made, and the class path that has been used in the same way with
it. -/
structure Recalls (tables : List ClassTable) (archives : List Entries) (lookups : List Lookup)
    (l : Loader) (p : ClassPath) : Prop where
  get?_eq : ∀ name, (l.get? name).1 =
    (ClassPath.lookup? tables (ClassPath.registrations archives) name).map
      (Lookup.changes lookups name)
  isSome_get?_iff : ∀ name, (l.get? name).1.isSome ↔
    ∃ bytes isLocal s,
      ClassPath.chosen? tables (ClassPath.registrations archives) name = some (bytes, isLocal) ∧
        ClassFile.parse bytes = .ok s ∧ s.name = name
  get?_eq_some : ∀ name bytes isLocal s,
    ClassPath.chosen? tables (ClassPath.registrations archives) name = some (bytes, isLocal) →
      ClassFile.parse bytes = .ok s → s.name = name →
      (l.get? name).1 = some (Lookup.changes lookups name (ClassNode.ofSummary s isLocal))
  /-- An entry that cannot be read hides what comes after it. -/
  get?_eq_none : ∀ name e,
    (ClassPath.registrations archives).find? (·.1 == name) = some e →
      ClassNode.ofBytes? name e.2.1 e.2.2 = none → (l.get? name).1 = none
  /-- What is missing stays so. -/
  missing_stays : ∀ name, (l.get? name).1 = none →
    ∀ more, name ∈ ((l.get? name).2.lookAll more).2.missing
  mem_missing_iff : ∀ name, name ∈ l.missing ↔
    name ∈ p.asked ∧ ClassPath.lookup? tables (ClassPath.registrations archives) name = none
  mem_records_iff : ∀ name, name ∈ l.records ↔
    name ∈ p.asked ∧
      (ClassPath.lookup? tables (ClassPath.registrations archives) name).isSome
  disjoint : ∀ name ∈ l.records, name ∉ l.missing
  path_get? : ∀ name, (p.get? name).1 = (l.get? name).1
  mem_path_missing : ∀ name, name ∈ p.missing ↔ name ∈ l.missing
  mem_path_loaded : ∀ name, name ∈ p.loaded ↔ name ∈ l.records

theorem isSome_lookup?_iff {tables : List ClassTable}
    {entries : List (String × Bytes × Bool)} {name : String} :
    (ClassPath.lookup? tables entries name).isSome ↔ ∃ bytes isLocal s,
      ClassPath.chosen? tables entries name = some (bytes, isLocal) ∧
        ClassFile.parse bytes = .ok s ∧ s.name = name := by
  rw [ClassPath.lookup?]
  constructor
  · intro h
    obtain ⟨c, hc⟩ := Option.isSome_iff_exists.mp h
    obtain ⟨⟨bytes, isLocal⟩, hb, hc⟩ := Option.bind_eq_some_iff.mp hc
    obtain ⟨s, hs, hn, _⟩ := ClassNode.ofBytes?_eq_some hc
    exact ⟨bytes, isLocal, s, hb, hs, hn⟩
  · rintro ⟨bytes, isLocal, s, hb, hs, hn⟩
    rw [hb, Option.bind_some, ClassNode.ofBytes?, hs]
    simp [hn]

theorem Mirrors.recalls {tables : List ClassTable} {archives : List Entries}
    {lookups : List Lookup} {l : Loader} {p : ClassPath} (h : Mirrors l p)
    (hp : ∀ name, p.hierarchy.class? name =
      (ClassPath.lookup? tables (ClassPath.registrations archives) name).map
        (Lookup.changes lookups name)) : Recalls tables archives lookups l p := by
  have hget : ∀ name, (l.get? name).1 =
      (ClassPath.lookup? tables (ClassPath.registrations archives) name).map
        (Lookup.changes lookups name) := fun name => by
    rw [get?_fst, h.class?_eq, hp]
  have hclass : ∀ name, l.class? name =
      (ClassPath.lookup? tables (ClassPath.registrations archives) name).map
        (Lookup.changes lookups name) := fun name => (get?_fst l name).symm.trans (hget name)
  refine
    { get?_eq := hget
      isSome_get?_iff := fun name => ?_
      get?_eq_some := fun name bytes isLocal s hb hs hn => ?_
      get?_eq_none := fun name e he hnone => ?_
      missing_stays := fun name hnone more => ?_
      mem_missing_iff := fun name => ?_
      mem_records_iff := fun name => ?_
      disjoint := h.disjoint
      path_get? := fun name => (h.get? name).1.symm
      mem_path_missing := fun name => ?_
      mem_path_loaded := fun name => ?_ }
  · rw [hget, Option.isSome_map, isSome_lookup?_iff]
  · rw [hget, ClassPath.lookup?, hb, Option.bind_some, ClassNode.ofBytes?, hs]
    simp [hn]
  · rw [hget, ClassPath.lookup?, ClassPath.chosen?, he, Option.bind_some, hnone, Option.map_none]
  · obtain ⟨_, hlast⟩ := (h.get? name).2.lookAll more
    rw [hlast.mem_missing, hlast.class?_eq, ClassPath.class?_lookAll]
    refine ⟨ClassPath.mem_asked_lookAll (ClassPath.mem_asked_ask.mpr (Or.inr
      List.mem_cons_self)) more, ?_⟩
    rw [(h.get? name).1] at hnone
    exact congrArg (Option.map (Lookup.changes more name)) hnone
  · rw [h.mem_missing, hclass, Option.map_eq_none_iff]
  · rw [h.mem_records, hclass, Option.isSome_map]
  · rw [h.mem_missing, h.class?_eq, ClassPath.missing, List.mem_filter, ExtTreeSet.mem_toList,
      Option.isNone_iff_eq_none]
  · rw [h.mem_records, h.class?_eq, ClassPath.loaded, List.mem_filter, ExtTreeSet.mem_toList]

/-- A loader that reads classes when they are asked for answers every lookup as
a class path does that has read them all, from the bytes that count for each
name. -/
theorem recalls_lookAll (sources : List Source) (archives : List Entries)
    (lookups : List Lookup) :
    let tables := sources.map Source.table
    let loader := (Loader.ofSources sources).registerAll archives
    let path := (ClassPath.ofSources tables).registerAll archives
    loader.1 = path.1 ∧ (loader.1.Pairwise fun s t => ∀ name ∈ s, name ∉ t) ∧
      (loader.2.lookAll lookups).1 = (path.2.lookAll lookups).1 ∧
      Recalls tables archives lookups (loader.2.lookAll lookups).2
        (path.2.lookAll lookups).2 := by
  intro tables loader path
  obtain ⟨hadded, hloaded⟩ := (Mirrors.ofSources sources).registerAll archives
  obtain ⟨hanswers, hlast⟩ := hloaded.lookAll lookups
  refine ⟨hadded, ?_, hanswers, hlast.recalls fun name => ?_⟩
  · rw [hadded]
    exact ClassPath.pairwise_disjoint_registerAll _ archives
  · rw [ClassPath.class?_lookAll, ClassPath.class?_registerAll]

section Sample

open ClassPath.Sample

/-- An empty file under the child's name hides the child for good, and its
parent is still read from the archive that comes after. -/
theorem recalls_lookAll_sample :
    let loader := (Loader.ofSources []).registerAll [([("Child", [])], true), (archive, false)]
    let run := loader.2.lookAll [.isInstance "Child" "Parent"]
    (run.2.get? "Child").1 = none ∧
      "Child" ∈ ((run.2.get? "Child").2.lookAll [.get "Child", .get "Parent"]).2.missing ∧
      (run.2.get? "Parent").1.isSome := by
  intro loader run
  obtain ⟨_, _, _, hrecalls⟩ := recalls_lookAll [] [([("Child", [])], true), (archive, false)]
    [.isInstance "Child" "Parent"]
  have hchild : (run.2.get? "Child").1 = none :=
    hrecalls.get?_eq_none "Child" ("Child", [], true) (by decide +kernel) (by decide +kernel)
  refine ⟨hchild, hrecalls.missing_stays "Child" hchild _, ?_⟩
  rw [hrecalls.get?_eq, Option.isSome_map]
  decide +kernel

end Sample

end Loader
end Lineage
