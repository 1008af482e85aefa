import Lineage.Metadata.Basic
import Lineage.Proofs.Classpath.Laziness
import Lineage.Proofs.Resolution.Runs

/-!
Metadata shows the shape of class files.

Resolution changes no more of a class than what it finds out about it, so what
is handed on about a class of an archive has the names, flags and signatures that
its class file declares, whatever else has been resolved.
-/

namespace Lineage

open Std (ExtTreeMap ExtTreeSet)

namespace ClassFile

/-- What the fields of one name come to: of two the later counts. -/
def Summary.field? (s : Summary) (name : String) : Option FieldSummary :=
  (s.fields.filter fun f => f.name == name).getLast?

/-- What the methods of one key come to: of two the later counts. -/
def Summary.method? (s : Summary) (key : String) : Option MethodSummary :=
  (s.methods.filter fun m => m.name ++ m.descriptor == key).getLast?

end ClassFile

open ClassFile (Summary)

namespace ClassNode

theorem getElem?_fields_ofSummary (s : Summary) (isLocal : Bool) (name : String) :
    (ofSummary s isLocal).fields[name]? = (s.field? name).map (fieldOfSummary s) :=
  Tables.getElem?_foldl_insert _ _ _ _

theorem getElem?_methods_ofSummary (s : Summary) (isLocal : Bool) (key : String) :
    (ofSummary s isLocal).methods[key]? = (s.method? key).map (MethodNode.ofSummary s.name) :=
  Tables.getElem?_foldl_insert _ _ _ _

end ClassNode

namespace Metadata

/-- The entry has the shape that a class file declares. -/
structure ClassEntry.Shows (e : ClassEntry) (s : Summary) : Prop where
  superName : e.superName = s.superName.filter (· != Foundation.object)
  interfaces : e.interfaces = s.interfaces.eraseDups
  access : e.access = s.access
  signature : e.signature = s.signature
  field : ∀ name, (e.fields[name]?).map (fun f => (f.descriptor, f.access, f.signature)) =
    (s.field? name).map fun f => (f.descriptor, f.access, f.signature)
  method : ∀ key, (e.methods[key]?).map (fun m => (m.access, m.signature)) =
    (s.method? key).map fun m => (m.access, m.signature)

/-- The shape of an entry is settled by the bare class. -/
theorem ClassEntry.shows_ofNode {c : ClassNode} {s : Summary} {isLocal : Bool}
    (hc : c.bare = (ClassNode.ofSummary s isLocal).bare) : (ofNode c).Shows s where
  superName := congrArg (fun c => c.superName.filter (· != Foundation.object)) hc
  interfaces := congrArg ClassNode.interfaces hc
  access := congrArg ClassNode.access hc
  signature := congrArg ClassNode.signature hc
  field name := by
    have hf := congrArg (fun c : ClassNode =>
      (c.fields[name]?).map fun f => (f.descriptor, f.access, f.signature)) hc
    simp only [ClassNode.bare, ExtTreeMap.getElem?_map, Option.map_map,
      ClassNode.getElem?_fields_ofSummary] at hf
    rw [ofNode, ExtTreeMap.getElem?_map, Option.map_map]
    exact hf
  method key := by
    have hm := congrArg (fun c : ClassNode =>
      (c.methods[key]?).map fun m => (m.access, m.signature)) hc
    simp only [ClassNode.bare, ExtTreeMap.getElem?_map, Option.map_map,
      ClassNode.getElem?_methods_ofSummary] at hm
    rw [ofNode, ExtTreeMap.getElem?_map, Option.map_map]
    exact hm

theorem getElem?_collect (path : ClassPath) (names : List String) (name : String) :
    (collect path names).classes[name]? =
      if name ∈ names then (path.peek? name).map ClassEntry.ofNode else none := by
  unfold collect
  induction names using List.reverseRecOn with
  | nil => exact ExtTreeMap.getElem?_empty
  | append_singleton names other ih =>
    have hmem : name ∈ names ++ [other] ↔ name ∈ names ∨ name = other := by simp
    simp only [List.foldl_append, List.foldl_cons, List.foldl_nil, hmem]
    by_cases hn : name = other
    · subst hn
      rw [if_pos (Or.inr rfl)]
      cases hp : path.peek? name with
      | some c => exact ExtTreeMap.getElem?_insert_self
      | none =>
        rw [hp, Option.map_none, ite_self] at ih
        exact ih
    · rw [← ih.trans (if_congr (or_iff_left hn) rfl rfl).symm]
      cases path.peek? other with
      | some c =>
        exact (ExtTreeMap.getElem?_insert).trans
          (if_neg fun h => hn (Std.LawfulEqOrd.eq_of_compare h).symm)
      | none => rfl

end Metadata

namespace Resolution

/-- All classes of the archive have been asked for. -/
theorem mem_asked_resolveArchive (names : Names) (r : Resolution) {classes : List String}
    {cls : String} (hcls : cls ∈ classes) :
    cls ∈ (r.resolveArchive names classes).path.asked := by
  have hresolved : cls ∈ (classes.foldl (resolve names) (r.link classes)).path.asked :=
    (AtRest.mem_asked_resolveAll names).mpr (Or.inr ⟨cls, hcls, .refl⟩)
  exact List.foldlRecOn (motive := fun s : Resolution => cls ∈ s.path.asked) _ _ hresolved
    fun s hs other _ => mem_asked_unify hs other

end Resolution

namespace Metadata

/-- Of some classes that have been resolved, those are handed on whose bytes are
a class of their name, each with the shape that the bytes declare. -/
theorem shows_collect (names : Names) (tables : List ClassTable) (archives : List Entries)
    (classes : List String) :
    let filled := ((ClassPath.ofSources tables).registerAll archives).2
    let m := collect ((Resolution.start filled).resolveArchive names classes).path classes
    (∀ name, name ∈ m.classes ↔ name ∈ classes ∧ ∃ bytes isLocal s,
      ClassPath.chosen? tables (ClassPath.registrations archives) name = some (bytes, isLocal) ∧
        ClassFile.parse bytes = .ok s ∧ s.name = name) ∧
    ∀ name e, m.classes[name]? = some e → ∃ bytes isLocal s,
      ClassPath.chosen? tables (ClassPath.registrations archives) name = some (bytes, isLocal) ∧
        ClassFile.parse bytes = .ok s ∧ s.name = name ∧ e.Shows s := by
  intro filled m
  have halike := Resolution.alike_resolveArchive names (Resolution.start filled) classes
  have hentry : ∀ {name}, name ∈ classes → m.classes[name]? =
      (((Resolution.start filled).resolveArchive names classes).path.hierarchy.class? name).map
        ClassEntry.ofNode := by
    intro name hname
    have hasked := Resolution.mem_asked_resolveArchive names (Resolution.start filled) hname
    rw [getElem?_collect, if_pos hname, ClassPath.peek?, if_pos hasked]
  have hmem : ∀ {name}, name ∈ m.classes → name ∈ classes := by
    intro name hname
    rw [ExtTreeMap.mem_iff_isSome_getElem?, getElem?_collect] at hname
    by_contra hn
    rw [if_neg hn] at hname
    cases hname
  constructor
  · intro name
    rw [← Loader.isSome_lookup?_iff, ← ClassPath.class?_registerAll]
    constructor
    · intro hname
      have hcls := hmem hname
      rw [ExtTreeMap.mem_iff_isSome_getElem?, hentry hcls, Option.isSome_map,
        ← halike.isSome_class?] at hname
      exact ⟨hcls, hname⟩
    · rintro ⟨hname, hsome⟩
      rw [ExtTreeMap.mem_iff_isSome_getElem?, hentry hname, Option.isSome_map,
        ← halike.isSome_class?]
      exact hsome
  · intro name e he
    have hname := hmem (ExtTreeMap.mem_iff_isSome_getElem?.mpr (by rw [he]; rfl))
    rw [hentry hname] at he
    obtain ⟨c, hc, rfl⟩ := Option.map_eq_some_iff.mp he
    obtain ⟨d, hd, hb⟩ := halike.symm.exists_class hc
    have hread := (ClassPath.class?_registerAll tables archives name).symm.trans hd
    obtain ⟨⟨bytes, isLocal⟩, hchosen, hd⟩ := Option.bind_eq_some_iff.mp hread
    obtain ⟨s, hs, hn, rfl⟩ := ClassNode.ofBytes?_eq_some hd
    exact ⟨bytes, isLocal, s, hchosen, hs, hn, ClassEntry.shows_ofNode hb⟩

end Metadata
end Lineage
