import Lineage.Assembly.Sketch
import Lineage.Classpath.Basic
import Lineage.Proofs.Hierarchy.Frame

/-!
Class paths before anything is resolved.

Registering archives and asking for classes leaves every class as it was read:
nothing has been found out about it, and it is found under its own name.
-/

namespace Lineage

open Std (ExtTreeMap ExtTreeSet)
open Relation (ReflTransGen TransGen)

namespace ClassNode

theorem ofBytes?_eq_some {name : String} {bytes : Bytes} {isLocal : Bool} {c : ClassNode}
    (h : ofBytes? name bytes isLocal = some c) :
    ∃ s, ClassFile.parse bytes = .ok s ∧ s.name = name ∧ c = ofSummary s isLocal := by
  unfold ofBytes? at h
  split at h
  · next s hs =>
    split at h
    · next hn => exact ⟨s, hs, hn, (Option.some.inj h).symm⟩
    · cases h
  · cases h

theorem method?_ofSummary {s : ClassFile.Summary} {isLocal : Bool} {key : String}
    {m : MethodNode} (h : (ofSummary s isLocal).method? key = some m) :
    m.key = key ∧ ∃ declared ∈ s.methods, m = MethodNode.ofSummary s.name declared := by
  have hall : ∀ (key : String) (m : MethodNode), (ofSummary s isLocal).methods[key]? = some m →
      m.key = key ∧ ∃ declared ∈ s.methods, m = MethodNode.ofSummary s.name declared := by
    unfold ofSummary
    refine List.foldlRecOn (motive := fun ms : ExtTreeMap String MethodNode => ∀ key m,
      ms[key]? = some m → m.key = key ∧
        ∃ declared ∈ s.methods, m = MethodNode.ofSummary s.name declared) _ _ ?_ ?_
    · intro key m hm
      simp at hm
    · intro ms hms declared hd key m hm
      rw [ExtTreeMap.getElem?_insert] at hm
      split at hm
      · next hk =>
        cases hm
        exact ⟨Std.LawfulEqOrd.eq_of_compare hk, declared, hd, rfl⟩
      · exact hms key m hm
  exact hall key m h

end ClassNode

namespace Hierarchy

/-- Nothing has been found out about any class since it was read. -/
def AsRead (h : Hierarchy) : Prop :=
  ∀ name c, h.class? name = some c →
    ∃ bytes isLocal, ClassNode.ofBytes? name bytes isLocal = some c

theorem AsRead.resolved_eq_false {h : Hierarchy} (hh : AsRead h) {name : String} {c : ClassNode}
    (hc : h.class? name = some c) : c.resolved = false := by
  obtain ⟨bytes, isLocal, hb⟩ := hh _ _ hc
  obtain ⟨s, _, _, rfl⟩ := ClassNode.ofBytes?_eq_some hb
  rfl

theorem AsRead.keyed {h : Hierarchy} (hh : AsRead h) : Keyed h where
  name_eq hc := by
    obtain ⟨bytes, isLocal, hb⟩ := hh _ _ hc
    obtain ⟨s, _, hn, rfl⟩ := ClassNode.ofBytes?_eq_some hb
    exact hn
  slot_eq hm := by
    obtain ⟨c, hc, hcm⟩ := method?_eq_some.mp hm
    obtain ⟨bytes, isLocal, hb⟩ := hh _ _ hc
    obtain ⟨s, _, hn, rfl⟩ := ClassNode.ofBytes?_eq_some hb
    obtain ⟨hk, declared, _, rfl⟩ := ClassNode.method?_ofSummary hcm
    exact ⟨hn, hk⟩

end Hierarchy

namespace ClassPath

theorem asRead_ofSources (sources : List ClassTable) : (ofSources sources).hierarchy.AsRead := by
  intro name c hc
  simp only [ofSources, hierarchyOf, Hierarchy.class?, ExtTreeMap.getElem?_filterMap',
    Option.bind_eq_some_iff] at hc
  obtain ⟨bytes, _, hb⟩ := hc
  exact ⟨bytes, false, hb⟩

@[simp]
theorem mem_asked_ask {p : ClassPath} {names : List String} {name : String} :
    name ∈ (p.ask names).asked ↔ name ∈ p.asked ∨ name ∈ names := by
  rw [ask, ExtTreeSet.mem_insertMany_list, List.contains_iff_mem]

theorem mem_loaded {p : ClassPath} {a : String} :
    a ∈ p.loaded ↔ a ∈ p.asked ∧ (p.hierarchy.class? a).isSome := by
  rw [loaded, List.mem_filter, ExtTreeSet.mem_toList]

/-- Asking again changes nothing. -/
theorem ask_eq_self {p : ClassPath} {names : List String} (h : ∀ a ∈ names, a ∈ p.asked) :
    p.ask names = p := by
  have hasked : (p.ask names).asked = p.asked := ExtTreeSet.ext_mem fun a => by
    rw [mem_asked_ask, or_iff_left_of_imp (h a)]
  exact congrArg (fun s => { p with asked := s }) hasked

theorem class?_add (p : ClassPath) (name other : String) (bytes : Bytes) (isPrimary : Bool) :
    (p.add name bytes isPrimary).hierarchy.class? other =
      if name = other ∧ name ∉ p.asked then ClassNode.ofBytes? name bytes isPrimary
      else p.hierarchy.class? other := by
  by_cases ha : name ∈ p.asked
  · simp [add, ha]
  · simp only [add, ha, if_false, Hierarchy.class?, ExtTreeMap.getElem?_alter,
      not_false_eq_true, and_true, Std.LawfulEqOrd.compare_eq_iff_eq]

/-- A name that has been asked for keeps its answer. -/
theorem class?_add_of_asked {p : ClassPath} {a : String} (ha : a ∈ p.asked) (name : String)
    (bytes : Bytes) (isPrimary : Bool) :
    (p.add name bytes isPrimary).hierarchy.class? a = p.hierarchy.class? a := by
  rw [class?_add, if_neg]
  rintro ⟨rfl, hn⟩
  exact hn ha

theorem asRead_add {p : ClassPath} (hp : p.hierarchy.AsRead) (name : String) (bytes : Bytes)
    (isPrimary : Bool) : (p.add name bytes isPrimary).hierarchy.AsRead := by
  intro other c hc
  rw [class?_add] at hc
  split at hc
  · next hn => exact ⟨bytes, isPrimary, hn.1 ▸ hc⟩
  · exact hp other c hc

theorem keyed_add {p : ClassPath} (hp : p.hierarchy.Keyed) (name : String) (bytes : Bytes)
    (isPrimary : Bool) : (p.add name bytes isPrimary).hierarchy.Keyed where
  name_eq {other c} hc := by
    rw [class?_add] at hc
    split at hc
    · next hn =>
      obtain ⟨s, _, hname, rfl⟩ := ClassNode.ofBytes?_eq_some hc
      exact hname.trans hn.1
    · exact hp.name_eq hc
  slot_eq {r m} hm := by
    obtain ⟨c, hc, hcm⟩ := Hierarchy.method?_eq_some.mp hm
    rw [class?_add] at hc
    split at hc
    · next hn =>
      obtain ⟨s, _, hname, rfl⟩ := ClassNode.ofBytes?_eq_some hc
      obtain ⟨hkey, declared, _, rfl⟩ := ClassNode.method?_ofSummary hcm
      exact ⟨hname.trans hn.1, hkey⟩
    · exact hp.slot_eq (Hierarchy.method?_eq_some.mpr ⟨c, hc, hcm⟩)

/-- A property of class paths that adding a class keeps is kept by
registering. -/
theorem register_induction {P : ClassPath → Prop} {p : ClassPath}
    (entries : List (String × Bytes)) (isPrimary : Bool) (hp : P p)
    (hadd : ∀ q name bytes, P q → name ∉ q.registered → P (q.add name bytes isPrimary)) :
    P (p.register entries isPrimary).2 := by
  unfold register
  refine List.foldlRecOn (motive := fun s : ExtTreeSet String × ClassPath => P s.2) entries _
    (show P (∅, p).2 from hp) ?_
  intro s hs e _
  dsimp only
  split
  · exact hs
  · next hn => exact hadd s.2 e.1 e.2 hs hn

/-! ## Requests -/

/-- What a class path is used for. -/
inductive Request where
  | register (entries : List (String × Bytes)) (isPrimary : Bool)
  | ask (names : List String)

def serve (p : ClassPath) : Request → ClassPath
  | .register entries isPrimary => (p.register entries isPrimary).2
  | .ask names => p.ask names

/-- The class path over some sources after some requests. -/
def afterRequests (sources : List ClassTable) (requests : List Request) : ClassPath :=
  requests.foldl serve (ofSources sources)

theorem asRead_serve {p : ClassPath} (hp : p.hierarchy.AsRead) (q : Request) :
    (p.serve q).hierarchy.AsRead := by
  cases q with
  | register entries isPrimary =>
    exact register_induction (P := fun p => p.hierarchy.AsRead) entries isPrimary hp
      fun q name bytes hq _ => asRead_add hq name bytes isPrimary
  | ask names => exact hp

theorem asRead_afterRequests (sources : List ClassTable) (requests : List Request) :
    (afterRequests sources requests).hierarchy.AsRead :=
  List.foldlRecOn (motive := fun p : ClassPath => p.hierarchy.AsRead) _ _
    (asRead_ofSources sources) fun _ hp q _ => asRead_serve hp q

/-! ## A small class path -/

namespace Sample

open Assembly (Sketch CodeStep Declaration)

def parent : Sketch where
  name := "Parent"
  superName := none
  access := .ofModifiers [.pub, .abstract]
  declarations := [.abstractMethod (.ofModifiers [.pub]) "run" "()V"]

def child : Sketch where
  name := "Child"
  superName := some "Parent"
  access := .ofModifiers [.pub]
  declarations :=
    [.method
      { access := .ofModifiers [.pub]
        name := "run"
        descriptor := "()V"
        signature := none
        body := some [.op 0xB1] }]

/-- A class that is its own parent. -/
def loop : Sketch where
  name := "Loop"
  superName := some "Loop"
  access := .ofModifiers [.pub]
  declarations := []

def archive : List (String × Bytes) :=
  [parent, child, loop].map fun c => (c.name, c.assemble)

/-- The class path that holds just these classes. -/
def classPath : ClassPath := .afterRequests [] [.register archive true]

set_option maxRecDepth 4000 in
theorem keys_classes : classPath.hierarchy.classes.keys = ["Child", "Loop", "Parent"] := by
  decide +kernel

theorem supertypes_child : classPath.hierarchy.supertypes? "Child" = some ["Parent"] := by
  decide +kernel

theorem supertypes_loop : classPath.hierarchy.supertypes? "Loop" = some ["Loop"] := by
  decide +kernel

theorem supertypes_parent : classPath.hierarchy.supertypes? "Parent" = some [] := by
  decide +kernel

theorem edge_iff {a b : String} : classPath.hierarchy.supertypeGraph.Edge a b ↔
    a = "Child" ∧ b = "Parent" ∨ a = "Loop" ∧ b = "Loop" := by
  constructor
  · rintro ⟨l, hl, hb⟩
    have ha : a ∈ classPath.hierarchy.classes.keys := by
      refine Hierarchy.mem_keys_of_class? ?_
      have hsome : (classPath.hierarchy.supertypes? a).isSome :=
        Option.isSome_iff_exists.mpr ⟨l, hl⟩
      rwa [Hierarchy.supertypes?, Option.isSome_map] at hsome
    change classPath.hierarchy.supertypes? a = some l at hl
    simp only [keys_classes, List.mem_cons, List.not_mem_nil, or_false] at ha
    rcases ha with rfl | rfl | rfl
    · rw [supertypes_child] at hl
      cases hl
      exact Or.inl ⟨rfl, List.mem_singleton.mp hb⟩
    · rw [supertypes_loop] at hl
      cases hl
      exact Or.inr ⟨rfl, List.mem_singleton.mp hb⟩
    · rw [supertypes_parent] at hl
      cases hl
      cases hb
  · rintro (⟨rfl, rfl⟩ | ⟨rfl, rfl⟩)
    · exact ⟨["Parent"], supertypes_child, List.mem_cons_self⟩
    · exact ⟨["Loop"], supertypes_loop, List.mem_cons_self⟩

theorem eq_parent_of_edge {b : String} (h : classPath.hierarchy.supertypeGraph.Edge "Child" b) :
    b = "Parent" := by
  simpa using edge_iff.mp h

theorem not_edge_parent {b : String} : ¬ classPath.hierarchy.supertypeGraph.Edge "Parent" b := by
  simp [edge_iff]

theorem not_transGen_parent {b : String} :
    ¬ TransGen classPath.hierarchy.supertypeGraph.Edge "Parent" b := by
  intro h
  obtain ⟨c, hc, _⟩ := TransGen.head'_iff.mp h
  exact not_edge_parent hc

theorem eq_parent_of_transGen {b : String}
    (h : TransGen classPath.hierarchy.supertypeGraph.Edge "Child" b) : b = "Parent" := by
  obtain ⟨c, hc, hcb⟩ := TransGen.head'_iff.mp h
  rcases Relation.reflTransGen_iff_eq_or_transGen.mp hcb with rfl | hcb
  · exact eq_parent_of_edge hc
  · rw [eq_parent_of_edge hc] at hcb
    exact absurd hcb not_transGen_parent

end Sample

end ClassPath
end Lineage
