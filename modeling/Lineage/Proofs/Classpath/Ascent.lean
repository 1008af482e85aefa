import Lineage.Proofs.Classpath.Laziness
import Lineage.Proofs.Graph.Distance

/-!
Instances and ancestors.

A loader has two walks over supertypes, one that looks for a target and one that
lists ancestors.  Both count a name as known from the moment it waits, but the
first answers as soon as it takes the target from the queue, class or not, and the
second goes on to the end and passes over names without a class.  What a walk
meets is what a search over the supertype relation meets, so the answers of both
can be said by reachability alone, and all that is left behind is that the names
on the way have been read.
-/

namespace Lineage

open Relation (ReflTransGen)
open Std (ExtTreeMap ExtTreeSet)

namespace Loader

/-! ## What a walk has read -/

/-- Between two loaders, some names have been read, and nothing else has
happened. -/
structure Reads (l l' : Loader) (names : List String) : Prop where
  records : ∀ n, l'.records[n]? = if n ∈ names then l.class? n else l.records[n]?
  missing : ∀ n, n ∈ l'.missing ↔ n ∈ l.missing ∨ n ∈ names ∧ l.class? n = none
  class?_eq : ∀ n, l'.class? n = l.class? n
  registered : l'.registered = l.registered
  primary : l'.primary = l.primary
  sources : l'.runtime.map Prod.fst = l.runtime.map Prod.fst
  /-- The bytes for other names are where they were. -/
  bytes?_eq : ∀ n ∉ names, l'.bytes? n = l.bytes? n

namespace Reads

variable {l l' l'' : Loader} {names more : List String}

theorem refl (l : Loader) : Reads l l [] where
  records _ := (if_neg List.not_mem_nil).symm
  missing _ := ⟨Or.inl, fun h => h.resolve_right fun h => List.not_mem_nil h.1⟩
  class?_eq _ := rfl
  registered := rfl
  primary := rfl
  sources := rfl
  bytes?_eq _ _ := rfl

theorem trans (h : Reads l l' names) (h' : Reads l' l'' more) : Reads l l'' (names ++ more) where
  records n := by
    rw [h'.records, h.records, h.class?_eq]
    by_cases hm : n ∈ more <;> by_cases hn : n ∈ names <;> simp [hm, hn]
  missing n := by
    rw [h'.missing, h.missing, h.class?_eq, List.mem_append]
    tauto
  class?_eq n := (h'.class?_eq n).trans (h.class?_eq n)
  registered := h'.registered.trans h.registered
  primary := h'.primary.trans h.primary
  sources := h'.sources.trans h.sources
  bytes?_eq n hn := by
    rw [List.mem_append, not_or] at hn
    exact (h'.bytes?_eq n hn.2).trans (h.bytes?_eq n hn.1)

end Reads

theorem map_fst_askSources (name : String) (runtime : List (Source × List String)) :
    (askSources name runtime).2.map Prod.fst = runtime.map Prod.fst := by
  induction runtime with
  | nil => rfl
  | cons s rest ih =>
    rw [askSources]
    cases s.1.answer s.2 name with
    | some bytes => rfl
    | none => exact congrArg (s.1 :: ·) ih

@[simp]
theorem sources_fetch (l : Loader) (name : String) :
    (l.fetch name).2.runtime.map Prod.fst = l.runtime.map Prod.fst := by
  rw [fetch]
  split
  · rfl
  · exact map_fst_askSources name l.runtime

@[simp]
theorem runtime_note (l : Loader) (name : String) (c : Option ClassNode) :
    (l.note name c).runtime = l.runtime := by
  cases c <;> rfl

theorem reads_ensureLoaded (l : Loader) (name : String) :
    Reads l (l.ensureLoaded name) [name] := by
  by_cases hold : name ∈ l.records ∨ name ∈ l.missing
  · have hself : l.ensureLoaded name = l := by rw [ensureLoaded, if_pos hold]
    have hname : l.records[name]? = l.class? name := by
      rw [← get?_fst, get?, hself]
    have hmissing : l.class? name = none → name ∈ l.missing := fun hnone => by
      refine hold.resolve_left fun hr => ?_
      rw [ExtTreeMap.mem_iff_isSome_getElem?, hname, hnone] at hr
      cases hr
    rw [hself]
    refine { Reads.refl l with
      records := fun n => ?_, missing := fun n => ?_, bytes?_eq := fun _ _ => rfl }
    · by_cases hn : n = name
      · rw [hn, if_pos List.mem_cons_self, hname]
      · rw [if_neg fun h => hn (List.mem_singleton.mp h)]
    · refine ⟨Or.inl, fun h => h.elim id fun hn => ?_⟩
      obtain rfl := List.mem_singleton.mp hn.1
      exact hmissing hn.2
  · obtain ⟨hr, hm⟩ := not_or.mp hold
    have hnew := ensureLoaded_of_new hr hm
    refine
      { records := fun n => ?_
        missing := fun n => ?_
        class?_eq := class?_ensureLoaded l name
        registered := ?_
        primary := ?_
        sources := ?_
        bytes?_eq := fun n hn => ?_ }
    · by_cases hn : n = name
      · rw [hn, if_pos List.mem_cons_self]
        exact get?_fst l name
      · rw [if_neg fun h => hn (List.mem_singleton.mp h), hnew, getElem?_records_note,
          if_neg (Ne.symm hn), records_fetch]
    · rw [hnew, mem_missing_note, missing_fetch, List.mem_singleton, or_comm]
      refine or_congr_right ⟨fun h => ⟨h.2.symm, h.2 ▸ h.1⟩, fun h => ⟨h.1 ▸ h.2, h.1.symm⟩⟩
    · simp [hnew]
    · simp [hnew]
    · simp [hnew]
    · simp [hnew, bytes?_fetch_of_ne fun h => hn (List.mem_singleton.mpr h.symm)]

theorem reads_foldl (l : Loader) (names : List String) :
    Reads l (names.foldl ensureLoaded l) names := by
  induction names generalizing l with
  | nil => exact .refl l
  | cons name names ih => exact (reads_ensureLoaded l name).trans (ih (l.ensureLoaded name))

/-! ## The walk to all ancestors -/

theorem climb_cons_of_none {l : Loader} {name : String} (h : l.class? name = none)
    (rest known : List String) :
    l.climb (name :: rest) known = (l.ensureLoaded name).climb rest known := by
  rw [climb]
  split
  · rfl
  · next c hc => simp [h] at hc

theorem climb_cons_of_some {l : Loader} {name : String} {c : ClassNode}
    (h : l.class? name = some c) (rest known : List String) :
    let above := (l.ensureLoaded name).climb (Graph.enqueue c.supertypes rest known).1
      (Graph.enqueue c.supertypes rest known).2
    l.climb (name :: rest) known = (name :: above.1, above.2) := by
  rw [climb]
  split
  · next hc => simp [h] at hc
  · next c' hc =>
    obtain rfl : c = c' := by simpa [h] using hc
    rfl

/-- The walk lists the classes among the names that a search from the same
queue meets, and asks for all of these names. -/
theorem climb_eq (l : Loader) (waiting seen known : List String)
    (hknown : ∀ n, n ∈ known ↔ n ∈ seen ∨ n ∈ waiting) :
    l.climb (Graph.fresh seen waiting) known =
      ((l.supertypeGraph.visit .breadthFirst waiting seen).filter fun n => (l.class? n).isSome,
        (l.supertypeGraph.visit .breadthFirst waiting seen).foldl ensureLoaded l) := by
  generalize hs : Graph.Strategy.breadthFirst = strategy
  generalize hg : l.supertypeGraph = g
  fun_induction g.visit strategy waiting seen generalizing l known with
  | case1 seen =>
    rw [Graph.fresh, climb]
    rfl
  | case2 seen name rest hn ih =>
    rw [Graph.fresh, if_pos hn]
    exact ih l known (mem_known_of_cons hn hknown) hg
  | case3 seen name rest hn hnext ih =>
    have hnone : l.class? name = none := next_eq_none_iff.mp (hg ▸ hnext)
    rw [Graph.fresh, if_neg hn, climb_cons_of_none hnone,
      ih (l.ensureLoaded name) known (fun n => (hknown n).trans ?_)
        ((supertypeGraph_ensureLoaded l name).trans hg)]
    · simp [hnone]
    · simp only [List.mem_cons, or_assoc, or_left_comm]
  | case4 seen name rest hn parents hnext ih =>
    obtain ⟨c, hc, rfl⟩ := next_eq_some_iff.mp (hg ▸ hnext)
    subst hs
    have hknown' : ∀ n, n ∈ known ↔ n ∈ name :: seen ∨ n ∈ rest := fun n => by
      rw [hknown, List.mem_cons, List.mem_cons, or_assoc, or_left_comm]
    obtain ⟨hwaiting, hmem⟩ := Graph.enqueue_fresh c.supertypes rest (name :: seen) known hknown'
    have hrest := ih (l.ensureLoaded name) _ hmem ((supertypeGraph_ensureLoaded l name).trans hg)
    rw [Graph.fresh, if_neg hn, climb_cons_of_some hc, hwaiting]
    rw [Graph.Strategy.merge] at hrest ⊢
    rw [hrest]
    simp [hc]

/-- All ancestors: the classes that a breadth-first search meets. -/
theorem ancestors_eq (l : Loader) (name : String) :
    l.ancestors name =
      ((l.supertypeGraph.breadthFirst name).filter fun n => (l.class? n).isSome,
        (l.supertypeGraph.breadthFirst name).foldl ensureLoaded l) := by
  have hclimb := l.climb_eq [name] [] [name] fun n => by simp
  rw [Graph.fresh, if_neg List.not_mem_nil, Graph.fresh] at hclimb
  exact hclimb

theorem Mirrors.ancestors {l : Loader} {p : ClassPath} (h : Mirrors l p) (name : String) :
    (l.ancestors name).1 = p.hierarchy.ancestors name ∧
      Mirrors (l.ancestors name).2 (p.ask (p.hierarchy.lineage name)) := by
  rw [ancestors_eq, h.supertypeGraph_eq]
  refine ⟨?_, h.ensureAll _⟩
  simp only [h.class?_eq]
  rfl

/-! ## Reachability -/

/-- The names that the search for an instance has read when it ends. -/
def readBefore (l : Loader) (name target : String) : List String :=
  if name = target then []
  else (l.supertypeGraph.breadthFirst name).takeWhile (· != target)

theorem isInstance_snd (l : Loader) (name target : String) :
    (l.isInstance name target).2 = (l.readBefore name target).foldl ensureLoaded l := by
  rw [isInstance_eq, readBefore]
  split <;> rfl

theorem isInstance_fst_iff (l : Loader) (name target : String) :
    (l.isInstance name target).1 = true ↔ ReflTransGen l.supertypeGraph.Edge name target := by
  rw [isInstance_eq]
  by_cases hn : name = target
  · rw [if_pos hn]
    exact ⟨fun _ => hn ▸ .refl, fun _ => rfl⟩
  · rw [if_neg hn, scan, List.contains_iff_mem]
    exact Graph.mem_visit_iff

theorem mem_ancestors_iff (l : Loader) (name n : String) :
    n ∈ (l.ancestors name).1 ↔
      (l.class? n).isSome ∧ ReflTransGen l.supertypeGraph.Edge name n := by
  rw [ancestors_eq, List.mem_filter, Graph.mem_breadthFirst_iff, and_comm]

/-- A class is listed if the class at the bottom can be read and is an instance of
it: a way to another class starts at a class that can be read. -/
theorem mem_ancestors_iff_isInstance {l : Loader} {name n : String}
    (h : (l.class? n).isSome) :
    n ∈ (l.ancestors name).1 ↔ (l.class? name).isSome ∧ (l.isInstance name n).1 = true := by
  rw [mem_ancestors_iff, isInstance_fst_iff]
  refine ⟨fun hn => ⟨?_, hn.2⟩, fun hn => ⟨h, hn.2⟩⟩
  rcases ReflTransGen.cases_head hn.2 with rfl | ⟨above, hedge, _⟩
  · exact h
  · have hnext := hedge.isSome_next
    rwa [supertypeGraph, Option.isSome_map] at hnext

/-- What has been read before matters to neither answer. -/
theorem supertypeGraph_foldl (l : Loader) (names : List String) :
    (names.foldl ensureLoaded l).supertypeGraph = l.supertypeGraph := by
  simp only [supertypeGraph, (reads_foldl l names).class?_eq]

theorem isInstance_foldl (l : Loader) (names : List String) (name target : String) :
    ((names.foldl ensureLoaded l).isInstance name target).1 = (l.isInstance name target).1 := by
  rw [Bool.eq_iff_iff, isInstance_fst_iff, isInstance_fst_iff, supertypeGraph_foldl]

theorem ancestors_foldl (l : Loader) (names : List String) (name : String) :
    ((names.foldl ensureLoaded l).ancestors name).1 = (l.ancestors name).1 := by
  simp only [ancestors_eq, supertypeGraph_foldl, (reads_foldl l names).class?_eq]

/-- A name is an instance of those that can be reached from it over classes that
can be read, and its ancestors are the classes among them, nearer ones first.
What has been read before makes no difference, and that the names on the way
have been read is all that is left behind. -/
theorem isInstance_and_ancestors (l : Loader) (name target : String) :
    let graph := l.supertypeGraph
    ((l.isInstance name target).1 = true ↔ ReflTransGen graph.Edge name target) ∧
      (∀ n, n ∈ (l.ancestors name).1 ↔
        (l.class? n).isSome ∧ ReflTransGen graph.Edge name n) ∧
      (l.ancestors name).1.Nodup ∧
      ((l.ancestors name).1.Pairwise fun m n => graph.distance name m ≤ graph.distance name n) ∧
      ((l.class? target).isSome → (target ∈ (l.ancestors name).1 ↔
        (l.class? name).isSome ∧ (l.isInstance name target).1 = true)) ∧
      (∀ asked : List String,
        ((asked.foldl ensureLoaded l).isInstance name target).1 = (l.isInstance name target).1 ∧
          ((asked.foldl ensureLoaded l).ancestors name).1 = (l.ancestors name).1) ∧
      Reads l (l.isInstance name target).2 (l.readBefore name target) ∧
      Reads l (l.ancestors name).2 (graph.breadthFirst name) := by
  intro graph
  refine ⟨l.isInstance_fst_iff name target, l.mem_ancestors_iff name, ?_, ?_,
    mem_ancestors_iff_isInstance,
    fun asked => ⟨l.isInstance_foldl asked name target, l.ancestors_foldl asked name⟩, ?_, ?_⟩
  · rw [ancestors_eq]
    exact (Graph.nodup_visit graph .breadthFirst [name] []).filter _
  · rw [ancestors_eq]
    exact (graph.pairwise_breadthFirst name).filter _
  · rw [isInstance_snd]
    exact l.reads_foldl _
  · rw [ancestors_eq]
    exact l.reads_foldl _

/-- A name under which there is no class is an instance of itself, and is not
listed among its own ancestors. -/
example : ((Loader.ofSources []).isInstance "Child" "Child").1 = true ∧
    "Child" ∉ ((Loader.ofSources []).ancestors "Child").1 := by
  refine ⟨((Loader.ofSources []).isInstance_fst_iff _ _).mpr .refl, fun h => ?_⟩
  have hclass := (((Loader.ofSources []).mem_ancestors_iff _ _).mp h).1
  revert hclass
  decide +kernel

end Loader
end Lineage
