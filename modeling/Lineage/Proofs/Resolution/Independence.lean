import Lineage.Metadata.Basic
import Lineage.Proofs.Resolution.Agreement
import Lineage.Proofs.Resolution.Runs

/-!
Resolving over class paths that agree.

If two class paths agree on classes out of which nothing leads, resolving any of
these classes asks for the same names in both, notices the same and leaves them
agreeing.  The scan over all loaded classes, too, meets only such classes.
-/

namespace Lineage

open Std (ExtTreeMap ExtTreeSet)
open Relation (ReflTransGen)

namespace ClassPath

/-- Two class paths agree on the classes in `S`, and have been asked for the same
names, all of them in `S`. -/
structure Agree (S : String → Prop) (p p' : ClassPath) : Prop where
  hierarchy : p.hierarchy.Agree S p'.hierarchy
  asked : p.asked = p'.asked
  within : ∀ name ∈ p.asked, S name
  primary : p.primary = p'.primary

namespace Agree

variable {S : String → Prop} {p p' : ClassPath}

theorem ask (hp : Agree S p p') {names : List String} (hn : ∀ name ∈ names, S name) :
    Agree S (p.ask names) (p'.ask names) where
  hierarchy := hp.hierarchy
  asked := congrArg (·.insertMany names) hp.asked
  within name hname := by
    rcases mem_asked_ask.mp hname with h | h
    · exact hp.within name h
    · exact hn name h
  primary := hp.primary

theorem isPrimary_eq (hp : Agree S p p') : p.isPrimary = p'.isPrimary := by
  funext name
  rw [ClassPath.isPrimary, ClassPath.isPrimary, hp.primary]

theorem of_mem_toList (hp : Agree S p p') {name : String} (hn : name ∈ p.asked.toList) :
    S name :=
  hp.within name (ExtTreeSet.mem_toList.mp hn)

theorem of_mem_loaded (hp : Agree S p p') {name : String} (hn : name ∈ p.loaded) : S name :=
  hp.of_mem_toList (List.mem_filter.mp hn).1

theorem loaded_eq (hp : Agree S p p') : p.loaded = p'.loaded := by
  rw [loaded, loaded, ← hp.asked]
  exact List.filter_congr fun name hn => by rw [hp.hierarchy.class?_eq (hp.of_mem_toList hn)]

theorem missing_eq (hp : Agree S p p') : p.missing = p'.missing := by
  rw [missing, missing, ← hp.asked]
  exact List.filter_congr fun name hn => by rw [hp.hierarchy.class?_eq (hp.of_mem_toList hn)]

theorem peek?_eq (hp : Agree S p p') {name : String} (hn : S name) :
    p.peek? name = p'.peek? name := by
  rw [peek?, peek?, hp.asked, hp.hierarchy.class?_eq hn]

end Agree

end ClassPath

theorem Metadata.collect_eq {S : String → Prop} {p p' : ClassPath} (hp : p.Agree S p')
    {names : List String} (hn : ∀ name ∈ names, S name) : collect p names = collect p' names := by
  unfold collect
  refine congrArg Metadata.mk (List.foldl_rel rfl fun name hname classes classes' hc => ?_)
  rw [hc, hp.peek?_eq (hn name hname)]

namespace Resolution

/-- Two resolutions over class paths that agree have noticed the same. -/
structure Agree (S : String → Prop) (r r' : Resolution) : Prop where
  path : r.path.Agree S r'.path
  findings : r.findings = r'.findings

namespace Agree

variable {S : String → Prop} {r r' : Resolution} {cls : String}

theorem record (hr : Agree S r r') (findings : List Finding) :
    Agree S (r.record findings) (r'.record findings) where
  path := hr.path
  findings := congrArg (Finding.record · findings) hr.findings

theorem withHierarchy (hr : Agree S r r') {h h' : Hierarchy} (hh : h.Agree S h') :
    Agree S { r with path := { r.path with hierarchy := h } }
      { r' with path := { r'.path with hierarchy := h' } } where
  path := { hr.path with hierarchy := hh }
  findings := hr.findings

theorem handle_closed (names : Names) (hr : Agree S r r') (hc : S cls) :
    Agree S (handle names r (.closed cls)) (handle names r' (.closed cls)) := by
  obtain ⟨hh, hf⟩ := agreed_settle names hr.path.hierarchy hc
  have hrecorded := (hr.withHierarchy hh).record (settle names cls r.path.hierarchy).2
  refine ⟨hrecorded.path, hrecorded.findings.trans ?_⟩
  exact congrArg (Finding.record r'.findings) hf

theorem unresolvedGraph {h h' : Hierarchy} (hh : h.Agree S h') :
    Graph.Agree S (unresolvedGraph h) (unresolvedGraph h') where
  next ha := by
    show ((h.class? _).filter _).map _ = ((h'.class? _).filter _).map _
    rw [hh.class?_eq ha]
  closed ha hab := hh.closed ha (edge_of_unresolved hab)

theorem resolve (names : Names) (hr : Agree S r r') (hc : S cls) :
    Agree S (r.resolve names cls) (r'.resolve names cls) := by
  have hh := hr.path.hierarchy
  have hgraph := unresolvedGraph hh
  unfold Resolution.resolve
  dsimp only
  rw [← hh.lineage_eq hc, ← hgraph.traversal_eq hc]
  have hasked : Agree S { r with path := r.path.ask (r.path.hierarchy.lineage cls) }
      { r' with path := r'.path.ask (r.path.hierarchy.lineage cls) } :=
    ⟨hr.path.ask fun name hn => hh.of_mem_lineage hc hn, hr.findings⟩
  refine List.foldl_rel hasked fun e he s s' hs => ?_
  cases e with
  | closed a => exact hs.handle_closed names (hgraph.reaches hc (Graph.reaches_of_closed_mem he).1)
  | cycle a => exact hs.record _

theorem link (hr : Agree S r r') {classes : List String} (hc : ∀ c ∈ classes, S c) :
    Agree S (r.link classes) (r'.link classes) := by
  have hh := hr.path.hierarchy
  have hbounces : classes.flatMap (bouncesOf r.path.hierarchy) =
      classes.flatMap (bouncesOf r'.path.hierarchy) :=
    List.flatMap_congr fun c hcm => bouncesOf_eq hh (hc c hcm)
  have hlinked : Hierarchy.Agree S (classes.foldl linkBouncers r.path.hierarchy)
      (classes.foldl linkBouncers r'.path.hierarchy) :=
    List.foldl_rel hh fun c hcm g g' hg => agree_linkBouncers hg (hc c hcm)
  unfold Resolution.link
  dsimp only
  rw [← hbounces]
  refine ⟨{ hr.path.ask fun name hn => ?_ with hierarchy := hlinked }, hr.findings⟩
  rcases List.mem_append.mp hn with hn | hn
  · exact hc name hn
  · obtain ⟨b, hb, rfl⟩ := List.mem_map.mp hn
    obtain ⟨c, hcm, hb⟩ := List.mem_flatMap.mp hb
    exact (inside_of_mem_bouncesOf hh (hc c hcm) hb).2.2

theorem unify (hr : Agree S r r') (hc : S cls) : Agree S (r.unify cls) (r'.unify cls) := by
  have hp : (r.path.ask [cls]).Agree S (r'.path.ask [cls]) :=
    hr.path.ask fun name hn => List.mem_singleton.mp hn ▸ hc
  have hh := hp.hierarchy
  unfold Resolution.unify
  dsimp only
  rw [← hh.class?_eq hc]
  split
  · have hlineages : ((r.path.ask [cls]).loaded.filter (· != cls)).flatMap
          (r.path.ask [cls]).hierarchy.lineage =
        ((r.path.ask [cls]).loaded.filter (· != cls)).flatMap
          (r'.path.ask [cls]).hierarchy.lineage :=
      List.flatMap_congr fun c hcm =>
        hh.lineage_eq (hp.of_mem_loaded (List.mem_filter.mp hcm).1)
    rw [← hp.loaded_eq, ← hp.isPrimary_eq, ← hlineages]
    refine ⟨{ hp.ask fun name hn => ?_ with
      hierarchy := agree_unifyInterface _ hh (fun _ => hp.of_mem_loaded) hc }, hr.findings⟩
    obtain ⟨c, hcm, hn⟩ := List.mem_flatMap.mp hn
    exact hh.of_mem_lineage (hp.of_mem_loaded (List.mem_filter.mp hcm).1) hn
  · exact ⟨hp, hr.findings⟩

/-- Resolving an archive over class paths that agree on its classes leaves them
agreeing, and notices the same. -/
theorem resolveArchive (names : Names) (hr : Agree S r r') {classes : List String}
    (hc : ∀ c ∈ classes, S c) :
    Agree S (r.resolveArchive names classes) (r'.resolveArchive names classes) := by
  have hresolved : Agree S (classes.foldl (Resolution.resolve names) (r.link classes))
      (classes.foldl (Resolution.resolve names) (r'.link classes)) :=
    List.foldl_rel (hr.link hc) fun c hcm _ _ hs => hs.resolve names (hc c hcm)
  exact List.foldl_rel hresolved fun c hcm _ _ hs => hs.unify (hc c hcm)

theorem allFindings_eq (hr : Agree S r r') : r.allFindings = r'.allFindings := by
  rw [allFindings, allFindings, hr.findings, hr.path.missing_eq]

end Agree
end Resolution
end Lineage
