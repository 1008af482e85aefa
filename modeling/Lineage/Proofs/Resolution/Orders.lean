import Lineage.Proofs.Resolution.Evaluation
import Lineage.Proofs.Resolution.Sources

/-!
Resolving the same classes in another order.

A class that takes over an abstract method gives it, as a root, to the method of
a class above.  Whether a sibling's method takes over this root depends on which
of the two classes comes first, so root sets depend on the order.  Families do
not: the sibling's method either has the root or the method that got it.  And
root sets do not where the class that binds is above all that override the
method it binds.
-/

namespace Lineage

open Std (ExtTreeSet)
open Relation (EqvGen ReflTransGen TransGen)

namespace Resolution

open Hierarchy (Acyclic Alike Keyed)

/-! ## Families -/

/-- The class is one of these or above one of them. -/
def Reached (h : Hierarchy) (classes : List String) (cls : String) : Prop :=
  ∃ n ∈ classes, ReflTransGen h.supertypeGraph.Edge n cls

/-- All classes that bind something to what the method at `r` overrides are
above the method. -/
def Early (h : Hierarchy) (classes : List String) (r : MemberRef) : Prop :=
  ∀ s, h.Overrides r s → ∀ cls x, Reached h classes cls → Binds h cls s x →
    TransGen h.supertypeGraph.Edge r.owner cls

/-- The method at `r` has as roots just what it implements and the roots that
what it overrides has now. -/
def Exact (h : Hierarchy) (r : MemberRef) (m : MethodNode) : Prop :=
  ∀ x, x ∈ m.overrides ↔ (∃ cls, h.isResolved cls ∧ Binds h cls r x) ∨
    ∃ k, h.method? k.ref = some k ∧ h.Overrides r k.ref ∧ x ∈ k.roots

section Settle

variable {h₀ h : Hierarchy} {classes : List String} {names : Names} {cls : String} {r : MemberRef}

/-- Nothing is bound any more to what a method overrides that has been linked. -/
theorem Early.not_binds (hearly : Early h₀ classes r) (ht : Traced h) (ha : Alike h₀ h)
    (hready : Ready h cls) (hreached : Reached h₀ classes cls)
    (hr : h.isResolved r.owner ∨ r.owner = cls) {s x : MemberRef} (hover : h.Overrides r s) :
    ¬ Binds h cls s x := by
  intro hb
  have habove := hearly s (hover.of_alike ha.symm) cls x hreached (hb.of_alike ha.symm)
  rw [ha.supertypeGraph] at habove
  rcases hr with hr | rfl
  · exact hready.unresolved (ht.above hr habove hready.loaded)
  · exact ht.acyclic r.owner habove

theorem Early.roots_settle (hearly : Early h₀ classes r) (ht : Traced h) (ha : Alike h₀ h)
    (hready : Ready h cls) (hreached : Reached h₀ classes cls)
    (hr : h.isResolved r.owner ∨ r.owner = cls) {x : MemberRef} :
    (∃ k, (settle names cls h).1.method? k.ref = some k ∧
      (settle names cls h).1.Overrides r k.ref ∧ x ∈ k.roots) ↔
      ∃ k, h.method? k.ref = some k ∧ h.Overrides r k.ref ∧ x ∈ k.roots := by
  have halike := alike_settle names cls h
  refine (Hierarchy.exists_mem_roots_iff halike fun k k' hk hk' hover => ?_).symm
  have href : k'.ref = k.ref := MethodNode.ref_eq (halike.keyed_ref hk hk')
  obtain ⟨n, hn, _, hrooted⟩ := ht.rooted_settle names hready hk' href
  cases hk.symm.trans hn
  refine MethodNode.roots_eq hrooted.bare (ExtTreeSet.ext_mem fun y => ?_)
  rw [hrooted.other (ht.ne_of_overrides hready hr hover),
    or_iff_left (hearly.not_binds ht ha hready hreached hr hover)]

protected theorem Exact.settle (hearly : Early h₀ classes r) (ht : Traced h) (ha : Alike h₀ h)
    (hready : Ready h cls) (hreached : Reached h₀ classes cls)
    (hexact : ∀ m, h.method? r = some m → m.ref = r → h.isResolved r.owner → Exact h r m)
    {m' : MethodNode} (hm' : (settle names cls h).1.method? r = some m') (hr : m'.ref = r)
    (hresolved : (settle names cls h).1.isResolved r.owner) :
    Exact (settle names cls h).1 r m' := by
  rw [hready.isResolved_settle_iff] at hresolved
  obtain ⟨m, hm, hmr, hrooted⟩ := ht.rooted_settle names hready hm' hr
  intro x
  rw [hready.exists_binds_settle names, hearly.roots_settle ht ha hready hreached hresolved]
  by_cases howner : r.owner = cls
  · have hnone : ¬ ∃ c, h.isResolved c ∧ Binds h c r x := fun ⟨_, hc, hb⟩ =>
      ht.ne_of_binds hready hc hb howner
    rw [hrooted.own howner x, or_iff_right hnone, or_comm]
  · rw [hrooted.other howner x, hexact m hm hmr (hresolved.resolve_right howner) x,
      or_right_comm]

end Settle

/-! ## Two orders -/

section Orders

variable {names : Names} {path : ClassPath} {classes : List String}

/-- For the method at `r` and all that it overrides, the classes that bind
something to what these override are above them. -/
def Undisturbed (h : Hierarchy) (classes : List String) (r : MemberRef) : Prop :=
  ∀ q, q = r ∨ h.Overrides r q → Early h classes q

end Orders

namespace Sample

def task : Assembly.Sketch where
  name := "Task"
  superName := none
  access := .ofModifiers [.pub, .interface, .abstract]
  declarations := [.abstractMethod (.ofModifiers [.pub]) "run" "()V"]

/-- A class that takes over the method of an interface and implements it with
the method of its superclass. -/
def job : Assembly.Sketch := plain "Job" (some "Base") [.interface "Task"]

def siblings : ClassPath :=
  .afterRequests [] [.register (archive [base, child, job, task]) true]

end Sample

end Resolution
end Lineage
