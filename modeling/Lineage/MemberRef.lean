import Std.Data.ExtTreeMap
import Std.Data.ExtTreeSet

/-!
References to members.  A member is known by its owner, its name and its
descriptor; within one class the name and the descriptor run together are its
key.  References are ordered by owner, then name, then descriptor.
-/

namespace Lineage

structure MemberRef where
  owner : String
  name : String
  descriptor : String
  deriving DecidableEq, Repr

namespace MemberRef

def order : MemberRef → MemberRef → Ordering :=
  compareLex (compareOn owner) (compareLex (compareOn name) (compareOn descriptor))

instance : Ord MemberRef := ⟨order⟩

instance : Std.TransOrd MemberRef :=
  inferInstanceAs (Std.TransCmp
    (compareLex (compareOn owner) (compareLex (compareOn name) (compareOn descriptor))))

instance : Std.LawfulEqOrd MemberRef where
  eq_of_compare {a b} h := by
    change order a b = .eq at h
    simp only [order, compareLex, compareOn, Ordering.then_eq_eq] at h
    obtain ⟨ho, hn, hd⟩ := h
    cases a
    cases b
    cases Std.LawfulEqOrd.eq_of_compare ho
    cases Std.LawfulEqOrd.eq_of_compare hn
    cases Std.LawfulEqOrd.eq_of_compare hd
    rfl

/-- What the method table of a class is keyed by. -/
def key (m : MemberRef) : String := m.name ++ m.descriptor

def withOwner (m : MemberRef) (owner : String) : MemberRef := { m with owner }

def render (m : MemberRef) : String := m.owner ++ "/" ++ m.name ++ m.descriptor

def sort (ms : List MemberRef) : List MemberRef :=
  ms.mergeSort fun a b => (compare a b).isLE

end MemberRef

/-- A method's name and descriptor, apart from any class. -/
structure Selector where
  name : String
  descriptor : String
  deriving DecidableEq, Repr

namespace Selector

def order : Selector → Selector → Ordering :=
  compareLex (compareOn name) (compareOn descriptor)

instance : Ord Selector := ⟨order⟩

instance : Std.TransOrd Selector :=
  inferInstanceAs (Std.TransCmp (compareLex (compareOn name) (compareOn descriptor)))

instance : Std.LawfulEqOrd Selector where
  eq_of_compare {a b} h := by
    change order a b = .eq at h
    simp only [order, compareLex, compareOn, Ordering.then_eq_eq] at h
    obtain ⟨hn, hd⟩ := h
    cases a
    cases b
    cases Std.LawfulEqOrd.eq_of_compare hn
    cases Std.LawfulEqOrd.eq_of_compare hd
    rfl

end Selector

abbrev MemberSet := Std.ExtTreeSet MemberRef

end Lineage
