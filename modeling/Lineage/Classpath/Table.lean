import Std.Data.ExtTreeMap
import Lineage.Bytes

/-! Tables of class files by class name. -/

namespace Lineage

structure ClassTable where
  entries : Std.ExtTreeMap String Bytes
  deriving DecidableEq

namespace ClassTable

def empty : ClassTable := ⟨∅⟩

def find? (t : ClassTable) (name : String) : Option Bytes := t.entries[name]?

def contains (t : ClassTable) (name : String) : Bool := t.entries.contains name

def size (t : ClassTable) : Nat := t.entries.size

def isEmpty (t : ClassTable) : Bool := t.entries.isEmpty

/-- A name that is there already gets the new bytes. -/
def insert (t : ClassTable) (name : String) (bytes : Bytes) : ClassTable :=
  ⟨t.entries.insert name bytes⟩

def ofList (entries : List (String × Bytes)) : ClassTable :=
  entries.foldl (fun t e => t.insert e.1 e.2) empty

/-- Hand out the bytes of a name, which the table then no longer has. -/
def take (t : ClassTable) (name : String) : Option Bytes × ClassTable :=
  (t.find? name, ⟨t.entries.erase name⟩)

/-- The classes of both tables.  A name that is in both has its bytes from the
first. -/
def orElse (t u : ClassTable) : ClassTable :=
  ⟨t.entries.foldl (fun r name bytes => r.insert name bytes) u.entries⟩

@[simp]
theorem find?_empty (name : String) : empty.find? name = none := by
  simp [find?, empty]

@[grind =]
theorem find?_insert (t : ClassTable) (name other : String) (bytes : Bytes) :
    (t.insert name bytes).find? other = if name = other then some bytes else t.find? other := by
  simp [find?, insert, Std.ExtTreeMap.getElem?_insert]

@[grind =]
theorem find?_take (t : ClassTable) (name other : String) :
    (t.take name).2.find? other = if name = other then none else t.find? other := by
  simp [find?, take, Std.ExtTreeMap.getElem?_erase]

end ClassTable
end Lineage
