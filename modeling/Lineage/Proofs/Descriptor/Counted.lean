import Lineage.Proofs.Descriptor.RoundTrip

/-!
Types with the dimensions of an array counted.

A field type nests one array in another for each dimension.  Here an array has an
element and a number of dimensions, as a reader knows them that passes over all
brackets at once.  Such a type is canonical if no element is an array again and no
array is without dimensions; the canonical types are the field types in another form,
and both forms print the same, whatever the names in them are replaced with.
-/

namespace Lineage

inductive CountedType where
  | byte
  | char
  | double
  | float
  | int
  | long
  | short
  | boolean
  | object (name : String)
  | array (element : CountedType) (dimensions : Nat)
  deriving DecidableEq, Repr

namespace CountedType

def isArray : CountedType → Bool
  | array _ _ => true
  | _ => false

/-- Elements are no arrays, and arrays have dimensions. -/
def Canonical : CountedType → Prop
  | array element dimensions => element.isArray = false ∧ 1 ≤ dimensions ∧ element.Canonical
  | _ => True

/-- The class name in a type, if there is one. -/
def names : CountedType → List String
  | object name => [name]
  | array element _ => element.names
  | _ => []

/-- The characters of the descriptor, with another name in place of each class name
that `f` has an answer for. -/
def write (f : String → Option String) : CountedType → List Char
  | byte => ['B']
  | char => ['C']
  | double => ['D']
  | float => ['F']
  | int => ['I']
  | long => ['J']
  | short => ['S']
  | boolean => ['Z']
  | object name => 'L' :: ((f name).getD name).toList ++ [';']
  | array element dimensions => List.replicate dimensions '[' ++ element.write f

/-- An array of values of this type. -/
def grow : CountedType → CountedType
  | array element dimensions => array element (dimensions + 1)
  | t => array t 1

theorem canonical_grow {t : CountedType} (h : t.Canonical) : t.grow.Canonical := by
  cases t with
  | array element dimensions =>
    obtain ⟨helement, _, hcanonical⟩ := h
    exact ⟨helement, Nat.succ_le_succ (Nat.zero_le _), hcanonical⟩
  | _ => exact ⟨rfl, Nat.le_refl 1, h⟩

theorem names_grow (t : CountedType) : t.grow.names = t.names := by
  cases t <;> rfl

theorem write_grow (f : String → Option String) (t : CountedType) :
    t.grow.write f = '[' :: t.write f := by
  cases t with
  | array element dimensions => rw [grow, write, write, List.replicate_succ, List.cons_append]
  | _ => rfl

theorem grow_of_isArray_eq_false {t : CountedType} (h : t.isArray = false) :
    t.grow = array t 1 := by
  cases t with
  | array => cases h
  | _ => rfl

end CountedType

namespace FieldType

def counted : FieldType → CountedType
  | byte => .byte
  | char => .char
  | double => .double
  | float => .float
  | int => .int
  | long => .long
  | short => .short
  | boolean => .boolean
  | object name => .object name
  | array component => component.counted.grow

/-- `array` put on a number of times. -/
def arrays : Nat → FieldType → FieldType
  | 0, t => t
  | n + 1, t => array (arrays n t)

theorem canonical_counted (t : FieldType) : t.counted.Canonical := by
  induction t with
  | array component ih => exact CountedType.canonical_grow ih
  | _ => trivial

theorem names_counted (t : FieldType) : t.counted.names = t.names := by
  induction t with
  | array component ih => exact (CountedType.names_grow _).trans ih
  | _ => rfl

theorem write_counted (f : String → Option String) (t : FieldType) :
    t.counted.write f = (t.rename f).chars := by
  induction t with
  | array component ih =>
    rw [counted, CountedType.write_grow, ih]
    rfl
  | _ => rfl

theorem counted_arrays_succ {t : FieldType} (h : t.counted.isArray = false) (n : Nat) :
    (t.arrays (n + 1)).counted = .array t.counted (n + 1) := by
  induction n with
  | zero => exact CountedType.grow_of_isArray_eq_false h
  | succ n ih =>
    rw [arrays, counted, ih]
    rfl

end FieldType

namespace CountedType

def nested : CountedType → FieldType
  | byte => .byte
  | char => .char
  | double => .double
  | float => .float
  | int => .int
  | long => .long
  | short => .short
  | boolean => .boolean
  | object name => .object name
  | array element dimensions => element.nested.arrays dimensions

theorem counted_nested {t : CountedType} (h : t.Canonical) : t.nested.counted = t := by
  induction t with
  | array element dimensions ih =>
    obtain ⟨helement, hdimensions, hcanonical⟩ := h
    have hnested := ih hcanonical
    obtain ⟨n, rfl⟩ := Nat.exists_eq_add_of_le' hdimensions
    rw [nested, FieldType.counted_arrays_succ (by rw [hnested, helement]), hnested]
  | _ => rfl

end CountedType

/-! ## Method types -/

structure CountedMethod where
  parameters : List CountedType
  /-- `none` stands for `void`. -/
  result : Option CountedType
  deriving DecidableEq, Repr

namespace CountedMethod

structure Canonical (m : CountedMethod) : Prop where
  parameters : ∀ t ∈ m.parameters, t.Canonical
  result : ∀ t ∈ m.result, t.Canonical

def names (m : CountedMethod) : List String :=
  m.parameters.flatMap CountedType.names ++ (m.result.map CountedType.names).getD []

def write (f : String → Option String) (m : CountedMethod) : List Char :=
  '(' :: m.parameters.flatMap (CountedType.write f) ++
    ')' :: (m.result.map (CountedType.write f)).getD ['V']

def nested (m : CountedMethod) : MethodType :=
  { parameters := m.parameters.map CountedType.nested
    result := m.result.map CountedType.nested }

end CountedMethod

namespace MethodType

def counted (m : MethodType) : CountedMethod :=
  { parameters := m.parameters.map FieldType.counted
    result := m.result.map FieldType.counted }

theorem canonical_counted (m : MethodType) : m.counted.Canonical where
  parameters := List.forall_mem_map.mpr fun t _ => t.canonical_counted
  result := by
    intro t ht
    obtain ⟨u, _, rfl⟩ := Option.map_eq_some_iff.mp ht
    exact u.canonical_counted

theorem names_counted (m : MethodType) : m.counted.names = m.names := by
  have hnames : CountedType.names ∘ FieldType.counted = FieldType.names :=
    funext FieldType.names_counted
  rw [counted, CountedMethod.names, names, List.flatMap_map, Option.map_map, hnames]
  exact congrArg (m.parameters.flatMap · ++ _) hnames

theorem write_counted (f : String → Option String) (m : MethodType) :
    m.counted.write f = (m.rename f).chars := by
  have hwrite : CountedType.write f ∘ FieldType.counted = FieldType.chars ∘ FieldType.rename f :=
    funext (FieldType.write_counted f)
  rw [counted, CountedMethod.write, chars, rename, List.flatMap_map, List.flatMap_map,
    Option.map_map, Option.map_map, hwrite]
  exact congrArg ('(' :: m.parameters.flatMap · ++ _) hwrite

end MethodType

theorem CountedMethod.counted_nested {m : CountedMethod} (h : m.Canonical) :
    m.nested.counted = m := by
  obtain ⟨parameters, result⟩ := m
  have hparameters : (parameters.map CountedType.nested).map FieldType.counted = parameters := by
    rw [List.map_map]
    exact (List.map_congr_left fun t ht =>
      CountedType.counted_nested (h.parameters t ht)).trans (List.map_id _)
  have hresult : (result.map CountedType.nested).map FieldType.counted = result := by
    cases result with
    | none => rfl
    | some t => exact congrArg some (CountedType.counted_nested (h.result t rfl))
  rw [nested, MethodType.counted, hparameters, hresult]

end Lineage
