/-!
Types as descriptors spell them.  A field type is a primitive, a class or an
array of a component type; a method type has parameters and perhaps a result.

Slots are counted in words of sixteen bits.  A count that is too large for a word
starts over at zero.
-/

namespace Lineage

/-- A word stands for its number wherever a number is wanted. -/
instance coeWord : Coe UInt16 Nat := ⟨UInt16.toNat⟩

inductive FieldType where
  | byte
  | char
  | double
  | float
  | int
  | long
  | short
  | boolean
  | object (name : String)
  | array (component : FieldType)
  deriving DecidableEq, Repr

namespace FieldType

/-- Slots that a value takes in local variables and on the operand stack. -/
def slots : FieldType → UInt16
  | double | long => 2
  | _ => 1

def isReference : FieldType → Bool
  | object _ | array _ => true
  | _ => false

/-- How often `array` has to be taken off to reach `element`. -/
def dimensions : FieldType → Nat
  | array component => component.dimensions + 1
  | _ => 0

/-- The type at the bottom of an array type, which is no array itself. -/
def element : FieldType → FieldType
  | array component => component.element
  | t => t

/-- The descriptor as characters. -/
def chars : FieldType → List Char
  | byte => ['B']
  | char => ['C']
  | double => ['D']
  | float => ['F']
  | int => ['I']
  | long => ['J']
  | short => ['S']
  | boolean => ['Z']
  | object name => 'L' :: name.toList ++ [';']
  | array component => '[' :: component.chars

def render (t : FieldType) : String := String.ofList t.chars

/-- Put another name in place of each class name that `f` has an answer for. -/
def rename (f : String → Option String) : FieldType → FieldType
  | object name => object ((f name).getD name)
  | array component => array (component.rename f)
  | t => t

end FieldType

/-- What a call takes from the operand stack, the receiver included, and what
it leaves there. -/
structure StackShape where
  arguments : UInt16
  returns : UInt16
  deriving DecidableEq, Repr

structure MethodType where
  parameters : List FieldType
  /-- `none` stands for `void`. -/
  result : Option FieldType
  deriving DecidableEq, Repr

namespace MethodType

/-- Slots taken by the parameters, the receiver not counted. -/
def parameterSlots (m : MethodType) : UInt16 :=
  m.parameters.foldr (fun t total => t.slots + total) 0

def stackShape (m : MethodType) : StackShape :=
  { arguments := 1 + m.parameterSlots
    returns := (m.result.map FieldType.slots).getD 0 }

def chars (m : MethodType) : List Char :=
  '(' :: m.parameters.flatMap FieldType.chars ++
    ')' :: (m.result.map FieldType.chars).getD ['V']

def render (m : MethodType) : String := String.ofList m.chars

def rename (f : String → Option String) (m : MethodType) : MethodType :=
  { parameters := m.parameters.map (·.rename f)
    result := m.result.map (·.rename f) }

end MethodType
end Lineage
