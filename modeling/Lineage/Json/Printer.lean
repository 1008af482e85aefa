import Lineage.Json.Value

/-!
Printing JSON over several lines.

Every item and every member has a line of its own, two blanks further in than
the line that opens its array or object.  Empty arrays and objects stay on one
line.  Characters beyond ASCII are written as they are.
-/

namespace Lineage
namespace JsonValue

/-- The escape for a unit by its number. -/
def escapeUnit (u : Nat) : List Char :=
  ['\\', 'u', Nat.digitChar (u / 4096 % 16), Nat.digitChar (u / 256 % 16),
    Nat.digitChar (u / 16 % 16), Nat.digitChar (u % 16)]

/-- Quotes, backslashes and control characters are escaped, by one letter where
there is one. -/
def escapeChar (c : Char) : List Char :=
  if c = '"' then ['\\', '"']
  else if c = '\\' then ['\\', '\\']
  else if c = '\x08' then ['\\', 'b']
  else if c = '\x0c' then ['\\', 'f']
  else if c = '\n' then ['\\', 'n']
  else if c = '\r' then ['\\', 'r']
  else if c = '\t' then ['\\', 't']
  else if c < ' ' then escapeUnit c.toNat
  else [c]

def escape : JsonChar → List Char
  | .char c => escapeChar c
  | .half u => escapeUnit u.toNat

def quote (s : List JsonChar) : List Char := '"' :: s.flatMap escape ++ ['"']

/-- The end of a line and the margin of the next. -/
def newline (depth : Nat) : List Char := '\n' :: List.replicate (2 * depth) ' '

/-- Write items on lines of their own, with commas between them. -/
def lines (depth : Nat) : List (List Char) → List Char
  | [] => []
  | [item] => newline depth ++ item
  | item :: items => newline depth ++ item ++ ',' :: lines depth items

def enclose (depth : Nat) (opening closing : Char) (items : List (List Char)) : List Char :=
  if items.isEmpty then [opening, closing]
  else opening :: lines (depth + 1) items ++ newline depth ++ [closing]

mutual

def write (depth : Nat) : JsonValue → List Char
  | null => ['n', 'u', 'l', 'l']
  | bool b => if b then ['t', 'r', 'u', 'e'] else ['f', 'a', 'l', 's', 'e']
  | number literal => literal.toList
  | string s => quote s
  | array items => enclose depth '[' ']' (writeItems (depth + 1) items)
  | object members => enclose depth '\x7b' '\x7d' (writeMembers (depth + 1) members)

def writeItems (depth : Nat) : List JsonValue → List (List Char)
  | [] => []
  | item :: items => write depth item :: writeItems depth items

def writeMembers (depth : Nat) : List (List JsonChar × JsonValue) → List (List Char)
  | [] => []
  | (name, value) :: members =>
    (quote name ++ [':', ' '] ++ write depth value) :: writeMembers depth members

end

def pretty (v : JsonValue) : String := String.ofList (write 0 v)

end JsonValue
end Lineage
