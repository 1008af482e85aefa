import Lineage.Json.Token

/-!
Reading JSON text.

The reader goes through the tokens once and keeps the arrays and objects that
have been begun, innermost first.  Exactly one value makes a text.
-/

namespace Lineage
namespace JsonValue

/-- An array or an object that has been begun, with what it has so far in
reverse order.  An object waits for the value of its member `name`. -/
inductive Frame where
  | array (items : List JsonValue)
  | object (members : List (List JsonChar × JsonValue)) (name : List JsonChar)

mutual

/-- Read on where a value has to come. -/
def expectValue : List JsonToken → List Frame → Option JsonValue
  | .null :: ts, k => continueWith .null ts k
  | .bool b :: ts, k => continueWith (.bool b) ts k
  | .number literal :: ts, k => continueWith (.number literal) ts k
  | .string s :: ts, k => continueWith (.string s) ts k
  | .openBracket :: .closeBracket :: ts, k => continueWith (.array []) ts k
  | .openBracket :: ts, k => expectValue ts (.array [] :: k)
  | .openBrace :: .closeBrace :: ts, k => continueWith (.object []) ts k
  | .openBrace :: .string name :: .colon :: ts, k => expectValue ts (.object [] name :: k)
  | _, _ => none

/-- Read on after a value. -/
def continueWith (v : JsonValue) : List JsonToken → List Frame → Option JsonValue
  | [], [] => some v
  | .comma :: ts, .array items :: k => expectValue ts (.array (v :: items) :: k)
  | .closeBracket :: ts, .array items :: k =>
    continueWith (.array (v :: items).reverse) ts k
  | .comma :: .string name' :: .colon :: ts, .object members name :: k =>
    expectValue ts (.object ((name, v) :: members) name' :: k)
  | .closeBrace :: ts, .object members name :: k =>
    continueWith (.object ((name, v) :: members).reverse) ts k
  | _, _ => none

end

def ofTokens? (ts : List JsonToken) : Option JsonValue := expectValue ts []

def parse? (s : String) : Option JsonValue := (JsonToken.scan s.toList).bind ofTokens?

end JsonValue
end Lineage
