import Lineage.Json.Reader
import Lineage.Metadata.Basic

/-!
Metadata from JSON.

An entry is read from an object, or from an array that has the values of its
members in order.  Members that are not known are passed over, but a known one
must not come twice.  In a table of entries the last of several with one name
counts.  Lists and tables may be missing but not null.
-/

namespace Lineage
namespace Metadata

open JsonValue
open Std (ExtTreeMap)

/-! ## Parts -/

def string? : JsonValue → Option String
  | .string s => text? s
  | _ => none

/-- A word of 16 bits, in plain digits. -/
def access? : JsonValue → Option Access
  | .number literal =>
    if literal.toList.all Char.isDigit then
      let n := literal.toList.foldl (fun n c => n * 10 + (c.toNat - '0'.toNat)) 0
      if n < 65536 then some ⟨UInt16.ofNat n⟩ else none
    else none
  | _ => none

def list? {α : Type} (decode : JsonValue → Option α) : JsonValue → Option (List α)
  | .array items => items.mapM decode
  | _ => none

def table? {α : Type} (decode : JsonValue → Option α) :
    JsonValue → Option (ExtTreeMap String α)
  | .object members => do
    let entries ← members.mapM fun m => do
      let name ← text? m.1
      let entry ← decode m.2
      some (name, entry)
    some (entries.foldl (fun t e => t.insert e.1 e.2) ∅)
  | _ => none

/-! ## Entries -/

def member? (members : List (String × JsonValue)) (name : String) : Option (Option JsonValue) :=
  match members.filter fun m => m.1 == name with
  | [] => some none
  | [m] => some (some m.2)
  | _ => none

/-- The values of the members of an entry, in the order of their names. -/
def values? (names : List String) : JsonValue → Option (List (Option JsonValue))
  | .object members => do
    let members ← members.mapM fun m => (text? m.1).map fun name => (name, m.2)
    names.mapM (member? members)
  | .array items =>
    if items.length ≤ names.length then
      some (items.map some ++ List.replicate (names.length - items.length) none)
    else none
  | _ => none

def required {α : Type} (decode : JsonValue → Option α) : Option JsonValue → Option α
  | some v => decode v
  | none => none

def optional {α : Type} (decode : JsonValue → Option α) : Option JsonValue → Option (Option α)
  | none | some .null => some none
  | some v => (decode v).map some

def defaulted {α : Type} (default : α) (decode : JsonValue → Option α) :
    Option JsonValue → Option α
  | none => some default
  | some v => decode v

def ref? (v : JsonValue) : Option MemberRef := do
  match ← values? ["owner", "name", "desc"] v with
  | [owner, name, descriptor] =>
    some ⟨← required string? owner, ← required string? name, ← required string? descriptor⟩
  | _ => none

def refs? (v : JsonValue) : Option MemberSet := (list? ref? v).map fun ms => .ofList ms

def FieldEntry.decode? (v : JsonValue) : Option FieldEntry := do
  match ← values? ["desc", "access", "signature", "force"] v with
  | [descriptor, access, signature, force] =>
    some
      { descriptor := ← required string? descriptor
        access := ← defaulted ⟨0⟩ access? access
        signature := ← optional string? signature
        force := ← optional string? force }
  | _ => none

def BounceEntry.decode? (v : JsonValue) : Option BounceEntry := do
  match ← values? ["target", "owner"] v with
  | [target, owner] =>
    some { target := ← required ref? target, owner := ← optional ref? owner }
  | _ => none

def MethodEntry.decode? (v : JsonValue) : Option MethodEntry := do
  match ← values? ["access", "signature", "bouncer", "force", "overrides", "parent"] v with
  | [access, signature, bouncer, force, overrides, parent] =>
    some
      { access := ← defaulted ⟨0⟩ access? access
        signature := ← optional string? signature
        bouncer := ← optional BounceEntry.decode? bouncer
        force := ← optional string? force
        overrides := ← defaulted ∅ refs? overrides
        parent := ← optional ref? parent }
  | _ => none

def ComponentEntry.decode? (v : JsonValue) : Option ComponentEntry := do
  match ← values? ["field", "desc", "methods"] v with
  | [field, descriptor, methods] =>
    some
      { field := ← required string? field
        descriptor := ← required string? descriptor
        methods := ← defaulted [] (list? string?) methods }
  | _ => none

def ClassEntry.decode? (v : JsonValue) : Option ClassEntry := do
  match ← values?
      ["superName", "interfaces", "access", "signature", "fields", "methods", "records"] v with
  | [superName, interfaces, access, signature, fields, methods, records] =>
    some
      { superName := ← optional string? superName
        interfaces := ← defaulted [] (list? string?) interfaces
        access := ← defaulted ⟨0⟩ access? access
        signature := ← optional string? signature
        fields := ← defaulted ∅ (table? FieldEntry.decode?) fields
        methods := ← defaulted ∅ (table? MethodEntry.decode?) methods
        records := ← optional (list? ComponentEntry.decode?) records }
  | _ => none

def decode? (v : JsonValue) : Option Metadata := (table? ClassEntry.decode? v).map Metadata.mk

def parse? (s : String) : Option Metadata := (JsonValue.parse? s).bind decode?

end Metadata
end Lineage
