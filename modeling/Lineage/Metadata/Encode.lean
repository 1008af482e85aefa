import Lineage.Digest.Blake3
import Lineage.Json.Printer
import Lineage.Metadata.Basic
import Lineage.Text.Hex
import Lineage.Text.Utf8

/-!
Metadata as JSON.

Members stand in a fixed order.  A member that would say nothing is left out: an
absent value, an empty list or table, and an access word without bits.
-/

namespace Lineage
namespace Metadata

open JsonValue

abbrev Members := List (String × JsonValue)

def someMember {α : Type} (name : String) (encode : α → JsonValue) : Option α → Members
  | some a => [(name, encode a)]
  | none => []

def listMember {α : Type} (name : String) (encode : α → JsonValue) (items : List α) : Members :=
  if items.isEmpty then [] else [(name, .array (items.map encode))]

def accessMember (a : Access) : Members :=
  if a.isEmpty then [] else [("access", .ofNat a.bits.toNat)]

def encodeTable {α : Type} (encode : α → JsonValue) (t : Std.ExtTreeMap String α) : JsonValue :=
  .ofMembers (t.toList.map fun e => (e.1, encode e.2))

def tableMember {α : Type} (name : String) (encode : α → JsonValue)
    (t : Std.ExtTreeMap String α) : Members :=
  if t.isEmpty then [] else [(name, encodeTable encode t)]

def encodeRef (m : MemberRef) : JsonValue :=
  .ofMembers
    [("owner", .ofString m.owner), ("name", .ofString m.name), ("desc", .ofString m.descriptor)]

def FieldEntry.encode (f : FieldEntry) : JsonValue :=
  .ofMembers
    (("desc", .ofString f.descriptor) :: accessMember f.access ++
      someMember "signature" .ofString f.signature ++ someMember "force" .ofString f.force)

def BounceEntry.encode (b : BounceEntry) : JsonValue :=
  .ofMembers (("target", encodeRef b.target) :: someMember "owner" encodeRef b.owner)

def MethodEntry.encode (m : MethodEntry) : JsonValue :=
  .ofMembers
    (accessMember m.access ++ someMember "signature" .ofString m.signature ++
      someMember "bouncer" BounceEntry.encode m.bouncer ++
      someMember "force" .ofString m.force ++
      listMember "overrides" encodeRef m.overrides.toList ++
      someMember "parent" encodeRef m.parent)

def ComponentEntry.encode (c : ComponentEntry) : JsonValue :=
  .ofMembers
    ([("field", .ofString c.field), ("desc", .ofString c.descriptor)] ++
      listMember "methods" .ofString c.methods)

/-- An empty list of components is kept apart from no list. -/
def ClassEntry.encode (c : ClassEntry) : JsonValue :=
  .ofMembers
    (someMember "superName" .ofString c.superName ++
      listMember "interfaces" .ofString c.interfaces ++ accessMember c.access ++
      someMember "signature" .ofString c.signature ++
      tableMember "fields" FieldEntry.encode c.fields ++
      tableMember "methods" MethodEntry.encode c.methods ++
      someMember "records" (fun cs => .array (cs.map ComponentEntry.encode)) c.records)

def encode (m : Metadata) : JsonValue := encodeTable ClassEntry.encode m.classes

def render (m : Metadata) : String := m.encode.pretty

/-- The digest of the text, in hexadecimal digits. -/
def fingerprint (m : Metadata) : String := Hex.encode (Blake3.digest (Utf8.encode m.render))

end Metadata
end Lineage
