import Lineage.Archive.Deflate
import Lineage.Digest.Crc32
import Lineage.Text.Cp437
import Lineage.Text.Utf8

/-!
Zip archives.

An archive is found from its end: a closing record says where the directory of
its entries begins, and the directory where the entries are.  Bytes in front of
the archive shift all these places by the same amount.  All numbers have their
low byte first.
-/

namespace Lineage
namespace Zip

/-! ## Fields -/

abbrev Fields := StateT Bytes Option

def take (n : Nat) : Fields Bytes := fun b =>
  if (b.take n).length = n then some (b.take n, b.drop n) else none

def value (b : Bytes) : Nat := b.foldr (fun x n => x.toNat + 256 * n) 0

def number (size : Nat) : Fields Nat := value <$> take size

def skip (n : Nat) : Fields Unit := do
  let _ ← take n

def expect (signature : Bytes) : Fields Unit := do
  if (← take signature.length) = signature then return () else failure

/-! ## The closing record -/

structure Closing where
  position : Nat
  disk : Nat
  directoryDisk : Nat
  entriesHere : Nat
  entries : Nat
  directorySize : Nat
  directoryOffset : Nat

namespace Closing

def signature : Bytes := [0x50, 0x4B, 0x05, 0x06]

def minLength : Nat := 22

def fields (position : Nat) : Fields Closing := do
  expect signature
  let disk ← number 2
  let directoryDisk ← number 2
  let entriesHere ← number 2
  let entries ← number 2
  let directorySize ← number 4
  let directoryOffset ← number 4
  skip (← number 2)
  return { position, disk, directoryDisk, entriesHere, entries, directorySize, directoryOffset }

/-- Go back over some bytes, which are in reverse order, until what follows
starts with the signature. -/
def seek : (steps : Nat) → (before after : Bytes) → Option Bytes
  | 0, _, after => if signature.isPrefixOf after then some after else none
  | steps + 1, before, after =>
    if signature.isPrefixOf after then some after
    else
      match before with
      | [] => none
      | b :: before => seek steps before (b :: after)

/-- The last closing record of a file.  After it there is at most the longest
comment. -/
def find? (b : Bytes) : Option Closing :=
  if b.length < minLength then none
  else do
    let cut := b.length - minLength
    let found ← seek 0xFFFF (b.take cut).reverse (b.drop cut)
    let (closing, _) ← (fields (b.length - found.length)).run found
    some closing

/-- Some field has its largest value, which means that it is not used. -/
def isOpen (c : Closing) : Bool :=
  c.disk == 0xFFFF || c.directoryDisk == 0xFFFF || c.entriesHere == 0xFFFF ||
    c.entries == 0xFFFF || c.directorySize == 0xFFFFFFFF || c.directoryOffset == 0xFFFFFFFF

/-- How many bytes stand in front of the archive.  An archive on several disks
cannot be read. -/
def shift? (c : Closing) : Option Nat :=
  if !c.isOpen && c.disk != c.directoryDisk then none
  else if c.directorySize + c.directoryOffset ≤ c.position then
    some (c.position - c.directorySize - c.directoryOffset)
  else none

end Closing

/-! ## The directory -/

structure Entry where
  name : String
  encrypted : Bool
  method : Nat
  checksum : Nat
  packedSize : Nat
  /-- How long the content is said to be. -/
  size : Nat
  position : Nat
  deriving DecidableEq, Repr

namespace Entry

def signature : Bytes := [0x50, 0x4B, 0x01, 0x02]

/-- A flag says that a name is UTF-8. -/
def decodeName (flags : Nat) (b : Bytes) : String :=
  String.ofList (if flags.testBit 11 then Utf8.decodeLossy b else Cp437.decode b)

def fields (shift : Nat) : Fields Entry := do
  expect signature
  skip 4
  let flags ← number 2
  let method ← number 2
  skip 4
  let checksum ← number 4
  let packedSize ← number 4
  let size ← number 4
  let nameLength ← number 2
  let extraLength ← number 2
  let commentLength ← number 2
  skip 8
  let offset ← number 4
  let name ← take nameLength
  skip extraLength
  skip commentLength
  return {
    name := decodeName flags name
    encrypted := flags.testBit 0
    method
    checksum
    packedSize
    size
    position := offset + shift }

def directory (shift : Nat) : Nat → Fields (List Entry)
  | 0 => return []
  | n + 1 => do
    let entry ← fields shift
    let entries ← directory shift n
    return entry :: entries

def isDirectory (e : Entry) : Bool := e.name.endsWith "/" || e.name.endsWith "\\"

end Entry

/-! ## Contents -/

inductive Content where
  /-- The entry is packed in a way that is not known, or is not where it should
  be. -/
  | unreadable
  | damaged
  | intact (b : Bytes)
  deriving DecidableEq, Repr

def Content.isIntact : Content → Bool
  | intact _ => true
  | _ => false

namespace Entry

def localSignature : Bytes := [0x50, 0x4B, 0x03, 0x04]

/-- The packed bytes, as far as they are there. -/
def packed? (e : Entry) (archive : Bytes) : Option Bytes := do
  let skipHeader : Fields Unit := do
    expect localSignature
    skip 22
    let nameLength ← number 2
    let extraLength ← number 2
    modify (·.drop (nameLength + extraLength))
  let (_, rest) ← skipHeader.run (archive.drop e.position)
  some (rest.take e.packedSize)

def unpack? (method : Nat) (packed : Bytes) : Option Bytes :=
  if method = 0 then some packed else Deflate.inflate packed

def isKnown (method : Nat) : Bool := method == 0 || method == 8

/-- The content of an entry.  Only stored and deflated entries can be read, and
what comes out must have the checksum that the directory gives. -/
def content (e : Entry) (archive : Bytes) : Content :=
  if e.encrypted || !isKnown e.method then .unreadable
  else
    match e.packed? archive with
    | none => .unreadable
    | some packed =>
      match unpack? e.method packed with
      | none => .damaged
      | some b =>
        if (Crc32.checksum b).toNat = e.checksum then .intact b else .damaged

theorem content_of_encrypted {e : Entry} (h : e.encrypted = true) (archive : Bytes) :
    e.content archive = .unreadable := by
  rw [content, h, Bool.true_or, if_pos rfl]

theorem content_of_not_isKnown {e : Entry} (h : isKnown e.method = false) (archive : Bytes) :
    e.content archive = .unreadable := by
  rw [content, h, Bool.not_false, Bool.or_true, if_pos rfl]

theorem checksum_of_content {e : Entry} {archive b : Bytes} (h : e.content archive = .intact b) :
    (Crc32.checksum b).toNat = e.checksum := by
  rw [content] at h
  split at h
  · cases h
  · split at h
    · cases h
    · split at h
      · cases h
      · split at h
        · next hsum =>
          cases h
          exact hsum
        · cases h

end Entry

/-! ## Archives -/

/-- The entries of an archive with their contents, in the order of the
directory. -/
def entries? (b : Bytes) : Option (List (Entry × Content)) := do
  let closing ← Closing.find? b
  let shift ← closing.shift?
  let (entries, _) ←
    (Entry.directory shift closing.entriesHere).run (b.drop (closing.directoryOffset + shift))
  some (entries.map fun e => (e, e.content b))

theorem content_of_entries? {b : Bytes} {entries : List (Entry × Content)}
    (h : entries? b = some entries) {e : Entry × Content} (he : e ∈ entries) :
    e.2 = e.1.content b := by
  simp only [entries?, Option.bind_eq_bind, Option.bind_eq_some_iff, Option.some.injEq] at h
  obtain ⟨_, _, _, _, _, _, rfl⟩ := h
  obtain ⟨entry, _, rfl⟩ := List.mem_map.mp he
  rfl

/-- What makes entries of the bytes of an archive.  Archives come in more forms than
the one above, and it is up to a reader which of them it takes.  But an entry
that is encrypted, or packed in a way that the reader does not know, is not
opened, and content that is taken for intact has the checksum that the directory
gives. -/
structure Reader where
  entries? : Bytes → Option (List (Entry × Content))
  knows : (method : Nat) → Bool
  unreadable_of_encrypted : ∀ {b entries}, entries? b = some entries → ∀ e ∈ entries,
    e.1.encrypted = true → e.2 = .unreadable
  unreadable_of_unknown : ∀ {b entries}, entries? b = some entries → ∀ e ∈ entries,
    knows e.1.method = false → e.2 = .unreadable
  checksum_of_intact : ∀ {b entries}, entries? b = some entries → ∀ e ∈ entries,
    ∀ content, e.2 = .intact content → (Crc32.checksum content).toNat = e.1.checksum

namespace Reader

/-- The reader for archives without extended fields. -/
def plain : Reader where
  entries? := Zip.entries?
  knows := Entry.isKnown
  unreadable_of_encrypted h _ he hencrypted :=
    (content_of_entries? h he).trans (Entry.content_of_encrypted hencrypted _)
  unreadable_of_unknown h _ he hmethod :=
    (content_of_entries? h he).trans (Entry.content_of_not_isKnown hmethod _)
  checksum_of_intact h _ he _ hintact :=
    Entry.checksum_of_content ((content_of_entries? h he).symm.trans hintact)

end Reader

/-- The longest that a list of bytes can be. -/
def capacity : Nat := 0x7FFFFFFFFFFFFFFF

/-- There is room for the content of an entry, as long as it is said to be.  None is
needed for one that cannot be opened. -/
def fits (e : Entry × Content) : Bool := e.2 == .unreadable || e.1.size ≤ capacity

end Zip
end Lineage
