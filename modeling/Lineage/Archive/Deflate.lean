import Lineage.Bytes

/-!
Unpacking deflated data.

The data are a sequence of bits, the low bit of a byte first.  They form blocks,
and a block holds bytes as they are or elements in a prefix code, of which each
is a byte or a reference to bytes before it.  Data that break off give what they
have given so far; data that break the rules give nothing.
-/

namespace Lineage
namespace Deflate

inductive Fault where
  | cutShort
  | corrupt
  deriving DecidableEq, Repr

structure State where
  bits : List Bool
  out : Array UInt8

abbrev Unpacker := ExceptT Fault (StateM State)

def bitsOf (b : Bytes) : List Bool :=
  b.flatMap fun x => (List.range 8).map fun i => x.toNat.testBit i

/-! ## Bits -/

def bit : Unpacker Bool := do
  match (← get).bits with
  | [] => throw .cutShort
  | b :: bits => do
    modify fun s => { s with bits }
    return b

/-- A number of some bits, the low bit first. -/
def number : Nat → Unpacker Nat
  | 0 => return 0
  | n + 1 => do
    let low ← bit
    let high ← number n
    return low.toNat + 2 * high

def align : Unpacker Unit :=
  modify fun s => { s with bits := s.bits.drop (s.bits.length % 8) }

def emit (byte : UInt8) : Unpacker Unit := modify fun s => { s with out := s.out.push byte }

/-! ## Prefix codes -/

structure Code where
  /-- How many code words there are of 1, 2, … bits. -/
  counts : List Nat
  /-- The symbols in the order of their code words. -/
  symbols : Array Nat

def maxLength : Nat := 15

/-- The canonical code with code words of some lengths, where zero stands for a
symbol without one.  Two symbols or more must use up all code words. -/
def Code.ofLengths? (lengths : List Nat) : Option Code :=
  let sizes := (List.range maxLength).map (· + 1)
  let counts := sizes.map lengths.count
  let room := sizes.foldr (fun n total => lengths.count n <<< (maxLength - n) + total) 0
  if 1 < lengths.countP (· != 0) && room != 1 <<< maxLength then none
  else
    some
      { counts
        symbols := (sizes.flatMap fun n => lengths.zipIdx.filterMap fun l =>
          if l.1 = n then some l.2 else none).toArray }

/-- Read a code word.  `first` is the first word of the length reached, and
`index` the number of shorter words. -/
def decodeWord (symbols : Array Nat) : List Nat → (word first index : Nat) → Unpacker Nat
  | [], _, _, _ => throw .corrupt
  | count :: counts, word, first, index => do
    let word := 2 * word + (← bit).toNat
    if word < first + count then
      match symbols[index + (word - first)]? with
      | some symbol => return symbol
      | none => throw .corrupt
    else decodeWord symbols counts word (2 * (first + count)) (index + count)

def Code.decode (c : Code) : Unpacker Nat := decodeWord c.symbols c.counts 0 0 0

def code (lengths : List Nat) : Unpacker Code :=
  match Code.ofLengths? lengths with
  | some c => return c
  | none => throw .corrupt

/-! ## Elements -/

/-- The least length that a symbol stands for, and how many bits follow to be
added to it. -/
def lengths : List (Nat × Nat) :=
  [(3, 0), (4, 0), (5, 0), (6, 0), (7, 0), (8, 0), (9, 0), (10, 0), (11, 1), (13, 1), (15, 1),
    (17, 1), (19, 2), (23, 2), (27, 2), (31, 2), (35, 3), (43, 3), (51, 3), (59, 3), (67, 4),
    (83, 4), (99, 4), (115, 4), (131, 5), (163, 5), (195, 5), (227, 5), (258, 0)]

def distances : List (Nat × Nat) :=
  [(1, 0), (2, 0), (3, 0), (4, 0), (5, 1), (7, 1), (9, 2), (13, 2), (17, 3), (25, 3), (33, 4),
    (49, 4), (65, 5), (97, 5), (129, 6), (193, 6), (257, 7), (385, 7), (513, 8), (769, 8),
    (1025, 9), (1537, 9), (2049, 10), (3073, 10), (4097, 11), (6145, 11), (8193, 12),
    (12289, 12), (16385, 13), (24577, 13)]

def quantity (ranges : List (Nat × Nat)) (symbol : Nat) : Unpacker Nat :=
  match ranges[symbol]? with
  | some (base, extra) => return base + (← number extra)
  | none => throw .corrupt

/-- Repeat bytes from some distance back, one after the other. -/
def copy (distance : Nat) : Nat → Unpacker Unit
  | 0 => return ()
  | n + 1 => do
    let out := (← get).out
    match out[out.size - distance]? with
    | some byte => emit byte
    | none => throw .corrupt
    copy distance n

def endOfBlock : Nat := 256

/-- Unpack one element, and answer whether the block goes on. -/
def element (literals references : Code) : Unpacker Bool := do
  let symbol ← literals.decode
  if symbol < endOfBlock then do
    emit (UInt8.ofNat symbol)
    return true
  else if symbol = endOfBlock then return false
  else do
    let length ← quantity lengths (symbol - endOfBlock - 1)
    let distance ← quantity distances (← references.decode)
    if (← get).out.size < distance then throw .corrupt
    copy distance length
    return true

/-- Unpack elements up to the end of the block.  Each takes a bit at least, so
`fuel` has only to exceed the number of bits. -/
def elements (literals references : Code) : (fuel : Nat) → Unpacker Unit
  | 0 => throw .corrupt
  | fuel + 1 => do
    if ← element literals references then elements literals references fuel

/-! ## Blocks -/

def storedBytes : Nat → Unpacker Unit
  | 0 => return ()
  | n + 1 => do
    emit (UInt8.ofNat (← number 8))
    storedBytes n

/-- A block of bytes as they are.  Its length comes twice, the second time with
all bits turned. -/
def stored : Unpacker Unit := do
  align
  let length ← number 16
  let turned ← number 16
  if length + turned = 0xFFFF then storedBytes length else throw .corrupt

def fixedLengths : List Nat :=
  List.replicate 144 8 ++ List.replicate 112 9 ++ List.replicate 24 7 ++ List.replicate 8 8

/-- The order in which the lengths of the code for lengths come. -/
def lengthOrder : List Nat := [16, 17, 18, 0, 8, 7, 9, 6, 10, 5, 11, 4, 12, 3, 13, 2, 14, 1, 15]

def numbers (size : Nat) : Nat → Unpacker (List Nat)
  | 0 => return []
  | n + 1 => do
    let first ← number size
    let rest ← numbers size n
    return first :: rest

/-- Read code lengths until there are as many as wanted.  `fuel` bounds the
symbols read. -/
def codeLengths (c : Code) (wanted : Nat) : (fuel : Nat) → List Nat → Unpacker (List Nat)
  | 0, _ => throw .corrupt
  | fuel + 1, done => do
    if done.length = wanted then return done
    else if wanted < done.length then throw .corrupt
    else do
      let symbol ← c.decode
      if symbol < 16 then codeLengths c wanted fuel (done ++ [symbol])
      else if symbol = 16 then do
        match done.getLast? with
        | some last => do
          let n ← number 2
          codeLengths c wanted fuel (done ++ List.replicate (3 + n) last)
        | none => throw .corrupt
      else if symbol = 17 then do
        let n ← number 3
        codeLengths c wanted fuel (done ++ List.replicate (3 + n) 0)
      else do
        let n ← number 7
        codeLengths c wanted fuel (done ++ List.replicate (11 + n) 0)

/-- The codes for literals and for distances that a block brings along. -/
def dynamicCodes : Unpacker (Code × Code) := do
  let literalCount := 257 + (← number 5)
  let distanceCount := 1 + (← number 5)
  let lengthCount := 4 + (← number 4)
  if 286 < literalCount || 30 < distanceCount then throw .corrupt
  let given ← numbers 3 lengthCount
  let own := (List.range 19).map fun symbol => ((lengthOrder.zip given).lookup symbol).getD 0
  let all ← codeLengths (← code own) (literalCount + distanceCount)
    (literalCount + distanceCount + 1) []
  return (← code (all.take literalCount), ← code (all.drop literalCount))

/-- Unpack a block, and answer whether it is the last. -/
def block (fuel : Nat) : Unpacker Bool := do
  let last ← bit
  match ← number 2 with
  | 0 => stored
  | 1 => elements (← code fixedLengths) (← code (List.replicate 32 5)) fuel
  | 2 => do
    let (literals, references) ← dynamicCodes
    elements literals references fuel
  | _ => throw .corrupt
  return last

def blocks (size : Nat) : (fuel : Nat) → Unpacker Unit
  | 0 => throw .corrupt
  | fuel + 1 => do
    if ← block size then return () else blocks size fuel

def inflate (b : Bytes) : Option Bytes :=
  let bits := bitsOf b
  let size := bits.length + 1
  match (blocks size size).run { bits, out := #[] } with
  | (.error .corrupt, _) => none
  | (_, s) => some s.out.toList

end Deflate
end Lineage
