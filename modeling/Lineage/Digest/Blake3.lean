import Lineage.Bytes

/-!
BLAKE3, with digests of 256 bits.

The input is cut into chunks, and these are the leaves of a binary tree.  A node
stands for a last compression that has not been carried out yet, since the one
at the root is carried out differently from all others.
-/

namespace Lineage
namespace Blake3

abbrev Words (n : Nat) := Vector UInt32 n

def initial : Words 8 :=
  #v[0x6A09E667, 0xBB67AE85, 0x3C6EF372, 0xA54FF53A, 0x510E527F, 0x9B05688C, 0x1F83D9AB,
    0x5BE0CD19]

/-- Where each word of a message goes for the next round. -/
def permutation : Vector (Fin 16) 16 :=
  #v[2, 6, 3, 10, 7, 0, 4, 13, 1, 11, 12, 5, 9, 14, 15, 8]

def permute (message : Words 16) : Words 16 := permutation.map fun i => message[i]

def rotateRight (w : UInt32) (n : UInt32) : UInt32 := w >>> n ||| w <<< (32 - n)

/-- Mix two words of the message into four words of the state. -/
def mix (s : Words 16) (a b c d : Fin 16) (x y : UInt32) : Words 16 :=
  let a₁ := s[a] + s[b] + x
  let d₁ := rotateRight (s[d] ^^^ a₁) 16
  let c₁ := s[c] + d₁
  let b₁ := rotateRight (s[b] ^^^ c₁) 12
  let a₂ := a₁ + b₁ + y
  let d₂ := rotateRight (d₁ ^^^ a₂) 8
  let c₂ := c₁ + d₂
  let b₂ := rotateRight (b₁ ^^^ c₂) 7
  (((s.set a a₂).set b b₂).set c c₂).set d d₂

/-- Mix columns, then diagonals. -/
def round (s m : Words 16) : Words 16 :=
  let s := mix s 0 4 8 12 m[0] m[1]
  let s := mix s 1 5 9 13 m[2] m[3]
  let s := mix s 2 6 10 14 m[4] m[5]
  let s := mix s 3 7 11 15 m[6] m[7]
  let s := mix s 0 5 10 15 m[8] m[9]
  let s := mix s 1 6 11 12 m[10] m[11]
  let s := mix s 2 7 8 13 m[12] m[13]
  mix s 3 4 9 14 m[14] m[15]

/-- Rounds with the message permuted between them. -/
def rounds : Nat → Words 16 → Words 16 → Words 16
  | 0, s, _ => s
  | n + 1, s, m => rounds n (round s m) (permute m)

/-! ## Nodes -/

structure Node where
  chain : Words 8
  block : Words 16
  counter : UInt64
  blockLength : UInt32
  flags : UInt32

namespace Node

def chunkStart : UInt32 := 1

def chunkEnd : UInt32 := 2

def parentFlag : UInt32 := 4

def rootFlag : UInt32 := 8

/-- The first half of the compressed state. -/
def compress (n : Node) : Words 8 :=
  let tail : Words 8 :=
    #v[initial[0], initial[1], initial[2], initial[3], n.counter.toUInt32,
      (n.counter >>> 32).toUInt32, n.blockLength, n.flags]
  let s := rounds 7 (n.chain ++ tail) n.block
  Vector.ofFn fun i : Fin 8 => s[i.val] ^^^ s[i.val + 8]

def parent (left right : Node) : Node :=
  { chain := initial, block := left.compress ++ right.compress, counter := 0,
    blockLength := 64, flags := parentFlag }

def root (n : Node) : Words 8 := compress { n with flags := n.flags ||| rootFlag }

end Node

/-! ## Chunks -/

/-- The words of a block, filled up with zeros. -/
def blockWords (b : Bytes) : Words 16 :=
  let a := b.toArray
  let byte (i : Nat) : UInt32 := ((a[i]?).getD 0).toUInt32
  Vector.ofFn fun i : Fin 16 =>
    byte (4 * i) ||| byte (4 * i + 1) <<< 8 ||| byte (4 * i + 2) <<< 16 |||
      byte (4 * i + 3) <<< 24

/-- Compress all blocks of a chunk but the last.  `flags` marks the first. -/
def chunkFrom (counter : UInt64) (chain : Words 8) (flags : UInt32) (b : Bytes) : Node :=
  if _h : b.length ≤ 64 then
    { chain, block := blockWords b, counter, blockLength := UInt32.ofNat b.length,
      flags := flags ||| Node.chunkEnd }
  else
    let node : Node :=
      { chain, block := blockWords (b.take 64), counter, blockLength := 64, flags }
    chunkFrom counter node.compress 0 (b.drop 64)
  termination_by b.length
  decreasing_by
    rw [List.length_drop]
    omega

def chunk (counter : Nat) (b : Bytes) : Node :=
  chunkFrom (UInt64.ofNat counter) initial Node.chunkStart b

/-- The leaves for the chunks of an input, counted from `counter`. -/
def chunks (counter : Nat) (b : Bytes) : List Node :=
  if _h : b.length ≤ 1024 then [chunk counter b]
  else chunk counter (b.take 1024) :: chunks (counter + 1) (b.drop 1024)
  termination_by b.length
  decreasing_by
    rw [List.length_drop]
    omega

/-! ## The tree -/

/-- Join neighbours.  The last of an odd number goes up as it is. -/
def level : List Node → List Node
  | a :: b :: rest => Node.parent a b :: level rest
  | rest => rest

theorem length_level (nodes : List Node) : (level nodes).length = (nodes.length + 1) / 2 := by
  fun_induction level nodes with
  | case1 a b rest ih =>
    simp only [List.length_cons, ih]
    omega
  | case2 rest h =>
    match rest, h with
    | [], _ => rfl
    | [_], _ => simp
    | a :: b :: rest, h => exact (h a b rest rfl).elim

/-- Join level by level until the root is left. -/
def climb (nodes : List Node) : Option Node :=
  match _h : nodes with
  | [] => none
  | [node] => some node
  | a :: b :: rest => climb (level (a :: b :: rest))
  termination_by nodes.length
  decreasing_by
    rw [length_level]
    simp only [List.length_cons]
    omega

def wordBytes (w : UInt32) : Bytes :=
  [w.toUInt8, (w >>> 8).toUInt8, (w >>> 16).toUInt8, (w >>> 24).toUInt8]

/-- The digest of 32 bytes. -/
def digest (b : Bytes) : Bytes :=
  match climb (chunks 0 b) with
  | some node => node.root.toList.flatMap wordBytes
  | none => []

end Blake3
end Lineage
