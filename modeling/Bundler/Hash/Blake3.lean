/-
The BLAKE3 hash of bytes.

The bytes are cut into chunks of 1024, and a chunk into blocks of 64. Within a chunk the blocks are
compressed one after the other, each with what came out of the one before. The chunks are the
leaves of a binary tree whose left subtrees are full: of more than one chunk, the largest power of
two that leaves something for the right goes to the left. A parent compresses what came out of
its two children, and the root is marked as such.

What comes out of a node depends on whether it is the root. So a node is first described as the
compression that is still to be made, and the mark is set last.
-/
import Bundler.Json.Value
import Bundler.Text.Utf8

set_option autoImplicit false

namespace Bundler.Blake3

/-! ## Compression -/

/-- The value that is handed on from node to node. -/
abbrev Chaining := Vector UInt32 8

/-- A block of the input, and also the state of a compression. -/
abbrev Block := Vector UInt32 16

/-- The chaining value at the start of a chunk. -/
def start : Chaining :=
  #v[0x6a09e667, 0xbb67ae85, 0x3c6ef372, 0xa54ff53a, 0x510e527f, 0x9b05688c, 0x1f83d9ab, 0x5be0cd19]

/-- The marks of a node. -/
def chunkStart : UInt32 := 1

/-- The last block of a chunk. -/
def chunkEnd : UInt32 := 2

/-- A node with two children. -/
def parentMark : UInt32 := 4

/-- The root of the tree. -/
def rootMark : UInt32 := 8

/-- A word turned to the right. -/
def rotate (w n : UInt32) : UInt32 := (w >>> n) ||| (w <<< (32 - n))

/-- Mixes two words of the input into four words of the state. -/
def mix (s : Block) (a b c d : Fin 16) (x y : UInt32) : Block :=
  let va := s[a] + s[b] + x
  let vd := rotate (s[d] ^^^ va) 16
  let vc := s[c] + vd
  let vb := rotate (s[b] ^^^ vc) 12
  let va := va + vb + y
  let vd := rotate (vd ^^^ va) 8
  let vc := vc + vd
  let vb := rotate (vb ^^^ vc) 7
  (((s.set a va).set b vb).set c vc).set d vd

/-- One round: the columns of the state, then its diagonals. -/
def round (s m : Block) : Block :=
  let s := mix s 0 4 8 12 m[0] m[1]
  let s := mix s 1 5 9 13 m[2] m[3]
  let s := mix s 2 6 10 14 m[4] m[5]
  let s := mix s 3 7 11 15 m[6] m[7]
  let s := mix s 0 5 10 15 m[8] m[9]
  let s := mix s 1 6 11 12 m[10] m[11]
  let s := mix s 2 7 8 13 m[12] m[13]
  mix s 3 4 9 14 m[14] m[15]

/-- The order of the input words for the next round. -/
def permute (m : Block) : Block :=
  #v[m[2], m[6], m[3], m[10], m[7], m[0], m[4], m[13],
    m[1], m[11], m[12], m[5], m[9], m[14], m[15], m[8]]

/-- Rounds, with the input words put into a new order after each. -/
def rounds : Nat → Block → Block → Block
  | 0, s, _ => s
  | n + 1, s, m => rounds n (round s m) (permute m)

/-- A compression that is still to be made. -/
structure Node where
  chaining : Chaining
  block : Block
  /-- The number of the chunk; zero for a parent. -/
  counter : UInt64
  /-- The number of bytes in the block. -/
  length : UInt32
  marks : UInt32

/-- The state after the rounds. -/
def Node.compress (n : Node) : Block :=
  let h := n.chaining
  let s : Block :=
    #v[h[0], h[1], h[2], h[3], h[4], h[5], h[6], h[7], start[0], start[1], start[2], start[3],
      n.counter.toUInt32, (n.counter >>> 32).toUInt32, n.length, n.marks]
  rounds 7 s n.block

/-- The value that a node hands on. -/
def Node.chain (n : Node) : Chaining :=
  let s := n.compress
  Vector.ofFn fun i => s[i.val] ^^^ s[i.val + 8]

/-! ## The tree -/

/-- The word that four bytes spell, lowest first. Missing bytes count as zero. -/
def wordAt (bs : Bytes) (index : Nat) : UInt32 :=
  ((bs.drop (4 * index)).take 4).foldr (fun b w => w * 256 + b.toUInt32) 0

/-- The words of a block, filled up with zeros. -/
def blockOf (bs : Bytes) : Block :=
  Vector.ofFn fun i => wordAt bs i.val

/-- The last node of a chunk, given what the blocks before handed on. -/
def chunkFrom (counter : UInt64) (chaining : Chaining) (marks : UInt32) (bs : Bytes) : Node :=
  let head := bs.take 64
  if bs.length ≤ 64 then
    ⟨chaining, blockOf head, counter, bs.length.toUInt32, marks ||| chunkEnd⟩
  else
    chunkFrom counter (Node.chain ⟨chaining, blockOf head, counter, 64, marks⟩) 0 (bs.drop 64)
termination_by bs.length
decreasing_by simp only [List.length_drop]; omega

/-- The node above two others. -/
def parent (left right : Node) : Node :=
  ⟨start, (left.chain ++ right.chain).cast (by decide), 0, 64, parentMark⟩

/-- The number of bytes in the left subtree, for more than one chunk. -/
def leftSize (size : Nat) : Nat :=
  1024 * pow2 ((size - 1) / 1024).log2

/-- The left subtree leaves something for the right. -/
theorem leftSize_lt (size : Nat) (h : 1024 < size) : leftSize size < size := by
  have hpos : (size - 1) / 1024 ≠ 0 := by omega
  have hlog : pow2 ((size - 1) / 1024).log2 ≤ (size - 1) / 1024 := Nat.log2_self_le hpos
  unfold leftSize
  omega

/-- The left subtree is not empty. -/
theorem leftSize_pos (size : Nat) : 0 < leftSize size := by
  have := pow2_pos ((size - 1) / 1024).log2
  unfold leftSize
  omega

/-- The node of a subtree whose first chunk has a number. -/
def tree (counter : Nat) (bs : Bytes) : Node :=
  if h : bs.length ≤ 1024 then chunkFrom counter.toUInt64 start chunkStart bs
  else
    let left := leftSize bs.length
    parent (tree counter (bs.take left)) (tree (counter + left / 1024) (bs.drop left))
termination_by bs.length
decreasing_by
  · have := leftSize_lt bs.length (by omega)
    simp only [List.length_take]
    omega
  · have := leftSize_pos bs.length
    simp only [List.length_drop]
    omega

/-- The bytes of a word, lowest first. -/
def wordBytes (w : UInt32) : Bytes :=
  [w.toUInt8, (w >>> 8).toUInt8, (w >>> 16).toUInt8, (w >>> 24).toUInt8]

/-- The hash: 32 bytes. -/
def hash (bs : Bytes) : Bytes :=
  let root := tree 0 bs
  ({ root with marks := root.marks ||| rootMark }).chain.toList.flatMap wordBytes

/-- The digits of bytes. -/
def hex (bs : Bytes) : String :=
  String.ofList (bs.flatMap fun b => [Json.hexDigit (b.toNat / 16), Json.hexDigit (b.toNat % 16)])

end Bundler.Blake3
