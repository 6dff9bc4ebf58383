set_option autoImplicit false

/-! # The BLAKE3 digest

The 256-bit BLAKE3 digest of a byte string. The input is cut into chunks of 1024 bytes; a chunk is
hashed block by block, each block of 64 bytes changing the chaining value of the one before it;
and the chunks are the leaves of a binary tree in which every left subtree is a complete one, as
large as it can be.

`Node` is a node of that tree before its last compression. The same node gives a chaining value to
its parent, or, with the root flag, the digest.
-/

namespace NinetySix.Blake3

/-! ## Compression -/

/-- A chaining value. -/
abbrev Chain := Vector UInt32 8

/-- A message block, or the state of the compression function. -/
abbrev Block := Vector UInt32 16

/-- The initial chaining value. -/
def initial : Chain :=
  #v[0x6a09e667, 0xbb67ae85, 0x3c6ef372, 0xa54ff53a, 0x510e527f, 0x9b05688c, 0x1f83d9ab, 0x5be0cd19]

/-- The message word that moves to each place from one round to the next. -/
def permutation : Vector (Fin 16) 16 := #v[2, 6, 3, 10, 7, 0, 4, 13, 1, 11, 12, 5, 9, 14, 15, 8]

def permute (m : Block) : Block := permutation.map fun i => m[i]

def rotateRight (x n : UInt32) : UInt32 := (x >>> n) ||| (x <<< (32 - n))

/-- The quarter round on the words at `a`, `b`, `c` and `d`, with two message words. -/
def quarter (s : Block) (a b c d : Fin 16) (x y : UInt32) : Block :=
  let s := s.set a (s[a] + s[b] + x)
  let s := s.set d (rotateRight (s[d] ^^^ s[a]) 16)
  let s := s.set c (s[c] + s[d])
  let s := s.set b (rotateRight (s[b] ^^^ s[c]) 12)
  let s := s.set a (s[a] + s[b] + y)
  let s := s.set d (rotateRight (s[d] ^^^ s[a]) 8)
  let s := s.set c (s[c] + s[d])
  s.set b (rotateRight (s[b] ^^^ s[c]) 7)

/-- A round: the columns of the state, then its diagonals. -/
def round (s m : Block) : Block :=
  let s := quarter s 0 4 8 12 m[0] m[1]
  let s := quarter s 1 5 9 13 m[2] m[3]
  let s := quarter s 2 6 10 14 m[4] m[5]
  let s := quarter s 3 7 11 15 m[6] m[7]
  let s := quarter s 0 5 10 15 m[8] m[9]
  let s := quarter s 1 6 11 12 m[10] m[11]
  let s := quarter s 2 7 8 13 m[12] m[13]
  quarter s 3 4 9 14 m[14] m[15]

/-- `n` rounds, the message permuted between them. -/
def rounds : Nat → Block → Block → Block
  | 0, s, _ => s
  | n + 1, s, m => rounds n (round s m) (permute m)

/-- The compression function, cut to a chaining value. -/
def compress (chain : Chain) (block : Block) (counter : Nat) (length flags : UInt32) : Chain :=
  let low := UInt32.ofNat counter
  let high := UInt32.ofNat (counter / UInt32.size)
  let start : Block := chain ++ #v[initial[0], initial[1], initial[2], initial[3], low, high, length, flags]
  let s := rounds 7 start block
  Vector.ofFn fun i : Fin 8 => s[i.val] ^^^ s[i.val + 8]

/-! ## Flags -/

def chunkStart : UInt32 := 1
def chunkEnd : UInt32 := 2
def parent : UInt32 := 4
def root : UInt32 := 8

/-! ## Words and bytes -/

/-- Four bytes as a word, the least significant first; missing bytes are zero. -/
def word (bytes : List UInt8) : UInt32 :=
  bytes.foldr (fun b w => (w <<< 8) ||| b.toUInt32) 0

/-- A block of at most 64 bytes, filled up with zeros. -/
def blockOf (bytes : List UInt8) : Block :=
  Vector.ofFn fun i : Fin 16 => word ((bytes.drop (4 * i.val)).take 4)

/-- The bytes of a word, the least significant first. -/
def wordBytes (w : UInt32) : List UInt8 :=
  [w.toUInt8, (w >>> 8).toUInt8, (w >>> 16).toUInt8, (w >>> 24).toUInt8]

/-! ## Chunks and the tree -/

/-- A node of the tree before its last compression. -/
structure Node where
  chain : Chain
  block : Block
  counter : Nat
  length : UInt32
  flags : UInt32

/-- What the node hands to its parent. -/
def Node.value (n : Node) : Chain := compress n.chain n.block n.counter n.length n.flags

/-- The digest, when the node is the root of its tree. -/
def Node.digest (n : Node) : Chain := compress n.chain n.block 0 n.length (n.flags ||| root)

/-- The rest of a chunk, from the chaining value of the blocks before it. -/
def chunkFrom (counter : Nat) (chain : Chain) (flags : UInt32) (bytes : List UInt8) : Node :=
  if bytes.length ≤ 64 then
    { chain, block := blockOf bytes, counter, length := UInt32.ofNat bytes.length,
      flags := flags ||| chunkEnd }
  else
    let next := compress chain (blockOf (bytes.take 64)) counter 64 flags
    chunkFrom counter next 0 (bytes.drop 64)
termination_by bytes.length
decreasing_by simp only [List.length_drop]; omega

/-- The chunk with the given number. -/
def chunk (counter : Nat) (bytes : List UInt8) : Node := chunkFrom counter initial chunkStart bytes

/-- The node above two subtrees. -/
def join (left right : Node) : Node where
  chain := initial
  block := left.value ++ right.value
  counter := 0
  length := 64
  flags := parent

/-- The greatest power of two that is less than `n`, for `2 ≤ n`. -/
def leftChunks (n : Nat) : Nat := Nat.pow 2 (n - 1).log2

theorem leftChunks_pos (n : Nat) : 0 < leftChunks n := Nat.two_pow_pos _

theorem leftChunks_lt {n : Nat} (h : 2 ≤ n) : leftChunks n < n := by
  have : leftChunks n ≤ n - 1 := Nat.log2_self_le (by omega)
  omega

/-- The tree over a byte string whose first chunk has the given number. -/
def tree (counter : Nat) (bytes : List UInt8) : Node :=
  if bytes.length ≤ 1024 then chunk counter bytes
  else
    let left := leftChunks ((bytes.length + 1023) / 1024)
    join (tree counter (bytes.take (1024 * left))) (tree (counter + left) (bytes.drop (1024 * left)))
termination_by bytes.length
decreasing_by
  · have := leftChunks_lt (n := (bytes.length + 1023) / 1024) (by omega)
    simp only [List.length_take]
    omega
  · have := leftChunks_pos ((bytes.length + 1023) / 1024)
    simp only [List.length_drop]
    omega

/-- The digest of a byte string, as 32 bytes. -/
def hash (bytes : List UInt8) : List UInt8 :=
  (tree 0 bytes).digest.toList.flatMap wordBytes

/-- A byte as two lower-case hexadecimal digits. -/
def hexByte (b : UInt8) : List Char :=
  [Nat.digitChar (b.toNat / 16), Nat.digitChar (b.toNat % 16)]

/-- The digest of the UTF-8 form of a text, in hexadecimal. -/
def hexDigest (text : String) : String :=
  String.ofList ((hash text.toUTF8.toList).flatMap hexByte)

end NinetySix.Blake3
