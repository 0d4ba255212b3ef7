import ThresholdMask.Bytes

/-!
# BLAKE3 key derivation

BLAKE3 hashes its input in chunks of 1024 bytes, each of which chains blocks of 64 bytes through
the compression function; the chaining values of the chunks are joined in a binary tree. In
key-derivation mode a context text is hashed first, and its digest keys the hash of the material.

`deriveKey` is the whole mode with a digest of 32 bytes.
-/

namespace ThresholdMask.Blake3

/-- A chaining value, or a key. -/
abbrev Chain := Vector UInt32 8

/-- The words of a block, or the state of the compression function. -/
abbrev Words := Vector UInt32 16

/-! ## Constants -/

/-- The initial chaining value of an unkeyed hash. -/
def iv : Chain :=
  #v[0x6a09e667, 0xbb67ae85, 0x3c6ef372, 0xa54ff53a, 0x510e527f, 0x9b05688c, 0x1f83d9ab,
    0x5be0cd19]

/-- The places from which the message words come between two rounds. -/
def permutation : Vector (Fin 16) 16 :=
  #v[2, 6, 3, 10, 7, 0, 4, 13, 1, 11, 12, 5, 9, 14, 15, 8]

def chunkStart : UInt32 := 1
def chunkEnd : UInt32 := 2
def parent : UInt32 := 4
def root : UInt32 := 8
def contextMode : UInt32 := 32
def materialMode : UInt32 := 64

/-! ## Compression -/

/-- Rotate a word to the right, by less than its width. -/
def rotate (x n : UInt32) : UInt32 := (x >>> n) ||| (x <<< (32 - n))

/-- Mix two message words into one column or diagonal of the state. -/
def mix (v : Words) (a b c d : Fin 16) (x y : UInt32) : Words :=
  let v := v.set a (v[a] + v[b] + x)
  let v := v.set d (rotate (v[d] ^^^ v[a]) 16)
  let v := v.set c (v[c] + v[d])
  let v := v.set b (rotate (v[b] ^^^ v[c]) 12)
  let v := v.set a (v[a] + v[b] + y)
  let v := v.set d (rotate (v[d] ^^^ v[a]) 8)
  let v := v.set c (v[c] + v[d])
  v.set b (rotate (v[b] ^^^ v[c]) 7)

/-- One round: the four columns, then the four diagonals. -/
def round (v m : Words) : Words :=
  let v := mix v 0 4 8 12 m[0] m[1]
  let v := mix v 1 5 9 13 m[2] m[3]
  let v := mix v 2 6 10 14 m[4] m[5]
  let v := mix v 3 7 11 15 m[6] m[7]
  let v := mix v 0 5 10 15 m[8] m[9]
  let v := mix v 1 6 11 12 m[10] m[11]
  let v := mix v 2 7 8 13 m[12] m[13]
  mix v 3 4 9 14 m[14] m[15]

/-- Apply the rounds, permuting the message words in between. -/
def rounds : Nat → Words → Words → Words
  | 0, v, _ => v
  | n + 1, v, m => rounds n (round v m) (Vector.ofFn fun i => m[permutation[i]])

/-- The words of a block; missing bytes count as zero. -/
def blockWords (block : Bytes) : Words :=
  Vector.ofFn fun i => UInt32.ofNat (Bytes.toNatLE ((block.drop (4 * i)).take 4))

/-- Compress a block of at most 64 bytes under a chaining value. -/
def compress (chain : Chain) (m : Words) (counter length : Nat) (flags : UInt32) : Chain :=
  let start : Words := chain ++
    #v[iv[0], iv[1], iv[2], iv[3], UInt32.ofNat counter, UInt32.ofNat (counter >>> 32),
      UInt32.ofNat length, flags]
  let v := rounds 7 start m
  Vector.ofFn fun i => v[i.val] ^^^ v[i.val + 8]

/-! ## Chunks and the tree -/

/-- Chain the blocks of one chunk; `last` holds the flags of its last block alone. -/
def chainBlocks (mode last : UInt32) (counter : Nat) (start : UInt32) : Chain → List Bytes → Chain
  | chain, [] => chain
  | chain, [b] => compress chain (blockWords b) counter b.length (mode ||| start ||| last)
  | chain, b :: rest =>
    chainBlocks mode last counter 0
      (compress chain (blockWords b) counter b.length (mode ||| start)) rest

/-- Cut into pieces, of which there is always at least one. -/
def pieces (size : Nat) (b : Bytes) : List Bytes :=
  if b.isEmpty then [[]] else b.chunks size

/-- The chaining value of the chunk at a position. -/
def chunk (key : Chain) (mode last : UInt32) (b : Bytes) (position : Nat) : Chain :=
  chainBlocks mode (chunkEnd ||| last) position chunkStart key (pieces 64 b)

/-- Join two chaining values. -/
def join (key : Chain) (flags : UInt32) (left right : Chain) : Chain :=
  compress key (left ++ right) 0 64 (flags ||| parent)

/-- Join neighbours; an odd one at the end moves up unchanged. -/
def joinPairs (key : Chain) (mode : UInt32) : List Chain → List Chain
  | left :: right :: rest => join key mode left right :: joinPairs key mode rest
  | rest => rest

/-- Join level by level until two chaining values are left, and join these as the root. `levels`
bounds the height of the tree. -/
def joinAll (key : Chain) (mode : UInt32) : Nat → List Chain → Chain
  | _, [left, right] => join key (mode ||| root) left right
  | levels + 1, chains => joinAll key mode levels (joinPairs key mode chains)
  | 0, chains => chains.headD key

/-- Hash under a key, to a digest of 32 bytes in words. -/
def hash (key : Chain) (mode : UInt32) (b : Bytes) : Chain :=
  match pieces 1024 b with
  | [single] => chunk key mode root single 0
  | many => joinAll key mode many.length (many.mapIdx fun i piece => chunk key mode 0 piece i)

/-- Derive 32 bytes from material, under a context that says what they are for. -/
def deriveKey (context material : Bytes) : FixedBytes 32 :=
  let digest := hash (hash iv contextMode context) materialMode material
  ⟨digest.toList.flatMap fun w => Bytes.ofNatLE 4 w.toNat, by simp [List.map_const']⟩

end ThresholdMask.Blake3
