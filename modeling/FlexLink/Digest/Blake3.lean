import FlexLink.Number.Power
import FlexLink.Wire.Bytes

/-! # BLAKE3

The 256-bit hash of a byte string: chunks of 1024 bytes are compressed block by block, and the
chaining values are joined in a binary tree whose left subtree is the largest power of two. -/
set_option autoImplicit false
namespace FlexLink.Blake3

def initialVector : Vector UInt32 8 := #v[
  0x6A09E667, 0xBB67AE85, 0x3C6EF372, 0xA54FF53A, 0x510E527F, 0x9B05688C, 0x1F83D9AB, 0x5BE0CD19]

/-- The place that each message word comes from in the next round. -/
def schedule : Vector (Fin 16) 16 := #v[2, 6, 3, 10, 7, 0, 4, 13, 1, 11, 12, 5, 9, 14, 15, 8]

def chunkStart : UInt32 := 1

def chunkEnd : UInt32 := 2

def parent : UInt32 := 4

def root : UInt32 := 8

def blockSize : Nat := 64

def chunkSize : Nat := 1024

def rotateRight (w : UInt32) (n : UInt32) : UInt32 := (w >>> n) ||| (w <<< (32 - n))

abbrev State := Vector UInt32 16

def mix (s : State) (a b c d : Fin 16) (x y : UInt32) : State :=
  let s := s.set a (s[a] + s[b] + x)
  let s := s.set d (rotateRight (s[d] ^^^ s[a]) 16)
  let s := s.set c (s[c] + s[d])
  let s := s.set b (rotateRight (s[b] ^^^ s[c]) 12)
  let s := s.set a (s[a] + s[b] + y)
  let s := s.set d (rotateRight (s[d] ^^^ s[a]) 8)
  let s := s.set c (s[c] + s[d])
  s.set b (rotateRight (s[b] ^^^ s[c]) 7)

def round (s : State) (m : State) : State :=
  let s := mix s 0 4 8 12 m[0] m[1]
  let s := mix s 1 5 9 13 m[2] m[3]
  let s := mix s 2 6 10 14 m[4] m[5]
  let s := mix s 3 7 11 15 m[6] m[7]
  let s := mix s 0 5 10 15 m[8] m[9]
  let s := mix s 1 6 11 12 m[10] m[11]
  let s := mix s 2 7 8 13 m[12] m[13]
  mix s 3 4 9 14 m[14] m[15]

def rounds : Nat → State → State → State
  | 0, s, _ => s
  | n + 1, s, m => rounds n (round s m) (schedule.map fun i => m[i])

abbrev Chain := Vector UInt32 8

def compress (chain : Chain) (block : State) (counter : Nat) (length flags : UInt32) : Chain :=
  let v := initialVector
  let start : State := chain ++ #v[v[0], v[1], v[2], v[3], UInt32.ofNat counter,
    UInt32.ofNat (counter / 0x100000000), length, flags]
  let s := rounds 7 start block
  Vector.ofFn fun i : Fin 8 => s[i.val] ^^^ s[i.val + 8]

def littleWord (bytes : Array UInt8) (i : Nat) : UInt32 :=
  UInt32.ofNat (bytes.getD i 0).toNat ||| (UInt32.ofNat (bytes.getD (i + 1) 0).toNat <<< 8)
    ||| (UInt32.ofNat (bytes.getD (i + 2) 0).toNat <<< 16)
    ||| (UInt32.ofNat (bytes.getD (i + 3) 0).toNat <<< 24)

def blockWords (bytes : List UInt8) : State :=
  let a := bytes.toArray
  Vector.ofFn fun i => littleWord a (4 * i.val)

/-- A node that is still to be compressed, so that the root flag can be added. -/
structure Node where
  chain : Chain
  block : State
  counter : Nat
  length : UInt32
  flags : UInt32

def Node.value (n : Node) (extra : UInt32) : Chain :=
  compress n.chain n.block n.counter n.length (n.flags ||| extra)

/-- The last block of a chunk, with all blocks before it compressed. -/
def chunkNode (counter : Nat) (chain : Chain) (flags : UInt32) : List (List UInt8) → Node
  | [] => ⟨chain, blockWords [], counter, 0, flags ||| chunkEnd⟩
  | [last] => ⟨chain, blockWords last, counter, UInt32.ofNat last.length, flags ||| chunkEnd⟩
  | block :: rest =>
    chunkNode counter (compress chain (blockWords block) counter 64 flags) 0 rest

def ofChunk (counter : Nat) (bytes : List UInt8) : Node :=
  chunkNode counter initialVector chunkStart (chunks blockSize bytes)

def join (left right : Chain) : Node :=
  ⟨initialVector, left ++ right, 0, 64, parent⟩

/-- The number of chunks in the left subtree of `n` chunks: the largest power of two below `n`. -/
def leftChunks (n : Nat) : Nat := twoTo (n - 1).log2

/-- The tree over chunks, the first of which has number `counter`; `levels` bounds its height. -/
def tree : (levels : Nat) → (counter : Nat) → List (List UInt8) → Node
  | 0, counter, pieces => ofChunk counter pieces.flatten
  | _ + 1, counter, [] => ofChunk counter []
  | _ + 1, counter, [piece] => ofChunk counter piece
  | levels + 1, counter, pieces =>
    let n := leftChunks pieces.length
    join ((tree levels counter (pieces.take n)).value 0)
      ((tree levels (counter + n) (pieces.drop n)).value 0)

def wordBytes (w : UInt32) : List UInt8 := (Word.bytes w).reverse

def hash (bytes : List UInt8) : List UInt8 :=
  let pieces := chunks chunkSize bytes
  ((tree (pieces.length + 1) 0 pieces).value root).toList.flatMap wordBytes

end FlexLink.Blake3
