/-! SHA-256 over byte lists. -/

namespace EntityGraph.Sha256

/-- The eight chaining words. -/
structure State where
  a : UInt32
  b : UInt32
  c : UInt32
  d : UInt32
  e : UInt32
  f : UInt32
  g : UInt32
  h : UInt32
deriving DecidableEq

/-- The words that hashing starts from. -/
def start : State :=
  ⟨0x6a09e667, 0xbb67ae85, 0x3c6ef372, 0xa54ff53a, 0x510e527f, 0x9b05688c, 0x1f83d9ab, 0x5be0cd19⟩

/-- One constant for each round. -/
def constants : List UInt32 :=
  [0x428a2f98, 0x71374491, 0xb5c0fbcf, 0xe9b5dba5, 0x3956c25b, 0x59f111f1, 0x923f82a4, 0xab1c5ed5,
   0xd807aa98, 0x12835b01, 0x243185be, 0x550c7dc3, 0x72be5d74, 0x80deb1fe, 0x9bdc06a7, 0xc19bf174,
   0xe49b69c1, 0xefbe4786, 0x0fc19dc6, 0x240ca1cc, 0x2de92c6f, 0x4a7484aa, 0x5cb0a9dc, 0x76f988da,
   0x983e5152, 0xa831c66d, 0xb00327c8, 0xbf597fc7, 0xc6e00bf3, 0xd5a79147, 0x06ca6351, 0x14292967,
   0x27b70a85, 0x2e1b2138, 0x4d2c6dfc, 0x53380d13, 0x650a7354, 0x766a0abb, 0x81c2c92e, 0x92722c85,
   0xa2bfe8a1, 0xa81a664b, 0xc24b8b70, 0xc76c51a3, 0xd192e819, 0xd6990624, 0xf40e3585, 0x106aa070,
   0x19a4c116, 0x1e376c08, 0x2748774c, 0x34b0bcb5, 0x391c0cb3, 0x4ed8aa4a, 0x5b9cca4f, 0x682e6ff3,
   0x748f82ee, 0x78a5636f, 0x84c87814, 0x8cc70208, 0x90befffa, 0xa4506ceb, 0xbef9a3f7, 0xc67178f2]

/-- Rotation to the right. -/
def rotate (w n : UInt32) : UInt32 :=
  w >>> n ||| w <<< (32 - n)

/-- One big-endian word out of four bytes. -/
def word (b0 b1 b2 b3 : UInt8) : UInt32 :=
  b0.toUInt32 <<< 24 ||| b1.toUInt32 <<< 16 ||| b2.toUInt32 <<< 8 ||| b3.toUInt32

/-- The words of a block, four bytes each. -/
def words : List UInt8 → List UInt32
  | b0 :: b1 :: b2 :: b3 :: rest => word b0 b1 b2 b3 :: words rest
  | _ => []

/-- Extends the schedule. The words stand newest first, so the four terms have fixed places. -/
def extend : Nat → List UInt32 → List UInt32
  | 0, newest => newest
  | n + 1, newest =>
    let far := newest.getD 14 0
    let near := newest.getD 1 0
    let s0 := rotate far 7 ^^^ rotate far 18 ^^^ far >>> 3
    let s1 := rotate near 17 ^^^ rotate near 19 ^^^ near >>> 10
    extend n ((newest.getD 15 0 + s0 + newest.getD 6 0 + s1) :: newest)

/-- The sixty-four words of a block. -/
def schedule (block : List UInt8) : List UInt32 :=
  (extend 48 (words block).reverse).reverse

/-- One round with its constant and its word. -/
def round (s : State) (input : UInt32 × UInt32) : State :=
  let s1 := rotate s.e 6 ^^^ rotate s.e 11 ^^^ rotate s.e 25
  let choice := (s.e &&& s.f) ^^^ (~~~ s.e &&& s.g)
  let t1 := s.h + s1 + choice + input.1 + input.2
  let s0 := rotate s.a 2 ^^^ rotate s.a 13 ^^^ rotate s.a 22
  let majority := (s.a &&& s.b) ^^^ (s.a &&& s.c) ^^^ (s.b &&& s.c)
  ⟨t1 + (s0 + majority), s.a, s.b, s.c, s.d + t1, s.e, s.f, s.g⟩

/-- Absorbs one block of sixty-four bytes. -/
def compress (s : State) (block : List UInt8) : State :=
  let t := (constants.zip (schedule block)).foldl round s
  ⟨s.a + t.a, s.b + t.b, s.c + t.c, s.d + t.d, s.e + t.e, s.f + t.f, s.g + t.g, s.h + t.h⟩

/-- The bit length of a message, in eight big-endian bytes. -/
def lengthBytes (size : Nat) : List UInt8 :=
  (List.range 8).map fun i => (size * 8 / Nat.pow 256 (7 - i)).toUInt8

/-- Zeros between the closing bit and the length, so that whole blocks result. -/
def paddingZeros (size : Nat) : Nat :=
  (119 - size % 64) % 64

/-- The message with its closing bit, zeros and length. -/
def pad (message : List UInt8) : List UInt8 :=
  message ++ 0x80 :: List.replicate (paddingZeros message.length) 0 ++ lengthBytes message.length

/-- Absorbs the given number of blocks. -/
def absorb : Nat → List UInt8 → State → State
  | 0, _, s => s
  | n + 1, bytes, s => absorb n (bytes.drop 64) (compress s (bytes.take 64))

/-- The four bytes of a word, the high one first. -/
def wordBytes (w : UInt32) : List UInt8 :=
  [(w >>> 24).toUInt8, (w >>> 16).toUInt8, (w >>> 8).toUInt8, w.toUInt8]

/-- The thirty-two bytes of the digest. -/
def hash (message : List UInt8) : List UInt8 :=
  let padded := pad message
  let s := absorb (padded.length / 64) padded start
  [s.a, s.b, s.c, s.d, s.e, s.f, s.g, s.h].flatMap wordBytes

/-- A digest has thirty-two bytes. -/
theorem length_hash (message : List UInt8) : (hash message).length = 32 := by
  simp [hash, wordBytes]

end EntityGraph.Sha256
