/-!
Checksums, computed byte by byte: CRC-32 with the reflected polynomial 0xEDB88320, and SHA-256.
-/
namespace InterfaceIndex

namespace Crc32

/-- One bit of the division. -/
def shift (c : UInt32) : UInt32 :=
  if c &&& 1 = 1 then (c >>> 1) ^^^ 0xEDB88320 else c >>> 1

/-- The register after one more byte. -/
def push (c : UInt32) (b : UInt8) : UInt32 :=
  Nat.repeat shift 8 (c ^^^ b.toUInt32)

/-- The register before any byte. -/
def start : UInt32 := 0xFFFFFFFF

/-- The checksum that a register stands for. -/
def finish (c : UInt32) : UInt32 := c ^^^ 0xFFFFFFFF

/-- The checksum of some bytes. -/
def ofBytes (bytes : List UInt8) : UInt32 :=
  finish (bytes.foldl push start)

end Crc32

/-- Two lower-case hexadecimal digits for each byte. -/
def hexOfBytes (bytes : List UInt8) : String :=
  String.ofList (bytes.flatMap fun b =>
    [Nat.digitChar (b.toNat / 16), Nat.digitChar (b.toNat % 16)])

/-- The eight chained words. -/
structure Sha256.Words where
  a : UInt32
  b : UInt32
  c : UInt32
  d : UInt32
  e : UInt32
  f : UInt32
  g : UInt32
  h : UInt32
  deriving DecidableEq, Repr

/-- A computation under way. -/
structure Sha256 where
  /-- Chained words after the blocks that are complete. -/
  words : Sha256.Words
  /-- Bytes of the block begun, latest first. -/
  waiting : List UInt8
  /-- Number of bytes so far. -/
  length : Nat
  deriving DecidableEq, Repr

namespace Sha256

/-- First 32 bits of the fractional parts of the square roots of the first eight primes. -/
def Words.initial : Words :=
  ⟨0x6a09e667, 0xbb67ae85, 0x3c6ef372, 0xa54ff53a, 0x510e527f, 0x9b05688c, 0x1f83d9ab, 0x5be0cd19⟩

/-- First 32 bits of the fractional parts of the cube roots of the first 64 primes. -/
def roundConstants : List UInt32 :=
  [0x428a2f98, 0x71374491, 0xb5c0fbcf, 0xe9b5dba5, 0x3956c25b, 0x59f111f1, 0x923f82a4, 0xab1c5ed5,
   0xd807aa98, 0x12835b01, 0x243185be, 0x550c7dc3, 0x72be5d74, 0x80deb1fe, 0x9bdc06a7, 0xc19bf174,
   0xe49b69c1, 0xefbe4786, 0x0fc19dc6, 0x240ca1cc, 0x2de92c6f, 0x4a7484aa, 0x5cb0a9dc, 0x76f988da,
   0x983e5152, 0xa831c66d, 0xb00327c8, 0xbf597fc7, 0xc6e00bf3, 0xd5a79147, 0x06ca6351, 0x14292967,
   0x27b70a85, 0x2e1b2138, 0x4d2c6dfc, 0x53380d13, 0x650a7354, 0x766a0abb, 0x81c2c92e, 0x92722c85,
   0xa2bfe8a1, 0xa81a664b, 0xc24b8b70, 0xc76c51a3, 0xd192e819, 0xd6990624, 0xf40e3585, 0x106aa070,
   0x19a4c116, 0x1e376c08, 0x2748774c, 0x34b0bcb5, 0x391c0cb3, 0x4ed8aa4a, 0x5b9cca4f, 0x682e6ff3,
   0x748f82ee, 0x78a5636f, 0x84c87814, 0x8cc70208, 0x90befffa, 0xa4506ceb, 0xbef9a3f7, 0xc67178f2]

def rotateRight (x n : UInt32) : UInt32 :=
  (x >>> n) ||| (x <<< (32 - n))

/-- The bytes as words, most significant byte first. -/
def wordsOfBytes : List UInt8 → List UInt32
  | b₃ :: b₂ :: b₁ :: b₀ :: rest =>
    ((b₃.toUInt32 <<< 24) ||| (b₂.toUInt32 <<< 16) ||| (b₁.toUInt32 <<< 8) ||| b₀.toUInt32) ::
      wordsOfBytes rest
  | _ => []

/-- The word that follows sixteen words of the schedule. -/
def nextScheduled (window : List UInt32) : UInt32 :=
  let w₁ := window.getD 1 0
  let w₁₄ := window.getD 14 0
  let s₀ := rotateRight w₁ 7 ^^^ rotateRight w₁ 18 ^^^ (w₁ >>> 3)
  let s₁ := rotateRight w₁₄ 17 ^^^ rotateRight w₁₄ 19 ^^^ (w₁₄ >>> 10)
  window.getD 0 0 + s₀ + window.getD 9 0 + s₁

/-- The first words of the message schedule, from any sixteen of its words on. -/
def schedule : Nat → List UInt32 → List UInt32
  | 0, _ => []
  | n + 1, window =>
    window.getD 0 0 :: schedule n (window.tail ++ [nextScheduled window])

/-- One round, with its constant and its word of the schedule. -/
def round (v : Words) (k w : UInt32) : Words :=
  let s₁ := rotateRight v.e 6 ^^^ rotateRight v.e 11 ^^^ rotateRight v.e 25
  let choice := (v.e &&& v.f) ^^^ (~~~v.e &&& v.g)
  let t₁ := v.h + s₁ + choice + k + w
  let s₀ := rotateRight v.a 2 ^^^ rotateRight v.a 13 ^^^ rotateRight v.a 22
  let majority := (v.a &&& v.b) ^^^ (v.a &&& v.c) ^^^ (v.b &&& v.c)
  ⟨t₁ + (s₀ + majority), v.a, v.b, v.c, v.d + t₁, v.e, v.f, v.g⟩

/-- The chained words after one more block of 64 bytes. -/
def compress (v : Words) (block : List UInt8) : Words :=
  let rounds := roundConstants.zip (schedule 64 (wordsOfBytes block))
  let u := rounds.foldl (fun u (k, w) => round u k w) v
  ⟨v.a + u.a, v.b + u.b, v.c + u.c, v.d + u.d, v.e + u.e, v.f + u.f, v.g + u.g, v.h + u.h⟩

/-- The computation before any byte. -/
def start : Sha256 := ⟨.initial, [], 0⟩

/-- One byte more. A block is compressed as soon as it is complete. -/
def push (s : Sha256) (b : UInt8) : Sha256 :=
  if s.length % 64 = 63 then ⟨compress s.words (b :: s.waiting).reverse, [], s.length + 1⟩
  else ⟨s.words, b :: s.waiting, s.length + 1⟩

/-- More bytes. Pieces may be absorbed one after another, since each byte is pushed in turn. -/
def absorb (s : Sha256) (bytes : List UInt8) : Sha256 :=
  bytes.foldl push s

/-- Big-endian bytes of the low `8 * n` bits of a number. -/
def bigEndian : Nat → Nat → List UInt8
  | 0, _ => []
  | n + 1, x => UInt8.ofNat (x >>> (8 * n)) :: bigEndian n x

/-- What is appended to a message of a given length: a one bit, zeros up to eight bytes before the
end of a block, and the length in bits. -/
def padding (length : Nat) : List UInt8 :=
  0x80 :: List.replicate ((119 - length % 64) % 64) 0 ++ bigEndian 8 (8 * length)

def Words.toBytes (v : Words) : List UInt8 :=
  [v.a, v.b, v.c, v.d, v.e, v.f, v.g, v.h].flatMap fun w => bigEndian 4 w.toNat

/-- The digest of all bytes absorbed. -/
def finish (s : Sha256) : List UInt8 :=
  (s.absorb (padding s.length)).words.toBytes

/-- The digest of all bytes absorbed, in lower-case hexadecimal. -/
def hexDigest (s : Sha256) : String :=
  hexOfBytes s.finish

end Sha256

end InterfaceIndex
