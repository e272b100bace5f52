import InterfaceIndex.Deflate.Code
/-!
The blocks of a deflate stream: their headers, their codes, and the items that coded blocks hold.
-/
namespace InterfaceIndex.Deflate

/-- The two codes of a coded block. -/
structure Codes where
  /-- Literal bytes, the end of the block, and lengths. -/
  literals : Code
  distances : Code

/-- What a coded block holds. -/
inductive Item where
  | literal (b : UInt8)
  /-- Repeat `length` bytes from `distance` bytes back. -/
  | copy (length distance : Nat)
  | endOfBlock

/-- Least length and number of extra bits, for the symbols from 257 on. -/
def lengthRanges : List (Nat × Nat) :=
  [(3, 0), (4, 0), (5, 0), (6, 0), (7, 0), (8, 0), (9, 0), (10, 0), (11, 1), (13, 1), (15, 1),
   (17, 1), (19, 2), (23, 2), (27, 2), (31, 2), (35, 3), (43, 3), (51, 3), (59, 3), (67, 4), (83, 4),
   (99, 4), (115, 4), (131, 5), (163, 5), (195, 5), (227, 5), (258, 0)]

/-- Least distance and number of extra bits, for each distance symbol. -/
def distanceRanges : List (Nat × Nat) :=
  [(1, 0), (2, 0), (3, 0), (4, 0), (5, 1), (7, 1), (9, 2), (13, 2), (17, 3), (25, 3), (33, 4), (49, 4),
   (65, 5), (97, 5), (129, 6), (193, 6), (257, 7), (385, 7), (513, 8), (769, 8), (1025, 9), (1537, 9),
   (2049, 10), (3073, 10), (4097, 11), (6145, 11), (8193, 12), (12289, 12), (16385, 13), (24577, 13)]

/-- A number of a range: its least member plus the extra bits. -/
def readRange (ranges : List (Nat × Nat)) (index : Nat) : BitReader Nat :=
  match ranges[index]? with
  | some (least, extra) => do
    let more ← BitReader.number extra
    pure (least + more)
  | none => .corrupt

/-- The next item of a coded block. -/
def Codes.readItem (codes : Codes) : BitReader Item := do
  let symbol ← codes.literals.read
  if symbol < 256 then pure (.literal (UInt8.ofNat symbol))
  else if symbol = 256 then pure .endOfBlock
  else do
    let length ← readRange lengthRanges (symbol - 257)
    let distance ← codes.distances.read >>= readRange distanceRanges
    pure (.copy length distance)

/-- The codes of blocks that bring none of their own. -/
def Codes.fixed : Codes where
  literals := .ofLengths
    (List.replicate 144 8 ++ List.replicate 112 9 ++ List.replicate 24 7 ++ List.replicate 8 8)
  distances := .ofLengths (List.replicate 32 5)

/-- The order in which the lengths of the code for code lengths are sent. -/
def lengthOrder : List Nat :=
  [16, 17, 18, 0, 8, 7, 9, 6, 10, 5, 11, 4, 12, 3, 13, 2, 14, 1, 15]

/-- Reads `wanted` code lengths, latest first, after those that are there. Every codeword brings at
least one; a repetition that brings too many is an error, as is one of nothing. The first argument
bounds the number of codewords. -/
def readLengths (code : Code) : Nat → Nat → List Nat → BitReader (List Nat)
  | _, 0, sofar => .pure sofar
  | 0, _ + 1, _ => .corrupt
  | fuel + 1, wanted + 1, sofar => do
    let repeated (value count : Nat) : BitReader (List Nat) :=
      if count ≤ wanted + 1 then
        readLengths code fuel (wanted + 1 - count) (List.replicate count value ++ sofar)
      else .corrupt
    let symbol ← code.read
    if symbol < 16 then repeated symbol 1
    else if symbol = 16 then
      match sofar with
      | [] => .corrupt
      | previous :: _ => do repeated previous (3 + (← BitReader.number 2))
    else if symbol = 17 then do repeated 0 (3 + (← BitReader.number 3))
    else do repeated 0 (11 + (← BitReader.number 7))

/-- The codes that a block brings. -/
def readCodes : BitReader Codes := do
  let literals := 257 + (← BitReader.number 5)
  let distances := 1 + (← BitReader.number 5)
  let sent := 4 + (← BitReader.number 4)
  if 286 < literals ∨ 30 < distances then .corrupt
  else do
    let values ← BitReader.numbers 3 sent
    let sentLengths := lengthOrder.zip values
    let codeLengths := (List.range 19).map fun s => (sentLengths.lookup s).getD 0
    if !Code.isComplete codeLengths then .corrupt
    else do
      let total := literals + distances
      let lengths := (← readLengths (.ofLengths codeLengths) total total []).reverse
      let (first, second) := lengths.splitAt literals
      if Code.isUsable first && Code.isUsable second then
        pure ⟨.ofLengths first, .ofLengths second⟩
      else .corrupt

/-- How the contents of a block are sent. -/
inductive Block where
  /-- As so many bytes. -/
  | stored (length : Nat)
  | coded (codes : Codes)

/-- The header of a block, and whether the block is the last. -/
def readBlock : BitReader (Bool × Block) := do
  let last ← BitReader.bit
  match ← BitReader.number 2 with
  | 0 => do
    BitReader.align
    let length ← BitReader.number 16
    let complement ← BitReader.number 16
    if length + complement = 0xFFFF then pure (last, .stored length) else .corrupt
  | 1 => pure (last, .coded .fixed)
  | 2 => do
    let codes ← readCodes
    pure (last, .coded codes)
  | _ => .corrupt

end InterfaceIndex.Deflate
