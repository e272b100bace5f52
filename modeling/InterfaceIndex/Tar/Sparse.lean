import InterfaceIndex.Tar.Header
/-!
Sparse files: the archive stores the data between holes, and descriptors say where it belongs.
-/
namespace InterfaceIndex.Tar

/-- A part of the content of an entry. -/
inductive Part where
  /-- So many zeros, which the archive does not store. -/
  | hole (size : Nat)
  /-- So many bytes of the archive. -/
  | data (size : Nat)
  deriving DecidableEq, Repr

/-- How many bytes of a part are not in the archive. -/
def Part.blank : Part → Nat
  | hole size => size
  | data _ => 0

def blankIn : List Part → Nat
  | [] => 0
  | part :: parts => part.blank + blankIn parts

/-- Some descriptors of 24 bytes each that stand one behind another in a block. -/
def descriptorsAt (block : List UInt8) (first count : Nat) : List (List UInt8) :=
  (List.range count).map fun i => (block.drop (first + 24 * i)).take 24

namespace Header

def isSparse (h : Header) : Bool := h.typeFlag == 'S'.toUInt8

/-- The descriptors that have room in the header itself. -/
def descriptors (h : Header) : List (List UInt8) := descriptorsAt h.block 386 4

/-- Whether a block with further descriptors comes behind the header. -/
def isExtended (h : Header) : Bool := h.block.getD 482 0 == 1

/-- The size of the file with its holes. A failure to read it tells group and user. -/
def realSize (h : Header) : Except Failure Nat :=
  getting ("real_size for " ++ Utf8.decodeLossy (untilZero (h.slice 297 329)) ++ ":" ++
    Utf8.decodeLossy (untilZero (h.slice 265 297))) (octalOrBinary (h.slice 483 495))

end Header

/-- Whether another block with descriptors comes behind one. -/
def goesOn (block : List UInt8) : Bool := block.getD 504 0 == 1

/-- The descriptors of a block that holds nothing else. -/
def moreDescriptors (block : List UInt8) : List (List UInt8) := descriptorsAt block 0 21

/-- What the descriptors of a sparse file have said so far. -/
structure SparseMap where
  parts : List Part := []
  /-- Where in the file the parts end. -/
  reached : Nat := 0
  /-- How much of what is stored belongs to no part yet. -/
  unclaimed : Nat
  deriving DecidableEq, Repr

namespace SparseMap

/-- The map with one more descriptor, of a file of which so much is stored. A descriptor with a zero
byte in front of one of its fields is not in use. -/
def add (size : Nat) (map : SparseMap) (descriptor : List UInt8) : Except Failure SparseMap := do
  let offset := descriptor.take 12
  let length := descriptor.drop 12
  if offset.headD 0 == 0 || length.headD 0 == 0 then return map
  let first ← getting "offset from sparse header" (octalOrBinary offset)
  let amount ← getting "length from sparse header" (octalOrBinary length)
  if amount ≠ 0 ∧ (size - map.unclaimed) % blockSize ≠ 0 then
    .error (.other "previous block in sparse file was not aligned to 512-byte boundary")
  else if first < map.reached then
    .error (.other "out of order or overlapping sparse blocks")
  else if UInt64.size ≤ first + amount then
    .error (.other "more bytes listed in sparse file than u64 can hold")
  else if map.unclaimed < amount then
    .error (.other "sparse file consumed more data than the header listed")
  else
    let hole := if map.reached < first then [Part.hole (first - map.reached)] else []
    return ⟨map.parts ++ (hole ++ [.data amount]), first + amount, map.unclaimed - amount⟩

/-- The map with some more descriptors. -/
def addAll (size : Nat) : SparseMap → List (List UInt8) → Except Failure SparseMap :=
  List.foldlM (add size)

/-- The parts of a map, which has to lead to the end of the file and to claim all that is stored. -/
def finish (h : Header) (map : SparseMap) : Except Failure (List Part) := do
  let whole ← h.realSize
  if map.reached ≠ whole then
    .error (.other "mismatch in sparse file chunks and size in header")
  else if map.unclaimed ≠ 0 then
    .error (.other "mismatch in sparse file chunks and entry size in header")
  else return map.parts

end SparseMap

end InterfaceIndex.Tar
