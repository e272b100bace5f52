import InterfaceIndex.Tar.Field
/-!
The 512-byte header in front of every member of a tar archive.
-/
namespace InterfaceIndex.Tar

/-- Size of a header, and the unit that contents are padded to. -/
def blockSize : Nat := 512

/-- A header block. -/
structure Header where
  block : List UInt8

/-- What a member is there for. -/
inductive Role where
  /-- It is an entry of its own. -/
  | entry
  /-- Its content is the name of the next entry. -/
  | longName
  /-- Its content is the link target of the next entry. -/
  | longLink
  /-- Its content holds records about the next entry. -/
  | records
  deriving DecidableEq, Repr

namespace Header

/-- The header that a block holds; a block of zeros holds none. -/
def ofBlock? (block : List UInt8) : Option Header :=
  if block.all (· == 0) then none else some ⟨block⟩

/-- The bytes from one position to another. -/
def slice (h : Header) (first last : Nat) : List UInt8 :=
  (h.block.drop first).take (last - first)

/-- Magic number and version, by which the two extended formats are told. -/
def format (h : Header) : List UInt8 := h.slice 257 265

def isPosix (h : Header) : Bool := h.format == Utf8.encode "ustar\x0000"

def isGnu (h : Header) : Bool := h.format == Utf8.encode "ustar  \x00"

/-- The letter that says what kind of member this is. -/
def typeFlag (h : Header) : UInt8 := h.block.getD 156 0

/-- The name in the header itself. Only POSIX headers have a leading part of it elsewhere. -/
def name (h : Header) : List UInt8 :=
  let lead := untilZero (h.slice 345 500)
  let own := untilZero (h.slice 0 100)
  if h.isPosix && !lead.isEmpty then lead ++ '/'.toUInt8 :: own else own

/-- A field of the header; a failure to read it tells the field and the name of the member. -/
def explain (h : Header) (field : String) : Except Failure Nat → Except Failure Nat :=
  getting (field ++ " for " ++ Utf8.decodeLossy h.name)

/-- The sum that the header states, modulo 2 ^ 32. -/
def statedSum (h : Header) : Except Failure Nat :=
  (h.explain "cksum" (octal (h.slice 148 156))).map (· % UInt32.size)

/-- The sum of all bytes, with the field of the sum itself counted as eight spaces. -/
def actualSum (h : Header) : Nat :=
  (h.block.take 148 ++ h.block.drop 156).foldl (fun sum b => sum + b.toNat) (8 * 32)

/-- The size that the header states. -/
def statedSize (h : Header) : Except Failure Nat :=
  h.explain "size" (octalOrBinary (h.slice 124 136))

/-- What the member is there for. Only the extended formats have members about other members. -/
def role (h : Header) : Role :=
  if h.isPosix || h.isGnu then
    if h.typeFlag = 'L'.toUInt8 then .longName
    else if h.typeFlag = 'K'.toUInt8 then .longLink
    else if h.typeFlag = 'x'.toUInt8 then .records
    else .entry
  else .entry

/-- Whether the size of the member may be replaced by a record: not for members that say something
about other members. -/
def takesSizeRecord (h : Header) : Bool :=
  !("LKxg".toList.map Char.toUInt8).contains h.typeFlag

end Header

end InterfaceIndex.Tar
