import InterfaceIndex.Stream.Reader
import InterfaceIndex.Tar.Records
import InterfaceIndex.Tar.Sparse
/-!
A tar archive read once from front to back, one entry at a time. Places are counted by natural numbers;
a program with 64-bit counters and without overflow checks keeps the last 64 bits of them, which is all
that the checks here look at.
-/
namespace InterfaceIndex.Tar

/-- A stream in tar format. -/
structure Archive (ρ : Type) where
  inner : ρ
  /-- How many bytes have been read. -/
  position : Nat := 0

/-- The content of one entry: the parts of it that are still to come. What the archive has of them
begins where the archive stands. -/
structure Content (ρ : Type) where
  archive : Archive ρ
  parts : List Part

/-- An entry as its headers describe it. -/
structure Entry where
  path : List UInt8
  parts : List Part
  deriving DecidableEq

/-- What members have said about the entry that is to come. -/
structure Notes where
  longName : Option (List UInt8) := none
  longLink : Option (List UInt8) := none
  records : Option (List UInt8) := none
  deriving DecidableEq

namespace Archive

variable {ρ : Type} [Reader ρ]

/-- One read. The position counts what it hands out. -/
def read (a : Archive ρ) (n : Nat) : Except Failure (List UInt8) × Archive ρ :=
  match Reader.read a.inner n with
  | (.ok bytes, inner) => (.ok bytes, ⟨inner, a.position + bytes.length⟩)
  | (.error f, inner) => (.error f, { a with inner })

instance : Reader (Archive ρ) where
  read := read
  budget a := Reader.budget a.inner

/-- Reads so many bytes and forgets them. -/
def skip (a : Archive ρ) (amount : Nat) : Option Failure × Archive ρ :=
  let (skipped, a) := Reader.gather ⟨32768, false⟩ (some amount) a
  match skipped.failure with
  | some f => (some f, a)
  | none =>
    if skipped.bytes.length < amount then (some (.other "unexpected EOF during skip"), a)
    else (none, a)

/-- The next block, unless the archive ends before it. -/
def readBlock (a : Archive ρ) : Except Failure (Option (List UInt8)) × Archive ρ :=
  let (block, a) := Reader.gather ⟨blockSize, false⟩ (some blockSize) a
  match block.failure with
  | some f => (.error f, a)
  | none =>
    if block.bytes.isEmpty then (.ok none, a)
    else if block.bytes.length < blockSize then (.error (.other "failed to read entire block"), a)
    else (.ok (some block.bytes), a)

end Archive

namespace Content

variable {ρ : Type} [Reader ρ]

/-- One read of some parts. A part that brings nothing is done with, and the next one is read. -/
def readParts (n : Nat) : List Part → Archive ρ → Except Failure (List UInt8) × Content ρ
  | [], a => (.ok [], ⟨a, []⟩)
  | .hole size :: parts, a =>
    if min n size = 0 then readParts n parts a
    else (.ok (List.replicate (min n size) 0), ⟨a, .hole (size - min n size) :: parts⟩)
  | .data size :: parts, a =>
    if size = 0 then readParts n parts a
    else
      match a.read (min n size) with
      | (.ok [], a) => readParts n parts a
      | (.ok bytes, a) => (.ok bytes, ⟨a, .data (size - bytes.length) :: parts⟩)
      | (.error f, a) => (.error f, ⟨a, .data size :: parts⟩)

/-- One read. -/
def read (c : Content ρ) (n : Nat) : Except Failure (List UInt8) × Content ρ :=
  readParts n c.parts c.archive

/-- Holes are handed out too. -/
instance : Reader (Content ρ) where
  read := read
  budget c := Reader.budget c.archive + blankIn c.parts

end Content

/-- The size of contents together with the zeros after them. -/
def padded (size : Nat) : Nat :=
  (size + (blockSize - 1)) / blockSize * blockSize

def sizeOverflow : Failure := .other "size overflow"

/-- The size of a member, and the position of the header after it. Its own header stands at
`position`, of which 64 bits are kept; a record may replace the size. The place behind the header is
not checked, but the sums from there on have to fit in 64 bits. -/
def extent (h : Header) (records : Option (List UInt8)) (position : Nat) :
    Except Failure (Nat × Nat) := do
  let stated ← h.statedSize
  let replaced := if h.takesSizeRecord then records.bind Record.size? else none
  let size := replaced.getD stated
  if size + (blockSize - 1) < UInt64.size ∧
      (position + blockSize) % UInt64.size + padded size < UInt64.size then
    .ok (size, position + blockSize + padded size)
  else .error sizeOverflow

/-- A member's header together with its extent, once the header's sum has been found right. -/
def checked (h : Header) (records : Option (List UInt8)) (position : Nat) :
    Except Failure (Nat × Nat) := do
  let stated ← h.statedSum
  if stated = h.actualSum then extent h records position
  else .error (.other "archive header checksum mismatch")

namespace Notes

/-- The name of the entry that the notes are about: a long name without one zero byte at its end,
else a path among the records, else the name in the header. -/
def path (notes : Notes) (h : Header) : List UInt8 :=
  match notes.longName with
  | some bytes => if bytes.getLast? = some 0 then bytes.dropLast else bytes
  | none => (notes.records.bind Record.path?).getD h.name

/-- Nothing has been said. -/
def isEmpty (notes : Notes) : Bool :=
  notes.longName.isNone && notes.longLink.isNone && notes.records.isNone

/-- The complaint about a second member that says the same thing about one entry. -/
def repeated (notes : Notes) : Role → Option Failure
  | .entry => none
  | .longName =>
    notes.longName.map fun _ => .other "two long name entries describing the same member"
  | .longLink =>
    notes.longLink.map fun _ => .other "two long name entries describing the same member"
  | .records =>
    notes.records.map fun _ => .other "two pax extensions entries describing the same member"

/-- The notes with the content of one more member. -/
def add (notes : Notes) (content : List UInt8) : Role → Notes
  | .entry => notes
  | .longName => { notes with longName := some content }
  | .longLink => { notes with longLink := some content }
  | .records => { notes with records := some content }

end Notes

/-- A pass over the entries. -/
structure Entries (ρ : Type) where
  archive : Archive ρ
  /-- Position of the header that comes next. -/
  next : Nat := 0

namespace Entries

variable {ρ : Type} [Reader ρ]

/-- The header that comes next, after skipping what is left before it. -/
def readHeader (es : Entries ρ) : Except Failure (Option Header) × Archive ρ :=
  match es.archive.skip (es.next - es.archive.position) with
  | (some f, a) => (.error f, a)
  | (none, a) =>
    match a.readBlock with
    | (.error f, a) => (.error f, a)
    | (.ok block, a) => (.ok (block.bind Header.ofBlock?), a)

/-- Reads blocks with further descriptors, as long as each says that another one comes. They put off
the next header, which is counted without a check. The first argument bounds their number. -/
def extendWithin (size : Nat) :
    Nat → SparseMap → Entries ρ → Except Failure SparseMap × Entries ρ
  | 0, map, es => (.ok map, es)
  | fuel + 1, map, es =>
    match es.archive.readBlock with
    | (.error f, archive) => (.error f, { es with archive })
    | (.ok none, archive) => (.error (.other "failed to read extension"), { es with archive })
    | (.ok (some block), archive) =>
      match map.addAll size (moreDescriptors block) with
      | .error f => (.error f, ⟨archive, es.next + blockSize⟩)
      | .ok map =>
        if goesOn block then extendWithin size fuel map ⟨archive, es.next + blockSize⟩
        else (.ok map, ⟨archive, es.next + blockSize⟩)

/-- The map of a sparse file, with the blocks behind its header. Each of them takes bytes out of the
stream. -/
def readMap (h : Header) (size : Nat) (es : Entries ρ) :
    Except Failure SparseMap × Entries ρ :=
  match SparseMap.addAll size ⟨[], 0, size⟩ h.descriptors with
  | .error f => (.error f, es)
  | .ok map =>
    if h.isExtended then extendWithin size (Reader.budget es.archive + 1) map es else (.ok map, es)

/-- The parts of an entry whose header has been read. Only sparse files have more than one. -/
def readParts (h : Header) (size : Nat) (es : Entries ρ) :
    Except Failure (List Part) × Entries ρ :=
  if h.isSparse then
    if h.isGnu then
      match readMap h size es with
      | (.error f, es) => (.error f, es)
      | (.ok map, es) => (map.finish h, es)
    else (.error (.other "sparse entry type listed but not GNU header"), es)
  else (.ok [.data size], es)

/-- Advances to the next entry, collecting what other members say about it. The first argument
bounds the number of members. -/
def advanceWithin : Nat → Notes → Entries ρ → Except Failure (Option Entry) × Entries ρ
  | 0, _, es => (.ok none, es)
  | fuel + 1, notes, es =>
    match es.readHeader with
    | (.error f, archive) => (.error f, { es with archive })
    | (.ok none, archive) =>
      let answer :=
        if notes.isEmpty then .ok none
        else .error
          (.other "members found describing a future member but no future member found")
      (answer, { es with archive })
    | (.ok (some h), archive) =>
      match checked h notes.records es.next with
      | .error f => (.error f, { es with archive })
      | .ok (size, next) =>
        if h.role = .entry then
          match readParts h size ⟨archive, next⟩ with
          | (.error f, es) => (.error f, es)
          | (.ok parts, es) => (.ok (some ⟨notes.path h, parts⟩), es)
        else
          match notes.repeated h.role with
          | some f => (.error f, ⟨archive, next⟩)
          | none =>
            let (content, c) := Reader.gather .whole none (⟨archive, [.data size]⟩ : Content ρ)
            match content.failure with
            | some f => (.error f, ⟨c.archive, next⟩)
            | none => advanceWithin fuel (notes.add content.bytes h.role) ⟨c.archive, next⟩

/-- Advances to the next entry. Every member takes a header out of the stream. -/
def advance (es : Entries ρ) : Except Failure (Option Entry) × Entries ρ :=
  advanceWithin (Reader.budget es.archive + 1) {} es

end Entries

end InterfaceIndex.Tar
