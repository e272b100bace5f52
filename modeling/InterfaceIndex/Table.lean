import InterfaceIndex.Index
import InterfaceIndex.Stream.Failure
/-!
The table of interfaces, and writing it to an output that may be too small.
-/
namespace InterfaceIndex

/-- An output that takes bytes until its room is used up. -/
structure Sink where
  /-- Bytes taken so far. -/
  accepted : Array UInt8 := #[]
  /-- How many more bytes can be taken; no number means any number. -/
  room : Option Nat := none

namespace Sink

def full : Failure := .other "disk full"

/-- Writes one piece. What does not fit is lost, and that is a failure. -/
def write (s : Sink) (piece : String) : Option Failure × Sink :=
  let bytes := Utf8.encode piece
  match s.room with
  | none => (none, { s with accepted := s.accepted.appendList bytes })
  | some room =>
    let taken := bytes.take room
    (if bytes.length ≤ room then none else some full,
      ⟨s.accepted.appendList taken, some (room - taken.length)⟩)

/-- Writes pieces up to the first failure. -/
def writeAll (s : Sink) : List String → Option Failure × Sink
  | [] => (none, s)
  | piece :: rest =>
    match s.write piece with
    | (none, s) => s.writeAll rest
    | (some f, s) => (some f, s)

end Sink

/-- Declarations in the order in which they are shown. -/
structure Table where
  entries : List Declared
  deriving DecidableEq

namespace Table

/-- Sorted by name and then by package, whatever order the declarations come in. -/
def ofDeclarations (declarations : List Declared) : Table :=
  ⟨declarations.mergeSort fun a b => (Interface.order a.interface b.interface).isLE⟩

def ofIndex (x : Index) : Table :=
  ofDeclarations x.entries

def size (t : Table) : Nat := t.entries.length

def titles : List String := ["Interface", "Package", "Source File", "Line"]

/-- What stands between two columns. -/
def gap : String := "  "

/-- The cells of a row: the name as a link, package, source file and line number. -/
def cells (d : Declared) : List String :=
  ["[" ++ d.interface.name ++ "](" ++ d.location.link ++ ")", d.interface.package,
   d.location.sourceFile, toString d.location.line]

/-- The width of each column, in characters: that of its widest cell. Titles do not count. -/
def widths (t : Table) : List Nat :=
  t.entries.foldl (fun widths d => widths.zipWith max ((cells d).map String.length)) [0, 0, 0, 0]

/-- A cell with spaces after it up to a width, whatever that is. -/
def pad (width : Nat) (cell : String) : String :=
  cell ++ String.ofList (List.replicate (width - cell.length) ' ')

/-- The pieces that a line is written in. -/
def linePieces (widths : List Nat) (cells : List String) : List String :=
  (widths.zipWith pad cells).intersperse gap ++ ["\n"]

/-- The line of dashes below the titles. -/
def rule (widths : List Nat) : String :=
  gap.intercalate (widths.map fun width => String.ofList (List.replicate width '-')) ++ "\n"

/-- The pieces that the table is written in. -/
def pieces (t : Table) : List String :=
  linePieces t.widths titles ++ [rule t.widths] ++
    t.entries.flatMap fun d => linePieces t.widths (cells d)

/-- The whole table. -/
def text (t : Table) : String :=
  String.join t.pieces

/-- The largest width that cells can be padded to when they are printed. -/
def maxWidth : Nat := 65535

/-- Whether the cells of every column can be padded to its width. -/
def isPrintable (t : Table) : Bool :=
  t.widths.all (· ≤ maxWidth)

/-- What is put out of a table before the first column that is too wide, where printing crashes: the
titles up to there. -/
def begun (t : Table) : String :=
  String.join (((t.widths.takeWhile (· ≤ maxWidth)).zipWith pad titles).map (· ++ gap))

/-- The complaint about a column that is too wide. -/
def tooWide : String := "Formatting argument out of range"

/-- Writes the table to an output. -/
def write (t : Table) (s : Sink) : Option Failure × Sink :=
  s.writeAll t.pieces

end Table

end InterfaceIndex
