import InterfaceIndex.Stream.Reader
/-!
A stream read ahead by a buffer, and its lines.
-/
namespace InterfaceIndex

/-- What reading lines brought: the lines, in order and each with its line feed where it has one,
and the failure that ended the reading, if any. -/
structure Lined where
  lines : List (List UInt8)
  failure : Option Failure
  deriving DecidableEq, Repr

/-- A stream together with bytes already taken from it. -/
structure Buffered (ρ : Type) where
  inner : ρ
  held : List UInt8 := []

namespace Buffered

/-- Most bytes that the buffer asks for at once. -/
def capacity : Nat := 8192

variable {ρ : Type} [Reader ρ]

/-- Makes sure that bytes are held, unless the stream has ended. Only an empty buffer reads. -/
def fill (b : Buffered ρ) : Option Failure × Buffered ρ :=
  match b.held with
  | [] =>
    match Reader.read b.inner capacity with
    | (.ok bytes, inner) => (none, ⟨inner, bytes⟩)
    | (.error f, inner) => (some f, ⟨inner, []⟩)
  | _ => (none, b)

/-- One read: from the held bytes alone when there are any, and past the buffer when it is empty
and would not make the read larger. -/
def read (b : Buffered ρ) (n : Nat) : Except Failure (List UInt8) × Buffered ρ :=
  if b.held.isEmpty && decide (capacity ≤ n) then
    let (answer, inner) := Reader.read b.inner n
    (answer, ⟨inner, []⟩)
  else
    match b.fill with
    | (some f, b) => (.error f, b)
    | (none, b) => (.ok (b.held.take n), { b with held := b.held.drop n })

instance : Reader (Buffered ρ) where
  read := read
  budget b := b.held.length + Reader.budget b.inner

/-- Takes bytes up to the next line feed, and with it, or else to the end of the stream, and puts
them after those that are there. Interrupted reads are made again. The first argument bounds the
number of reads. -/
def readLineWithin : Nat → List UInt8 → Buffered ρ → Except Failure (List UInt8) × Buffered ρ
  | 0, sofar, b => (.ok sofar, b)
  | fuel + 1, sofar, b =>
    match b.fill with
    | (some f, b) =>
      if f.isInterrupted && fuel != 0 then readLineWithin fuel sofar b else (.error f, b)
    | (none, b) =>
      let front := b.held.takeWhile (· != 0x0a)
      match b.held.drop front.length with
      | feed :: rest => (.ok (sofar ++ front ++ [feed]), { b with held := rest })
      | [] =>
        if front.isEmpty then (.ok sofar, b)
        else readLineWithin fuel (sofar ++ front) { b with held := [] }

/-- The next line; it is empty at the end of the stream and only there. -/
def readLine (b : Buffered ρ) : Except Failure (List UInt8) × Buffered ρ :=
  readLineWithin (Reader.budget b + 1) [] b

/-- Reads lines until the stream ends or a read fails; the first argument bounds their number. -/
def linesWithin : Nat → Buffered ρ → Lined × Buffered ρ
  | 0, b => (⟨[], none⟩, b)
  | fuel + 1, b =>
    match b.readLine with
    | (.error f, b) => (⟨[], some f⟩, b)
    | (.ok line, b) =>
      if line.isEmpty then (⟨[], none⟩, b)
      else
        let (more, b) := linesWithin fuel b
        (⟨line :: more.lines, more.failure⟩, b)

/-- Reads lines until the stream ends or a read fails. No line is without bytes, which bounds their
number. -/
def lines (b : Buffered ρ) : Lined × Buffered ρ :=
  linesWithin (Reader.budget b + 1) b

end Buffered

end InterfaceIndex
