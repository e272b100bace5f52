import InterfaceIndex.Stream.Failure
/-!
Byte streams that are read in pieces, and the loop that gathers pieces.
-/
namespace InterfaceIndex

/-- A byte stream. A read asks for at most so many bytes and gets some of them, or none at the end
of the stream, or a failure. -/
class Reader (ρ : Type) where
  read : ρ → Nat → Except Failure (List UInt8) × ρ
  /-- A bound on the bytes that reads can still hand out and the times that they can still fail in
  passing, taken together. -/
  budget : ρ → Nat

/-- What a run of reads brought: the bytes, in order, and the failure that ended it, if any. -/
structure Gathered where
  bytes : List UInt8
  failure : Option Failure
  deriving DecidableEq, Repr

/-- How a run of reads is made. -/
structure Manner where
  /-- Most bytes asked for at once. -/
  piece : Nat
  /-- Whether an interrupted read is made again. -/
  patient : Bool

namespace Manner

/-- The way contents are read to their end. -/
def whole : Manner := ⟨8192, true⟩

/-- Size of the next read when only `limit` bytes are still wanted. -/
def request (m : Manner) : Option Nat → Nat
  | none => m.piece
  | some limit => min m.piece limit

end Manner

namespace Reader

variable {ρ : Type} [Reader ρ]

/-- Reads until the stream ends, a read fails, or `limit` bytes are there; the first argument bounds
the number of reads. A stream that goes on failing in passing is left with its last word. -/
def gatherWithin (m : Manner) : Nat → Option Nat → ρ → Gathered × ρ
  | _, some 0, r => (⟨[], none⟩, r)
  | 0, _, r => (⟨[], none⟩, r)
  | fuel + 1, limit, r =>
    match read r (m.request limit) with
    | (.ok [], r) => (⟨[], none⟩, r)
    | (.ok piece, r) =>
      let (more, r) := gatherWithin m fuel (limit.map (· - piece.length)) r
      (⟨piece ++ more.bytes, more.failure⟩, r)
    | (.error f, r) =>
      if m.patient && f.isInterrupted && fuel != 0 then gatherWithin m fuel limit r
      else (⟨[], some f⟩, r)

/-- Reads until the stream ends, a read fails, or `limit` bytes are there. -/
def gather (m : Manner) (limit : Option Nat) (r : ρ) : Gathered × ρ :=
  gatherWithin m (budget r + 1) limit r

end Reader

end InterfaceIndex
