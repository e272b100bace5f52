import InterfaceIndex.Stream.Buffered
import InterfaceIndex.Gzip.Header
import InterfaceIndex.Deflate.Inflate
/-!
A stream of gzip members read as the stream of their contents, one after another.
-/
namespace InterfaceIndex.Gzip

open Deflate

/-- The body of a member. -/
structure Body where
  inflate : Inflate := {}
  /-- Bits taken from the input that no item has used yet. -/
  carry : List Bool := []
  /-- How much of the output has been handed out. -/
  given : Nat := 0
  /-- Whether the data turned out to be no deflate stream. -/
  isCorrupt : Bool := false

/-- What a decoder reads next. -/
inductive Stage where
  | header (h : Header)
  | body (m : Body)
  /-- The eight bytes after a body of which these are there, latest first. -/
  | trailer (content : Array UInt8) (sofar : List UInt8)
  | ended

/-- A decoder and its input. -/
structure Decoder (ρ : Type) where
  input : Buffered ρ
  stage : Stage := .header {}

/-- Output is decoded ahead up to the next multiple of this number of bytes. -/
def window : Nat := 32768

/-- The end of the window that the byte after the first `n` falls into. -/
def windowEnd (n : Nat) : Nat :=
  (n / window + 1) * window

def corrupt : Failure := .malformed "corrupt deflate stream"

def incomplete : Failure := .cutOff "incomplete deflate stream"

def endOfFile : Failure := .cutOff "unexpected end of file"

namespace Body

/-- The next `n` bytes of output not handed out yet. -/
def take (m : Body) (n : Nat) : List UInt8 × Body :=
  let piece := (m.inflate.output.extract m.given (m.given + n)).toList
  (piece, { m with given := m.given + piece.length })

/-- Decodes held bytes to the end of the window. Gives the reason to stop and the bytes left: held
bytes are used up when the decoder asks for more, and otherwise up to the last bit used. -/
def decodeWindow (m : Body) (held : List UInt8) : Inflate.Stop × Body × List UInt8 :=
  let (stop, inflate, rest) :=
    m.inflate.run (windowEnd m.inflate.output.size) (m.carry ++ bitsOfBytes held)
  let left := if stop = .starved then [] else held.drop (held.length - rest.length / 8)
  let carry := rest.take (rest.length - 8 * left.length)
  (stop, { m with inflate, carry, isCorrupt := stop = .corrupt }, left)

/-- Decodes held bytes one window after another until the output has `goal` bytes, as long as a
window fills up and bytes are still held; `last` says that the input has no more bytes, and then
windows go on without any. The first argument bounds the number of windows. -/
def decodeWindows (last : Bool) (goal : Nat) : Nat → Body → List UInt8 → Body × List UInt8
  | 0, m, held => (m, held)
  | fuel + 1, m, held =>
    match m.decodeWindow held with
    | (.full, m, held) =>
      if m.inflate.output.size < goal && (last || !held.isEmpty) then
        decodeWindows last goal fuel m held
      else (m, held)
    | (_, m, held) => (m, held)

/-- Decodes for a read of `n` bytes, but only when all output has been handed out. -/
def advance (m : Body) (last : Bool) (n : Nat) (held : List UInt8) : Body × List UInt8 :=
  if m.isCorrupt || decide (m.given < m.inflate.output.size) then (m, held)
  else decodeWindows last (m.given + n) (n / window + 2) m held

end Body

/-- Four bytes as a number, least significant first. -/
def littleEndian (bytes : List UInt8) : Nat :=
  bytes.foldr (fun b n => b.toNat + 256 * n) 0

/-- Whether a trailer states the checksum and the length, modulo 2 ^ 32, of the content. -/
def trailerMatches (content : Array UInt8) (trailer : List UInt8) : Bool :=
  littleEndian (trailer.take 4) == (Crc32.ofBytes content.toList).toNat &&
    littleEndian (trailer.drop 4) == content.size % UInt32.size

namespace Decoder

variable {ρ : Type} [Reader ρ]

/-- What one step comes to: an answer to the read, or nothing yet. -/
inductive Step (ρ : Type) where
  | answer (a : Except Failure (List UInt8)) (d : Decoder ρ)
  | onward (d : Decoder ρ)

/-- Reads one byte of a header or trailer; interrupted reads are made again. -/
def readByte (input : Buffered ρ) : Except Failure UInt8 × Buffered ρ :=
  match Reader.gather ⟨1, true⟩ (some 1) input with
  | (⟨b :: _, _⟩, input) => (.ok b, input)
  | (⟨[], some f⟩, input) => (.error f, input)
  | (⟨[], none⟩, input) => (.error endOfFile, input)

/-- One step of a read of `n` bytes. A trailer that does not match ends the stream. -/
def step (n : Nat) (d : Decoder ρ) : Step ρ :=
  match d.stage with
  | .header h =>
    match h.part with
    | .complete => .onward { d with stage := .body {} }
    | .refused f => .answer (.error f) d
    | _ =>
      match readByte d.input with
      | (.error f, input) => .answer (.error f) { d with input }
      | (.ok b, input) =>
        match h.push b with
        | (h, none) => .onward ⟨input, .header h⟩
        | (h, some f) => .answer (.error f) ⟨input, .header h⟩
  | .body m =>
    match d.input.fill with
    | (some f, input) => .answer (.error f) ⟨input, .body m⟩
    | (none, input) =>
      let atEnd := input.held.isEmpty
      let (m, held) := m.advance atEnd n input.held
      let input := { input with held }
      if m.isCorrupt then .answer (.error corrupt) ⟨input, .body m⟩
      else
        let (piece, m) := m.take n
        if !piece.isEmpty then .answer (.ok piece) ⟨input, .body m⟩
        else
          match m.inflate.phase with
          | .finished => .onward ⟨input, .trailer m.inflate.output []⟩
          | _ =>
            if atEnd then .answer (.error incomplete) ⟨input, .body m⟩
            else .onward ⟨input, .body m⟩
  | .trailer content sofar =>
    if sofar.length < 8 then
      match readByte d.input with
      | (.error f, input) => .answer (.error f) { d with input }
      | (.ok b, input) => .onward ⟨input, .trailer content (b :: sofar)⟩
    else if trailerMatches content sofar.reverse then
      match d.input.fill with
      | (some f, input) => .answer (.error f) { d with input }
      | (none, input) => .onward ⟨input, if input.held.isEmpty then .ended else .header {}⟩
    else .answer (.error Header.mismatch) { d with stage := .ended }
  | .ended => .answer (.ok []) d

/-- Takes steps until one answers; the first argument bounds their number. -/
def readWithin (n : Nat) : Nat → Decoder ρ → Except Failure (List UInt8) × Decoder ρ
  | 0, d => (.ok [], d)
  | fuel + 1, d =>
    match step n d with
    | .answer a d => (a, d)
    | .onward d => readWithin n fuel d

/-- One read. Every step either takes input or goes on to the next stage, of which there are four,
without taking input in between. -/
def read (d : Decoder ρ) (n : Nat) : Except Failure (List UInt8) × Decoder ρ :=
  if n = 0 then (.ok [], d)
  else readWithin n (4 * Reader.budget d.input + 5) d

/-- Most bytes of output that are due without further input. A bit gives at most 258 bytes. -/
def due : Stage → Nat
  | .body m =>
    let begun :=
      match m.inflate.phase with
      | .literal .. => 1
      | .copying left _ _ => left
      | _ => 0
    258 * m.carry.length + begun + (m.inflate.output.size - m.given)
  | _ => 0

instance : Reader (Decoder ρ) where
  read := read
  budget d := 8 * 258 * Reader.budget d.input + due d.stage

end Decoder

end InterfaceIndex.Gzip
