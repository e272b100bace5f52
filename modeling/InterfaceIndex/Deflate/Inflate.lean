import InterfaceIndex.Deflate.Block
/-!
Decoding a deflate stream as far as the bits at hand and the room for output allow.
-/
namespace InterfaceIndex.Deflate

/-- Where a decoder stands between two items. -/
inductive Phase where
  /-- Before the header of a block. -/
  | header
  /-- In a stored block, with so many bytes to come. -/
  | stored (left : Nat)
  | coded (codes : Codes)
  /-- After a literal byte, which has yet to come out. -/
  | literal (b : UInt8) (codes : Codes)
  /-- In a repetition, with `left` bytes to come from `distance` bytes back. -/
  | copying (left distance : Nat) (codes : Codes)
  /-- After the last block. -/
  | finished

/-- A decoder of one stream. -/
structure Inflate where
  phase : Phase := .header
  /-- Whether the block begun is the last one. -/
  last : Bool := false
  /-- Everything decoded so far. -/
  output : Array UInt8 := #[]

namespace Inflate

/-- Why decoding stopped. -/
inductive Stop where
  | full
  | starved
  | finished
  | corrupt
  deriving DecidableEq

/-- The phase after the end of a block. -/
def afterBlock (d : Inflate) : Phase :=
  if d.last then .finished else .header

/-- The byte at a distance back from the end of the output; before the output all bytes are zero. -/
def lookBack (output : Array UInt8) (distance : Nat) : UInt8 :=
  if distance ≤ output.size then output.getD (output.size - distance) 0 else 0

/-- What one step comes to. -/
inductive Step where
  | stop (reason : Stop) (d : Inflate) (rest : List Bool)
  | onward (d : Inflate) (rest : List Bool)

/-- One step: the header of a block, one item, or one byte. The header and the items take at least
one bit; everything else is one byte of output, for which there has to be room. An item is taken
whether or not there is room for what it brings. -/
def step (goal : Nat) (d : Inflate) (bits : List Bool) : Step :=
  match d.phase with
  | .finished => .stop .finished d bits
  | .header =>
    match readBlock bits with
    | .starved => .stop .starved d bits
    | .corrupt rest => .stop .corrupt d rest
    | .ok (last, .stored length) rest =>
      let d := { d with last }
      .onward { d with phase := if length = 0 then d.afterBlock else .stored length } rest
    | .ok (last, .coded codes) rest => .onward { d with last, phase := .coded codes } rest
  | .stored left =>
    if goal ≤ d.output.size then .stop .full d bits
    else
      match BitReader.number 8 bits with
      | .starved => .stop .starved d bits
      | .corrupt rest => .stop .corrupt d rest
      | .ok b rest =>
        .onward
          { d with
            phase := if left ≤ 1 then d.afterBlock else .stored (left - 1)
            output := d.output.push (UInt8.ofNat b) }
          rest
  | .coded codes =>
    match codes.readItem bits with
    | .starved => .stop .starved d bits
    | .corrupt rest => .stop .corrupt d rest
    | .ok (.literal b) rest => .onward { d with phase := .literal b codes } rest
    | .ok (.copy length distance) rest =>
      .onward { d with phase := .copying length distance codes } rest
    | .ok .endOfBlock rest => .onward { d with phase := d.afterBlock } rest
  | .literal b codes =>
    if goal ≤ d.output.size then .stop .full d bits
    else .onward { d with phase := .coded codes, output := d.output.push b } bits
  | .copying left distance codes =>
    if goal ≤ d.output.size then .stop .full d bits
    else
      .onward
        { d with
          phase := if left ≤ 1 then .coded codes else .copying (left - 1) distance codes
          output := d.output.push (lookBack d.output distance) }
        bits

/-- Takes steps until one stops; the first argument bounds their number. Gives the reason, the
decoder, and the bits not used. -/
def runWithin (goal : Nat) : Nat → Inflate → List Bool → Stop × Inflate × List Bool
  | 0, d, bits => (.starved, d, bits)
  | fuel + 1, d, bits =>
    match step goal d bits with
    | .stop reason d rest => (reason, d, rest)
    | .onward d rest => runWithin goal fuel d rest

/-- Decodes until the output has `goal` bytes and more are due, the bits end, or the stream does.
Every step takes a bit or adds a byte, which bounds their number. -/
def run (goal : Nat) (d : Inflate) (bits : List Bool) : Stop × Inflate × List Bool :=
  runWithin goal (bits.length + (goal - d.output.size) + 1) d bits

end Inflate

end InterfaceIndex.Deflate
