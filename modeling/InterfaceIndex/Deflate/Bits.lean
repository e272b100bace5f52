/-!
Reading bits, in the order of a deflate stream, from as much of the stream as is at hand.
-/
namespace InterfaceIndex.Deflate

/-- The bits of a byte, least significant first. -/
def bitsOfByte (b : UInt8) : List Bool :=
  [b &&& 1 != 0, b &&& 2 != 0, b &&& 4 != 0, b &&& 8 != 0,
   b &&& 16 != 0, b &&& 32 != 0, b &&& 64 != 0, b &&& 128 != 0]

def bitsOfBytes (bytes : List UInt8) : List Bool :=
  bytes.flatMap bitsOfByte

/-- What reading from the bits at hand comes to. -/
inductive Parsed (α : Type) where
  | ok (value : α) (rest : List Bool)
  /-- The bits at hand end too early to tell. -/
  | starved
  /-- No stream goes on like this; `rest` comes after the bits that show it. -/
  | corrupt (rest : List Bool)

/-- A reader of bits. It answers from the front of the bits alone, so bits that arrive later do not
change an answer that is there. -/
def BitReader (α : Type) : Type :=
  List Bool → Parsed α

namespace BitReader

variable {α β : Type}

def pure (value : α) : BitReader α :=
  fun bits => .ok value bits

def bind (r : BitReader α) (next : α → BitReader β) : BitReader β :=
  fun bits =>
    match r bits with
    | .ok value rest => next value rest
    | .starved => .starved
    | .corrupt rest => .corrupt rest

instance : Monad BitReader where
  pure := pure
  bind := bind

/-- No stream goes on from here. -/
def corrupt : BitReader α :=
  fun bits => .corrupt bits

def bit : BitReader Bool
  | [] => .starved
  | b :: rest => .ok b rest

/-- A number of so many bits, least significant first. -/
def number : Nat → BitReader Nat
  | 0 => pure 0
  | width + 1 => do
    let low ← bit
    let high ← number width
    pure (low.toNat + 2 * high)

/-- So many numbers of one width. -/
def numbers (width : Nat) : Nat → BitReader (List Nat)
  | 0 => pure []
  | count + 1 => do
    let first ← number width
    let others ← numbers width count
    pure (first :: others)

/-- Skips what is left of the byte begun. The bits at hand always end with a whole byte. -/
def align : BitReader Unit :=
  fun bits => .ok () (bits.drop (bits.length % 8))

end BitReader

end InterfaceIndex.Deflate
