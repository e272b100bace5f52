import InterfaceIndex.Stream.Failure
import InterfaceIndex.Checksum
/-!
The header of a gzip member, taken in byte by byte.
-/
namespace InterfaceIndex.Gzip

/-- The part of a header that comes next. -/
inductive HeaderPart where
  /-- The ten bytes at the front, of which these are there, latest first. -/
  | fixed (sofar : List UInt8)
  /-- The low byte of the length of the extra field, if it is there. -/
  | extraLength (low : Option UInt8)
  | extra (left : Nat)
  /-- The zero-terminated name, of which so many bytes are there. -/
  | name (length : Nat)
  | comment (length : Nat)
  /-- The low byte of the header's checksum, if it is there. -/
  | checksum (low : Option UInt8)
  /-- Nothing more. -/
  | complete
  /-- The header was refused, and stays so. -/
  | refused (f : Failure)
  deriving DecidableEq

/-- A header under way. -/
structure Header where
  part : HeaderPart := .fixed []
  /-- The byte of flags, which say what the header holds. -/
  flags : UInt8 := 0
  /-- Checksum register over the bytes kept so far. -/
  register : UInt32 := Crc32.start
  deriving DecidableEq

namespace Header

/-- The two bytes that every member starts with. -/
def magic : List UInt8 := [0x1f, 0x8b]

def invalid : Failure := .malformed "invalid gzip header"

def mismatch : Failure := .malformed "corrupt gzip stream does not have a matching checksum"

def tooLong : Failure := .malformed "gzip header field too long"

/-- Most bytes of a name or comment, its terminator not counted. -/
def longestText : Nat := 65535

def hasFlag (h : Header) (flag : UInt8) : Bool :=
  h.flags &&& flag != 0

/-- The part after the comment. -/
def afterComment (h : Header) : HeaderPart :=
  if h.hasFlag 2 then .checksum none else .complete

def afterName (h : Header) : HeaderPart :=
  if h.hasFlag 16 then .comment 0 else h.afterComment

def afterExtra (h : Header) : HeaderPart :=
  if h.hasFlag 8 then .name 0 else h.afterName

def afterFixed (h : Header) : HeaderPart :=
  if h.hasFlag 4 then .extraLength none else h.afterExtra

/-- The header after its first ten bytes: the magic number, deflate as the method, and no flag
that has no meaning. -/
def ofFixed (h : Header) : List UInt8 → Header
  | m₀ :: m₁ :: method :: flags :: _ =>
    if [m₀, m₁] = magic ∧ method = 8 ∧ flags &&& 0xe0 = 0 then
      let h := { h with flags }
      { h with part := h.afterFixed }
    else { h with part := .refused invalid }
  | _ => { h with part := .refused invalid }

/-- The header after one more byte, and a complaint. A text that is too long is complained about
for every byte too many, and may still end; the bytes too many are left out of the checksum. -/
def push (h : Header) (b : UInt8) : Header × Option Failure :=
  let next := { h with register := Crc32.push h.register b }
  match h.part with
  | .fixed sofar =>
    if sofar.length < 9 then ({ next with part := .fixed (b :: sofar) }, none)
    else (next.ofFixed (b :: sofar).reverse, none)
  | .extraLength none => ({ next with part := .extraLength (some b) }, none)
  | .extraLength (some low) =>
    let length := low.toNat + 256 * b.toNat
    ({ next with part := if length = 0 then h.afterExtra else .extra length }, none)
  | .extra left => ({ next with part := if left ≤ 1 then h.afterExtra else .extra (left - 1) }, none)
  | .name length =>
    if b = 0 then ({ next with part := h.afterName }, none)
    else if length < longestText then ({ next with part := .name (length + 1) }, none)
    else (h, some tooLong)
  | .comment length =>
    if b = 0 then ({ next with part := h.afterComment }, none)
    else if length < longestText then ({ next with part := .comment (length + 1) }, none)
    else (h, some tooLong)
  | .checksum none => ({ h with part := .checksum (some b) }, none)
  | .checksum (some low) =>
    let expected := (Crc32.finish h.register).toNat % UInt16.size
    ({ h with part := if low.toNat + 256 * b.toNat = expected then .complete else .refused mismatch },
      none)
  | .complete => (h, none)
  | .refused f => (h, some f)

end Header

end InterfaceIndex.Gzip
