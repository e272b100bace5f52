/-!
UTF-8 over lists of bytes: writing text, reading it back, and reading bytes that may not be text.
-/
namespace InterfaceIndex.Utf8

/-- The bytes of a text. -/
def encode (text : String) : List UInt8 :=
  text.toUTF8.data.toList

/-- A character begun but not ended: how many bytes it still needs, the range of the next one, and
the bits read so far. Only the byte after the first has a range of its own, which keeps out
overlong forms, surrogates and numbers above the last code point. -/
structure Begun where
  owed : Nat
  low : UInt8
  high : UInt8
  bits : Nat

/-- What the first byte of a character says. -/
inductive Lead where
  | whole (c : Char)
  | begun (b : Begun)
  | none

def Lead.ofByte (b : UInt8) : Lead :=
  let n := b.toNat
  if n < 0x80 then .whole (Char.ofNat n)
  else if n < 0xC2 then .none
  else if n < 0xE0 then .begun ⟨1, 0x80, 0xBF, n - 0xC0⟩
  else if n = 0xE0 then .begun ⟨2, 0xA0, 0xBF, 0⟩
  else if n = 0xED then .begun ⟨2, 0x80, 0x9F, 0x0D⟩
  else if n < 0xF0 then .begun ⟨2, 0x80, 0xBF, n - 0xE0⟩
  else if n = 0xF0 then .begun ⟨3, 0x90, 0xBF, 0⟩
  else if n < 0xF4 then .begun ⟨3, 0x80, 0xBF, n - 0xF0⟩
  else if n = 0xF4 then .begun ⟨3, 0x80, 0x8F, 4⟩
  else .none

/-- The bits of a character once one more byte belongs to it. -/
def Begun.push (s : Begun) (b : UInt8) : Nat :=
  s.bits * 64 + (b.toNat - 0x80)

/-- One entry for each character and for each longest piece that begins a character and cannot
end it; the latter entries are empty. -/
def pieces : Option Begun → List UInt8 → List (Option Char)
  | none, [] => []
  | some _, [] => [none]
  | none, b :: rest =>
    match Lead.ofByte b with
    | .whole c => some c :: pieces none rest
    | .begun s => pieces (some s) rest
    | .none => none :: pieces none rest
  | some s, b :: rest =>
    if s.low ≤ b ∧ b ≤ s.high then
      if s.owed ≤ 1 then some (Char.ofNat (s.push b)) :: pieces none rest
      else pieces (some ⟨s.owed - 1, 0x80, 0xBF, s.push b⟩) rest
    else
      match Lead.ofByte b with
      | .whole c => none :: some c :: pieces none rest
      | .begun s => none :: pieces (some s) rest
      | .none => none :: none :: pieces none rest

/-- The text that the bytes write, if they write one. -/
def decode? (bytes : List UInt8) : Option String :=
  ((pieces none bytes).mapM id).map String.ofList

/-- The bytes as text, with a replacement character for each piece that is none. -/
def decodeLossy (bytes : List UInt8) : String :=
  String.ofList ((pieces none bytes).map (·.getD (Char.ofNat 0xFFFD)))

end InterfaceIndex.Utf8
