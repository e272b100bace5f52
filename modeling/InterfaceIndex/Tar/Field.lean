import InterfaceIndex.Stream.Failure
import InterfaceIndex.Text.Words
import InterfaceIndex.Text.Utf8
/-!
The fields of a tar header: text that ends at a zero byte, and numbers.
-/
namespace InterfaceIndex.Tar

/-- A field up to its first zero byte. -/
def untilZero (field : List UInt8) : List UInt8 :=
  field.takeWhile (· != 0)

/-- The value of digits in a radix of at most ten, most significant first. -/
def digits? (radix : Nat) (text : List Char) : Option Nat :=
  text.foldlM (fun n c =>
    if '0' ≤ c ∧ c.toNat - 48 < radix then some (radix * n + (c.toNat - 48)) else none) 0

/-- The number that a text writes in a radix of at most ten: one digit or more, with a plus sign
before them or not, and a value below 2 ^ 64. -/
def number? (radix : Nat) (text : List Char) : Option Nat :=
  let digits :=
    match text with
    | '+' :: rest => rest
    | _ => text
  if digits.isEmpty then none
  else (digits? radix digits).filter (· < UInt64.size)

/-- A number in octal digits, with white space around them or not. -/
def octal (field : List UInt8) : Except Failure Nat :=
  let bytes := untilZero field
  match Utf8.decode? bytes with
  | none =>
    .error (.other ("numeric field did not have utf-8 text: " ++ Utf8.decodeLossy bytes))
  | some text =>
    match number? 8 (trimBlanks text.toList) with
    | some n => .ok n
    | none => .error (.other ("numeric field was not a number: " ++ text))

/-- Bytes as a number, most significant first. -/
def bigEndian (bytes : List UInt8) : Nat :=
  bytes.foldl (fun n b => 256 * n + b.toNat) 0

/-- A number in octal digits, or, when the first bit is set, in the last eight bytes. -/
def octalOrBinary (field : List UInt8) : Except Failure Nat :=
  match field with
  | b :: _ =>
    if b &&& 0x80 != 0 then .ok (bigEndian (field.drop (field.length - 8))) else octal field
  | [] => octal field

/-- A number, or the failure to read it with what it was to be. -/
def getting (what : String) : Except Failure Nat → Except Failure Nat
  | .ok n => .ok n
  | .error f => .error { f with message := f.message ++ " when getting " ++ what }

end InterfaceIndex.Tar
