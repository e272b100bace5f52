import InterfaceIndex.Text.Words
import InterfaceIndex.Text.Utf8
/-!
Finding an interface declaration in a line of a source file.
-/
namespace InterfaceIndex.Declaration

/-- Tab, line feed, vertical tab, form feed, carriage return and space. -/
def isSpace (b : UInt8) : Bool :=
  b == 0x20 || (0x09 ≤ b && b ≤ 0x0d)

def isCapital (b : UInt8) : Bool :=
  0x41 ≤ b && b ≤ 0x5a

/-- ASCII letters, digits and the underscore. -/
def isWordByte (b : UInt8) : Bool :=
  isCapital b || (0x61 ≤ b && b ≤ 0x7a) || (0x30 ≤ b && b ≤ 0x39) || b == 0x5f

/-- What follows the white space at the front, of which there has to be some. -/
def afterSpaces? : List UInt8 → Option (List UInt8)
  | [] => none
  | b :: rest => if isSpace b then some (rest.dropWhile isSpace) else none

/-- The exported name at the front, and what follows it. -/
def exportedName? : List UInt8 → Option (List UInt8 × List UInt8)
  | [] => none
  | b :: rest =>
    if isCapital b then some (b :: rest.takeWhile isWordByte, rest.dropWhile isWordByte) else none

/-- The exported interface that a line declares: white space or none, the word type, the name, the
word interface and an opening brace, all with white space between them, and then anything. -/
def name? (line : List UInt8) : Option (List UInt8) := do
  let rest ← after? (Utf8.encode "type") (line.dropWhile isSpace)
  let (name, rest) ← afterSpaces? rest >>= exportedName?
  let rest ← afterSpaces? rest >>= after? (Utf8.encode "interface") >>= afterSpaces?
  if rest.head? = some 0x7b then some name else none

/-- The text of ASCII bytes. -/
def textOfAscii (bytes : List UInt8) : String :=
  String.ofList (bytes.map fun b => Char.ofNat b.toNat)

end InterfaceIndex.Declaration
