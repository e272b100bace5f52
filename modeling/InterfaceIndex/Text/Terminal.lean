/-!
Text as a log line shows it in quotes, and characters that a terminal takes as commands: writing them
out, and leaving commands out.
-/
namespace InterfaceIndex

namespace Quoted

/-- Lower-case hexadecimal digits of a number, padded with zeros to a width. -/
def hex (width n : Nat) : List Char :=
  let digits := Nat.toDigits 16 n
  List.replicate (width - digits.length) '0' ++ digits

/-- A character of a text field in a log line. -/
def fieldChar (c : Char) : List Char :=
  if c = '"' then ['\\', '"']
  else if c = '\\' then ['\\', '\\']
  else if c.toNat = 0 then ['\\', '0']
  else if c.toNat = 9 then ['\\', 't']
  else if c.toNat = 10 then ['\\', 'n']
  else if c.toNat = 13 then ['\\', 'r']
  else if c.toNat < 32 ∨ c.toNat = 127 then
    ['\\', 'u', '\x7b'] ++ hex 1 c.toNat ++ ['\x7d']
  else [c]

/-- A text field in a log line. -/
def field (text : String) : String :=
  String.ofList ('"' :: text.toList.flatMap fieldChar ++ ['"'])

end Quoted

namespace Terminal

/-- A character of a message. Those by which a terminal can be led astray are written as numbers. -/
def messageChar (c : Char) : List Char :=
  let n := c.toNat
  if n = 7 ∨ n = 8 ∨ n = 12 ∨ n = 27 ∨ n = 127 then ['\\', 'x'] ++ Quoted.hex 2 n
  else if 0x80 ≤ n ∧ n ≤ 0x9F then ['\\', 'u', '\x7b'] ++ Quoted.hex 1 n ++ ['\x7d']
  else [c]

/-- A message without commands to a terminal, each of them still to be seen. -/
def message (text : String) : String :=
  String.ofList (text.toList.flatMap messageChar)

/-- What a terminal takes the next character for. -/
inductive Mode where
  | text
  /-- The kind of a command begun. -/
  | kind
  /-- The rest of a command of two or three characters. -/
  | short
  /-- The parameters of a control sequence, up to a character from `@` on. -/
  | parameters
  /-- A string, which a bell may end. -/
  | string (bell : Bool)
  deriving DecidableEq, Repr

/-- White space that is shown even inside a command, and ends it. -/
def isSpacing (n : Nat) : Bool :=
  n = 9 ∨ n = 10 ∨ n = 12 ∨ n = 13

/-- The mode after a character, and whether the character is shown. An escape begins a command
anywhere, and the two cancelling characters end every one. -/
def Mode.push (mode : Mode) (c : Char) : Mode × Bool :=
  let n := c.toNat
  if n = 0x1B then (.kind, false)
  else if n = 0x18 ∨ n = 0x1A then (.text, false)
  else
    match mode with
    | .text => (.text, isSpacing n || (0x20 ≤ n && n != 0x7F))
    | .string bell => (if bell && n = 7 then .text else mode, false)
    | .kind =>
      if isSpacing n then (.text, true)
      else if c = '[' then (.parameters, false)
      else if c = ']' then (.string true, false)
      else if c = 'P' ∨ c = 'X' ∨ c = '^' ∨ c = '_' then (.string false, false)
      else if 0x20 ≤ n ∧ n < 0x30 then (.short, false)
      else (if 0x30 ≤ n ∧ n < 0x7F then .text else mode, false)
    | .short =>
      if isSpacing n then (.text, true)
      else (if 0x30 ≤ n ∧ n < 0x7F then .text else mode, false)
    | .parameters =>
      if isSpacing n then (.text, true)
      else (if 0x40 ≤ n ∧ n < 0x7F then .text else mode, false)

/-- The characters that are shown. -/
def shownFrom : Mode → List Char → List Char
  | _, [] => []
  | mode, c :: rest =>
    let (mode, isShown) := mode.push c
    if isShown then c :: shownFrom mode rest else shownFrom mode rest

/-- A text without commands to a terminal. -/
def shown (text : String) : String :=
  String.ofList (shownFrom .text text.toList)

end Terminal

end InterfaceIndex
