import InterfaceIndex.Deflate.Bits
/-!
Canonical prefix codes: from the code length of each symbol to a tree, and reading a symbol.
-/
namespace InterfaceIndex.Deflate

/-- A prefix code as a tree that is walked bit by bit. -/
inductive Code where
  /-- No codeword goes on here. -/
  | unassigned
  | symbol (s : Nat)
  | fork (zero one : Code)
  deriving Repr

namespace Code

/-- Reads one codeword and gives its symbol. -/
def read : Code → BitReader Nat
  | unassigned => .corrupt
  | symbol s => .pure s
  | fork zero one => .bind .bit fun b => if b then one.read else zero.read

/-- Longest codeword. -/
def maxLength : Nat := 15

/-- The symbols with codewords of one length, in order. -/
def symbolsOfLength (lengths : List Nat) (length : Nat) : List Code :=
  (lengths.zipIdx.filter (·.1 == length)).map (symbol ·.2)

/-- Joins neighbours; no codeword goes on beside the last tree when their number is odd. -/
def joinPairs : List Code → List Code
  | zero :: one :: rest => fork zero one :: joinPairs rest
  | [zero] => [fork zero unassigned]
  | [] => []

/-- The trees whose roots lie `height` bits above the longest codewords. Canonical codes give the
shorter codewords the smaller values, so the symbols of a level come before its inner nodes. -/
def level (lengths : List Nat) : Nat → List Code
  | 0 => symbolsOfLength lengths maxLength
  | height + 1 =>
    let depth := maxLength - height
    let nodes := joinPairs (level lengths height)
    if depth ≤ 1 then nodes else symbolsOfLength lengths (depth - 1) ++ nodes

/-- The canonical code with the given lengths; length 0 means that a symbol has no codeword. -/
def ofLengths (lengths : List Nat) : Code :=
  (level lengths maxLength).headD (fork unassigned unassigned)

/-- How much of the space of codewords of full length the given lengths take up. -/
def weight (lengths : List Nat) : Nat :=
  (lengths.filter (· != 0)).foldl (fun sum length => sum + 1 <<< (maxLength - length)) 0

/-- Whether every sequence of bits begins with a codeword and no codeword is part of another. -/
def isComplete (lengths : List Nat) : Bool :=
  weight lengths == 1 <<< maxLength

/-- Whether the lengths may be used for symbols and for distances: a code without symbols need not
be complete, nor need a code of one symbol if that symbol takes one bit. -/
def isUsable (lengths : List Nat) : Bool :=
  match lengths.filter (· != 0) with
  | [] | [1] => true
  | _ => isComplete lengths

end Code

end InterfaceIndex.Deflate
