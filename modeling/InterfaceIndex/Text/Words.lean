/-!
Words: cutting a known front or white space off them, and how much two of them have in common.
-/
namespace InterfaceIndex

/-- What follows `front` in a list that begins with it. -/
def after? {α : Type} [BEq α] (front list : List α) : Option (List α) :=
  if front.isPrefixOf list then some (list.drop front.length) else none

/-- Whether a character has the property White_Space. -/
def isBlank (c : Char) : Bool :=
  let n := c.toNat
  (9 ≤ n && n ≤ 13) || n == 0x20 || n == 0x85 || n == 0xA0 || n == 0x1680 ||
    (0x2000 ≤ n && n ≤ 0x200A) || n == 0x2028 || n == 0x2029 || n == 0x202F || n == 0x205F ||
    n == 0x3000

/-- The characters between the leading and the trailing white space. -/
def trimBlanks (text : List Char) : List Char :=
  ((text.dropWhile isBlank).reverse.dropWhile isBlank).reverse

/-- A share of a whole. -/
structure Share where
  part : Nat
  whole : Nat
  deriving DecidableEq, Repr

namespace Share

/-- Whether a share is no larger than another one. -/
def atMost (s t : Share) : Bool :=
  s.part * t.whole ≤ t.part * s.whole

end Share

namespace Similarity

/-- Marks the first character equal to `c` that has no mark yet, among those at positions from `low`
to below `high`; the second argument is the position of the front. -/
def mark? (c : Char) (low high : Nat) : Nat → List (Char × Bool) → Option (List (Char × Bool))
  | _, [] => none
  | i, (d, marked) :: rest =>
    if low ≤ i && i < high && c == d && !marked then some ((d, true) :: rest)
    else (mark? c low high (i + 1) rest).map ((d, marked) :: ·)

/-- The characters of a word from position `i` on that find a match within `reach` positions, in
order, and the other word with the matches marked. -/
def matchFrom (reach : Nat) : Nat → List Char → List (Char × Bool) →
    List Char × List (Char × Bool)
  | _, [], other => ([], other)
  | i, c :: rest, other =>
    match mark? c (i - reach) (i + reach + 1) 0 other with
    | some other =>
      let (more, other) := matchFrom reach (i + 1) rest other
      (c :: more, other)
    | none => matchFrom reach (i + 1) rest other

/-- The similarity of two words: the mean of three shares, namely of each word that has a match in the
other, and of the matches that stand in the same order. It is nothing for words without a match, and
all for equal words unless they are empty. -/
def ofWords (a b : List Char) : Share :=
  let reach := max a.length b.length / 2 - 1
  let (matched, marks) := matchFrom reach 0 a (b.map (·, false))
  let count := matched.length
  let displaced :=
    (matched.zip ((marks.filter (·.2)).map (·.1))).countP fun (c, d) => c != d
  let inOrder := count - displaced / 2
  if count = 0 then ⟨0, 1⟩
  else
    ⟨count * count * b.length + count * count * a.length + inOrder * a.length * b.length,
      3 * a.length * b.length * count⟩

end Similarity

end InterfaceIndex
