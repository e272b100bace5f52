/-!
The numbers in release identifiers such as 1.4rc1, and where a release keeps its library sources.
-/
namespace InterfaceIndex

/-- The two leading numbers of a release identifier. -/
structure ReleaseNumber where
  major : Nat
  minor : Nat
  deriving DecidableEq, Repr

namespace ReleaseNumber

/-- The number that the ASCII digits at the front of a component write. A component without such
digits, or with a number that needs more than 32 bits, counts as 0. -/
def leading (component : List Char) : Nat :=
  let number := Nat.ofDigitChars 10 (component.takeWhile Char.isDigit) 0
  if number < UInt32.size then number else 0

/-- What stands before the first dot gives the major number, what follows it the minor one. -/
def ofVersion (version : String) : ReleaseNumber where
  major := leading (version.toList.takeWhile (· != '.'))
  minor := leading ((version.toList.dropWhile (· != '.')).drop 1)

end ReleaseNumber

/-- The two shapes of a source archive. -/
inductive Layout where
  /-- Packages lie below a directory of their own inside the source directory. -/
  | nested
  /-- Packages lie directly in the source directory. -/
  | flat
  deriving DecidableEq, Repr

namespace Layout

/-- The directory that the packages lie in. -/
def root : Layout → String
  | nested => "go/src/pkg"
  | flat => "go/src"

/-- A release is nested when its minor number is below 4 and its major number at most 1. -/
def ofNumber (number : ReleaseNumber) : Layout :=
  if number.major ≤ 1 ∧ number.minor < 4 then nested else flat

def ofVersion (version : String) : Layout :=
  ofNumber (ReleaseNumber.ofVersion version)

end Layout

/-- The archive directory of the library sources of a release. -/
def packageRoot (version : String) : String :=
  (Layout.ofVersion version).root

end InterfaceIndex
