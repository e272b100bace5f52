import InterfaceIndex.Text.Words
/-!
Which archive entries are library sources, and the package that each belongs to.
-/
namespace InterfaceIndex

/-- An archive entry accepted as a source file. -/
structure SourceFile where
  /-- Name of the entry. -/
  path : String
  /-- Directory of the file, relative to the directory of all packages. -/
  package : String
  deriving DecidableEq, Repr

namespace SourceFile

/-- What stands before and after the last slash, if there is one. -/
def splitAtLastSlash (text : List Char) : Option (List Char × List Char) :=
  let file := (text.reverse.takeWhile (· != '/')).reverse
  if file.length < text.length then some (text.take (text.length - file.length - 1), file)
  else none

/-- Whether the end of a name is that of a source file which is neither documentation nor test. -/
def hasSourceEnding (name : List Char) : Bool :=
  ".go".toList.isSuffixOf name && !"doc.go".toList.isSuffixOf name &&
    !"_test.go".toList.isSuffixOf name

/-- The source file that an entry name stands for: the root, a slash, a package that is not empty,
a slash and a file name with a source ending. -/
def select? (name root : String) : Option SourceFile :=
  if hasSourceEnding name.toList then do
    let below ← after? root.toList name.toList
    let relative ← after? ['/'] below
    let (package, _) ← splitAtLastSlash relative
    if package.isEmpty then none else some ⟨name, String.ofList package⟩
  else none

/-- How the source repository addresses the file: without the directory that every release archive
unpacks into. -/
def pathInRepository (file : SourceFile) : String :=
  match after? "go/".toList file.path.toList with
  | some rest => String.ofList rest
  | none => file.path

/-- Whether the file lies anywhere below a directory of test fixtures. -/
def isFixture (file : SourceFile) : Bool :=
  (file.package.toList.splitOn '/').contains "testdata".toList

end SourceFile

end InterfaceIndex
