import InterfaceIndex.Proofs.Release.Scan
import InterfaceIndex.Proofs.SourceFile
import InterfaceIndex.Proofs.Stream.Reach
import InterfaceIndex.Proofs.Traversal
import InterfaceIndex.Proofs.Collection

/-! Where answers come from: every entry of an index stands for a line of a source file of its
release, whatever bytes the archive was made of. -/
namespace InterfaceIndex

/-- A capital letter, and then letters, digits and underscores, all of them ASCII. -/
def IsExportedName (name : String) : Prop :=
  ∃ c rest, name.toList = c :: rest ∧ c.isUpper = true ∧
    ∀ d ∈ rest, d.isAlphanum = true ∨ d = '_'

namespace Declaration

end Declaration

namespace Release

open Declaration

variable {ρ : Type} [Reader ρ] {r : Release} {file : SourceFile} {d : Declared}

/-- What an entry of an index of a release says: an exported name, a package that is not below test
fixtures, and a line of a file of the package, with the link to it. -/
structure Genuine (r : Release) (d : Declared) : Prop where
  name : IsExportedName d.interface.name
  named : d.interface.package ≠ ""
  no_fixture : "testdata".toList ∉ d.interface.package.toList.splitOn '/'
  version : d.location.version = r.version
  sourceFile : ∃ below part, packageRoot r.version = "go/" ++ below ∧
    SourceFile.IsReadable part ∧ d.location.sourceFile =
      below ++ "/" ++ d.interface.package ++ "/" ++ String.ofList part
  line : 1 ≤ d.location.line
  link : d.location.link =
    r.endpoints.lineLink r.version d.location.sourceFile d.location.line

/-- A file that a pass may scan: it is selected and no test fixture. -/
def Scans (r : Release) (file : SourceFile) : Prop :=
  SourceFile.select? file.path (packageRoot r.version) = some file ∧ file.isFixture = false

/-- The answers that scanning an archive of a release may come to. -/
inductive Answers (r : Release) : Except Problem Index → Prop
  | not_gzip : Answers r (.error (.notGzip r.version))
  | unopened (f : Failure) : Answers r (.error (.unopened r.version f))
  | unreadable {file : SourceFile} (f : Failure) (scans : r.Scans file) :
      Answers r (.error (.unreadable file.path f))
  | found {index : Index} (genuine : ∀ d ∈ index.entries, r.Genuine d) : Answers r (.ok index)

end Release

end InterfaceIndex
