import InterfaceIndex.Index
import InterfaceIndex.Declaration
import InterfaceIndex.Endpoints
import InterfaceIndex.Problem
import InterfaceIndex.SourceFile
import InterfaceIndex.Stream.Reading
/-!
The index of one source file of a release.
-/
namespace InterfaceIndex

/-- A release that is being scanned, and what its links are built from. -/
structure Release where
  version : String
  endpoints : Endpoints

namespace Release

/-- The entry for a name declared on a line of a file. -/
def declared (r : Release) (file : SourceFile) (name : List UInt8) (line : Nat) : Declared where
  interface := ⟨Declaration.textOfAscii name, file.package⟩
  location :=
    { version := r.version
      sourceFile := file.pathInRepository
      line
      link := r.endpoints.lineLink r.version file.pathInRepository line }

/-- Where a scan stands between two lines of a file. -/
structure LineScan where
  /-- How many lines have been read. -/
  line : Nat := 0
  index : Index := .empty

/-- The scan after one more line. What the line declares replaces an earlier declaration. -/
def scanLine (r : Release) (file : SourceFile) (s : LineScan) (line : List UInt8) : LineScan :=
  match Declaration.name? line with
  | some name => ⟨s.line + 1, s.index.insert (r.declared file name (s.line + 1))⟩
  | none => ⟨s.line + 1, s.index⟩

/-- Scans a file line by line. Test fixtures are not read at all; any other file has to be read to
its end. -/
def scan (r : Release) (file : SourceFile) : Reading (Except Problem Index) :=
  if file.isFixture then .done (.ok .empty)
  else
    .lines fun text => .done <|
      match text.failure with
      | some f => .error (.unreadable file.path f)
      | none => .ok (text.lines.foldl (r.scanLine file) {}).index

end Release

end InterfaceIndex
