import InterfaceIndex.SourceFile
import InterfaceIndex.Stream.Reading
import InterfaceIndex.Tar.Archive
/-!
A pass over a tar archive that visits the source files among its entries.
-/
namespace InterfaceIndex

/-- How many entries a pass has met, and how many of them it has visited. -/
structure Tally where
  entries : Nat := 0
  scanned : Nat := 0
  deriving DecidableEq, Repr

/-- How a pass over an archive ended. -/
inductive PassEnd (ε : Type) where
  /-- There is no further entry, or a fault keeps it out of reach. -/
  | complete (fault : Option Failure) (tally : Tally)
  /-- The archive had been read from before, so nothing was visited. -/
  | notAtStart
  /-- The visitor gave up. -/
  | aborted (e : ε)
  deriving DecidableEq, Repr

/-- The fault that a pass reports, for information only. -/
def PassEnd.fault? {ε : Type} : PassEnd ε → Option Failure
  | complete fault _ => fault
  | notAtStart => some (.other "cannot call entries unless archive is at position 0")
  | aborted _ => none

/-- What a visitor does with a file: it reads the content and answers with its own new state and,
if the pass is to end, a reason. -/
def Visitor (σ ε : Type) : Type :=
  σ → SourceFile → Reading (σ × Option ε)

namespace Tar

variable {ρ σ ε : Type} [Reader ρ]

/-- Visits the source files below `root` among the entries to come, in order. The first argument
bounds the number of entries. -/
def Entries.visitWithin (root : String) (visit : Visitor σ ε) :
    Nat → Tally → σ → Entries ρ → σ × PassEnd ε × Archive ρ
  | 0, tally, state, es => (state, .complete none tally, es.archive)
  | fuel + 1, tally, state, es =>
    match es.advance with
    | (.error f, es) => (state, .complete (some f) tally, es.archive)
    | (.ok none, es) => (state, .complete none tally, es.archive)
    | (.ok (some entry), es) =>
      match SourceFile.select? (Utf8.decodeLossy entry.path) root with
      | none => visitWithin root visit fuel ⟨tally.entries + 1, tally.scanned⟩ state es
      | some file =>
        let tally := ⟨tally.entries + 1, tally.scanned + 1⟩
        match (visit state file).run (⟨es.archive, entry.parts⟩ : Content ρ) with
        | ((state, some e), content) => (state, .aborted e, content.archive)
        | ((state, none), content) =>
          visitWithin root visit fuel tally state ⟨content.archive, es.next⟩

/-- One pass: visits every source file below `root`, in archive order, unless the visitor gives up.
Every entry takes a header out of the stream, which bounds their number. -/
def Archive.visitSources (a : Archive ρ) (root : String) (visit : Visitor σ ε) (state : σ) :
    σ × PassEnd ε × Archive ρ :=
  if a.position = 0 then
    Entries.visitWithin root visit (Reader.budget a + 1) {} state ⟨a, 0⟩
  else (state, .notAtStart, a)

end Tar

end InterfaceIndex
