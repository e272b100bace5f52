import InterfaceIndex.Event
import InterfaceIndex.Gzip.Decoder
import InterfaceIndex.Problem
import InterfaceIndex.Stream.Hashed
import InterfaceIndex.Traversal
/-!
The compressed archive of a release: opening it, visiting its source files, and its checksum.
-/
namespace InterfaceIndex

/-- What is told of a pass at its end. -/
def PassEnd.told {ε : Type} : PassEnd ε → List Event
  | complete _ tally => [.traversed tally.entries tally.scanned]
  | _ => []

/-- A gzip-compressed tar stream. The compressed bytes are hashed on their way in. -/
structure ReleaseArchive (ρ : Type) where
  tar : Tar.Archive (Buffered (Gzip.Decoder (Hashed ρ)))

namespace ReleaseArchive

variable {ρ σ ε : Type} [Reader ρ]

/-- Opens a stream as the archive of a release: its first read has to bring the start of a gzip
member, and then a first piece of the contents has to come out. -/
def ofStream (version : String) (stream : ρ) : Except Problem (ReleaseArchive ρ) :=
  match Buffered.fill ⟨(⟨stream, .start⟩ : Hashed ρ), []⟩ with
  | (some f, _) => .error (.unopened version f)
  | (none, input) =>
    if Gzip.Header.magic.isPrefixOf input.held then
      match Buffered.fill ⟨(⟨input, .header {}⟩ : Gzip.Decoder (Hashed ρ)), []⟩ with
      | (some f, _) => .error (.unopened version f)
      | (none, payload) => .ok ⟨⟨payload, 0⟩⟩
    else .error (.notGzip version)

/-- One pass over the source files below `root`. -/
def visitSources (a : ReleaseArchive ρ) (root : String) (visit : Visitor σ ε) (state : σ) :
    σ × PassEnd ε × ReleaseArchive ρ :=
  let (state, ending, tar) := a.tar.visitSources root visit state
  (state, ending, ⟨tar⟩)

/-- Reads what is left of the compressed stream. -/
def drain (a : ReleaseArchive ρ) : Gathered × Buffered (Hashed ρ) :=
  Reader.gather .whole none a.tar.inner.inner.input

/-- What is told of draining. -/
def drainTold (a : ReleaseArchive ρ) : Event :=
  match a.drain.1 with
  | ⟨_, some f⟩ => .unsummed f
  | ⟨rest, none⟩ => .drained rest.length

/-- The SHA-256 of all of the compressed stream, once the rest of it has been read. -/
def checksum (a : ReleaseArchive ρ) : Except Failure String :=
  match a.drain with
  | (⟨_, some f⟩, _) => .error f
  | (⟨_, none⟩, input) => .ok input.inner.digest

end ReleaseArchive

end InterfaceIndex
