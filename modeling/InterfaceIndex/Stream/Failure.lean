/-!
What can go wrong while bytes are read.
-/
namespace InterfaceIndex

/-- The kinds of failure that a read can report. -/
inductive FailureKind where
  | other
  | invalidData
  | invalidInput
  | interrupted
  | unexpectedEof
  | connectionReset
  | timedOut
  | brokenPipe
  | permissionDenied
  deriving DecidableEq, Repr

/-- A failed read or write. -/
structure Failure where
  kind : FailureKind
  message : String
  deriving DecidableEq, Repr

namespace Failure

/-- A failure of no particular kind. -/
def other (message : String) : Failure := ⟨.other, message⟩

/-- The data is not what its format asks for. -/
def malformed (message : String) : Failure := ⟨.invalidInput, message⟩

/-- The data ends too early. -/
def cutOff (message : String) : Failure := ⟨.unexpectedEof, message⟩

/-- An interrupted read took nothing and may be asked for again. -/
def isInterrupted (f : Failure) : Bool := f.kind == .interrupted

end Failure

end InterfaceIndex
