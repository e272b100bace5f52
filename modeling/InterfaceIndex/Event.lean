import InterfaceIndex.Index
import InterfaceIndex.Stream.Failure
import InterfaceIndex.Text.Terminal
/-!
What a run tells about itself while it goes on.
-/
namespace InterfaceIndex

/-- How much an event matters; an event is shown when its level is at most the level asked for. -/
inductive Level where
  | error
  | warn
  | info
  | debug
  | trace
  deriving DecidableEq, Repr

namespace Level

def rank : Level → Nat
  | error => 1
  | warn => 2
  | info => 3
  | debug => 4
  | trace => 5

def name : Level → String
  | error => "ERROR"
  | warn => "WARN"
  | info => "INFO"
  | debug => "DEBUG"
  | trace => "TRACE"

end Level

/-- The value of a field of an event. -/
inductive FieldValue where
  | count (n : Nat)
  /-- A text shown in quotes. -/
  | quoted (text : String)
  /-- A text shown as it is. -/
  | plain (text : String)
  deriving DecidableEq, Repr

/-- Something worth telling. -/
inductive Event where
  /-- Work on a release begins. -/
  | generating (version : String)
  /-- All entries of an archive that can be reached have been visited. -/
  | traversed (entries scanned : Nat)
  | replaced (r : Replacement)
  /-- A fault ended the traversal of an archive. -/
  | endedEarly (version : String) (fault : Failure)
  /-- The rest of the compressed stream has been read; it had so many bytes. -/
  | drained (bytes : Nat)
  | summed (version digest : String)
  | scanned (version : String) (interfaces : Nat)
  /-- The rest of the compressed stream could not be read. -/
  | unsummed (reason : Failure)
  | printing (interfaces : Nat)
  deriving DecidableEq, Repr

namespace Event

def level : Event → Level
  | generating _ | summed .. | printing _ => .info
  | unsummed _ => .warn
  | _ => .debug

/-- The part of the program that tells the event, by the name under which settings know it. -/
def origin : Event → String
  | traversed .. | drained _ | unsummed _ => "gointerfaces::archive"
  | replaced _ => "gointerfaces::catalog"
  | _ => "gointerfaces"

def message : Event → String
  | generating version => "Generating interface list for version " ++ version ++ "..."
  | traversed .. => "archive traversal finished"
  | replaced _ => "replacing interface location"
  | endedEarly _ fault => "archive ended early: " ++ fault.message
  | drained _ => "drained archive trailer"
  | summed .. => "archive checksum"
  | scanned .. => "version scanned"
  | unsummed reason => "Failed to drain archive stream, digest unavailable: " ++ reason.message
  | printing _ => "Printing table..."

def fields : Event → List (String × FieldValue)
  | generating _ | unsummed _ => []
  | traversed met visited => [("entries", .count met), ("scanned", .count visited)]
  | replaced r =>
    [("name", .plain r.interface.name), ("package", .plain r.interface.package),
     ("previous", .plain r.previous), ("replacement", .plain r.replacement)]
  | endedEarly version _ => [("version", .quoted version)]
  | drained bytes => [("bytes", .count bytes)]
  | summed version digest => [("version", .quoted version), ("sha256", .plain digest)]
  | scanned version interfaces =>
    [("version", .quoted version), ("interfaces", .count interfaces)]
  | printing interfaces => [("interfaces", .count interfaces)]

/-- The event as a line of a log: level, message and fields. Commands to a terminal are kept out of
the message. -/
def line (e : Event) : String :=
  let shown := e.fields.map fun (name, value) =>
    name ++ "=" ++
      match value with
      | .count n => toString n
      | .quoted text => Quoted.field text
      | .plain text => text
  " ".intercalate (e.level.name :: Terminal.message e.message :: shown)

def isReplacement : Event → Bool
  | replaced _ => true
  | _ => false

end Event

end InterfaceIndex
