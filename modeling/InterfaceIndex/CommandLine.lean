import InterfaceIndex.Collection
import InterfaceIndex.CommandLine.Command
import InterfaceIndex.LogFilter
import InterfaceIndex.Table
/-!
The command line: what a run does with its arguments, and what it prints.
-/
namespace InterfaceIndex.CommandLine

/-- What a run leaves behind. -/
structure Outcome where
  exitStatus : Nat
  output : String
  /-- Lines of diagnostics. -/
  diagnostics : List String
  /-- Addresses that were answered, in order. -/
  requests : List Address
  deriving DecidableEq, Repr

/-- The exit status of a run that crashed. -/
def crashed : Nat := 101

/-- Collects releases and prints the table, or says what went wrong and prints nothing else. A table
that cannot be printed makes the run crash; of what is told of that, only the complaint is kept. -/
def scan {ρ : Type} [Reader ρ] (host : Host ρ) (endpoints : Endpoints) (filter : LogFilter)
    (versions : List String) : Outcome :=
  let collected := collect host endpoints versions
  match collected.result with
  | .ok index =>
    let table := Table.ofIndex index
    let told := filter.lines (collected.events ++ [.printing table.size])
    if table.isPrintable then ⟨0, table.text, told, collected.requests⟩
    else ⟨crashed, table.begun, told ++ [Table.tooWide], collected.requests⟩
  | .error problem =>
    ⟨1, "", filter.lines collected.events ++ problem.report, collected.requests⟩

/-- A run with some arguments. -/
def run {ρ : Type} [Reader ρ] (host : Host ρ) (endpoints : Endpoints) (filter : LogFilter)
    (arguments : List String) : Outcome :=
  match Command.ofArguments arguments with
  | .tell flag => ⟨0, flag.text, [], []⟩
  | .missing => ⟨2, "", missingLines, []⟩
  | .unexpected option => ⟨2, "", unexpectedLines option, []⟩
  | .surplus flag value => ⟨2, "", surplusLines flag value, []⟩
  | .scan versions => scan host endpoints filter versions

end InterfaceIndex.CommandLine
