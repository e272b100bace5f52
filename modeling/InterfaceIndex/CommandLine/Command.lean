import InterfaceIndex.Text.Words
import InterfaceIndex.Text.Terminal
/-!
What the arguments ask for, and the complaints about them.
-/
namespace InterfaceIndex.CommandLine

/-- The options. -/
inductive Flag where
  | help
  | version
  deriving DecidableEq, Repr

namespace Flag

def all : List Flag := [help, version]

def name : Flag → String
  | help => "help"
  | version => "version"

def letter : Flag → Char
  | help => 'h'
  | version => 'V'

/-- The flag with a name. -/
def named? (word : List Char) : Option Flag :=
  all.find? (·.name.toList = word)

/-- The flag with a letter. -/
def lettered? (c : Char) : Option Flag :=
  all.find? (·.letter = c)

/-- The name as it is given. -/
def option (f : Flag) : String := "--" ++ f.name

/-- Least similarity of a word to the name of a flag that may have been meant by it. -/
def resemblance : Share := ⟨7, 10⟩

/-- The flag whose name is most similar to a word, if one is similar enough; of two alike the
last. -/
def resembling? (word : List Char) : Option Flag :=
  let similarity (f : Flag) := Similarity.ofWords word f.name.toList
  (all.filter fun f => resemblance.atMost (similarity f)).foldl
    (fun best f => if best.all fun b => (similarity b).atMost (similarity f) then some f else best)
    none

end Flag

/-- What the arguments ask for. -/
inductive Command where
  | tell (flag : Flag)
  | scan (versions : List String)
  /-- There is no argument to work on. -/
  | missing
  /-- There is no such option. -/
  | unexpected (option : String)
  /-- The flag takes no value. -/
  | surplus (flag : Flag) (value : String)
  deriving DecidableEq, Repr

namespace Command

/-- What an option given by its name asks for; `word` stands behind the dashes. -/
def ofWord (word : List Char) : Command :=
  let name := word.takeWhile (· != '=')
  match Flag.named? name, word.drop name.length with
  | some flag, [] => .tell flag
  | some flag, _ :: value => .surplus flag (String.ofList value)
  | none, _ => .unexpected (String.ofList ('-' :: '-' :: name))

/-- What an option given by its letter asks for. -/
def ofLetter (letter : Char) : Command :=
  match Flag.lettered? letter with
  | some flag => .tell flag
  | none => .unexpected (String.ofList ['-', letter])

/-- Reads the arguments in order; the first one that is an option decides. After a double dash
everything is a version, and so is a lone dash. The first list holds the versions so far, latest
first. -/
def ofArgumentsAfter (sofar : List String) : List String → Command
  | [] => if sofar.isEmpty then .missing else .scan sofar.reverse
  | argument :: rest =>
    match argument.toList with
    | ['-', '-'] =>
      if sofar.isEmpty && rest.isEmpty then .missing else .scan (sofar.reverse ++ rest)
    | '-' :: '-' :: word => ofWord word
    | '-' :: letter :: _ => ofLetter letter
    | _ => ofArgumentsAfter (argument :: sofar) rest

def ofArguments (arguments : List String) : Command :=
  ofArgumentsAfter [] arguments

end Command

def helpText : String :=
  "List the exported interfaces of Go source releases\n\n" ++
  "Usage: gointerfaces <VERSION>...\n\n" ++
  "Arguments:\n" ++
  "  <VERSION>...  Go versions to scan, e.g. 1.18 1.4rc1; later versions win on duplicates\n\n" ++
  "Options:\n" ++
  "  -h, --help     Print help\n" ++
  "  -V, --version  Print version\n"

def versionText : String := "gointerfaces 0.1.0\n"

/-- What a flag tells. -/
def Flag.text : Flag → String
  | help => helpText
  | version => versionText

/-- The lines after every complaint about the arguments; the usage names the flag that the complaint
is about. -/
def usageLines (about : Option Flag) : List String :=
  let command := ["Usage: gointerfaces"] ++ about.toList.map Flag.option ++ ["<VERSION>..."]
  ["", " ".intercalate command, "", "For more information, try '--help'."]

def missingLines : List String :=
  ["error: the following required arguments were not provided:", "  <VERSION>..."] ++
    usageLines none

/-- The complaint about an option that does not exist. A name that resembles that of a flag may have
been meant for it; anything else may have been meant as a version. -/
def unexpectedLines (option : String) : List String :=
  let shown := Terminal.shown option
  let complaint := ["error: unexpected argument '" ++ shown ++ "' found", ""]
  match (after? ['-', '-'] option.toList).bind Flag.resembling? with
  | some flag =>
    complaint ++ ["  tip: a similar argument exists: '" ++ flag.option ++ "'"] ++
      usageLines (some flag)
  | none =>
    complaint ++ ["  tip: to pass '" ++ shown ++ "' as a value, use '-- " ++ shown ++ "'"] ++
      usageLines none

def surplusLines (flag : Flag) (value : String) : List String :=
  ["error: unexpected value '" ++ Terminal.shown value ++ "' for '" ++ flag.option ++
    "' found; no more were expected"] ++ usageLines (some flag)

end InterfaceIndex.CommandLine
