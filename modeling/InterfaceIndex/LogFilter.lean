import InterfaceIndex.Event
import InterfaceIndex.Text.Words
/-!
Which events are shown: a setting of the environment, read as a list of rules.
-/
namespace InterfaceIndex

/-- A rule of a filter: the events that it is about are shown up to a rank. -/
structure FilterRule where
  /-- What the origins of the events begin with. -/
  origin : Option String := none
  /-- A field that the events have. -/
  field : Option String := none
  /-- The most detailed rank that is shown; 0 shows none. -/
  rank : Nat
  deriving DecidableEq, Repr

namespace FilterRule

/-- Whether the rule is about an event. -/
def covers (r : FilterRule) (e : Event) : Bool :=
  r.origin.all (·.toList.isPrefixOf e.origin.toList) &&
    r.field.all fun name => name == "message" || (e.fields.map (·.1)).contains name

/-- Orders rules by how special they are: a longer origin counts before a field. -/
def bySpecialty : FilterRule → FilterRule → Ordering :=
  compareLex (compareOn (·.origin.map String.length)) (compareOn (·.field))

end FilterRule

/-- An item of a setting. -/
inductive FilterItem where
  | rule (r : FilterRule)
  /-- About events inside a piece of work with a name or with a value in a field. There are no such
  pieces here, so it shows nothing. -/
  | work
  deriving DecidableEq, Repr

namespace FilterItem

/-- The rank that a word asks for: a number, with a plus sign or without, or the name of a level in
letters of either case. An empty word asks for errors. -/
def rankOfWord? (word : List Char) : Option Nat :=
  let digits := if word.head? = some '+' then word.drop 1 else word
  if !digits.isEmpty && digits.all Char.isDigit then
    let number := digits.foldl (fun n c => 10 * n + (c.toNat - '0'.toNat)) 0
    if number ≤ Level.trace.rank then some number else none
  else
    [("off", 0), ("error", 1), ("warn", 2), ("info", 3), ("debug", 4), ("trace", 5), ("", 1)].lookup
      (String.ofList (word.map Char.toLower))

/-- Whether an item may begin with a character that opens no bracket. Beyond ASCII every character
counts as a letter. -/
def mayBegin (c : Char) : Bool :=
  c.isAlphanum || c == '-' || c == ':' || c == '_' || 0x80 ≤ c.toNat

/-- The rank at the end of an item, from a position on. When nothing is there, all events are
shown. -/
def rankFrom? (item : List Char) (start : Nat) : Option Nat :=
  match item.drop start with
  | [] => some Level.trace.rank
  | word => rankOfWord? word

/-- What follows a bracket: nothing, or an equals sign and a rank. -/
def afterBracket? (item seen : List Char) (start : Nat) : Option Nat :=
  match seen.drop start with
  | [] => some Level.trace.rank
  | '=' :: _ => rankFrom? item (start + 1)
  | _ => none

/-- The piece of an item between two positions. -/
def piece (item : List Char) (start stop : Nat) : List Char :=
  (item.drop start).take (stop - start)

/-- Reads from the inside of a bracket on: the name of a piece of work, if any, and a field in
braces, if any. -/
def inBracket? (item seen : List Char) (origin : Option String) (start : Nat) : Option FilterItem :=
  let stop := start + (seen.drop start).findIdx fun c => c == ']' || c == '\x7b'
  match seen[stop]? with
  | none => none
  | some ']' => (afterBracket? item seen (stop + 1)).map fun _ => work
  | some _ =>
    let last := stop + 1 + (seen.drop (stop + 1)).findIdx (· == '\x7d')
    let field := piece item (stop + 1) last
    if field.isEmpty then none
    else
      (after? ['\x7d', ']'] (seen.drop last)).bind fun _ =>
        (afterBracket? item seen (last + 2)).map fun rank =>
          if (piece item start stop).isEmpty && !field.contains '=' then
            rule ⟨origin, some (String.ofList field), rank⟩
          else work

/-- Reads an item: a rank, an origin, an origin with a rank, or either with a bracket before the
rank. Its marks are sought without the blanks around it, and the pieces between them are then cut
from the whole of it, at the same distances from its start. -/
def ofText? (item : List Char) : Option FilterItem :=
  let seen := trimBlanks item
  match seen with
  | [] => none
  | '[' :: _ => inBracket? item seen none 1
  | first :: _ =>
    let mark := seen.findIdx fun c => c == '=' || c == '['
    let origin := some (String.ofList (item.take mark))
    if !mayBegin first then none
    else
      match seen[mark]? with
      | some '=' => (rankFrom? item (mark + 1)).map fun rank => rule { origin, rank }
      | some _ => inBracket? item seen origin (mark + 1)
      | none =>
        match rankOfWord? item with
        | some rank => some (rule { rank })
        | none => some (rule { origin := some (String.ofList item), rank := Level.trace.rank })

/-- The rule that an item is, if it is one. -/
def rule? : FilterItem → Option FilterRule
  | rule r => some r
  | work => none

end FilterItem

/-- Rules by which events are shown. -/
structure LogFilter where
  rules : List FilterRule
  deriving DecidableEq, Repr

namespace LogFilter

/-- Shows events up to a rank. -/
def upTo (level : Level) : LogFilter := ⟨[{ rank := level.rank }]⟩

/-- The filter that a setting asks for, if all its items can be read. Items stand between commas,
and a setting without items asks for errors. -/
def ofText? (setting : String) : Option LogFilter := do
  let items ← ((setting.toList.splitOn ',').filter (!·.isEmpty)).mapM FilterItem.ofText?
  if items.isEmpty then return upTo .error else return ⟨items.filterMap (·.rule?)⟩

/-- The filter for a setting of the environment. Where nothing is set, or nothing that can be read,
it shows what is of use to everyone. -/
def ofSetting (setting : Option String) : LogFilter :=
  (setting.bind ofText?).getD (upTo .info)

/-- The most special of the rules about an event, and of equal ones the last. -/
def ruleFor? (f : LogFilter) (e : Event) : Option FilterRule :=
  (f.rules.filter (·.covers e)).foldl
    (fun best r => if best.all fun b => (b.bySpecialty r).isLE then some r else best) none

/-- Whether an event is shown. -/
def shows (f : LogFilter) (e : Event) : Bool :=
  (f.ruleFor? e).any (e.level.rank ≤ ·.rank)

/-- The lines of the events that are shown. -/
def lines (f : LogFilter) (events : List Event) : List String :=
  (events.filter f.shows).map Event.line

end LogFilter

end InterfaceIndex
