import InterfaceIndex.Tar.Field
/-!
Extended header records: lines of the form "length key=value" that describe the next entry.
-/
namespace InterfaceIndex.Tar

/-- A record. -/
structure Record where
  key : List UInt8
  value : List UInt8
  deriving DecidableEq, Repr

namespace Record

/-- The record that a line holds. Its length counts the line end too. -/
def ofLine? (line : List UInt8) : Option Record := do
  let (length, rest) := line.span (· != ' '.toUInt8)
  let field := rest.drop 1
  let (key, value) := field.span (· != '='.toUInt8)
  let text ← Utf8.decode? length
  let stated ← number? 10 text.toList
  if rest.isEmpty || value.isEmpty || stated != line.length + 1 then none
  else some ⟨key, value.drop 1⟩

/-- The lines of a content up to the first empty one, each read as a record or found malformed. -/
def ofContent (content : List UInt8) : List (Option Record) :=
  ((content.splitOn '\n'.toUInt8).takeWhile (!·.isEmpty)).map ofLine?

/-- The first path among the records; malformed lines do not count. -/
def path? (content : List UInt8) : Option (List UInt8) :=
  ((ofContent content).filterMap id).find? (·.key == Utf8.encode "path") |>.map (·.value)

/-- The first size among the records, if no malformed line comes before it and it is a number. -/
def size? (content : List UInt8) : Option Nat :=
  match (ofContent content).find? fun
      | none => true
      | some r => r.key == Utf8.encode "size" with
  | some (some r) => (Utf8.decode? r.value).bind fun text => number? 10 text.toList
  | _ => none

end Record

end InterfaceIndex.Tar
