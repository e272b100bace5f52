import InterfaceIndex.Text.Words
import InterfaceIndex.Text.Utf8
/-!
Web addresses in the form in which they are requested: the path without detours, and every character
that has no place in an address written as bytes.

An address is read as it is given for a host of the web: a scheme, the name or the number of a host, and
perhaps a port. User names, hosts in brackets, schemes that are none of the web, and the length beyond
which a client refuses an address are left out, as is the check of the name of a host: a client may read
addresses in a way of its own.
-/
namespace InterfaceIndex

/-- A web address, in its parts. -/
structure Address where
  /-- Scheme and host. -/
  origin : String
  /-- From its first slash on. -/
  path : String
  /-- With its question mark, if there is one. -/
  query : String
  /-- With its number sign, if there is one. -/
  fragment : String
  deriving DecidableEq, Repr

namespace Address

def text (a : Address) : String :=
  a.origin ++ a.path ++ a.query ++ a.fragment

/-- A percent sign and two hexadecimal digits. -/
def escapeByte (b : UInt8) : List Char :=
  ['%', (Nat.digitChar (b.toNat / 16)).toUpper, (Nat.digitChar (b.toNat % 16)).toUpper]

/-- A character in a part of an address. Those with a meaning of their own there, control
characters, and all beyond ASCII are written as the bytes of their UTF-8 form. -/
def escape (special : List Char) (c : Char) : List Char :=
  if c.toNat < 0x20 || 0x7F ≤ c.toNat || special.contains c then
    (Utf8.encode (String.singleton c)).flatMap escapeByte
  else [c]

def specialInPath : List Char := " \"#<>?^\x60\x7b\x7d".toList

def specialInQuery : List Char := " \"#<>'".toList

def specialInFragment : List Char := " \"<>\x60".toList

/-- Whether a segment of a path stands for the place it is in: a dot, which may be given by its
number. -/
def isHere (segment : List Char) : Bool :=
  [".", "%2e"].contains (String.ofList (segment.map Char.toLower))

/-- Whether a segment of a path stands for the place above the one it is in. -/
def isAbove (segment : List Char) : Bool :=
  ["..", ".%2e", "%2e.", "%2e%2e"].contains (String.ofList (segment.map Char.toLower))

/-- The segments of a path without detours, after those so far, latest first. A path that ends with
a detour ends with a slash. -/
def withoutDetours (sofar : List (List Char)) : List (List Char) → List (List Char)
  | [] => sofar.reverse
  | segment :: rest =>
    let before := if isAbove segment then sofar.drop 1 else sofar
    if !isAbove segment && !isHere segment then withoutDetours (segment :: before) rest
    else if rest.isEmpty then ([] :: before).reverse
    else withoutDetours before rest

/-- The form of a path. A backslash divides segments as well as a slash does. -/
def pathOf (text : List Char) : String :=
  let segments := (text.drop 1).splitOnP fun c => c == '/' || c == '\\'
  String.ofList <| (withoutDetours [] segments).flatMap fun segment =>
    '/' :: segment.flatMap (escape specialInPath)

/-- The address with an origin, and a text for all that follows it. -/
def ofOriginAndRest (origin rest : List Char) : Address :=
  let path := rest.takeWhile fun c => c != '?' && c != '#'
  let afterPath := rest.drop path.length
  let query := afterPath.takeWhile (· != '#')
  let fragment := afterPath.drop query.length
  { origin := String.ofList origin
    path := pathOf path
    query := String.ofList (query.take 1 ++ (query.drop 1).flatMap (escape specialInQuery))
    fragment :=
      String.ofList (fragment.take 1 ++ (fragment.drop 1).flatMap (escape specialInFragment)) }

/-- Why a text gives no address. -/
inductive Defect where
  | noScheme
  | noHost
  /-- What follows the colon behind the host is no number of 16 bits. -/
  | badPort
  /-- What else a client may find wrong. -/
  | other (message : String)
  deriving DecidableEq, Repr

def Defect.message : Defect → String
  | noScheme => "relative URL without a base"
  | noHost => "empty host"
  | badPort => "invalid port number"
  | other message => message

/-- Whether a text is the number of a port. -/
def isPort (text : List Char) : Bool :=
  text.all Char.isDigit &&
    text.foldl (fun n c => 10 * n + (c.toNat - '0'.toNat)) 0 < UInt16.size

/-- The address that a text gives. Tabs and line ends do not count, wherever they are. -/
def ofText (text : String) : Except Defect Address :=
  let kept := text.toList.filter fun c => c != '\t' && c != '\n' && c != '\r'
  let scheme := kept.takeWhile Char.isAlphanum
  match after? [':', '/', '/'] (kept.drop scheme.length) with
  | none => .error .noScheme
  | some afterScheme =>
    let server := afterScheme.takeWhile fun c => c != '/' && c != '\\' && c != '?' && c != '#'
    let host := server.takeWhile (· != ':')
    if host.isEmpty then .error .noHost
    else if !isPort (server.drop (host.length + 1)) then .error .badPort
    else
      .ok (ofOriginAndRest (scheme ++ "://".toList ++ server) (afterScheme.drop server.length))

end Address

end InterfaceIndex
