import InterfaceIndex.Address
import InterfaceIndex.Event
import InterfaceIndex.Release.Layout
import InterfaceIndex.Release.Scan
import InterfaceIndex.ReleaseArchive
/-!
From archives to one index: scanning an archive, and collecting several releases from a host.
-/
namespace InterfaceIndex

/-- An index under construction, and the events so far. -/
structure Progress where
  index : Index := .empty
  events : List Event := []

/-- The progress after one more index has been merged in. -/
def Progress.add (p : Progress) (found : Index) : Progress :=
  let (index, replacements) := p.index.merge found
  ⟨index, p.events ++ replacements.map .replaced⟩

/-- The visitor that scans each file and merges what it finds. -/
def Release.scanner (r : Release) : Visitor Progress Problem :=
  fun progress file =>
    (r.scan file).map fun
      | .ok found => (progress.add found, none)
      | .error problem => (progress, some problem)

/-- What scanning an archive came to, and the events on the way. -/
structure ArchiveScan where
  result : Except Problem Index
  events : List Event

/-- The events that follow a pass that was not aborted. -/
def Release.closing {ρ : Type} [Reader ρ] (r : Release) (ending : PassEnd Problem)
    (archive : ReleaseArchive ρ) (index : Index) : List Event :=
  let early := ending.fault?.toList.map (Event.endedEarly r.version)
  let summed := archive.checksum.toOption.toList.map (Event.summed r.version)
  ending.told ++ early ++ [archive.drainTold] ++ summed ++ [.scanned r.version index.size]

/-- Scans the archive of a release. A fault between entries ends the scan like the end of the
archive; a file that cannot be read makes it fail. -/
def Release.scanArchive {ρ : Type} [Reader ρ] (r : Release) (stream : ρ) : ArchiveScan :=
  match ReleaseArchive.ofStream r.version stream with
  | .error problem => ⟨.error problem, []⟩
  | .ok archive =>
    let (progress, ending, archive) :=
      archive.visitSources (packageRoot r.version) r.scanner {}
    match ending with
    | .aborted problem => ⟨.error problem, progress.events⟩
    | _ =>
      ⟨.ok progress.index,
        progress.events ++ r.closing ending archive progress.index⟩

/-- What comes back for a request. -/
inductive Reply (ρ : Type) where
  /-- The host was not reached; the causes stand in order, the last one at the bottom of it. -/
  | unreached (causes : List String)
  | answered (status : Nat) (body : ρ)

/-- A host, as a client meets it. -/
structure Host (ρ : Type) where
  /-- How the client reads the text of an address. -/
  locate : String → Except Address.Defect Address
  reply : Address → Reply ρ

/-- A host on the far side of a network that is down. -/
def Host.unreachable {ρ : Type} : Host ρ where
  locate := Address.ofText
  reply address :=
    let bottom := "Network is unreachable (os error 101)"
    let connect := "tcp connect error: " ++ bottom
    let client := "error trying to connect: " ++ connect
    let all := "error sending request for url (" ++ address.text ++ "): " ++ client
    .unreached [all, client, connect, bottom]

/-- What a defective address comes to: nothing is requested at all. -/
def Reply.ofDefect {ρ : Type} (defect : Address.Defect) : Reply ρ :=
  .unreached ["builder error: " ++ defect.message, defect.message]

/-- What collecting came to, the addresses that were answered, and the events on the way. -/
structure Collected where
  result : Except Problem Index
  requests : List Address
  events : List Event

/-- Whether a status code says that the request succeeded. -/
def isSuccess (status : Nat) : Bool :=
  200 ≤ status && status < 300

/-- Downloads and scans one release. -/
def Release.collect {ρ : Type} [Reader ρ] (r : Release) (host : Host ρ) : Collected :=
  let url := r.endpoints.archiveAddress r.version
  let begun := [Event.generating r.version]
  let (requests, reply) :=
    match host.locate url with
    | .ok address => ([address], host.reply address)
    | .error defect => ([], .ofDefect defect)
  match reply with
  | .unreached causes => ⟨.error (.unanswered url causes), [], begun⟩
  | .answered status body =>
    if isSuccess status then
      let scan := r.scanArchive body
      ⟨scan.result, requests, begun ++ scan.events⟩
    else ⟨.error (.refused url status), requests, begun⟩

/-- Collects the releases one after another into an index; later ones win, and the first problem
ends the run. -/
def collectInto {ρ : Type} [Reader ρ] (host : Host ρ) (endpoints : Endpoints) :
    Index → List String → Collected
  | index, [] => ⟨.ok index, [], []⟩
  | index, version :: rest =>
    let one := Release.collect ⟨version, endpoints⟩ host
    match one.result with
    | .error problem => ⟨.error problem, one.requests, one.events⟩
    | .ok found =>
      let merged := index.merge found
      let others := collectInto host endpoints merged.1 rest
      ⟨others.result, one.requests ++ others.requests,
        one.events ++ merged.2.map .replaced ++ others.events⟩

/-- Collects the releases one after another. -/
def collect {ρ : Type} [Reader ρ] (host : Host ρ) (endpoints : Endpoints) (versions : List String) :
    Collected :=
  collectInto host endpoints .empty versions

end InterfaceIndex
