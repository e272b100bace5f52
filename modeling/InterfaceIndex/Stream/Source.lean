import InterfaceIndex.Stream.Reader
/-!
The byte source at the bottom of every stream: data that arrives in pieces, with failures at set
positions.
-/
namespace InterfaceIndex

/-- What arrives next at a source. -/
inductive Arrival where
  | byte (b : UInt8)
  /-- The next read fails once, and takes nothing. -/
  | fault (f : Failure)
  deriving DecidableEq, Repr

/-- A failure planned for a position in the data. -/
structure Fault where
  /-- How many bytes have been handed out when it fires. -/
  position : Nat
  failure : Failure
  /-- A lasting fault fires again on every later read. -/
  lasting : Bool
  deriving DecidableEq, Repr

/-- The first fault to fire: least position, then order in the list. -/
def Fault.earliest : List Fault → Option Fault
  | [] => none
  | f :: rest =>
    match earliest rest with
    | some g => if f.position ≤ g.position then some f else some g
    | none => some f

/-- A source of bytes. -/
structure Source where
  /-- What is still to come, in order. -/
  arrivals : List Arrival
  /-- How much is still to come, kept at hand because it bounds every loop that reads. -/
  count : Nat
  count_eq : count = arrivals.length
  /-- What reads answer once nothing is to come: this failure, or else the end of the stream. -/
  stuck : Option Failure
  /-- How many bytes have been handed out. -/
  position : Nat
  /-- Most bytes that a read may hand out, by the position that it starts from. -/
  stride : Nat → Nat

namespace Source

/-- The bytes at the front, at most `n` and none after a fault, and what comes after them. -/
def takeBytes : Nat → List Arrival → List UInt8 × List Arrival
  | n + 1, .byte b :: rest =>
    let (bytes, rest) := takeBytes n rest
    (b :: bytes, rest)
  | _, arrivals => ([], arrivals)

/-- Taking bytes off the front loses nothing. -/
theorem length_takeBytes (n : Nat) (arrivals : List Arrival) :
    (takeBytes n arrivals).1.length + (takeBytes n arrivals).2.length = arrivals.length := by
  fun_induction takeBytes n arrivals with
  | case1 n b rest bytes rest' h ih =>
    simp only [List.length_cons]
    simp only [h] at ih
    omega
  | case2 n arrivals h => simp

/-- One read. A due fault fires whatever the size of the read; otherwise at least one byte comes
when one is wanted and one is left. -/
def read (s : Source) (n : Nat) : Except Failure (List UInt8) × Source :=
  match h : s.arrivals with
  | [] =>
    match s.stuck with
    | some f => (.error f, s)
    | none => (.ok [], s)
  | .fault f :: rest =>
    (.error f,
      { s with
        arrivals := rest
        count := s.count - 1
        count_eq := by simp [s.count_eq, h] })
  | arrivals =>
    let taken := takeBytes (min n (max 1 (s.stride s.position))) arrivals
    (.ok taken.1,
      { s with
        arrivals := taken.2
        count := s.count - taken.1.length
        count_eq := by
          have : taken.1.length + taken.2.length = arrivals.length := length_takeBytes ..
          rw [s.count_eq, h]; omega
        position := s.position + taken.1.length })

instance : Reader Source where
  read := read
  budget s := s.count

/-- The faults that fire once at a position, before a lasting one there. -/
def passingAt (faults : List Fault) (position : Nat) : List Arrival :=
  ((faults.filter (·.position == position)).takeWhile (!·.lasting)).map (Arrival.fault ·.failure)

/-- A source with given arrivals, at its start. -/
def ofArrivals (arrivals : List Arrival) (stuck : Option Failure) (stride : Nat → Nat) : Source :=
  { arrivals, count := arrivals.length, count_eq := rfl, stuck, position := 0, stride }

/-- A source that hands out `data` and fails as the faults say. Nothing comes after the first
lasting fault; a fault beyond the data never fires. -/
def ofSchedule (data : List UInt8) (faults : List Fault) (stride : Nat → Nat) : Source :=
  let stop := Fault.earliest (faults.filter fun f => f.lasting && f.position ≤ data.length)
  let kept :=
    match stop with
    | some f => data.take f.position
    | none => data
  let arrivals := kept.zipIdx.flatMap fun (b, i) => passingAt faults i ++ [.byte b]
  ofArrivals (arrivals ++ passingAt faults kept.length) (stop.map (·.failure)) stride

end Source

end InterfaceIndex
