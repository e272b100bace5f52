import InterfaceIndex.Stream.Buffered
/-!
Programs that read from a stream.
-/
namespace InterfaceIndex

/-- A program that reads from a stream and then yields a value. Every such program ends, since
reading to the end of a stream is one of its steps. -/
inductive Reading (α : Type) where
  | done (value : α)
  /-- One read of at most `size` bytes. -/
  | read (size : Nat) (next : Except Failure (List UInt8) → Reading α)
  /-- Read to the end, or to `limit` bytes, making interrupted reads again. -/
  | gather (limit : Option Nat) (next : Gathered → Reading α)
  /-- Read to the end line by line, through a buffer of its own. -/
  | lines (next : Lined → Reading α)

namespace Reading

variable {α β ρ : Type} [Reader ρ]

/-- The program that reads the same and yields another value for it. -/
def map (f : α → β) : Reading α → Reading β
  | done value => .done (f value)
  | read size next => .read size fun answer => (next answer).map f
  | gather limit next => .gather limit fun gathered => (next gathered).map f
  | lines next => .lines fun lined => (next lined).map f

/-- The value of a program on a stream, and the stream that it leaves. -/
def run : Reading α → ρ → α × ρ
  | done value, r => (value, r)
  | read size next, r =>
    let (answer, r) := Reader.read r size
    (next answer).run r
  | gather limit next, r =>
    let (gathered, r) := Reader.gather .whole limit r
    (next gathered).run r
  | lines next, r =>
    let (lined, buffer) := Buffered.lines ⟨r, []⟩
    (next lined).run buffer.inner

end Reading

end InterfaceIndex
