import InterfaceIndex.Stream.Reader
import InterfaceIndex.Checksum
/-!
A stream whose bytes are hashed as they are read.
-/
namespace InterfaceIndex

/-- A stream and the SHA-256 of all that has been read from it. -/
structure Hashed (ρ : Type) where
  inner : ρ
  sum : Sha256 := .start

namespace Hashed

variable {ρ : Type} [Reader ρ]

/-- One read of the stream. What it hands out, and nothing else, goes into the sum. -/
def read (h : Hashed ρ) (n : Nat) : Except Failure (List UInt8) × Hashed ρ :=
  match Reader.read h.inner n with
  | (.ok bytes, inner) => (.ok bytes, ⟨inner, h.sum.absorb bytes⟩)
  | (.error f, inner) => (.error f, { h with inner })

instance : Reader (Hashed ρ) where
  read := read
  budget h := Reader.budget h.inner

/-- The digest of all bytes read so far. -/
def digest (h : Hashed ρ) : String :=
  h.sum.hexDigest

end Hashed

end InterfaceIndex
