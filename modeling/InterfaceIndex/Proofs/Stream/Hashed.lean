import InterfaceIndex.Stream.Hashed
import InterfaceIndex.Proofs.Checksum
import InterfaceIndex.Proofs.Stream.Reach
import InterfaceIndex.Proofs.Stream.Source

/-! Hashing on the way changes nothing about a stream, and hashes what has gone by. -/
namespace InterfaceIndex

namespace Hashed

variable {ρ : Type} [Reader ρ] {h k : Hashed ρ} {n : Nat} {bytes : List UInt8} {f : Failure}

theorem read_ok (ha : Reader.read h n = (.ok bytes, k)) :
    Reader.read h.inner n = (.ok bytes, k.inner) ∧ k.sum = h.sum.absorb bytes := by
  change h.read n = _ at ha
  unfold read at ha
  split at ha
  · next piece inner hi =>
    simp only [Prod.mk.injEq, Except.ok.injEq] at ha
    obtain ⟨rfl, rfl⟩ := ha
    exact ⟨hi, rfl⟩
  · simp at ha

theorem read_error (ha : Reader.read h n = (.error f, k)) :
    Reader.read h.inner n = (.error f, k.inner) ∧ k.sum = h.sum := by
  change h.read n = _ at ha
  unfold read at ha
  split at ha
  · simp at ha
  · next g inner hi =>
    simp only [Prod.mk.injEq, Except.error.injEq] at ha
    obtain ⟨rfl, rfl⟩ := ha
    exact ⟨hi, rfl⟩

end Hashed

open Hashed

/-- A hashed stream is sound when the stream is. -/
def Flow.hashed {ρ : Type} [Reader ρ] (F : Flow ρ) : Flow (Hashed ρ) where
  Sound h := F.Sound h.inner
  ok h ha := F.ok h (read_ok ha).1
  error h ha := F.error h (read_error ha).1

/-- A hashed stream delivers what the stream delivers. -/
def Delivery.hashed {ρ : Type} [Reader ρ] (D : Delivery ρ) : Delivery (Hashed ρ) where
  toFlow := D.toFlow.hashed
  Holds h := D.Holds h.inner
  Stops := D.Stops
  whole := D.whole
  sound h := D.sound h
  brings h hn ha := D.brings h hn (read_ok ha).1
  ends h hn ha := D.ends h hn (read_ok ha).1
  fails h hn ha := D.fails h hn (read_error ha).1

namespace Hashed

open Source

variable {s : Source} {h k : Hashed Source}

/-- Some arrivals of a source have gone by, and their bytes have been hashed. -/
structure After (s : Source) (h : Hashed Source) (gone : List Arrival) : Prop where
  arrivals : s.arrivals = gone ++ h.inner.arrivals
  stuck : h.inner.stuck = s.stuck
  sum : h.sum = Sha256.start.absorb (bytesOf gone)

theorem after_start (s : Source) : After s ⟨s, .start⟩ [] :=
  ⟨rfl, rfl, rfl⟩

/-- One read: what arrives goes by, and into the sum if it is a byte. -/
theorem after_read {gone : List Arrival} (ha : After s h gone) (n : Nat) :
    ∃ more, After s (Reader.read h n).2 (gone ++ more) := by
  cases hr : Reader.read h n with
  | mk answer k =>
    have hspec := read_spec h.inner n
    cases answer with
    | ok bytes =>
      obtain ⟨hi, hsum⟩ := read_ok hr
      rw [hi] at hspec
      rw [ha.sum, ← Sha256.absorb_append] at hsum
      generalize hk : k.inner = t at hspec
      cases hspec with
      | ended none_left free =>
        exact ⟨[], by rw [List.append_nil, hk]; exact ha.arrivals, by rw [hk]; exact ha.stuck,
          by simpa using hsum⟩
      | bytes eq same size some_left progress =>
        refine ⟨bytes.map .byte, ?_, by rw [hk, same, ha.stuck], by simpa using hsum⟩
        rw [ha.arrivals, eq, hk, List.append_assoc]
    | error f =>
      obtain ⟨hi, hsum⟩ := read_error hr
      rw [hi] at hspec
      rw [ha.sum] at hsum
      generalize hk : k.inner = t at hspec
      cases hspec with
      | stuck none_left lasting =>
        exact ⟨[], by rw [List.append_nil, hk]; exact ha.arrivals, by rw [hk]; exact ha.stuck,
          by simpa using hsum⟩
      | fault eq same =>
        refine ⟨[.fault f], ?_, by rw [hk, same, ha.stuck], by simpa [bytesOf] using hsum⟩
        rw [ha.arrivals, eq, hk, List.append_assoc]
        rfl

/-- Wherever reads lead, each byte that has gone by has been hashed once, in order. -/
theorem after_reaches (hr : Reader.Reaches h k) (ha : ∃ gone, After s h gone) :
    ∃ gone, After s k gone := by
  apply hr.preserves (P := fun t => ∃ gone, After s t gone) ha
  rintro t n ⟨gone, ht⟩
  obtain ⟨more, hmore⟩ := after_read ht n
  exact ⟨_, hmore⟩

end Hashed

end InterfaceIndex
