import InterfaceIndex.Proofs.Stream.Buffered
import InterfaceIndex.Proofs.Stream.Reach

/-! Streams that never fail: what is asked for comes, in whatever pieces, as long as there is any. -/
namespace InterfaceIndex

namespace Reading

variable {α : Type}

/-- Asks for so many more bytes after those that are there, in reads of any sizes but none of no
bytes, until all of them are there or nothing comes. -/
def askFrom (size : Nat → Nat) (next : List UInt8 → Reading α) (wanted : Nat)
    (sofar : List UInt8) : Reading α :=
  if wanted = 0 then next sofar
  else
    .read (min (max 1 (size sofar.length)) wanted) fun
      | .ok (b :: piece) => askFrom size next (wanted - (b :: piece).length) (sofar ++ b :: piece)
      | _ => next sofar
termination_by wanted
decreasing_by simp only [List.length_cons]; omega

/-- Asks for so many bytes, and goes on with those that come. -/
def ask (size : Nat → Nat) (amount : Nat) (next : List UInt8 → Reading α) : Reading α :=
  askFrom size next amount []

end Reading

namespace Delivery

variable {ρ : Type} [Reader ρ] {D : Delivery ρ} {m : Manner} {r : ρ} {bytes : List UInt8}

/-- A stream that never fails, and of which a read of no bytes takes nothing. -/
structure Calm (D : Delivery ρ) : Prop where
  never : ∀ {left : List UInt8} {f : Failure}, ¬ D.Stops left (some f)
  idle : ∀ {r r' : ρ} {bytes : List UInt8} {answer : Except Failure (List UInt8)},
    D.Holds r bytes → Reader.read r 0 = (answer, r') → answer = .ok [] ∧ D.Holds r' bytes

/-- Every read takes what it brings. -/
theorem Calm.read (hD : D.Calm) (h : D.Holds r bytes) (n : Nat) :
    ∃ piece rest s, Reader.read r n = (.ok piece, s) ∧ bytes = piece ++ rest ∧ D.Holds s rest := by
  cases ha : Reader.read r n with
  | mk answer s =>
    rcases Nat.eq_zero_or_pos n with rfl | hn
    · obtain ⟨rfl, hs⟩ := hD.idle h ha
      exact ⟨[], bytes, s, rfl, rfl, hs⟩
    · cases answer with
      | error f => exact (hD.never (D.fails h hn ha).1).elim
      | ok piece =>
        obtain ⟨rest, heq, hs⟩ := D.brings h hn ha
        exact ⟨piece, rest, s, rfl, heq, hs⟩

/-- A buffer never fails if its stream does not; a read of no bytes at most fills it. -/
theorem calm_buffered (never : ∀ {left : List UInt8} {f : Failure}, ¬ D.Stops left (some f)) :
    D.buffered.Calm where
  never := never
  idle {b c bytes answer} h ha := by
    change b.read 0 = _ at ha
    rcases b.read_cases 0 with ⟨-, hle, -⟩ | ⟨f, d, hf, -⟩ | ⟨d, hf, hb⟩
    · have := Buffered.capacity_pos
      omega
    · exact (never (fill_fails h hf).1).elim
    · simp only [hb, List.take_zero, List.drop_zero, Prod.mk.injEq] at ha
      obtain ⟨rfl, rfl⟩ := ha
      exact ⟨rfl, (fill_brings h hf).1⟩

/-- A run of reads up to a limit brings the bytes at the front, as many as there are. -/
theorem gather_take (never : ∀ {left : List UInt8} {f : Failure}, ¬ D.Stops left (some f))
    (hm : 0 < m.piece) (h : D.Holds r bytes) (l : Nat) :
    ∃ s, Reader.gather m (some l) r = (⟨bytes.take l, none⟩, s) ∧ D.Holds s (bytes.drop l) ∧
      Reader.budget s + (bytes.take l).length ≤ Reader.budget r := by
  have hg : D.Gathers (some l) bytes (Reader.gather m (some l) r) := gather_spec hm h
  have hspends : D.Spends m (some l) (Reader.budget r) (Reader.gather m (some l) r) :=
    Flow.gather_spends _ (D.sound h)
  have hcost := hspends.cost
  generalize Reader.gather m (some l) r = x at hg hcost
  cases hg with
  | filled eq full holds =>
    obtain rfl := Option.some.inj full
    subst eq
    rw [List.take_left, List.drop_left]
    exact ⟨_, rfl, holds, hcost⟩
  | ended below holds stops =>
    have hlt := below l rfl
    rw [List.take_of_length_le (Nat.le_of_lt hlt), List.drop_of_length_le (Nat.le_of_lt hlt)]
    exact ⟨_, rfl, holds, hcost⟩
  | failed eq below stops => exact (never stops).elim

/-- A run of reads without a limit brings all bytes. -/
theorem gather_all (never : ∀ {left : List UInt8} {f : Failure}, ¬ D.Stops left (some f))
    (hm : 0 < m.piece) (h : D.Holds r bytes) :
    ∃ s, Reader.gather m none r = (⟨bytes, none⟩, s) := by
  have hg : D.Gathers none bytes (Reader.gather m none r) := gather_spec hm h
  generalize Reader.gather m none r = x at hg
  cases hg with
  | filled eq full holds => simp at full
  | ended below holds stops => exact ⟨_, rfl⟩
  | failed eq below stops => exact (never stops).elim

/-- The induction is on the number of bytes still wanted; every read that brings any lowers it. -/
theorem run_askFrom {α : Type} (never : ∀ {left : List UInt8} {f : Failure}, ¬ D.Stops left (some f))
    (size : Nat → Nat) (next : List UInt8 → Reading α) (wanted : Nat) (sofar : List UInt8)
    (h : D.Holds r bytes) : ∃ s, (Reading.askFrom size next wanted sofar).run r =
      (next (sofar ++ bytes.take wanted)).run s := by
  induction wanted using Nat.strongRecOn generalizing sofar r bytes with
  | ind wanted ih =>
    rw [Reading.askFrom]
    split
    · next hzero => exact ⟨r, by simp [hzero]⟩
    · next hwanted =>
      have hn : 0 < min (max 1 (size sofar.length)) wanted := by omega
      rw [Reading.run]
      cases ha : Reader.read r (min (max 1 (size sofar.length)) wanted) with
      | mk answer s =>
        cases answer with
        | error f => exact (never (D.fails h hn ha).1).elim
        | ok piece =>
          obtain ⟨rest, rfl, hs⟩ := D.brings h hn ha
          have hlen := (D.ok (D.sound h) ha).2.1
          cases piece with
          | nil =>
            have hnil := D.whole (D.ends h hn ha)
            exact ⟨s, by simp [hnil]⟩
          | cons b piece =>
            have hle : (b :: piece).length ≤ wanted := by omega
            obtain ⟨t, ht⟩ := ih (wanted - (b :: piece).length)
              (by simp only [List.length_cons]; omega) (sofar ++ b :: piece) hs
            refine ⟨t, ?_⟩
            rw [List.take_append, List.take_of_length_le hle, ← List.append_assoc]
            exact ht

/-- A program that asks for so many bytes goes on with the bytes at the front, as many as there
are, whatever the sizes of its reads. -/
theorem run_ask {α : Type} (never : ∀ {left : List UInt8} {f : Failure}, ¬ D.Stops left (some f))
    (size : Nat → Nat) (amount : Nat) (next : List UInt8 → Reading α) (h : D.Holds r bytes) :
    ∃ s, (Reading.ask size amount next).run r = (next (bytes.take amount)).run s :=
  run_askFrom never size next amount [] h

end Delivery

end InterfaceIndex
