import InterfaceIndex.Stream.Reader

/-! What reads of a stream bring, as laws that each layer of streams passes on to the next. -/
namespace InterfaceIndex

/-- The account that reads keep of the budget, as long as a stream is sound. -/
structure Flow (ρ : Type) [Reader ρ] where
  Sound : ρ → Prop
  ok : ∀ {r r' : ρ} {n : Nat} {bytes : List UInt8}, Sound r → Reader.read r n = (.ok bytes, r') →
    Sound r' ∧ bytes.length ≤ n ∧ Reader.budget r' + bytes.length ≤ Reader.budget r
  error : ∀ {r r' : ρ} {n : Nat} {f : Failure}, Sound r → Reader.read r n = (.error f, r') →
    Sound r' ∧ Reader.budget r' ≤ Reader.budget r ∧
      (f.isInterrupted = true → Reader.budget r' < Reader.budget r)

theorem Manner.request_le {m : Manner} {limit : Option Nat} {l : Nat} (h : limit = some l) :
    m.request limit ≤ l := by
  subst h
  exact Nat.min_le_right ..

/-- What a run of reads leaves of a budget `k` and of a limit. A patient one is not stopped by an
interruption. -/
structure Flow.Spends {ρ : Type} [Reader ρ] (F : Flow ρ) (m : Manner) (limit : Option Nat) (k : Nat)
    (x : Gathered × ρ) : Prop where
  sound : F.Sound x.2
  within : ∀ l, limit = some l → x.1.bytes.length ≤ l
  cost : Reader.budget x.2 + x.1.bytes.length ≤ k
  patient : m.patient = true → ∀ f, x.1.failure = some f → f.isInterrupted = false

/-- The induction is on the number of reads allowed. An interruption takes from the budget, so a
patient run still has a read left after it. -/
theorem Flow.gatherWithin_spends {ρ : Type} [Reader ρ] (F : Flow ρ) {m : Manner} {fuel : Nat}
    {limit : Option Nat} {r : ρ} (hfuel : Reader.budget r < fuel) (h : F.Sound r) :
    F.Spends m limit (Reader.budget r) (Reader.gatherWithin m fuel limit r) := by
  induction fuel generalizing r limit with
  | zero => omega
  | succ fuel ih =>
    by_cases hl : limit = some 0
    · subst hl
      simp only [Reader.gatherWithin]
      exact ⟨h, by simp, by simp, by simp⟩
    · rw [Reader.gatherWithin.eq_3 _ _ _ _ (by simpa using hl)]
      cases ha : Reader.read r (m.request limit) with
      | mk answer s =>
        cases answer with
        | error f =>
          obtain ⟨hs, hle, hless⟩ := F.error h ha
          dsimp only
          split
          · next hagain =>
            simp only [Bool.and_eq_true, bne_iff_ne] at hagain
            have := hless hagain.1.2
            have hx : F.Spends m limit (Reader.budget s) _ := ih (by omega) hs
            exact ⟨hx.sound, hx.within, by have := hx.cost; omega, hx.patient⟩
          · next hlast =>
            refine ⟨hs, by simp, by simpa using hle, ?_⟩
            intro hp g hg
            obtain rfl : f = g := by simpa using hg
            cases hi : f.isInterrupted with
            | false => rfl
            | true =>
              have := hless hi
              simp only [hp, hi, Bool.and_self, Bool.true_and, bne_iff_ne, ne_eq,
                Decidable.not_not] at hlast
              omega
        | ok piece =>
          obtain ⟨hs, hlen, hcost⟩ := F.ok h ha
          cases piece with
          | nil => exact ⟨hs, by simp, by simpa using hcost, by simp⟩
          | cons b piece =>
            simp only [List.length_cons] at hcost hlen
            have hx : F.Spends m (limit.map (· - (b :: piece).length)) (Reader.budget s) _ :=
              ih (by omega) hs
            dsimp only
            generalize Reader.gatherWithin m fuel (limit.map (· - (b :: piece).length)) s = x at hx ⊢
            refine ⟨hx.sound, ?_, ?_, hx.patient⟩
            · rintro l rfl
              have := hx.within (l - (b :: piece).length) rfl
              have : m.request (some l) ≤ l := Manner.request_le rfl
              simp only [List.length_append, List.length_cons] at *
              omega
            · have := hx.cost
              simp only [List.length_append, List.length_cons]
              omega

theorem Flow.gather_spends {ρ : Type} [Reader ρ] (F : Flow ρ) {m : Manner} {limit : Option Nat}
    {r : ρ} (h : F.Sound r) :
    F.Spends m limit (Reader.budget r) (Reader.gather m limit r) :=
  F.gatherWithin_spends (Nat.lt_succ_self _) h

/-- Runs of reads of a stream end by themselves: that they may make only so many reads has no bearing
on them. -/
def Reader.RunsEnd {ρ : Type} [Reader ρ] (r : ρ) : Prop :=
  ∀ (m : Manner) (limit : Option Nat) (allowance : Nat), Reader.budget r < allowance →
    Reader.gatherWithin m allowance limit r = Reader.gather m limit r

/-- The induction is on one of the numbers of reads allowed. Neither runs out, since a read after which
the run goes on takes from the budget. -/
theorem Flow.gatherWithin_eq {ρ : Type} [Reader ρ] (F : Flow ρ) {m : Manner} {fuel allowance : Nat}
    {limit : Option Nat} {r : ρ} (h : F.Sound r) (hfuel : Reader.budget r < fuel)
    (hallowance : Reader.budget r < allowance) :
    Reader.gatherWithin m allowance limit r = Reader.gatherWithin m fuel limit r := by
  induction fuel generalizing allowance r limit with
  | zero => omega
  | succ fuel ih =>
    obtain ⟨allowance, rfl⟩ : ∃ n, allowance = n + 1 := ⟨allowance - 1, by omega⟩
    by_cases hl : limit = some 0
    · subst hl
      simp only [Reader.gatherWithin]
    · rw [Reader.gatherWithin.eq_3 _ _ _ _ (by simpa using hl),
        Reader.gatherWithin.eq_3 _ _ _ _ (by simpa using hl)]
      cases ha : Reader.read r (m.request limit) with
      | mk answer s =>
        cases answer with
        | error f =>
          obtain ⟨hs, -, hless⟩ := F.error h ha
          dsimp only
          cases hi : f.isInterrupted with
          | false => simp
          | true =>
            have := hless hi
            have hfuel' : (fuel != 0) = true := by simp; omega
            have hallowance' : (allowance != 0) = true := by simp; omega
            rw [hfuel', hallowance', ih hs (by omega) (by omega)]
        | ok piece =>
          obtain ⟨hs, -, hcost⟩ := F.ok h ha
          cases piece with
          | nil => rfl
          | cons b piece =>
            rw [List.length_cons] at hcost
            dsimp only
            rw [ih hs (by omega) (by omega)]

theorem Flow.runsEnd {ρ : Type} [Reader ρ] (F : Flow ρ) {r : ρ} (h : F.Sound r) : Reader.RunsEnd r :=
  fun _ _ _ hallowance => F.gatherWithin_eq h (Nat.lt_succ_self _) hallowance

/-- The bytes that a stream has yet to bring. Reads may cut them anywhere and may be interrupted.
`Stops` tells how the stream may stop before given bytes; it never ends, as if complete, before a
byte that is yet to come. -/
structure Delivery (ρ : Type) [Reader ρ] extends Flow ρ where
  Holds : ρ → List UInt8 → Prop
  Stops : List UInt8 → Option Failure → Prop
  whole : ∀ {bytes : List UInt8}, Stops bytes none → bytes = []
  sound : ∀ {r : ρ} {bytes : List UInt8}, Holds r bytes → Sound r
  brings : ∀ {r r' : ρ} {n : Nat} {piece bytes : List UInt8}, Holds r bytes → 0 < n →
    Reader.read r n = (.ok piece, r') → ∃ rest, bytes = piece ++ rest ∧ Holds r' rest
  ends : ∀ {r r' : ρ} {n : Nat} {bytes : List UInt8}, Holds r bytes → 0 < n →
    Reader.read r n = (.ok [], r') → Stops bytes none
  fails : ∀ {r r' : ρ} {n : Nat} {f : Failure} {bytes : List UInt8}, Holds r bytes → 0 < n →
    Reader.read r n = (.error f, r') →
      Stops bytes (some f) ∧ (f.isInterrupted = true → Holds r' bytes)

namespace Delivery

variable {ρ : Type} [Reader ρ] (D : Delivery ρ) {m : Manner} {r s : ρ} {limit : Option Nat}
  {piece bytes : List UInt8}

/-- How a run of reads comes out. Only the limit, the end of the stream and a failure stop it, and
what it brings are the bytes at the front. -/
inductive Gathers (limit : Option Nat) (bytes : List UInt8) : Gathered × ρ → Prop
  | filled {got rest : List UInt8} {s : ρ} (eq : bytes = got ++ rest)
      (full : limit = some got.length) (holds : D.Holds s rest) :
      Gathers limit bytes (⟨got, none⟩, s)
  | ended {s : ρ} (below : ∀ l, limit = some l → bytes.length < l) (holds : D.Holds s [])
      (stops : D.Stops [] none) : Gathers limit bytes (⟨bytes, none⟩, s)
  | failed {got rest : List UInt8} {f : Failure} {s : ρ} (eq : bytes = got ++ rest)
      (below : ∀ l, limit = some l → got.length < l) (stops : D.Stops rest (some f)) :
      Gathers limit bytes (⟨got, some f⟩, s)

variable {D}

/-- A run of reads that goes on after a piece brings the piece too. -/
theorem Gathers.cons {more : Gathered} (hp : ∀ l, limit = some l → piece.length ≤ l)
    (h : D.Gathers (limit.map (· - piece.length)) bytes (more, s)) :
    D.Gathers limit (piece ++ bytes) (⟨piece ++ more.bytes, more.failure⟩, s) := by
  cases h with
  | filled eq full holds =>
    obtain ⟨l, rfl, hl⟩ := Option.map_eq_some_iff.mp full
    have := hp l rfl
    refine .filled (by simp [eq]) ?_ holds
    simp
    omega
  | ended below holds stops =>
    refine .ended ?_ holds stops
    rintro l rfl
    have := below (l - piece.length) rfl
    simp
    omega
  | failed eq below stops =>
    refine .failed (by simp [eq]) ?_ stops
    rintro l rfl
    have := below (l - piece.length) rfl
    simp
    omega

/-- Interruptions and short reads alike leave the outcome to the bytes to come. The induction is
on the number of reads allowed, which stays above the budget and so never runs out. -/
theorem gatherWithin_spec (hm : 0 < m.piece) {fuel : Nat} (hfuel : Reader.budget r < fuel)
    (h : D.Holds r bytes) : D.Gathers limit bytes (Reader.gatherWithin m fuel limit r) := by
  induction fuel generalizing r limit bytes with
  | zero => omega
  | succ fuel ih =>
    by_cases hl : limit = some 0
    · subst hl
      simp only [Reader.gatherWithin]
      exact .filled rfl rfl h
    · have hbelow : ∀ l, limit = some l → 0 < l := by
        rintro l rfl
        exact Nat.pos_of_ne_zero fun hz => hl (by rw [hz])
      have hn : 0 < m.request limit := by
        cases limit with
        | none => exact hm
        | some l =>
          have := hbelow l rfl
          simp only [Manner.request]
          omega
      rw [Reader.gatherWithin.eq_3 _ _ _ _ (by simpa using hl)]
      cases ha : Reader.read r (m.request limit) with
      | mk answer s =>
        cases answer with
        | error f =>
          obtain ⟨hstops, hholds⟩ := D.fails h hn ha
          obtain ⟨-, -, hless⟩ := D.error (D.sound h) ha
          dsimp only
          split
          · next hagain =>
            simp only [Bool.and_eq_true, bne_iff_ne] at hagain
            have := hless hagain.1.2
            exact ih (by omega) (hholds hagain.1.2)
          · exact .failed rfl hbelow hstops
        | ok piece =>
          obtain ⟨rest, rfl, hrest⟩ := D.brings h hn ha
          obtain ⟨-, hlen, hcost⟩ := D.ok (D.sound h) ha
          cases piece with
          | nil =>
            have hstops := D.ends h hn ha
            obtain rfl := D.whole hstops
            exact .ended hbelow hrest hstops
          | cons b piece =>
            simp only [List.length_cons] at hcost
            have hg : D.Gathers (limit.map (· - (b :: piece).length)) rest _ :=
              ih (by omega) hrest
            exact Gathers.cons (fun l hl => Nat.le_trans hlen (m.request_le hl)) hg

theorem gather_spec (hm : 0 < m.piece) (h : D.Holds r bytes) :
    D.Gathers limit bytes (Reader.gather m limit r) :=
  gatherWithin_spec hm (Nat.lt_succ_self _) h

end Delivery

end InterfaceIndex
