import InterfaceIndex.Stream.Reading
import InterfaceIndex.Proofs.Stream.Delivery

/-! Whatever is done with a layered stream, the layers below are only read. -/
namespace InterfaceIndex

namespace Reader

variable {ρ τ : Type} [Reader ρ] [Reader τ] {r s t : ρ}

/-- Reads turn one state of a stream into another. -/
inductive Reaches (r : ρ) : ρ → Prop
  | refl : Reaches r r
  | step {s : ρ} (h : Reaches r s) (n : Nat) : Reaches r (read s n).2

theorem reaches_read (r : ρ) (n : Nat) : Reaches r (read r n).2 :=
  .step .refl n

theorem Reaches.trans (h : Reaches r s) (h' : Reaches s t) : Reaches r t := by
  induction h' with
  | refl => exact h
  | step _ n ih => exact .step ih n

/-- What every read preserves holds wherever reads lead. -/
theorem Reaches.preserves {P : ρ → Prop} (h : Reaches r s) (hr : P r)
    (hstep : ∀ t n, P t → P (read t n).2) : P s := by
  induction h with
  | refl => exact hr
  | step _ n ih => exact hstep _ n ih

/-- Reads of a layer come down to reads of a layer below. -/
theorem Reaches.down (h : Reaches r s) (below : ρ → τ)
    (hstep : ∀ t n, Reaches (below t) (below (read t n).2)) : Reaches (below r) (below s) := by
  induction h with
  | refl => exact .refl
  | step _ n ih => exact ih.trans (hstep _ n)

/-- What a stream, bytes read from it and the stream that they leave have to do with each other, if it
holds for every read and adds up over reads. -/
structure Tracks (P : ρ → List UInt8 → ρ → Prop) : Prop where
  nil : ∀ r, P r [] r
  append : ∀ {r s t : ρ} {front rest : List UInt8}, P r front s → P s rest t → P r (front ++ rest) t
  ok : ∀ {r s : ρ} {n : Nat} {bytes : List UInt8}, read r n = (.ok bytes, s) → P r bytes s
  error : ∀ {r s : ρ} {n : Nat} {f : Failure}, read r n = (.error f, s) → P r [] s

variable {P : ρ → List UInt8 → ρ → Prop}

/-- What adds up over reads holds for a run of reads, however it ends. The induction is on the number
of reads allowed. -/
theorem Tracks.gatherWithin (h : Tracks P) (m : Manner) (fuel : Nat) (limit : Option Nat) (r : ρ) :
    P r (gatherWithin m fuel limit r).1.bytes (gatherWithin m fuel limit r).2 := by
  induction fuel generalizing limit r with
  | zero => cases limit with
    | none => exact h.nil r
    | some l => cases l <;> exact h.nil r
  | succ fuel ih =>
    by_cases hl : limit = some 0
    · subst hl
      exact h.nil r
    · rw [gatherWithin.eq_3 _ _ _ _ (by simpa using hl)]
      cases ha : read r (m.request limit) with
      | mk answer s =>
        cases answer with
        | error f =>
          dsimp only
          split
          · exact h.append (h.error ha) (ih ..)
          · exact h.error ha
        | ok piece =>
          cases piece with
          | nil => exact h.ok ha
          | cons b piece => exact h.append (h.ok ha) (ih ..)

theorem Tracks.gather (h : Tracks P) (m : Manner) (limit : Option Nat) (r : ρ) :
    P r (gather m limit r).1.bytes (gather m limit r).2 :=
  h.gatherWithin ..

theorem tracks_reaches : Tracks fun r _ s => Reaches (ρ := ρ) r s where
  nil r := .refl
  append h h' := h.trans h'
  ok {r s n bytes} ha := by simpa [ha] using reaches_read r n
  error {r s n f} ha := by simpa [ha] using reaches_read r n

/-- A count of the bytes read. -/
theorem tracks_count (count : ρ → Nat)
    (hok : ∀ {r s : ρ} {n : Nat} {bytes : List UInt8}, read r n = (.ok bytes, s) →
      count s = count r + bytes.length)
    (herror : ∀ {r s : ρ} {n : Nat} {f : Failure}, read r n = (.error f, s) → count s = count r) :
    Tracks fun r bytes s => count s = count r + bytes.length where
  nil r := rfl
  append h h' := by rw [h', h, List.length_append, Nat.add_assoc]
  ok := hok
  error := herror

theorem reaches_gather (m : Manner) (limit : Option Nat) (r : ρ) :
    Reaches r (Reader.gather m limit r).2 :=
  tracks_reaches.gather m limit r

end Reader

open Reader

/-- What holds of a sound stream after reads. -/
theorem Flow.reaches {ρ : Type} [Reader ρ] (F : Flow ρ) {r s : ρ} (h : Reaches r s)
    (hr : F.Sound r) :
    F.Sound s ∧ Reader.budget s ≤ Reader.budget r := by
  refine h.preserves (P := fun s => F.Sound s ∧ Reader.budget s ≤ Reader.budget r)
    ⟨hr, Nat.le_refl _⟩ ?_
  rintro t n ⟨ht, hle⟩
  cases ha : Reader.read t n with
  | mk answer u =>
    cases answer with
    | ok bytes =>
      obtain ⟨hu, -, hcost⟩ := F.ok ht ha
      exact ⟨hu, by dsimp only; omega⟩
    | error f =>
      obtain ⟨hu, hcost, -⟩ := F.error ht ha
      exact ⟨hu, by dsimp only; omega⟩

namespace Buffered

variable {ρ : Type} [Reader ρ]

theorem reaches_fill (b : Buffered ρ) : Reaches b.inner b.fill.2.inner := by
  unfold fill
  split
  · have hread := reaches_read b.inner capacity
    split <;> simp_all
  · exact .refl

theorem reaches_read (b : Buffered ρ) (n : Nat) : Reaches b.inner (b.read n).2.inner := by
  have hfill := b.reaches_fill
  unfold read
  split
  · exact Reader.reaches_read ..
  · split <;> simp_all

theorem reaches_inner {b c : Buffered ρ} (h : Reaches b c) : Reaches b.inner c.inner :=
  h.down inner reaches_read

theorem reaches_readLineWithin (fuel : Nat) (sofar : List UInt8) (b : Buffered ρ) :
    Reaches b.inner (b.readLineWithin fuel sofar).2.inner := by
  induction fuel generalizing sofar b with
  | zero => exact .refl
  | succ fuel ih =>
    have hfill := b.reaches_fill
    rw [readLineWithin]
    cases hf : b.fill with
    | mk stop c =>
      rw [hf] at hfill
      cases stop with
      | some f =>
        dsimp only
        split
        · exact hfill.trans (ih ..)
        · exact hfill
      | none =>
        dsimp only
        split
        · exact hfill
        · split
          · exact hfill
          · exact hfill.trans (ih _ { c with held := [] })

theorem reaches_linesWithin (fuel : Nat) (b : Buffered ρ) :
    Reaches b.inner (b.linesWithin fuel).2.inner := by
  induction fuel generalizing b with
  | zero => exact .refl
  | succ fuel ih =>
    have hline : Reaches b.inner b.readLine.2.inner := reaches_readLineWithin ..
    rw [linesWithin]
    cases hr : b.readLine with
    | mk answer c =>
      rw [hr] at hline
      cases answer with
      | error f => exact hline
      | ok line =>
        dsimp only
        split
        · exact hline
        · exact hline.trans (ih c)

theorem reaches_lines (b : Buffered ρ) : Reaches b.inner b.lines.2.inner :=
  reaches_linesWithin ..

end Buffered

namespace Reading

variable {α β ρ : Type} [Reader ρ]

theorem run_map (f : α → β) (p : Reading α) (s : ρ) :
    (p.map f).run s = (f (p.run s).1, (p.run s).2) := by
  induction p generalizing s with
  | done value => rfl
  | read size next ih => exact ih ..
  | gather limit next ih => exact ih ..
  | lines next ih => exact ih ..

/-- The induction is on the program, whose steps are reads or runs of reads. -/
theorem reaches_run (p : Reading α) (r : ρ) : Reaches r (p.run r).2 := by
  induction p generalizing r with
  | done value => exact .refl
  | read size next ih => exact (reaches_read r size).trans (ih ..)
  | gather limit next ih => exact (reaches_gather ..).trans (ih ..)
  | lines next ih => exact (Buffered.reaches_lines ⟨r, []⟩).trans (ih ..)

end Reading

end InterfaceIndex
