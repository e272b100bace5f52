import InterfaceIndex.Proofs.Stream.Buffered
import InterfaceIndex.Proofs.Stream.Hashed

/-! Where the reads of a buffer cut what a stream brings. -/
namespace InterfaceIndex

variable {ρ : Type} [Reader ρ] {b c : Buffered ρ} {bytes front : List UInt8}

/-- A front of what a stream brings to a buffer, in so many of its reads. -/
inductive Reader.Cuts : ρ → List UInt8 → Prop
  | here (r : ρ) : Cuts r []
  | read {r s : ρ} {piece front : List UInt8}
      (brings : Reader.read r Buffered.capacity = (.ok piece, s)) (some_bytes : piece ≠ [])
      (others : Cuts s front) : Cuts r (piece ++ front)

/-- The same for a buffer: all that it holds comes from reads made before. -/
def Buffered.Cuts (b : Buffered ρ) (front : List UInt8) : Prop :=
  ∃ more, front = b.held ++ more ∧ Reader.Cuts b.inner more

@[simp] theorem Buffered.cuts_empty {inner : ρ} :
    (⟨inner, []⟩ : Buffered ρ).Cuts front ↔ Reader.Cuts inner front := by
  simp [Cuts]

/-- A byte less is held, and a byte less is in front of the next cut. -/
theorem Buffered.cuts_cons {inner : ρ} {x : UInt8} {held : List UInt8} :
    (⟨inner, x :: held⟩ : Buffered ρ).Cuts (x :: front) ↔
      (⟨inner, held⟩ : Buffered ρ).Cuts front := by
  simp [Cuts]

/-- The cuts behind some bytes are those behind the read that a fill makes, if it makes one. -/
theorem Buffered.cuts_fill (hf : b.fill = (none, c)) (hne : front ≠ []) :
    b.Cuts front ↔ c.held ≠ [] ∧ c.Cuts front := by
  rcases b.fill_cases with ⟨hheld, hb⟩ | ⟨hheld, piece, inner, hread, hb⟩ | ⟨-, f, inner, -, hb⟩
  · obtain rfl : b = c := by simpa [hb] using hf
    simp [hheld]
  · obtain rfl : ⟨inner, piece⟩ = c := by simpa [hb] using hf
    have hstart : b.Cuts front ↔ Reader.Cuts b.inner front := by simp [Cuts, hheld]
    rw [hstart]
    constructor
    · intro h
      cases h with
      | here => exact (hne rfl).elim
      | read brings some_bytes others =>
        obtain ⟨rfl, rfl⟩ : _ = piece ∧ _ = inner := by simpa [hread, eq_comm] using brings
        exact ⟨some_bytes, _, rfl, others⟩
    · rintro ⟨hpiece, more, rfl, hmore⟩
      exact .read hread hpiece hmore
  · simp [hb] at hf

/-- The cuts behind a byte that a fill finds are those behind it. -/
theorem Buffered.cuts_byte {x : UInt8} {held : List UInt8} (hf : b.fill = (none, c))
    (hheld : c.held = x :: held) :
    b.Cuts (x :: front) ↔ (⟨c.inner, held⟩ : Buffered ρ).Cuts front := by
  obtain ⟨inner, held'⟩ := c
  obtain rfl : held' = x :: held := hheld
  simp [cuts_fill hf, cuts_cons]

/-- All that a stream brings that never fails is in front of its end. -/
theorem Delivery.cuts_whole {D : Delivery ρ} {r : ρ}
    (never : ∀ {left : List UInt8} {f : Failure}, ¬ D.Stops left (some f)) (h : D.Holds r bytes) :
    Reader.Cuts r bytes := by
  induction hlen : bytes.length using Nat.strongRecOn generalizing r bytes with
  | ind length ih =>
    cases hread : Reader.read r Buffered.capacity with
    | mk answer s =>
      cases answer with
      | error f => exact (never (D.fails h Buffered.capacity_pos hread).1).elim
      | ok piece =>
        by_cases hnil : piece = []
        · subst hnil
          obtain rfl := D.whole (D.ends h Buffered.capacity_pos hread)
          exact .here r
        · obtain ⟨rest, rfl, hs⟩ := D.brings h Buffered.capacity_pos hread
          have hpos := List.length_pos_iff.mpr hnil
          rw [List.length_append] at hlen
          exact .read hread hnil (ih rest.length (by omega) hs rfl)

/-- Hashing does not move a cut. -/
theorem Hashed.cuts_iff {h : Hashed ρ} : Reader.Cuts h front ↔ Reader.Cuts h.inner front := by
  constructor
  · intro hc
    induction hc with
    | here h => exact .here _
    | read brings some_bytes others ih => exact .read (Hashed.read_ok brings).1 some_bytes ih
  · generalize hr : h.inner = r
    intro hc
    induction hc generalizing h with
    | here r => exact .here h
    | read brings some_bytes others ih =>
      rename_i r s piece front
      have hread : Reader.read h Buffered.capacity = (.ok piece, ⟨s, h.sum.absorb piece⟩) := by
        change h.read Buffered.capacity = _
        rw [Hashed.read, hr, brings]
      exact .read hread some_bytes (ih rfl)

end InterfaceIndex
