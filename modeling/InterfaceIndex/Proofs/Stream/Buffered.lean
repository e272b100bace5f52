import InterfaceIndex.Stream.Buffered
import InterfaceIndex.Proofs.Stream.Delivery

/-! A buffer neither loses nor adds bytes, and reads its stream's lines wherever pieces end. -/
namespace InterfaceIndex

variable {ρ : Type} [Reader ρ] {b c : Buffered ρ} {n : Nat} {bytes : List UInt8} {f : Failure}

namespace Buffered

theorem capacity_pos : 0 < capacity := by decide

@[simp] theorem budget_mk (inner : ρ) (held : List UInt8) :
    Reader.budget (⟨inner, held⟩ : Buffered ρ) = held.length + Reader.budget inner := rfl

/-- A fill leaves a buffer with bytes alone; otherwise it is one read. -/
theorem fill_cases (b : Buffered ρ) :
    (b.held ≠ [] ∧ b.fill = (none, b)) ∨
    (b.held = [] ∧ ∃ piece inner, Reader.read b.inner capacity = (.ok piece, inner) ∧
      b.fill = (none, ⟨inner, piece⟩)) ∨
    (b.held = [] ∧ ∃ f inner, Reader.read b.inner capacity = (.error f, inner) ∧
      b.fill = (some f, ⟨inner, []⟩)) := by
  cases hh : b.held with
  | cons x held => exact Or.inl ⟨by simp, by simp [fill, hh]⟩
  | nil =>
    cases ha : Reader.read b.inner capacity with
    | mk answer inner =>
      cases answer with
      | ok piece => exact Or.inr (Or.inl ⟨rfl, piece, inner, rfl, by simp [fill, hh, ha]⟩)
      | error f => exact Or.inr (Or.inr ⟨rfl, f, inner, rfl, by simp [fill, hh, ha]⟩)

/-- A read is a read of the stream when nothing is held and enough is asked for; otherwise it takes
from what a fill leaves. -/
theorem read_cases (b : Buffered ρ) (n : Nat) :
    (b.held = [] ∧ capacity ≤ n ∧ b.read n =
      ((Reader.read b.inner n).1, ⟨(Reader.read b.inner n).2, []⟩)) ∨
    (∃ f c, b.fill = (some f, c) ∧ b.read n = (.error f, c)) ∨
    (∃ c, b.fill = (none, c) ∧
      b.read n = (.ok (c.held.take n), { c with held := c.held.drop n })) := by
  by_cases hd : (b.held.isEmpty && decide (capacity ≤ n)) = true
  · have hr : b.held = [] ∧ capacity ≤ n := by simpa using hd
    exact Or.inl ⟨hr.1, hr.2, by simp only [read, if_pos hd]⟩
  · cases hf : b.fill with
    | mk stop c =>
      cases stop with
      | some f => exact Or.inr (Or.inl ⟨f, c, rfl, by simp only [read, if_neg hd, hf]⟩)
      | none => exact Or.inr (Or.inr ⟨c, rfl, by simp only [read, if_neg hd, hf]⟩)

end Buffered

namespace Flow

variable (F : Flow ρ)

theorem fill_ok (h : F.Sound b.inner) (hf : b.fill = (none, c)) :
    F.Sound c.inner ∧ Reader.budget c ≤ Reader.budget b := by
  rcases b.fill_cases with ⟨_, hb⟩ | ⟨hh, piece, inner, ha, hb⟩ | ⟨_, g, inner, _, hb⟩
  · simp only [hb, Prod.mk.injEq, true_and] at hf
    subst hf
    exact ⟨h, Nat.le_refl _⟩
  · simp only [hb, Prod.mk.injEq, true_and] at hf
    subst hf
    obtain ⟨hs, -, hcost⟩ := F.ok h ha
    refine ⟨hs, ?_⟩
    simp only [Reader.budget, hh, List.length_nil]
    omega
  · simp [hb] at hf

theorem fill_error (h : F.Sound b.inner) (hf : b.fill = (some f, c)) :
    F.Sound c.inner ∧ Reader.budget c ≤ Reader.budget b ∧
      (f.isInterrupted = true → Reader.budget c < Reader.budget b) := by
  rcases b.fill_cases with ⟨_, hb⟩ | ⟨_, piece, inner, _, hb⟩ | ⟨hh, g, inner, ha, hb⟩
  · simp [hb] at hf
  · simp [hb] at hf
  · simp only [hb, Prod.mk.injEq, Option.some.injEq] at hf
    obtain ⟨rfl, rfl⟩ := hf
    obtain ⟨hs, hle, hlt⟩ := F.error h ha
    simpa only [Reader.budget, hh, List.length_nil, Nat.zero_add] using ⟨hs, hle, hlt⟩

/-- A buffer is sound when its stream is. -/
def buffered : Flow (Buffered ρ) where
  Sound b := F.Sound b.inner
  ok {b c n bytes} h ha := by
    change b.read n = _ at ha
    rcases b.read_cases n with ⟨hh, -, hb⟩ | ⟨g, d, hf, hb⟩ | ⟨d, hf, hb⟩
    · simp only [hb, Prod.mk.injEq] at ha
      obtain ⟨ha, rfl⟩ := ha
      obtain ⟨hs, hlen, hcost⟩ := F.ok h (Prod.ext ha rfl)
      simpa [Reader.budget, hh] using ⟨hs, hlen, hcost⟩
    · simp [hb] at ha
    · obtain ⟨hs, hcost⟩ := F.fill_ok h hf
      simp only [hb, Prod.mk.injEq, Except.ok.injEq] at ha
      obtain ⟨rfl, rfl⟩ := ha
      refine ⟨hs, List.length_take_le .., ?_⟩
      simp only [Reader.budget, List.length_drop, List.length_take] at hcost ⊢
      omega
  error {b c n f} h ha := by
    change b.read n = _ at ha
    rcases b.read_cases n with ⟨hh, -, hb⟩ | ⟨g, d, hf, hb⟩ | ⟨d, hf, hb⟩
    · simp only [hb, Prod.mk.injEq] at ha
      obtain ⟨ha, rfl⟩ := ha
      obtain ⟨hs, hle, hlt⟩ := F.error h (Prod.ext ha rfl)
      simpa [Reader.budget, hh] using ⟨hs, hle, hlt⟩
    · simp only [hb, Prod.mk.injEq, Except.error.injEq] at ha
      obtain ⟨rfl, rfl⟩ := ha
      exact F.fill_error h hf
    · simp [hb] at ha

end Flow

namespace Delivery

variable (D : Delivery ρ)

/-- What a buffer has yet to bring is what it holds, followed by what its stream has yet to bring. -/
def Ahead (b : Buffered ρ) (bytes : List UInt8) : Prop :=
  ∃ rest, bytes = b.held ++ rest ∧ D.Holds b.inner rest

variable {D}

theorem fill_brings (h : D.Ahead b bytes) (hf : b.fill = (none, c)) :
    D.Ahead c bytes ∧ (c.held = [] → D.Stops bytes none) := by
  obtain ⟨rest, rfl, hr⟩ := h
  rcases b.fill_cases with ⟨hne, hb⟩ | ⟨hh, piece, inner, ha, hb⟩ | ⟨_, g, inner, _, hb⟩
  · simp only [hb, Prod.mk.injEq, true_and] at hf
    subst hf
    exact ⟨⟨rest, rfl, hr⟩, fun he => (hne he).elim⟩
  · simp only [hb, Prod.mk.injEq, true_and] at hf
    subst hf
    obtain ⟨more, rfl, hm⟩ := D.brings hr Buffered.capacity_pos ha
    refine ⟨⟨more, by simp [hh], hm⟩, ?_⟩
    rintro rfl
    simpa [hh] using D.ends hr Buffered.capacity_pos ha
  · simp [hb] at hf

theorem fill_fails (h : D.Ahead b bytes) (hf : b.fill = (some f, c)) :
    D.Stops bytes (some f) ∧ (f.isInterrupted = true → D.Ahead c bytes) := by
  obtain ⟨rest, rfl, hr⟩ := h
  rcases b.fill_cases with ⟨_, hb⟩ | ⟨_, piece, inner, _, hb⟩ | ⟨hh, g, inner, ha, hb⟩
  · simp [hb] at hf
  · simp [hb] at hf
  · simp only [hb, Prod.mk.injEq, Option.some.injEq] at hf
    obtain ⟨rfl, rfl⟩ := hf
    obtain ⟨hs, hi⟩ := D.fails hr Buffered.capacity_pos ha
    exact ⟨by simpa [hh] using hs, fun hg => ⟨rest, by simp [hh], hi hg⟩⟩

variable (D)

/-- A buffer delivers what its stream delivers. -/
def buffered : Delivery (Buffered ρ) where
  toFlow := D.toFlow.buffered
  Holds := D.Ahead
  Stops := D.Stops
  whole := D.whole
  sound := fun ⟨_, _, h⟩ => D.sound h
  brings {b c n piece bytes} h hn ha := by
    change b.read n = _ at ha
    rcases b.read_cases n with ⟨hh, -, hb⟩ | ⟨g, d, hf, hb⟩ | ⟨d, hf, hb⟩
    · obtain ⟨rest, rfl, hr⟩ := h
      simp only [hb, Prod.mk.injEq] at ha
      obtain ⟨ha, rfl⟩ := ha
      obtain ⟨more, rfl, hm⟩ := D.brings hr hn (Prod.ext ha rfl)
      exact ⟨more, by simp [hh], more, rfl, hm⟩
    · simp [hb] at ha
    · obtain ⟨⟨rest, rfl, hr⟩, -⟩ := fill_brings h hf
      simp only [hb, Prod.mk.injEq, Except.ok.injEq] at ha
      obtain ⟨rfl, rfl⟩ := ha
      refine ⟨d.held.drop n ++ rest, ?_, rest, rfl, hr⟩
      rw [← List.append_assoc, List.take_append_drop]
  ends {b c n bytes} h hn ha := by
    change b.read n = _ at ha
    rcases b.read_cases n with ⟨hh, -, hb⟩ | ⟨g, d, hf, hb⟩ | ⟨d, hf, hb⟩
    · obtain ⟨rest, rfl, hr⟩ := h
      simp only [hb, Prod.mk.injEq] at ha
      simpa [hh] using D.ends hr hn (Prod.ext ha.1 rfl)
    · simp [hb] at ha
    · simp only [hb, Prod.mk.injEq, Except.ok.injEq] at ha
      have hd : d.held = [] := by
        have := (List.take_eq_nil_iff.mp ha.1).resolve_left (by omega)
        exact this
      exact (fill_brings h hf).2 hd
  fails {b c n f bytes} h hn ha := by
    change b.read n = _ at ha
    rcases b.read_cases n with ⟨hh, -, hb⟩ | ⟨g, d, hf, hb⟩ | ⟨d, hf, hb⟩
    · obtain ⟨rest, rfl, hr⟩ := h
      simp only [hb, Prod.mk.injEq] at ha
      obtain ⟨ha, rfl⟩ := ha
      obtain ⟨hs, hi⟩ := D.fails hr hn (Prod.ext ha rfl)
      exact ⟨by simpa [hh] using hs, fun hg => ⟨rest, by simp [hh], hi hg⟩⟩
    · simp only [hb, Prod.mk.injEq, Except.error.injEq] at ha
      obtain ⟨rfl, rfl⟩ := ha
      exact fill_fails h hf
    · simp [hb] at ha

end Delivery

end InterfaceIndex
