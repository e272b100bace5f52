import InterfaceIndex.Release.Layout

/-! The layouts of releases along the order of releases. -/
namespace InterfaceIndex

namespace ReleaseNumber

variable {a b : ReleaseNumber} {component : List Char}

/-- The order of releases: by the major number, and by the minor one when the major ones are equal. -/
def Precedes (a b : ReleaseNumber) : Prop :=
  a.major < b.major ∨ a.major = b.major ∧ a.minor < b.minor

instance : Decidable (a.Precedes b) :=
  inferInstanceAs (Decidable (_ < _ ∨ _ = _ ∧ _ < _))

/-- A component is missing, begins with something else than an ASCII digit, or writes a number that
needs more than 32 bits. -/
def IsUnreadable (component : List Char) : Prop :=
  component = [] ∨ (∃ c rest, component = c :: rest ∧ c.isDigit = false) ∨
    UInt32.size ≤ Nat.ofDigitChars 10 (component.takeWhile Char.isDigit) 0

theorem leading_eq_zero (h : IsUnreadable component) : leading component = 0 := by
  rcases h with rfl | ⟨c, rest, rfl, hc⟩ | hlarge
  · rfl
  · simp [leading, hc]
  · simp [leading, Nat.not_lt.mpr hlarge]

end ReleaseNumber

namespace Layout

variable {a b : ReleaseNumber}

/-- The nested releases are those before 1.4, apart from 0.4 and all that follow it up to 1.0. -/
theorem ofNumber_eq_nested_iff :
    ofNumber a = nested ↔ a.Precedes ⟨1, 4⟩ ∧ (a.major = 0 → a.minor < 4) := by
  rw [ofNumber, ReleaseNumber.Precedes]
  split
  · simp
    omega
  · simp
    omega

/-- Up to a nested release all releases are nested, apart from 0.4 and all that follow it up to 1.0. -/
theorem ofNumber_eq_nested_iff_of_le (hle : ¬ b.Precedes a) (hb : ofNumber b = nested) :
    ofNumber a = nested ↔ (a.major = 0 → a.minor < 4) := by
  rw [ofNumber_eq_nested_iff] at hb ⊢
  simp only [ReleaseNumber.Precedes] at *
  omega

theorem root_eq_iff {layout : Layout} :
    (layout.root = "go/src/pkg" ↔ layout = nested) ∧
      (layout.root = "go/src" ↔ layout ≠ nested) := by
  cases layout <;> decide

end Layout

open ReleaseNumber

/-- Where a release keeps its packages, along the order of releases: below the nested root exactly when
it comes before 1.4 and is not 0.4 or one that follows it up to 1.0, and below the flat root otherwise.
Up to a nested release there are no other exceptions. A release whose major number cannot be read
counts as one of number 0, so that it is nested exactly when its minor number is below 4. -/
theorem packageRoot_byRelease (version : String) :
    (packageRoot version = "go/src/pkg" ↔
      (ofVersion version).Precedes ⟨1, 4⟩ ∧
        ((ofVersion version).major = 0 → (ofVersion version).minor < 4)) ∧
    (packageRoot version = "go/src" ↔ packageRoot version ≠ "go/src/pkg") ∧
    (∀ later, ¬ (ofVersion later).Precedes (ofVersion version) → packageRoot later = "go/src/pkg" →
      (packageRoot version = "go/src/pkg" ↔
        ((ofVersion version).major = 0 → (ofVersion version).minor < 4))) ∧
    (IsUnreadable (version.toList.takeWhile (· != '.')) →
      (ofVersion version).major = 0 ∧
        (packageRoot version = "go/src/pkg" ↔ (ofVersion version).minor < 4)) := by
  have hnested (v : String) :
      packageRoot v = "go/src/pkg" ↔ Layout.ofNumber (ofVersion v) = .nested :=
    Layout.root_eq_iff.1
  have hflat : packageRoot version = "go/src" ↔ Layout.ofNumber (ofVersion version) ≠ .nested :=
    Layout.root_eq_iff.2
  refine ⟨(hnested version).trans Layout.ofNumber_eq_nested_iff,
    hflat.trans (not_congr (hnested version)).symm, ?_⟩
  simp only [hnested]
  refine ⟨?_, ?_⟩
  · intro later hle hlater
    exact Layout.ofNumber_eq_nested_iff_of_le hle hlater
  · intro hunreadable
    have hmajor : (ofVersion version).major = 0 := leading_eq_zero hunreadable
    refine ⟨hmajor, ?_⟩
    simp only [Layout.ofNumber_eq_nested_iff, Precedes]
    omega

theorem packageRoot_byRelease_unreadable :
    ¬ (ofVersion "1.3.3").Precedes (ofVersion "99999999999.2") ∧
    packageRoot "1.3.3" = "go/src/pkg" ∧
    IsUnreadable ("99999999999.2".toList.takeWhile (· != '.')) ∧
    (ofVersion "99999999999.2").major = 0 ∧ packageRoot "99999999999.2" = "go/src/pkg" := by
  have hle : ¬ (ofVersion "1.3.3").Precedes (ofVersion "99999999999.2") := by decide +kernel
  have hlater : packageRoot "1.3.3" = "go/src/pkg" := by decide +kernel
  have hunreadable : IsUnreadable ("99999999999.2".toList.takeWhile (· != '.')) := by
    refine Or.inr (Or.inr ?_)
    decide +kernel
  obtain ⟨-, -, hmonotone, hcount⟩ := packageRoot_byRelease "99999999999.2"
  refine ⟨hle, hlater, hunreadable, (hcount hunreadable).1, ?_⟩
  rw [hmonotone "1.3.3" hle hlater]
  decide +kernel

/-- A release before 1.3 that is flat while 1.3 is nested: its major number cannot be read, and its
minor number alone decides. -/
theorem packageRoot_beforeNested : IsUnreadable ("x.18".toList.takeWhile (· != '.')) ∧
    (ofVersion "x.18").Precedes ⟨1, 4⟩ ∧ packageRoot "x.18" ≠ "go/src/pkg" ∧
    (ofVersion "x.18").Precedes (ofVersion "1.3") ∧ packageRoot "1.3" = "go/src/pkg" := by
  refine ⟨Or.inr (Or.inl ⟨'x', [], by decide +kernel, by decide⟩), ?_⟩
  decide +kernel

end InterfaceIndex
