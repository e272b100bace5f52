import InterfaceIndex.Proofs.Release.Layout
import Mathlib.Data.List.TakeWhile

/-! Release identifiers as they are printed, and the numbers that they are read as. -/
namespace InterfaceIndex.ReleaseNumber

variable {n zeros : Nat} {c : Char} {component digits major minor rest : List Char}
  {number : ReleaseNumber}

/-- A number in decimal digits, with zeros in front. -/
def printed (zeros n : Nat) : String :=
  String.ofList (List.replicate zeros '0') ++ toString n

/-- A text that a number does not go on into: it is empty, or begins with something else than an
ASCII digit. -/
def NoDigitFirst (text : List Char) : Prop := ∀ c ∈ text.head?, c.isDigit = false

instance : (text : List Char) → Decidable (NoDigitFirst text)
  | [] => isTrue (by simp [NoDigitFirst])
  | c :: _ => decidable_of_iff (c.isDigit = false) (by simp [NoDigitFirst])

/-- What a number counts as: those that need more than 32 bits count as 0. -/
def counted (n : Nat) : Nat := if n < UInt32.size then n else 0

/-- What a component counts as, by its form. -/
inductive Counts : List Char → Nat → Prop
  | number (zeros n : Nat) {rest : List Char} (ends : NoDigitFirst rest) :
      Counts ((printed zeros n).toList ++ rest) (counted n)
  | nothing {text : List Char} (ends : NoDigitFirst text) : Counts text 0

/-- What an identifier reads as, by its form: there is one component, or a dot follows the first. -/
inductive ReadsAs : List Char → ReleaseNumber → Prop
  | whole {major : List Char} {m : Nat} (undotted : '.' ∉ major) (counts : Counts major m) :
      ReadsAs major ⟨m, 0⟩
  | parts {major minor : List Char} {m n : Nat} (undotted : '.' ∉ major)
      (major_counts : Counts major m) (minor_counts : Counts minor n) :
      ReadsAs (major ++ '.' :: minor) ⟨m, n⟩

theorem toList_printed (zeros n : Nat) :
    (printed zeros n).toList = List.replicate zeros '0' ++ Nat.toDigits 10 n := by
  simp [printed]

theorem isDigit_of_mem_printed (hc : c ∈ (printed zeros n).toList) : c.isDigit = true := by
  rw [toList_printed, List.mem_append, List.mem_replicate] at hc
  rcases hc with ⟨-, rfl⟩ | hc
  · rfl
  · exact Nat.isDigit_of_mem_toDigits (by decide) (by decide) hc

theorem takeWhile_noDigitFirst (h : NoDigitFirst rest) : rest.takeWhile Char.isDigit = [] := by
  cases rest with
  | nil => rfl
  | cons c rest =>
    have hc : c.isDigit = false := h c rfl
    simp [hc]

/-- Zeros in front make no difference, and the number ends where its digits do. -/
theorem leading_printed (zeros n : Nat) (h : NoDigitFirst rest) :
    leading ((printed zeros n).toList ++ rest) = counted n := by
  have htake : ((printed zeros n).toList ++ rest).takeWhile Char.isDigit =
      (printed zeros n).toList := by
    rw [List.takeWhile_append_of_pos fun c hc => isDigit_of_mem_printed hc,
      takeWhile_noDigitFirst h, List.append_nil]
  have hvalue : Nat.ofDigitChars 10 (printed zeros n).toList 0 = n := by
    rw [toList_printed, Nat.ofDigitChars_append, Nat.ofDigitChars_replicate_zero, Nat.mul_zero,
      Nat.ofDigitChars_ten_toDigits]
  rw [leading, htake, hvalue, counted]

theorem leading_noDigitFirst (h : NoDigitFirst component) : leading component = 0 := by
  apply leading_eq_zero
  cases component with
  | nil => exact Or.inl rfl
  | cons c rest => exact Or.inr (Or.inl ⟨c, rest, rfl, h c rfl⟩)

theorem exists_digitChar (h : c.isDigit = true) : ∃ d < 10, c = Nat.digitChar d := by
  have hcodes : 48 ≤ c.toNat ∧ c.toNat ≤ 57 := Char.isDigit_iff_toNat.mp h
  refine ⟨c.toNat - 48, by omega, ?_⟩
  apply Char.toNat_inj.mp
  rw [Nat.toNat_digitChar_of_lt_ten (by omega)]
  omega

/-- Further digits go on writing a number that is not 0. The induction is on them. -/
theorem toDigits_append_digits (hn : 0 < n) (h : ∀ c ∈ digits, c.isDigit = true) :
    Nat.toDigits 10 n ++ digits = Nat.toDigits 10 (Nat.ofDigitChars 10 digits n) := by
  induction digits generalizing n with
  | nil => simp
  | cons c digits ih =>
    obtain ⟨d, hd, rfl⟩ := exists_digitChar (h c List.mem_cons_self)
    have hrest : ∀ c ∈ digits, c.isDigit = true := fun c hc => h c (List.mem_cons_of_mem _ hc)
    calc
      Nat.toDigits 10 n ++ d.digitChar :: digits
          = Nat.toDigits 10 n ++ Nat.toDigits 10 d ++ digits := by
        rw [Nat.toDigits_of_lt_base hd, List.append_assoc, List.singleton_append]
      _ = Nat.toDigits 10 (10 * n + d) ++ digits := by
        rw [Nat.toDigits_append_toDigits (by decide) hn hd]
      _ = Nat.toDigits 10 (Nat.ofDigitChars 10 (d.digitChar :: digits) n) := by
        rw [ih (by omega) hrest, Nat.ofDigitChars_cons_digitChar_of_lt_ten hd]

/-- Any digits are a number in print. -/
theorem exists_printed (hne : digits ≠ []) (h : ∀ c ∈ digits, c.isDigit = true) :
    ∃ zeros n, digits = (printed zeros n).toList := by
  simp only [toList_printed]
  induction digits with
  | nil => exact (hne rfl).elim
  | cons c digits ih =>
    obtain ⟨d, hd, rfl⟩ := exists_digitChar (h c List.mem_cons_self)
    have hrest : ∀ c ∈ digits, c.isDigit = true := fun c hc => h c (List.mem_cons_of_mem _ hc)
    rcases Nat.eq_zero_or_pos d with rfl | hpos
    · by_cases hlast : digits = []
      · subst hlast
        exact ⟨0, 0, rfl⟩
      · obtain ⟨zeros, n, rfl⟩ := ih hlast hrest
        exact ⟨zeros + 1, n, rfl⟩
    · have hwhole := toDigits_append_digits hpos hrest
      rw [Nat.toDigits_of_lt_base hd] at hwhole
      exact ⟨0, _, hwhole⟩

/-- Every component has one of the two forms. -/
theorem counts_leading (component : List Char) : Counts component (leading component) := by
  have hrest : NoDigitFirst (component.dropWhile Char.isDigit) := by
    intro c hc
    have hnot := List.head?_dropWhile_not Char.isDigit component
    rw [Option.mem_def.mp hc] at hnot
    exact hnot
  have hsplit := List.takeWhile_append_dropWhile (p := Char.isDigit) (l := component)
  by_cases hnone : component.takeWhile Char.isDigit = []
  · rw [hnone, List.nil_append] at hsplit
    rw [hsplit] at hrest
    rw [leading_noDigitFirst hrest]
    exact .nothing hrest
  · obtain ⟨zeros, n, hprinted⟩ := exists_printed hnone fun c hc => List.mem_takeWhile_imp hc
    rw [← hsplit, hprinted, leading_printed zeros n hrest]
    exact .number zeros n hrest

theorem Counts.leading_eq (h : Counts component n) : leading component = n := by
  cases h with
  | number zeros n ends => exact leading_printed zeros n ends
  | nothing ends => exact leading_noDigitFirst ends

theorem ofVersion_whole {version : String} (h : '.' ∉ version.toList) :
    ofVersion version = ⟨leading version.toList, 0⟩ := by
  have hall : ∀ c ∈ version.toList, (c != '.') = true := by
    simpa [List.forall_mem_ne'] using h
  rw [ofVersion, List.takeWhile_eq_self_iff.mpr hall, List.dropWhile_eq_nil_iff.mpr hall]
  rfl

theorem ofVersion_parts {version : String} (h : '.' ∉ major)
    (heq : version.toList = major ++ '.' :: minor) :
    ofVersion version = ⟨leading major, leading minor⟩ := by
  have hall : ∀ c ∈ major, (c != '.') = true := by
    simpa [List.forall_mem_ne'] using h
  rw [ofVersion, heq, List.takeWhile_append_of_pos hall, List.dropWhile_append_of_pos hall]
  simp

/-- Every identifier has one of the forms. -/
theorem readsAs_ofVersion (version : String) : ReadsAs version.toList (ofVersion version) := by
  by_cases hdot : '.' ∈ version.toList
  · obtain ⟨major, minor, heq, hmajor⟩ := List.eq_append_cons_of_mem hdot
    rw [ofVersion_parts hmajor heq, heq]
    exact .parts hmajor (counts_leading major) (counts_leading minor)
  · rw [ofVersion_whole hdot]
    exact .whole hdot (counts_leading _)

theorem ReadsAs.ofVersion_eq {version : String} (h : ReadsAs version.toList number) :
    ofVersion version = number := by
  generalize htext : version.toList = text at h
  cases h with
  | whole undotted counts =>
    subst htext
    rw [ofVersion_whole undotted, counts.leading_eq]
  | parts undotted major_counts minor_counts =>
    rw [ofVersion_parts undotted htext, major_counts.leading_eq, minor_counts.leading_eq]

/-- Two numbers in print, however many zeros stand before each and whatever follows their digits, read
back as themselves, apart from those that need more than 32 bits. Without a dot the minor number is
0, and so is the number of a component that does not begin with an ASCII digit. These are all
identifiers there are: what one reads as is settled by its form. -/
theorem ofVersion_printed :
    (∀ (zeros a zeros' b : Nat) (s t : String), '.' ∉ s.toList → NoDigitFirst s.toList →
      NoDigitFirst t.toList →
      ofVersion (printed zeros a ++ s ++ "." ++ printed zeros' b ++ t) = ⟨counted a, counted b⟩) ∧
    (∀ version : String, '.' ∉ version.toList → (ofVersion version).minor = 0) ∧
    (∀ major minor : String, '.' ∉ major.toList →
      (NoDigitFirst major.toList →
        (ofVersion major).major = 0 ∧ (ofVersion (major ++ "." ++ minor)).major = 0) ∧
      (NoDigitFirst minor.toList → (ofVersion (major ++ "." ++ minor)).minor = 0)) ∧
    ∀ (version : String) (number : ReleaseNumber),
      ofVersion version = number ↔ ReadsAs version.toList number := by
  refine ⟨?_, ?_, ?_, ?_⟩
  · intro zeros a zeros' b s t hs hends hends'
    have hundotted : '.' ∉ (printed zeros a).toList ++ s.toList := by
      rw [List.mem_append]
      rintro (hmem | hmem)
      · exact absurd (isDigit_of_mem_printed hmem) (by decide)
      · exact hs hmem
    have htext : (printed zeros a ++ s ++ "." ++ printed zeros' b ++ t).toList =
        ((printed zeros a).toList ++ s.toList) ++ '.' :: ((printed zeros' b).toList ++ t.toList) := by
      simp
    rw [ofVersion_parts hundotted htext, leading_printed zeros a hends, leading_printed zeros' b hends']
  · intro version hdot
    rw [ofVersion_whole hdot]
  · intro major minor hdot
    have htext : (major ++ "." ++ minor).toList = major.toList ++ '.' :: minor.toList := by simp
    rw [ofVersion_parts hdot htext, ofVersion_whole hdot]
    exact ⟨fun hmajor => ⟨leading_noDigitFirst hmajor, leading_noDigitFirst hmajor⟩,
      leading_noDigitFirst⟩
  · intro version number
    refine ⟨?_, ReadsAs.ofVersion_eq⟩
    rintro rfl
    exact readsAs_ofVersion version

/-- The least number that needs more than 32 bits, behind a zero and before a further dot; and
components that begin with a sign and with a digit that is not ASCII. -/
theorem ofVersion_printed_overflow :
    '.' ∉ "rc1".toList ∧ NoDigitFirst "rc1".toList ∧ NoDigitFirst ".3".toList ∧
      ofVersion (printed 2 1 ++ "rc1" ++ "." ++ printed 1 4294967296 ++ ".3") = ⟨1, 0⟩ ∧
    '.' ∉ "+1".toList ∧ NoDigitFirst "+1".toList ∧ NoDigitFirst "٣".toList ∧
      (ofVersion ("+1" ++ "." ++ "٣")).major = 0 ∧ (ofVersion ("+1" ++ "." ++ "٣")).minor = 0 ∧
      (ofVersion "+1").minor = 0 := by
  have hundotted : '.' ∉ "rc1".toList ∧ '.' ∉ "+1".toList := by decide
  have hends : NoDigitFirst "rc1".toList ∧ NoDigitFirst ".3".toList := by decide
  have hnothing : NoDigitFirst "+1".toList ∧ NoDigitFirst "٣".toList := by decide
  obtain ⟨hprinted, hwhole, hparts, -⟩ := ofVersion_printed
  obtain ⟨hmajor, hminor⟩ := hparts "+1" "٣" hundotted.2
  refine ⟨hundotted.1, hends.1, hends.2, ?_, hundotted.2, hnothing.1, hnothing.2,
    (hmajor hnothing.1).2, hminor hnothing.2, hwhole "+1" hundotted.2⟩
  rw [hprinted 2 1 1 4294967296 "rc1" ".3" hundotted.1 hends.1 hends.2]
  decide

end InterfaceIndex.ReleaseNumber
