import InterfaceIndex.Tar.Field
import InterfaceIndex.Proofs.Text.Utf8

/-! The texts and the octal numbers that header fields write, and that reading a field finds them. -/
namespace InterfaceIndex

namespace Utf8

/-- The characters of bytes that are ASCII. -/
theorem decode?_ascii {bytes : List UInt8} (h : ∀ b ∈ bytes, b.toNat < 0x80) :
    decode? bytes = some (String.ofList (bytes.map fun b => Char.ofNat b.toNat)) := by
  have hpieces : pieces none bytes = bytes.map fun b => some (Char.ofNat b.toNat) := by
    induction bytes with
    | nil => rfl
    | cons b bytes ih =>
      have hlead : Lead.ofByte b = .whole (Char.ofNat b.toNat) := by
        unfold Lead.ofByte
        rw [if_pos (h b List.mem_cons_self)]
      rw [pieces, hlead, List.map_cons, ih fun c hc => h c (List.mem_cons_of_mem b hc)]
  have hall (l : List Char) : (l.map some).mapM id = some l := by
    induction l with
    | nil => rfl
    | cons c l ih => simp [List.mapM_cons, ih]
  have hmap : (bytes.map fun b => some (Char.ofNat b.toNat)) =
      (bytes.map fun b => Char.ofNat b.toNat).map some := by
    rw [List.map_map]
    rfl
  rw [decode?, hpieces, hmap, hall]
  rfl

end Utf8

namespace Tar

variable {text digits field : List UInt8} {n : Nat}

/-- A field that holds a text: nothing follows it, or a zero byte does. -/
def Spells (text field : List UInt8) : Prop :=
  0 ∉ text ∧ ∃ tail, field = text ++ tail ∧ ∀ b, tail.head? = some b → b = 0

/-- The value of octal digits. -/
def octalValue (digits : List UInt8) : Nat :=
  digits.foldl (fun n b => 8 * n + (b.toNat - 0x30)) 0

def IsOctal (b : UInt8) : Prop := 0x30 ≤ b.toNat ∧ b.toNat < 0x38

/-- A field that writes a number in octal digits, maybe with spaces around them. -/
inductive WritesOctal (n : Nat) (field : List UInt8) : Prop
  | intro (lead digits fill : List UInt8) (before : ∀ b ∈ lead, b = 0x20)
      (octal : ∀ b ∈ digits, IsOctal b) (some_digit : digits ≠ []) (value : octalValue digits = n)
      (after : ∀ b ∈ fill, b = 0x20) (spells : Spells (lead ++ (digits ++ fill)) field)

theorem untilZero_eq (h : Spells text field) : untilZero field = text := by
  obtain ⟨hzero, tail, rfl, htail⟩ := h
  have htext : ∀ b ∈ text, (b != 0) = true := by
    intro b hb
    rw [bne_iff_ne]
    rintro rfl
    exact hzero hb
  rw [untilZero, List.takeWhile_append_of_pos htext]
  cases tail with
  | nil => simp
  | cons b tail => simp [htail b rfl]

/-- The character of an octal digit. -/
theorem IsOctal.toNat_ofNat {b : UInt8} (h : IsOctal b) : (Char.ofNat b.toNat).toNat = b.toNat := by
  obtain ⟨-, hhigh⟩ := h
  have hvalid : b.toNat.isValidChar := Or.inl (by omega)
  rw [Char.ofNat, dif_pos hvalid]
  exact UInt32.toNat_ofNatLT ..

theorem digits?_eq (h : ∀ b ∈ digits, IsOctal b) :
    digits? 8 (digits.map fun b => Char.ofNat b.toNat) = some (octalValue digits) := by
  unfold digits? octalValue
  generalize 0 = start
  induction digits generalizing start with
  | nil => rfl
  | cons b digits ih =>
    have hb := h b List.mem_cons_self
    have hcond : '0' ≤ Char.ofNat b.toNat ∧ (Char.ofNat b.toNat).toNat - 48 < 8 := by
      rw [Char.le_def, UInt32.le_iff_toNat_le, Char.toNat_val, Char.toNat_val, hb.toNat_ofNat]
      have := hb.2
      exact ⟨hb.1, by omega⟩
    rw [List.map_cons, List.foldlM_cons, if_pos hcond, hb.toNat_ofNat]
    exact ih (fun c hc => h c (List.mem_cons_of_mem b hc)) _

theorem number?_eq (h : ∀ b ∈ digits, IsOctal b) (hne : digits ≠ [])
    (hn : octalValue digits < UInt64.size) :
    number? 8 (digits.map fun b => Char.ofNat b.toNat) = some (octalValue digits) := by
  have hplain : ∀ rest, (digits.map fun b => Char.ofNat b.toNat) ≠ '+' :: rest := by
    intro rest heq
    obtain ⟨b, more, rfl⟩ := List.exists_cons_of_ne_nil hne
    have hb := h b List.mem_cons_self
    have hnat := hb.toNat_ofNat
    have hplus : Char.ofNat b.toNat = '+' := (List.cons.inj heq).1
    rw [hplus] at hnat
    have hlow := hb.1
    rw [← hnat] at hlow
    exact absurd hlow (by decide)
  unfold number?
  split
  · next rest heq => exact (hplain rest heq).elim
  · simp [digits?_eq h, hne, hn]

theorem IsOctal.not_isBlank {b : UInt8} (h : IsOctal b) : isBlank (Char.ofNat b.toNat) = false := by
  have hnat := h.toNat_ofNat
  obtain ⟨hlow, hhigh⟩ := h
  simp only [isBlank, hnat, Bool.or_eq_false_iff, Bool.and_eq_false_iff, decide_eq_false_iff_not,
    beq_eq_false_iff_ne]
  omega

theorem isBlank_of_space {bytes : List UInt8} (h : ∀ b ∈ bytes, b = 0x20) :
    ∀ c ∈ bytes.map fun b => Char.ofNat b.toNat, isBlank c = true := by
  intro c hc
  obtain ⟨b, hb, rfl⟩ := List.mem_map.mp hc
  rw [h b hb]
  rfl

/-- White space on both sides of a text with none at either end is what trimming takes away. -/
theorem trimBlanks_eq {lead middle fill : List Char} (hlead : ∀ c ∈ lead, isBlank c = true)
    (hmiddle : ∀ c ∈ middle, isBlank c = false) (hne : middle ≠ [])
    (hfill : ∀ c ∈ fill, isBlank c = true) : trimBlanks (lead ++ (middle ++ fill)) = middle := by
  have hfront : (middle ++ fill).dropWhile isBlank = middle ++ fill := by
    obtain ⟨c, middle, rfl⟩ := List.exists_cons_of_ne_nil hne
    rw [List.cons_append, List.dropWhile_cons_of_neg]
    simp [hmiddle c List.mem_cons_self]
  have hback : middle.reverse.dropWhile isBlank = middle.reverse := by
    obtain ⟨c, back, hback⟩ := List.exists_cons_of_ne_nil (List.reverse_ne_nil_iff.mpr hne)
    have hc : c ∈ middle := by
      rw [← List.mem_reverse, hback]
      exact List.mem_cons_self
    rw [hback, List.dropWhile_cons_of_neg]
    simp [hmiddle c hc]
  rw [trimBlanks, List.dropWhile_append_of_pos hlead, hfront, List.reverse_append,
    List.dropWhile_append_of_pos fun c hc => hfill c (List.mem_reverse.mp hc), hback,
    List.reverse_reverse]

/-- A written number that fits in 64 bits is read. -/
theorem octal_eq (h : WritesOctal n field) (hn : n < UInt64.size) : octal field = .ok n := by
  obtain ⟨lead, digits, fill, hlead, hdigits, hne, rfl, hfill, hspells⟩ := h
  have hascii : ∀ b ∈ lead ++ (digits ++ fill), b.toNat < 0x80 := by
    intro b hb
    simp only [List.mem_append] at hb
    rcases hb with hb | hb | hb
    · rw [hlead b hb]
      decide
    · have := (hdigits b hb).2
      omega
    · rw [hfill b hb]
      decide
  have hmiddle : ∀ c ∈ digits.map fun b => Char.ofNat b.toNat, isBlank c = false := by
    intro c hc
    obtain ⟨b, hb, rfl⟩ := List.mem_map.mp hc
    exact (hdigits b hb).not_isBlank
  have htrim := trimBlanks_eq (isBlank_of_space hlead) hmiddle (by simpa using hne)
    (isBlank_of_space hfill)
  have hnumber := number?_eq hdigits hne hn
  simp only [octal, untilZero_eq hspells, Utf8.decode?_ascii hascii, String.toList_ofList,
    List.map_append, htrim, hnumber]

theorem octalOrBinary_eq (h : WritesOctal n field) (hn : n < UInt64.size) :
    octalOrBinary field = .ok n := by
  rw [← octal_eq h hn]
  obtain ⟨lead, digits, fill, hlead, hdigits, hne, -, -, -, tail, rfl, -⟩ := h
  have hfirst (b : UInt8) (hb : b = 0x20 ∨ IsOctal b) : (b &&& 0x80 != 0) = false := by
    have hbit : b.toNat < 0x80 := by
      rcases hb with rfl | hb
      · decide
      · have := hb.2
        omega
    have : b &&& 0x80 = 0 := by
      have : ∀ b : Fin 128, UInt8.ofNat b &&& 0x80 = 0 := by decide
      simpa using this ⟨b.toNat, hbit⟩
    simp [this]
  cases lead with
  | cons b lead =>
    simp only [List.cons_append, octalOrBinary, hfirst b (Or.inl (hlead b List.mem_cons_self))]
    rfl
  | nil =>
    obtain ⟨b, digits, rfl⟩ := List.exists_cons_of_ne_nil hne
    simp only [List.nil_append, List.cons_append, octalOrBinary,
      hfirst b (Or.inr (hdigits b List.mem_cons_self))]
    rfl

end Tar

end InterfaceIndex
