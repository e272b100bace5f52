import InterfaceIndex.Declaration

/-! The lines that declare an exported interface, as a grammar, and the names found in a text. -/
namespace InterfaceIndex

theorem after?_eq_some_iff {α : Type} [BEq α] [LawfulBEq α] {front list rest : List α} :
    after? front list = some rest ↔ list = front ++ rest := by
  constructor
  · intro h
    simp only [after?, Option.ite_none_right_eq_some, List.isPrefixOf_iff_prefix,
      Option.some.injEq] at h
    obtain ⟨⟨more, rfl⟩, rfl⟩ := h
    simp
  · rintro rfl
    simp [after?]

namespace Declaration

variable {line name rest w : List UInt8} {b : UInt8}

/-- White space or nothing. -/
def Blank (w : List UInt8) : Prop := ∀ b ∈ w, isSpace b = true

/-- White space between two words. -/
def Gap (w : List UInt8) : Prop := w ≠ [] ∧ Blank w

/-- A capital letter, and then letters, digits and underscores. -/
def IsExported (name : List UInt8) : Prop :=
  ∃ b rest, name = b :: rest ∧ isCapital b = true ∧ ∀ c ∈ rest, isWordByte c = true

/-- The lines that declare an interface of a given name. -/
inductive Declares (name : List UInt8) : List UInt8 → Prop
  | intro {w₀ w₁ w₂ w₃ : List UInt8} (tail : List UInt8) (start : Blank w₀) (first : Gap w₁)
      (exported : IsExported name) (second : Gap w₂) (third : Gap w₃) :
      Declares name (w₀ ++ (Utf8.encode "type" ++
        (w₁ ++ (name ++ (w₂ ++ (Utf8.encode "interface" ++ (w₃ ++ 0x7b :: tail)))))))

theorem encode_type : Utf8.encode "type" = [0x74, 0x79, 0x70, 0x65] := by decide

theorem isWordByte_of_isCapital (h : isCapital b = true) : isWordByte b = true := by
  simp [isWordByte, h]

/-- A word byte is no white space. -/
theorem isSpace_of_isWordByte (h : isWordByte b = true) : isSpace b = false := by
  simp only [isWordByte, isCapital, Bool.or_eq_true, Bool.and_eq_true, decide_eq_true_eq, beq_iff_eq,
    UInt8.le_iff_toNat_le, ← UInt8.toNat_inj] at h
  simp only [isSpace, Bool.or_eq_false_iff, Bool.and_eq_false_iff, beq_eq_false_iff_ne, ne_eq,
    decide_eq_false_iff_not, UInt8.le_iff_toNat_le, ← UInt8.toNat_inj]
  simp only [UInt8.reduceToNat] at h ⊢
  omega

theorem IsExported.isWordByte (h : IsExported name) : ∀ b ∈ name, isWordByte b = true := by
  obtain ⟨b, rest, rfl, hb, hrest⟩ := h
  intro c hc
  rcases List.mem_cons.mp hc with rfl | hc
  · exact isWordByte_of_isCapital hb
  · exact hrest c hc

theorem dropWhile_blank (hw : Blank w) (hb : isSpace b = false) :
    (w ++ b :: rest).dropWhile isSpace = b :: rest := by
  rw [List.dropWhile_append_of_pos hw]
  simp [hb]

theorem blank_takeWhile (line : List UInt8) : Blank (line.takeWhile isSpace) :=
  List.all_eq_true.mp List.all_takeWhile

theorem afterSpaces?_gap (hw : Gap w) (hb : isSpace b = false) :
    afterSpaces? (w ++ b :: rest) = some (b :: rest) := by
  obtain ⟨hne, hw⟩ := hw
  cases w with
  | nil => exact (hne rfl).elim
  | cons c w =>
    have hc := hw c List.mem_cons_self
    simp only [List.cons_append, afterSpaces?, hc, if_true, Option.some.injEq]
    exact dropWhile_blank (fun d hd => hw d (List.mem_cons_of_mem _ hd)) hb

theorem afterSpaces?_eq_some (h : afterSpaces? line = some rest) :
    ∃ w, Gap w ∧ line = w ++ rest := by
  cases line with
  | nil => simp [afterSpaces?] at h
  | cons b line =>
    simp only [afterSpaces?, Option.ite_none_right_eq_some, Option.some.injEq] at h
    obtain ⟨hb, rfl⟩ := h
    refine ⟨b :: line.takeWhile isSpace, ⟨by simp, ?_⟩, by simp⟩
    intro c hc
    rcases List.mem_cons.mp hc with rfl | hc
    · exact hb
    · exact blank_takeWhile line c hc

theorem exportedName?_append (hn : IsExported name) (hb : isWordByte b = false) :
    exportedName? (name ++ b :: rest) = some (name, b :: rest) := by
  obtain ⟨c, more, rfl, hc, hmore⟩ := hn
  simp only [List.cons_append, exportedName?, hc, if_true]
  rw [List.takeWhile_append_of_pos hmore, List.dropWhile_append_of_pos hmore]
  simp [hb]

theorem exportedName?_eq_some (h : exportedName? line = some (name, rest)) :
    IsExported name ∧ line = name ++ rest := by
  cases line with
  | nil => simp [exportedName?] at h
  | cons b line =>
    simp only [exportedName?, Option.ite_none_right_eq_some, Option.some.injEq,
      Prod.mk.injEq] at h
    obtain ⟨hb, rfl, rfl⟩ := h
    exact ⟨⟨b, _, rfl, hb, List.all_eq_true.mp List.all_takeWhile⟩, by simp⟩

/-- The matcher finds a name in the lines that declare it and in no others. -/
theorem name?_eq_some_iff : name? line = some name ↔ Declares name line := by
  constructor
  · intro h
    simp only [name?, Option.bind_eq_bind, Option.bind_eq_some_iff] at h
    obtain ⟨rest₁, h₁, ⟨found, rest₂⟩, ⟨rest₃, h₂, h₃⟩, rest₄, ⟨rest₅, ⟨rest₆, h₄, h₅⟩, h₆⟩, h₇⟩ := h
    simp only [Option.ite_none_right_eq_some, Option.some.injEq] at h₇
    obtain ⟨hbrace, rfl⟩ := h₇
    rw [after?_eq_some_iff] at h₁ h₅
    obtain ⟨w₁, hw₁, rfl⟩ := afterSpaces?_eq_some h₂
    obtain ⟨hname, rfl⟩ := exportedName?_eq_some h₃
    obtain ⟨w₂, hw₂, rfl⟩ := afterSpaces?_eq_some h₄
    obtain ⟨w₃, hw₃, rfl⟩ := afterSpaces?_eq_some h₆
    cases rest₄ with
    | nil => simp at hbrace
    | cons b tail =>
      obtain rfl : b = 0x7b := by simpa using hbrace
      rw [← List.takeWhile_append_dropWhile (p := isSpace) (l := line), h₁, h₅]
      exact .intro tail (blank_takeWhile line) hw₁ hname hw₂ hw₃
  · rintro ⟨tail, start, first, exported, second, third⟩
    rename_i w₀ w₁ w₂ w₃
    obtain ⟨c, more, rfl, hc, -⟩ := id exported
    obtain ⟨d, w₂, rfl⟩ := List.exists_cons_of_ne_nil second.1
    have hcs := isSpace_of_isWordByte (isWordByte_of_isCapital hc)
    have hspace := second.2 d List.mem_cons_self
    have hd : isWordByte d = false := by
      apply Bool.eq_false_iff.mpr
      intro h
      simp [isSpace_of_isWordByte h] at hspace
    simp only [name?, Option.bind_eq_bind, Option.bind_eq_some_iff]
    refine ⟨_, after?_eq_some_iff.mpr ?_, (c :: more, _),
      ⟨_, afterSpaces?_gap first hcs, exportedName?_append exported hd⟩, 0x7b :: tail,
      ⟨_, ⟨_, afterSpaces?_gap second ?_, after?_eq_some_iff.mpr rfl⟩, afterSpaces?_gap third ?_⟩, ?_⟩
    · rw [encode_type]
      exact dropWhile_blank start (by decide)
    · decide
    · decide
    · simp

/-- A line feed at the end of a line neither makes nor spoils a declaration. -/
theorem declares_feed_iff : Declares name (line ++ [0x0a]) ↔ Declares name line := by
  constructor
  · intro h
    generalize hl : line ++ [0x0a] = text at h
    obtain ⟨tail, start, first, exported, second, third⟩ := h
    rcases List.eq_nil_or_concat tail with rfl | ⟨tail, b, rfl⟩
    · have := congrArg List.getLast? hl
      simp at this
    · simp only [List.concat_eq_append, ← List.cons_append, ← List.append_assoc] at hl
      obtain ⟨hl, -⟩ := List.append_inj' hl rfl
      simp only [List.append_assoc] at hl
      exact hl ▸ .intro tail start first exported second third
  · rintro ⟨tail, start, first, exported, second, third⟩
    simp only [List.append_assoc, List.cons_append]
    exact .intro (tail ++ [0x0a]) start first exported second third

theorem name?_feed (line : List UInt8) : name? (line ++ [0x0a]) = name? line := by
  ext name
  rw [name?_eq_some_iff, name?_eq_some_iff, declares_feed_iff]

end Declaration

end InterfaceIndex
