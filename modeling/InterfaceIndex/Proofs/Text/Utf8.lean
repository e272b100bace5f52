import InterfaceIndex.Text.Utf8

/-! Text that is written in UTF-8 reads back as it was. -/
namespace InterfaceIndex.Utf8

theorem encode_injective {a b : String} (h : encode a = encode b) : a = b := by
  have hb : a.toUTF8 = b.toUTF8 := ByteArray.ext (Array.toList_inj.mp h)
  exact String.toByteArray_inj.mp hb

theorem encode_append (a b : String) : encode (a ++ b) = encode a ++ encode b := by
  simp [encode]

variable {n v : Nat} {rest : List UInt8} {low high : UInt8}

theorem toNat_ofNat (h : n < 256) : (UInt8.ofNat n).toNat = n := by
  rw [UInt8.toNat_ofNat']
  exact Nat.mod_eq_of_lt h

/-- A byte in its range goes on with a character that needs more bytes. -/
theorem pieces_more {owed bits : Nat} (hlow : low.toNat ≤ n) (hhigh : n ≤ high.toNat) :
    pieces (some ⟨owed + 2, low, high, bits⟩) (UInt8.ofNat n :: rest) =
      pieces (some ⟨owed + 1, 0x80, 0xBF, bits * 64 + (n - 0x80)⟩) rest := by
  have hn : n < 256 := by
    have := high.toNat_lt
    omega
  have hpush : Begun.push ⟨owed + 2, low, high, bits⟩ (UInt8.ofNat n) = bits * 64 + (n - 0x80) := by
    unfold Begun.push
    rw [toNat_ofNat hn]
  have hrange : low ≤ UInt8.ofNat n ∧ UInt8.ofNat n ≤ high := by
    rw [UInt8.le_iff_toNat_le, UInt8.le_iff_toNat_le, toNat_ofNat hn]
    exact ⟨hlow, hhigh⟩
  rw [pieces.eq_4, if_pos hrange, if_neg (by simp), hpush]
  rfl

/-- The last byte of a character holds its low six bits. -/
theorem pieces_last {bits : Nat} (hbits : bits = v / 64) :
    pieces (some ⟨1, 0x80, 0xBF, bits⟩) (UInt8.ofNat (v % 0x40 + 0x80) :: rest) =
      some (Char.ofNat v) :: pieces none rest := by
  have hn : v % 0x40 + 0x80 < 256 := by omega
  have hpush : Begun.push ⟨1, 0x80, 0xBF, bits⟩ (UInt8.ofNat (v % 0x40 + 0x80)) = v := by
    unfold Begun.push
    rw [toNat_ofNat hn]
    dsimp only
    omega
  have hrange : (0x80 : UInt8) ≤ UInt8.ofNat (v % 0x40 + 0x80) ∧
      UInt8.ofNat (v % 0x40 + 0x80) ≤ 0xBF := by
    rw [UInt8.le_iff_toNat_le, UInt8.le_iff_toNat_le, toNat_ofNat hn]
    exact ⟨by simp, by simp; omega⟩
  rw [pieces.eq_4, if_pos hrange, if_pos (Nat.le_refl 1), hpush]

theorem pieces_begun {s : Begun} (h : Lead.ofByte (UInt8.ofNat n) = .begun s) :
    pieces none (UInt8.ofNat n :: rest) = pieces (some s) rest := by
  rw [pieces, h]

theorem pieces_encodeChar (c : Char) (rest : List UInt8) :
    pieces none (String.utf8EncodeChar c ++ rest) = some c :: pieces none rest := by
  have hvalid : c.val.toNat < 0xD800 ∨ (0xDFFF < c.val.toNat ∧ c.val.toNat < 0x110000) := c.valid
  have hc : Char.ofNat c.val.toNat = c := Char.ofNat_toNat c
  simp only [String.utf8EncodeChar]
  generalize c.val.toNat = v at hvalid hc ⊢
  have hnat (m : Nat) (hm : m < 256) : (UInt8.ofNat m).toNat = m := toNat_ofNat hm
  split
  · next h =>
    rw [List.singleton_append, pieces, Lead.ofByte, hnat v (by omega), if_pos (by omega)]
    dsimp only
    rw [hc]
  · split
    · next h₁ h₂ =>
      have hlead : Lead.ofByte (UInt8.ofNat (v / 64 % 0x20 + 0xc0)) =
          .begun ⟨1, 0x80, 0xBF, v / 64⟩ := by
        have hbits : v / 64 % 0x20 + 0xc0 - 0xC0 = v / 64 := by omega
        unfold Lead.ofByte
        rw [hnat _ (by omega), if_neg (by omega), if_neg (by omega), if_pos (by omega), hbits]
      rw [List.cons_append, pieces_begun hlead, List.singleton_append, pieces_last rfl, hc]
    · split
      · next h₁ h₂ h₃ =>
        have hlead : ∃ low high bits, Lead.ofByte (UInt8.ofNat (v / 4096 % 0x10 + 0xe0)) =
            .begun ⟨2, low, high, bits⟩ ∧ low.toNat ≤ v / 64 % 0x40 + 0x80 ∧
              v / 64 % 0x40 + 0x80 ≤ high.toNat ∧ bits = v / 4096 := by
          rw [Lead.ofByte, hnat _ (by omega), if_neg (by omega), if_neg (by omega),
            if_neg (by omega)]
          by_cases h₀ : v / 4096 = 0
          · rw [if_pos (by omega)]
            exact ⟨_, _, _, rfl, by simp; omega, by simp; omega, h₀.symm⟩
          · rw [if_neg (by omega)]
            by_cases h₄ : v / 4096 = 13
            · rw [if_pos (by omega)]
              exact ⟨_, _, _, rfl, by simp, by simp; omega, h₄.symm⟩
            · rw [if_neg (by omega), if_pos (by omega)]
              exact ⟨_, _, _, rfl, by simp, by simp; omega, by omega⟩
        obtain ⟨low, high, bits, hlead, hlow, hhigh, rfl⟩ := hlead
        rw [List.cons_append, pieces_begun hlead, List.cons_append, pieces_more hlow hhigh,
          List.singleton_append, pieces_last (by omega), hc]
      · next h₁ h₂ h₃ =>
        have hlead : ∃ low high bits, Lead.ofByte (UInt8.ofNat (v / 262144 % 0x08 + 0xf0)) =
            .begun ⟨3, low, high, bits⟩ ∧ low.toNat ≤ v / 4096 % 0x40 + 0x80 ∧
              v / 4096 % 0x40 + 0x80 ≤ high.toNat ∧ bits = v / 262144 := by
          rw [Lead.ofByte, hnat _ (by omega), if_neg (by omega), if_neg (by omega),
            if_neg (by omega), if_neg (by omega), if_neg (by omega), if_neg (by omega)]
          by_cases h₀ : v / 262144 = 0
          · rw [if_pos (by omega)]
            exact ⟨_, _, _, rfl, by simp; omega, by simp; omega, h₀.symm⟩
          · rw [if_neg (by omega)]
            by_cases h₄ : v / 262144 = 4
            · rw [if_neg (by omega), if_pos (by omega)]
              exact ⟨_, _, _, rfl, by simp, by simp; omega, h₄.symm⟩
            · rw [if_pos (by omega)]
              exact ⟨_, _, _, rfl, by simp, by simp; omega, by omega⟩
        obtain ⟨low, high, bits, hlead, hlow, hhigh, rfl⟩ := hlead
        rw [List.cons_append, pieces_begun hlead, List.cons_append, pieces_more hlow hhigh,
          List.cons_append, pieces_more (by simp) (by simp; omega), List.singleton_append,
          pieces_last (by omega), hc]

/-- Written characters are read one by one, whatever comes after them. -/
theorem pieces_append (chars : List Char) (rest : List UInt8) :
    pieces none (chars.flatMap String.utf8EncodeChar ++ rest) =
      chars.map some ++ pieces none rest := by
  induction chars with
  | nil => rfl
  | cons c chars ih =>
    rw [List.flatMap_cons, List.append_assoc, pieces_encodeChar, ih, List.map_cons, List.cons_append]

theorem pieces_flatMap (chars : List Char) :
    pieces none (chars.flatMap String.utf8EncodeChar) = chars.map some := by
  have h := pieces_append chars []
  rwa [List.append_nil, pieces, List.append_nil] at h

theorem encode_eq (text : String) : encode text = text.toList.flatMap String.utf8EncodeChar := by
  rw [encode, String.toUTF8, ← String.utf8Encode_toList, List.utf8Encode, List.data_toByteArray]

/-- What a text writes is that text again, with nothing replaced. -/
theorem decodeLossy_encode (text : String) : decodeLossy (encode text) = text := by
  rw [decodeLossy, encode_eq, pieces_flatMap, List.map_map]
  simp [Function.comp_def]

end InterfaceIndex.Utf8
