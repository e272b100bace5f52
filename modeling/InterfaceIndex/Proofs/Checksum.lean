import InterfaceIndex.Checksum

/-! Hashing byte by byte comes to hashing the padded message block by block. -/
namespace InterfaceIndex.Sha256

variable {s : Sha256} {v : Words} {piece block message : List UInt8} {k : Nat}

/-- The blocks of a padded message, of 64 bytes each. -/
def blocksOf (padded : List UInt8) : List (List UInt8) :=
  (List.range (padded.length / 64)).map fun k => (padded.drop (64 * k)).take 64

/-- The digest of a whole message: it is padded and cut into blocks, which are compressed in turn. -/
def ofMessage (message : List UInt8) : List UInt8 :=
  ((blocksOf (message ++ padding message.length)).foldl compress .initial).toBytes

theorem absorb_append (s : Sha256) (a b : List UInt8) :
    s.absorb (a ++ b) = (s.absorb a).absorb b :=
  List.foldl_append

theorem length_absorb (s : Sha256) (piece : List UInt8) :
    (s.absorb piece).length = s.length + piece.length := by
  induction piece generalizing s with
  | nil => rfl
  | cons b piece ih =>
    have hpush : (s.push b).length = s.length + 1 := by
      unfold push
      split <;> rfl
    rw [show s.absorb (b :: piece) = (s.push b).absorb piece from rfl, ih, hpush, List.length_cons]
    omega

/-- Bytes that do not complete a block wait. -/
theorem absorb_of_lt (h : s.length % 64 + piece.length < 64) :
    s.absorb piece = ⟨s.words, piece.reverse ++ s.waiting, s.length + piece.length⟩ := by
  induction piece generalizing s with
  | nil => rfl
  | cons b piece ih =>
    simp only [List.length_cons] at h
    have hpush : s.push b = ⟨s.words, b :: s.waiting, s.length + 1⟩ := by
      rw [push, if_neg (by omega)]
    rw [show s.absorb (b :: piece) = (s.push b).absorb piece from rfl, hpush,
      ih (by simp only; omega)]
    simp only [List.reverse_cons, List.append_assoc, List.cons_append, List.nil_append,
      List.length_cons, mk.injEq, true_and]
    omega

/-- A whole block is compressed at its last byte. -/
theorem absorb_block (hs : 64 ∣ k) (h : block.length = 64) :
    absorb ⟨v, [], k⟩ block = ⟨compress v block, [], k + 64⟩ := by
  obtain ⟨front, b, rfl⟩ : ∃ front b, block = front ++ [b] := by
    rcases List.eq_nil_or_concat block with rfl | ⟨front, b, rfl⟩
    · simp at h
    · exact ⟨front, b, by simp⟩
  simp only [List.length_append, List.length_singleton] at h
  have hfront : absorb ⟨v, [], k⟩ front = ⟨v, front.reverse, k + front.length⟩ := by
    rw [absorb_of_lt (by simp only; omega), List.append_nil]
  have hlast : (k + front.length) % 64 = 63 := by omega
  rw [absorb_append, hfront]
  simp only [absorb, List.foldl_cons, List.foldl_nil, push, if_pos hlast, List.reverse_cons,
    List.reverse_reverse, mk.injEq, true_and]
  omega

theorem blocksOf_append (h : block.length = 64) (rest : List UInt8) :
    blocksOf (block ++ rest) = block :: blocksOf rest := by
  have hlen : (block ++ rest).length / 64 = rest.length / 64 + 1 := by
    simp only [List.length_append]
    omega
  rw [blocksOf, hlen, List.range_succ_eq_map, List.map_cons, List.map_map]
  simp only [Nat.mul_zero, List.drop_zero, List.take_left' h, blocksOf, List.cons.injEq, true_and]
  apply List.map_congr_left
  intro j _
  have hdrop : (block ++ rest).drop (64 * (j + 1)) = rest.drop (64 * j) := by
    rw [show 64 * (j + 1) = block.length + 64 * j by omega, List.drop_append]
    simp
  simp only [Function.comp_apply, hdrop]

/-- The induction is on the number of blocks. -/
theorem words_absorb_blocks {blocks : Nat} (hs : 64 ∣ k) (h : message.length = 64 * blocks) :
    (absorb ⟨v, [], k⟩ message).words = (blocksOf message).foldl compress v := by
  induction blocks generalizing message v k with
  | zero =>
    obtain rfl := List.eq_nil_of_length_eq_zero h
    rfl
  | succ blocks ih =>
    have hblock : (message.take 64).length = 64 := by simp; omega
    rw [← List.take_append_drop 64 message, absorb_append, absorb_block hs hblock,
      blocksOf_append hblock, List.foldl_cons]
    exact ih (by omega) (by simp; omega)

theorem length_bigEndian (n x : Nat) : (bigEndian n x).length = n := by
  induction n with
  | zero => rfl
  | succ n ih => simp [bigEndian, ih]

theorem dvd_length_padded (message : List UInt8) :
    64 ∣ (message ++ padding message.length).length := by
  simp only [padding, List.length_append, List.length_cons, List.length_replicate,
    length_bigEndian]
  omega

/-- The digest of bytes absorbed in any pieces is that of the message they make up. -/
theorem finish_absorb (message : List UInt8) :
    (start.absorb message).finish = ofMessage message := by
  obtain ⟨blocks, hblocks⟩ := dvd_length_padded message
  have hlen : (start.absorb message).length = message.length := by
    rw [length_absorb]
    exact Nat.zero_add _
  rw [finish, hlen, ← absorb_append, ofMessage]
  exact congrArg Words.toBytes (words_absorb_blocks (Nat.dvd_zero 64) hblocks)

end InterfaceIndex.Sha256
