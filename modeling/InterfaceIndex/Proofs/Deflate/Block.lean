import InterfaceIndex.Proofs.Deflate.Bits
import Mathlib.Algebra.Group.Nat.Defs

/-! Block headers and items are told by the bits that they use, of which there is at least one. -/
namespace InterfaceIndex.Deflate

open BitReader

namespace Code

theorem local_read (code : Code) : Local code.read := by
  induction code with
  | unassigned => exact local_corrupt
  | symbol s => exact local_pure s
  | fork zero one hzero hone =>
    apply local_bit.bind
    intro b
    cases b with
    | true => exact hone
    | false => exact hzero

/-- No codeword is empty. -/
def IsFork (code : Code) : Prop := ∃ zero one, code = fork zero one

theorem advances_read {code : Code} (h : code.IsFork) : Advances code.read := by
  obtain ⟨zero, one, rfl⟩ := h
  apply advances_bit.bind
  intro b
  cases b with
  | true => exact one.local_read
  | false => exact zero.local_read

theorem isFork_joinPairs (trees : List Code) : ∀ code ∈ joinPairs trees, code.IsFork := by
  fun_induction joinPairs trees with
  | case1 zero one rest ih =>
    intro code hc
    rcases List.mem_cons.mp hc with rfl | hc
    · exact ⟨_, _, rfl⟩
    · exact ih code hc
  | case2 zero =>
    intro code hc
    obtain rfl := List.mem_singleton.mp hc
    exact ⟨_, _, rfl⟩
  | case3 => simp

/-- The root of a canonical code is an inner node. -/
theorem isFork_ofLengths (lengths : List Nat) : (ofLengths lengths).IsFork := by
  have hlevel : level lengths maxLength = joinPairs (level lengths 14) := rfl
  rw [ofLengths, hlevel]
  cases hj : joinPairs (level lengths 14) with
  | nil => exact ⟨_, _, rfl⟩
  | cons code rest => exact isFork_joinPairs _ code (hj ▸ List.mem_cons_self)

end Code

theorem local_readRange (ranges : List (Nat × Nat)) (index : Nat) :
    Local (readRange ranges index) := by
  unfold readRange
  split
  · exact (local_number _).bind fun _ => local_pure _
  · exact local_corrupt

namespace Codes

/-- An item begins with a symbol. -/
theorem readItem_eq (codes : Codes) : ∃ next : Nat → BitReader Item,
    codes.readItem = codes.literals.read >>= next ∧ ∀ symbol, Local (next symbol) := by
  refine ⟨_, rfl, ?_⟩
  intro symbol
  split
  · exact local_pure _
  · split
    · exact local_pure _
    · apply (local_readRange ..).bind
      intro length
      exact (codes.distances.local_read.bind fun _ => local_readRange ..).bind fun _ => local_pure _

theorem local_readItem (codes : Codes) : Local codes.readItem := by
  obtain ⟨next, heq, hnext⟩ := codes.readItem_eq
  exact heq ▸ codes.literals.local_read.bind hnext

theorem advances_readItem {codes : Codes} (h : codes.literals.IsFork) :
    Advances codes.readItem := by
  obtain ⟨next, heq, hnext⟩ := codes.readItem_eq
  exact heq ▸ (Code.advances_read h).bind hnext

end Codes

theorem local_readLengths (code : Code) (fuel wanted : Nat) (sofar : List Nat) :
    Local (readLengths code fuel wanted sofar) := by
  induction fuel generalizing wanted sofar with
  | zero =>
    cases wanted with
    | zero => exact local_pure sofar
    | succ wanted => exact local_corrupt
  | succ fuel ih =>
    cases wanted with
    | zero => exact local_pure sofar
    | succ wanted =>
      have hrepeated (value count : Nat) : Local (if count ≤ wanted + 1 then
          readLengths code fuel (wanted + 1 - count) (List.replicate count value ++ sofar)
        else corrupt) := by
        split
        · exact ih ..
        · exact local_corrupt
      apply code.local_read.bind
      intro symbol
      dsimp only
      split
      · exact hrepeated ..
      · split
        · split
          · exact local_corrupt
          · exact (local_number 2).bind fun _ => hrepeated ..
        · split
          · exact (local_number 3).bind fun _ => hrepeated ..
          · exact (local_number 7).bind fun _ => hrepeated ..

theorem local_readCodes : Local readCodes := by
  refine (local_number 5).bind fun literals => (local_number 5).bind fun distances =>
    (local_number 4).bind ?_
  intro sent
  dsimp only
  split
  · exact local_corrupt
  · apply (local_numbers 3 _).bind
    intro values
    split
    · exact local_corrupt
    · apply (local_readLengths ..).bind
      intro lengths
      split
      · exact local_pure _
      · exact local_corrupt

/-- A header begins with the bit that tells the last block. -/
theorem readBlock_eq : ∃ next : Bool → BitReader (Bool × Block),
    readBlock = bit >>= next ∧ ∀ last, Local (next last) := by
  refine ⟨_, rfl, fun last => (local_number 2).bind ?_⟩
  intro kind
  split
  · refine local_align.bind fun _ => (local_number 16).bind fun length =>
      (local_number 16).bind ?_
    intro complement
    split
    · exact local_pure _
    · exact local_corrupt
  · exact local_pure _
  · exact local_readCodes.bind fun _ => local_pure _
  · exact local_corrupt

theorem local_readBlock : Local readBlock := by
  obtain ⟨next, heq, hnext⟩ := readBlock_eq
  exact heq ▸ local_bit.bind hnext

theorem advances_readBlock : Advances readBlock := by
  obtain ⟨next, heq, hnext⟩ := readBlock_eq
  exact heq ▸ advances_bit.bind hnext

namespace BitReader

variable {α β : Type} {r : BitReader α} {next : α → BitReader β} {bits rest : List Bool} {w : β}

theorem bind_eq_ok (h : (r >>= next) bits = .ok w rest) :
    ∃ v mid, r bits = .ok v mid ∧ next v mid = .ok w rest := by
  rw [bind_eq] at h
  cases hp : r bits with
  | ok v mid => exact ⟨v, mid, rfl, by simpa [hp] using h⟩
  | starved => simp [hp] at h
  | corrupt mid => simp [hp] at h

theorem pure_eq_ok {v : β} (h : (Pure.pure v : BitReader β) bits = .ok w rest) :
    v = w ∧ bits = rest := by
  simpa [Pure.pure, BitReader.pure] using h

theorem corrupt_ne_ok (h : (corrupt : BitReader β) bits = .ok w rest) : False := by
  simp [corrupt] at h

theorem number_lt {width n : Nat} (h : number width bits = .ok n rest) : n < 2 ^ width := by
  induction width generalizing n bits rest with
  | zero =>
    obtain ⟨rfl, -⟩ := pure_eq_ok h
    simp
  | succ width ih =>
    obtain ⟨low, mid, -, h⟩ := bind_eq_ok h
    obtain ⟨high, mid, hh, h⟩ := bind_eq_ok h
    obtain ⟨rfl, -⟩ := pure_eq_ok h
    have := ih hh
    cases low <;> simp only [Bool.toNat_true, Bool.toNat_false, Nat.pow_succ] <;> omega

end BitReader

/-- A copy is of at least one byte and at most 258. -/
theorem length_of_readRange {index length : Nat} {bits rest : List Bool}
    (h : readRange lengthRanges index bits = .ok length rest) : 0 < length ∧ length ≤ 258 := by
  have hranges : ∀ range ∈ lengthRanges, 0 < range.1 ∧ range.1 + 2 ^ range.2 ≤ 259 := by decide
  rw [readRange] at h
  cases hi : lengthRanges[index]? with
  | none => exact (corrupt_ne_ok (hi ▸ h)).elim
  | some range =>
    rw [hi] at h
    obtain ⟨more, mid, hmore, h⟩ := bind_eq_ok h
    obtain ⟨rfl, -⟩ := pure_eq_ok h
    have hrange := hranges range (List.mem_of_getElem? hi)
    have := number_lt hmore
    omega

theorem Codes.length_of_readItem {codes : Codes} {length distance : Nat} {bits rest : List Bool}
    (h : codes.readItem bits = .ok (.copy length distance) rest) : 0 < length ∧ length ≤ 258 := by
  obtain ⟨symbol, mid, -, h⟩ := bind_eq_ok h
  split at h
  · simpa using (pure_eq_ok h).1
  · split at h
    · simpa using (pure_eq_ok h).1
    · obtain ⟨found, mid, hlength, h⟩ := bind_eq_ok h
      obtain ⟨_, mid, -, h⟩ := bind_eq_ok h
      have hitem := (pure_eq_ok h).1
      simp only [Item.copy.injEq] at hitem
      exact hitem.1 ▸ length_of_readRange hlength

theorem isFork_of_readCodes {codes : Codes} {bits rest : List Bool}
    (h : readCodes bits = .ok codes rest) : codes.literals.IsFork := by
  obtain ⟨_, _, -, h⟩ := bind_eq_ok h
  obtain ⟨_, _, -, h⟩ := bind_eq_ok h
  obtain ⟨_, _, -, h⟩ := bind_eq_ok h
  dsimp only at h
  split at h
  · exact (corrupt_ne_ok h).elim
  · obtain ⟨_, _, -, h⟩ := bind_eq_ok h
    split at h
    · exact (corrupt_ne_ok h).elim
    · obtain ⟨_, _, -, h⟩ := bind_eq_ok h
      split at h
      · obtain ⟨rfl, -⟩ := pure_eq_ok h
        exact Code.isFork_ofLengths _
      · exact (corrupt_ne_ok h).elim

theorem isFork_of_readBlock {last : Bool} {codes : Codes} {bits rest : List Bool}
    (h : readBlock bits = .ok (last, .coded codes) rest) : codes.literals.IsFork := by
  obtain ⟨_, _, -, h⟩ := bind_eq_ok h
  obtain ⟨kind, mid, -, h⟩ := bind_eq_ok h
  split at h
  · obtain ⟨_, _, -, h⟩ := bind_eq_ok h
    obtain ⟨_, _, -, h⟩ := bind_eq_ok h
    obtain ⟨_, _, -, h⟩ := bind_eq_ok h
    split at h
    · simpa using (pure_eq_ok h).1
    · exact (corrupt_ne_ok h).elim
  · have hcodes := (pure_eq_ok h).1
    simp only [Prod.mk.injEq, Block.coded.injEq] at hcodes
    simp only [← hcodes.2, Codes.fixed]
    exact Code.isFork_ofLengths _
  · obtain ⟨found, _, hfound, h⟩ := bind_eq_ok h
    have hcodes := (pure_eq_ok h).1
    simp only [Prod.mk.injEq, Block.coded.injEq] at hcodes
    exact hcodes.2 ▸ isFork_of_readCodes hfound
  · exact (corrupt_ne_ok h).elim

end InterfaceIndex.Deflate
