import InterfaceIndex.Table
import InterfaceIndex.Proofs.Text.Utf8

/-! Writing to an output that may be too small: it takes the front of the text, whatever pieces the text
comes in. -/
namespace InterfaceIndex

namespace Sink

variable {accepted : Array UInt8} {room : Nat} {piece : String}

theorem write_unlimited (accepted : Array UInt8) (piece : String) :
    write { accepted } piece = (none, { accepted := accepted.appendList (Utf8.encode piece) }) :=
  rfl

theorem write_of_le (h : (Utf8.encode piece).length ≤ room) :
    write ⟨accepted, some room⟩ piece =
      (none, ⟨accepted.appendList (Utf8.encode piece),
        some (room - (Utf8.encode piece).length)⟩) := by
  simp only [write, if_pos h, List.take_of_length_le h]

theorem write_of_lt (h : room < (Utf8.encode piece).length) :
    write ⟨accepted, some room⟩ piece =
      (some full, ⟨accepted.appendList ((Utf8.encode piece).take room), some 0⟩) := by
  simp only [write, if_neg (Nat.not_le.mpr h), List.length_take, Nat.min_eq_left (Nat.le_of_lt h),
    Nat.sub_self]

theorem appendList_append (a b : List UInt8) :
    (accepted.appendList a).appendList b = accepted.appendList (a ++ b) := by
  apply Array.toList_inj.mp
  simp

/-- Two pieces are written as if they were one. When the first does not fit, nothing of the second is
written, and nothing of it would have fitted. -/
theorem write_append (s : Sink) (first second : String) :
    s.write (first ++ second) =
      match s.write first with
      | (none, s) => s.write second
      | (some f, s) => (some f, s) := by
  obtain ⟨accepted, room⟩ := s
  have hlength : (Utf8.encode (first ++ second)).length =
      (Utf8.encode first).length + (Utf8.encode second).length := by
    rw [Utf8.encode_append, List.length_append]
  cases room with
  | none => simp only [write_unlimited, Utf8.encode_append, appendList_append]
  | some room =>
    by_cases hfirst : (Utf8.encode first).length ≤ room
    · rw [write_of_le hfirst]
      dsimp only
      by_cases hsecond : (Utf8.encode second).length ≤ room - (Utf8.encode first).length
      · rw [write_of_le hsecond, write_of_le (by omega), appendList_append, Utf8.encode_append,
          List.length_append, Nat.sub_sub]
      · rw [write_of_lt (Nat.not_le.mp hsecond), write_of_lt (by omega), appendList_append,
          Utf8.encode_append, List.take_append, List.take_of_length_le hfirst]
    · have hlt : room < (Utf8.encode first).length := Nat.not_le.mp hfirst
      rw [write_of_lt hlt, write_of_lt (by omega), Utf8.encode_append,
        List.take_append_of_le_length (Nat.le_of_lt hlt)]

/-- Pieces up to the first failure are written as if they were one. -/
theorem writeAll_eq_write (s : Sink) (pieces : List String) :
    s.writeAll pieces = s.write (String.join pieces) := by
  induction pieces generalizing s with
  | nil =>
    obtain ⟨accepted, room⟩ := s
    cases room <;> simp [writeAll, write, Utf8.encode]
  | cons piece pieces ih =>
    rw [writeAll, String.join_cons, write_append]
    cases s.write piece with
    | mk failed t =>
      cases failed with
      | none => exact ih t
      | some f => rfl

/-- The cut may fall inside a character. -/
example : (Sink.writeAll ⟨#[], some 2⟩ ["a", "é", "b"]).2.accepted = #[0x61, 0xc3] := by decide

end Sink

namespace Table

/-- An output without a limit takes all pieces, one after another. -/
theorem writeAll_unlimited (pieces : List String) (accepted : Array UInt8) :
    Sink.writeAll { accepted := accepted } pieces =
      (none, { accepted := accepted.appendList (Utf8.encode (String.join pieces)) }) := by
  rw [Sink.writeAll_eq_write, Sink.write_unlimited]

/-- A table is written as its text. -/
theorem write_eq (t : Table) (s : Sink) : t.write s = s.write t.text :=
  Sink.writeAll_eq_write s t.pieces

/-- An output without a limit takes a whole table. -/
theorem write_unlimited (t : Table) :
    t.write {} = (none, { accepted := (Utf8.encode t.text).toArray }) := by
  rw [write_eq, Sink.write_unlimited]
  simp

/-- An output with room for so many bytes takes so many bytes of the whole table, from its front and in
order, wherever that cuts it. Writing fails exactly when the whole table is longer. -/
theorem write_limited (t : Table) (limit : Nat) :
    (t.write {}).1 = none ∧
    (t.write {}).2.accepted.toList = Utf8.encode t.text ∧
    ((t.write ⟨#[], some limit⟩).1 = some Sink.full ↔ limit < (t.write {}).2.accepted.size) ∧
    ((t.write ⟨#[], some limit⟩).1 = none ↔ (t.write {}).2.accepted.size ≤ limit) ∧
    (t.write ⟨#[], some limit⟩).2.accepted.toList =
      (t.write {}).2.accepted.toList.take (min limit (t.write {}).2.accepted.size) := by
  rw [write_unlimited, write_eq]
  dsimp only
  rw [List.size_toArray, List.toList_toArray]
  refine ⟨rfl, rfl, ?_⟩
  by_cases hfits : (Utf8.encode t.text).length ≤ limit
  · rw [Sink.write_of_le hfits, Nat.min_eq_right hfits, List.take_length]
    simp [hfits]
  · have hlonger : limit < (Utf8.encode t.text).length := Nat.not_le.mp hfits
    rw [Sink.write_of_lt hlonger, Nat.min_eq_left (Nat.le_of_lt hlonger)]
    simp [hlonger]

end Table

end InterfaceIndex
