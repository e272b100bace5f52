import InterfaceIndex.Proofs.Stream.Buffered

/-! Reading line by line finds the lines of the bytes to come, wherever reads cut them. -/
namespace InterfaceIndex

/-- The lines of a text, each with its line feed where it has one. -/
def linesOf : List UInt8 → List (List UInt8)
  | [] => []
  | b :: rest =>
    if b = 0x0a then [b] :: linesOf rest
    else
      match linesOf rest with
      | [] => [[b]]
      | line :: more => (b :: line) :: more

theorem linesOf_line {front : List UInt8} (h : 0x0a ∉ front) (rest : List UInt8) :
    linesOf (front ++ 0x0a :: rest) = (front ++ [0x0a]) :: linesOf rest := by
  induction front with
  | nil => simp [linesOf]
  | cons b front ih =>
    have hb := List.ne_of_not_mem_cons h
    simp [linesOf, ih (List.not_mem_of_not_mem_cons h), Ne.symm hb]

theorem linesOf_last {front : List UInt8} (h : 0x0a ∉ front) (hne : front ≠ []) :
    linesOf front = [front] := by
  induction front with
  | nil => exact (hne rfl).elim
  | cons b front ih =>
    have hb := List.ne_of_not_mem_cons h
    cases front with
    | nil => simp [linesOf, Ne.symm hb]
    | cons c front =>
      rw [linesOf, if_neg (Ne.symm hb), ih (List.not_mem_of_not_mem_cons h) (by simp)]

/-- A text without a line feed, or cut at its first one. -/
theorem feed_cases (text : List UInt8) :
    0x0a ∉ text ∨ ∃ front rest, text = front ++ 0x0a :: rest ∧ 0x0a ∉ front := by
  by_cases h : 0x0a ∈ text
  · obtain ⟨front, rest, rfl, hf⟩ := List.eq_append_cons_of_mem h
    exact Or.inr ⟨front, rest, rfl, hf⟩
  · exact Or.inl h

theorem ne_feed {front : List UInt8} (h : 0x0a ∉ front) : ∀ b ∈ front, (b != 0x0a) = true := by
  intro b hb
  rw [bne_iff_ne]
  rintro rfl
  exact h hb

theorem takeWhile_ne_feed {front : List UInt8} (h : 0x0a ∉ front) (rest : List UInt8) :
    (front ++ 0x0a :: rest).takeWhile (· != 0x0a) = front := by
  rw [List.takeWhile_append_of_pos (ne_feed h)]
  simp

theorem takeWhile_ne_feed_self {text : List UInt8} (h : 0x0a ∉ text) :
    text.takeWhile (· != 0x0a) = text := by
  have hall : (text ++ []).takeWhile (· != 0x0a) = text ++ [].takeWhile (· != 0x0a) :=
    List.takeWhile_append_of_pos (ne_feed h)
  simpa using hall

namespace Delivery

variable {ρ : Type} [Reader ρ] (D : Delivery ρ) {b c : Buffered ρ} {k : Nat}
  {bytes sofar : List UInt8}

/-- How reading one line comes out of a stream with budget `k`, when `sofar` is there already. -/
inductive ReadsLine (k : Nat) (bytes sofar : List UInt8) :
    Except Failure (List UInt8) × Buffered ρ → Prop
  | line {front rest : List UInt8} {c : Buffered ρ} (eq : bytes = front ++ 0x0a :: rest)
      (inner : 0x0a ∉ front) (holds : D.Ahead c rest)
      (cost : Reader.budget c + front.length + 1 ≤ k) :
      ReadsLine k bytes sofar (.ok (sofar ++ front ++ [0x0a]), c)
  | last {c : Buffered ρ} (inner : 0x0a ∉ bytes) (holds : D.Ahead c []) (stops : D.Stops [] none)
      (cost : Reader.budget c + bytes.length ≤ k) :
      ReadsLine k bytes sofar (.ok (sofar ++ bytes), c)
  | failed {got rest : List UInt8} {f : Failure} {c : Buffered ρ} (eq : bytes = got ++ rest)
      (stops : D.Stops rest (some f)) (lasting : f.isInterrupted = false) :
      ReadsLine k bytes sofar (.error f, c)

variable {D}

theorem ReadsLine.mono {l : Nat} {x : Except Failure (List UInt8) × Buffered ρ}
    (h : D.ReadsLine k bytes sofar x) (hk : k ≤ l) : D.ReadsLine l bytes sofar x := by
  cases h with
  | line eq inner holds cost => exact .line eq inner holds (by omega)
  | last inner holds stops cost => exact .last inner holds stops (by omega)
  | failed eq stops lasting => exact .failed eq stops lasting

/-- A line begun goes on in what the next read brings. -/
theorem ReadsLine.cons {front : List UInt8} {x : Except Failure (List UInt8) × Buffered ρ}
    (hf : 0x0a ∉ front) (h : D.ReadsLine k bytes (sofar ++ front) x) :
    D.ReadsLine (k + front.length) (front ++ bytes) sofar x := by
  cases h with
  | line eq inner holds cost =>
    rename_i more rest c
    rw [eq, ← List.append_assoc, List.append_assoc sofar]
    exact .line rfl (by simp [hf, inner]) holds (by simp; omega)
  | last inner holds stops cost =>
    rw [List.append_assoc]
    exact .last (by simp [hf, inner]) holds stops (by simp; omega)
  | failed eq stops lasting =>
    rw [eq, ← List.append_assoc]
    exact .failed rfl stops lasting

/-- The induction is on the number of reads allowed. The pending line, the bytes held and the bytes
to come make up the text at every read, so a line feed is found wherever it lies. -/
theorem readLineWithin_spec {fuel : Nat} (hfuel : Reader.budget b < fuel) (h : D.Ahead b bytes) :
    D.ReadsLine (Reader.budget b) bytes sofar (b.readLineWithin fuel sofar) := by
  induction fuel generalizing b bytes sofar with
  | zero => omega
  | succ fuel ih =>
    rw [Buffered.readLineWithin]
    cases hf : b.fill with
    | mk stop c =>
      cases stop with
      | some f =>
        obtain ⟨hstops, hholds⟩ := fill_fails h hf
        obtain ⟨-, -, hless⟩ := D.fill_error (D.buffered.sound h) hf
        dsimp only
        split
        · next hagain =>
          simp only [Bool.and_eq_true, bne_iff_ne] at hagain
          have := hless hagain.1
          exact (ih (by omega) (hholds hagain.1)).mono (by omega)
        · next hlast =>
          refine .failed (List.nil_append bytes).symm hstops ?_
          cases hi : f.isInterrupted with
          | false => rfl
          | true =>
            have := hless hi
            simp only [hi, Bool.true_and, bne_iff_ne, ne_eq, Decidable.not_not] at hlast
            omega
      | none =>
        obtain ⟨⟨rest, rfl, hrest⟩, hends⟩ := fill_brings h hf
        obtain ⟨-, hcost⟩ := D.fill_ok (D.buffered.sound h) hf
        obtain ⟨inner, held⟩ := c
        simp only [Buffered.budget_mk] at hcost
        dsimp only at hrest hends ⊢
        rcases feed_cases held with hfeed | ⟨front, more, rfl, hfront⟩
        · rw [takeWhile_ne_feed_self hfeed, List.drop_length]
          cases held with
          | nil =>
            have hstops := hends rfl
            obtain rfl : rest = [] := D.whole hstops
            have hlast : D.ReadsLine _ [] sofar (_, ⟨inner, []⟩) :=
              .last hfeed ⟨[], rfl, hrest⟩ hstops hcost
            simpa using hlast
          | cons x held =>
            simp only [List.length_cons] at hcost
            have hnext : D.ReadsLine _ rest (sofar ++ x :: held)
                (Buffered.readLineWithin fuel (sofar ++ x :: held) ⟨inner, []⟩) :=
              ih (by simp; omega) ⟨rest, rfl, hrest⟩
            exact (hnext.cons hfeed).mono (by simp; omega)
        · rw [takeWhile_ne_feed hfront, List.drop_left]
          simp only [List.length_append, List.length_cons] at hcost
          rw [List.append_assoc, List.cons_append]
          exact .line rfl hfront ⟨rest, rfl, hrest⟩ (by simp; omega)

theorem readLine_spec (h : D.Ahead b bytes) :
    D.ReadsLine (Reader.budget b) bytes [] b.readLine :=
  readLineWithin_spec (Nat.lt_succ_self _) h

variable (D)

/-- How reading lines comes out: with all lines of the text, or with a failure. -/
inductive ReadsLines (bytes : List UInt8) : Lined × Buffered ρ → Prop
  | whole {c : Buffered ρ} (holds : D.Ahead c []) (stops : D.Stops [] none) :
      ReadsLines bytes (⟨linesOf bytes, none⟩, c)
  | failed {lines : List (List UInt8)} {got rest : List UInt8} {f : Failure} {c : Buffered ρ}
      (eq : bytes = got ++ rest) (stops : D.Stops rest (some f))
      (lasting : f.isInterrupted = false) : ReadsLines bytes (⟨lines, some f⟩, c)

variable {D}

/-- A line read first comes first among the lines. -/
theorem ReadsLines.cons {line rest : List UInt8} {x : Lined × Buffered ρ}
    (hl : linesOf (line ++ rest) = line :: linesOf rest) (h : D.ReadsLines rest x) :
    D.ReadsLines (line ++ rest) (⟨line :: x.1.lines, x.1.failure⟩, x.2) := by
  cases h with
  | whole holds stops =>
    rw [← hl]
    exact .whole holds stops
  | failed eq stops lasting =>
    rw [eq, ← List.append_assoc]
    exact .failed rfl stops lasting

/-- The induction is on the number of lines allowed. Each line takes a byte at least, so the lines
read and those of the text to come make up the lines of the whole text at every turn. -/
theorem linesWithin_spec {fuel : Nat} (hfuel : Reader.budget b < fuel) (h : D.Ahead b bytes) :
    D.ReadsLines bytes (b.linesWithin fuel) := by
  induction fuel generalizing b bytes with
  | zero => omega
  | succ fuel ih =>
    rw [Buffered.linesWithin]
    generalize hl : b.readLine = x
    have hr := hl ▸ readLine_spec h
    cases hr with
    | failed eq stops lasting => exact .failed eq stops lasting
    | last inner holds stops cost =>
      rename_i c
      cases bytes with
      | nil => exact .whole holds stops
      | cons x bytes =>
        simp only [List.length_cons] at cost
        have hnext := ih (b := c) (by omega) holds
        have hlines : linesOf (x :: bytes ++ []) = (x :: bytes) :: linesOf [] := by
          rw [List.append_nil, linesOf_last inner (by simp), linesOf]
        simpa using hnext.cons hlines
    | line eq inner holds cost =>
      rename_i front rest c
      have hnext := ih (b := c) (by omega) holds
      have hlines : linesOf (front ++ [0x0a] ++ rest) = (front ++ [0x0a]) :: linesOf rest := by
        rw [List.append_assoc]
        exact linesOf_line inner rest
      rw [eq]
      simpa using hnext.cons hlines

theorem lines_spec (h : D.Ahead b bytes) : D.ReadsLines bytes b.lines :=
  linesWithin_spec (Nat.lt_succ_self _) h

end Delivery

end InterfaceIndex
