import InterfaceIndex.Proofs.Deflate.Run
import InterfaceIndex.Proofs.Gzip.Decoder
import InterfaceIndex.Proofs.Stream.Cuts

/-! The first read of a member: what has to come of its body before anything comes out. -/
namespace InterfaceIndex.Gzip

open Deflate

variable {ρ : Type} [Reader ρ] {input c : Buffered ρ} {m k : Body} {n : Nat}
  {front future head held left more rest : List UInt8}

/-- The run over the front of a body up to the end of the first window. -/
def firstWindow (front : List UInt8) : Inflate.Stop × Inflate × List Bool :=
  Inflate.run window {} (bitsOfBytes front)

/-- The front of a body in which nothing is wrong within the first window, and of which something
comes out. -/
def Shows (front : List UInt8) : Prop :=
  (firstWindow front).1 ≠ .corrupt ∧ 0 < (firstWindow front).2.1.output.size

/-- Bytes that begin with a whole body of which nothing comes out. -/
def EndsEmpty (bytes : List UInt8) : Prop :=
  (firstWindow bytes).1 = .finished ∧ (firstWindow bytes).2.1.output.size = 0

instance (front : List UInt8) : Decidable (Shows front) :=
  inferInstanceAs (Decidable (_ ∧ _))

instance (bytes : List UInt8) : Decidable (EndsEmpty bytes) :=
  inferInstanceAs (Decidable (_ ∧ _))

theorem firstWindow_append (front more : List UInt8) : firstWindow (front ++ more) =
    Inflate.resume window (bitsOfBytes more) (firstWindow front) := by
  rw [firstWindow, bitsOfBytes_append]
  exact Inflate.run_append trivial (by simp)

/-- What is wrong stays so. -/
theorem not_shows_of_corrupt (h : (firstWindow front).1 = .corrupt) (more : List UInt8) :
    ¬ Shows (front ++ more) := by
  rintro ⟨hsound, -⟩
  rw [firstWindow_append] at hsound
  generalize firstWindow front = x at h hsound
  obtain ⟨stop, e, rest⟩ := x
  obtain rfl : stop = .corrupt := h
  exact hsound rfl

theorem EndsEmpty.append (h : EndsEmpty front) (more : List UInt8) : EndsEmpty (front ++ more) := by
  rw [EndsEmpty, firstWindow_append]
  obtain ⟨hstop, hsize⟩ := h
  generalize firstWindow front = x at hstop hsize
  obtain ⟨stop, e, rest⟩ := x
  obtain rfl : stop = .finished := hstop
  exact ⟨rfl, hsize⟩

/-- A body of which the given front has been decoded, all of it, and nothing has come out. -/
structure Body.Begun (m : Body) (front : List UInt8) : Prop where
  clean : m.isCorrupt = false
  given : m.given = 0
  nothing : m.inflate.output.size = 0
  decoded : firstWindow front = (.starved, m.inflate, m.carry)

theorem Body.begun_nil : Body.Begun {} [] := ⟨rfl, rfl, rfl, rfl⟩

theorem Body.Begun.not_shows (h : m.Begun front) : ¬ Shows front := by
  rintro ⟨-, hsize⟩
  rw [h.decoded] at hsize
  have := h.nothing
  dsimp only at hsize
  omega

/-- A body begun decodes up to where the first window over all of its front ends. -/
theorem Body.Begun.advance {last : Bool} (h : m.Begun front) (hn : n ≤ window)
    (ha : m.advance last n held = (k, left)) :
    ∃ stop rest, firstWindow (front ++ held) = (stop, k.inflate, rest) ∧ k.given = 0 ∧
      k.isCorrupt = decide (stop = .corrupt) ∧ (stop = .starved → k.carry = rest ∧ left = []) := by
  have hend : windowEnd m.inflate.output.size = window := by
    rw [h.nothing]
    rfl
  have hrun : firstWindow (front ++ held) = m.inflate.run window (m.carry ++ bitsOfBytes held) := by
    rw [firstWindow_append, h.decoded]
    rfl
  have hstops : Inflate.StopsAt window {} _ (firstWindow (front ++ held)) :=
    Inflate.run_spec window (bitsOfBytes (front ++ held)) trivial
  have hgo : ¬ (m.isCorrupt || decide (m.given < m.inflate.output.size)) = true := by
    simp [h.clean, h.nothing]
  rw [Body.advance, if_neg hgo, Body.decodeWindows, Body.decodeWindow, hend, ← hrun, h.given] at ha
  generalize firstWindow (front ++ held) = x at hstops ha
  cases hstops with
  | full leads unfinished room =>
    rename_i e rest
    -- A whole window is more than the read asks for.
    have hlast : ¬ e.output.size < 0 + n := by omega
    simp only [hlast, decide_false, Bool.false_and, Bool.false_eq_true, if_false] at ha
    obtain ⟨rfl, rfl⟩ := Prod.mk.inj ha
    exact ⟨.full, rest, rfl, rfl, rfl, by simp⟩
  | starved leads unfinished short =>
    rename_i e rest
    obtain ⟨rfl, rfl⟩ := Prod.mk.inj ha
    exact ⟨.starved, rest, rfl, rfl, rfl, by simp⟩
  | finished leads ended =>
    rename_i e rest
    obtain ⟨rfl, rfl⟩ := Prod.mk.inj ha
    exact ⟨.finished, rest, rfl, rfl, rfl, by simp⟩
  | corrupt leads unfinished bad =>
    rename_i e mid rest
    obtain ⟨rfl, rfl⟩ := Prod.mk.inj ha
    exact ⟨.corrupt, rest, rfl, rfl, rfl, by simp⟩

/-- The reads of an input bring, behind a front of a body that is gone, the rest of one that shows. -/
def Arrives (input : Buffered ρ) (front : List UInt8) : Prop :=
  ∃ more, input.Cuts more ∧ Shows (front ++ more)

/-- As long as nothing has come out, the bytes held do not end before a read. -/
theorem Body.Begun.arrives_iff (h : m.Begun front) (hf : input.fill = (none, c)) :
    Arrives input front ↔ c.held ≠ [] ∧ Arrives ⟨c.inner, []⟩ (front ++ c.held) := by
  constructor
  · rintro ⟨more, hcuts, hshows⟩
    have hne : more ≠ [] := by
      rintro rfl
      exact h.not_shows (by simpa using hshows)
    obtain ⟨hheld, later, rfl, hlater⟩ := (Buffered.cuts_fill hf hne).mp hcuts
    exact ⟨hheld, later, Buffered.cuts_empty.mpr hlater, by simpa using hshows⟩
  · rintro ⟨hheld, later, hcuts, hshows⟩
    have hne : c.held ++ later ≠ [] := by simp [hheld]
    refine ⟨c.held ++ later, (Buffered.cuts_fill hf hne).mpr ⟨hheld, later, rfl, ?_⟩,
      by simpa using hshows⟩
    exact Buffered.cuts_empty.mp hcuts

namespace Decoder

/-- What a step comes to while nothing of a body has come out. -/
inductive FirstStep (front : List UInt8) (c : Buffered ρ) : Step ρ → Prop
  | corrupt {d : Decoder ρ} (bad : (firstWindow (front ++ c.held)).1 = .corrupt) :
      FirstStep front c (.answer (.error corrupt) d)
  | piece {piece : List UInt8} {d : Decoder ρ} (shows : Shows (front ++ c.held))
      (some_bytes : piece ≠ []) : FirstStep front c (.answer (.ok piece) d)
  | ended {x : Step ρ} (ends : EndsEmpty (front ++ c.held)) : FirstStep front c x
  | short {d : Decoder ρ} (at_end : c.held = []) : FirstStep front c (.answer (.error incomplete) d)
  | more {k : Body} (some_held : c.held ≠ []) (begun : k.Begun (front ++ c.held)) :
      FirstStep front c (.onward ⟨⟨c.inner, []⟩, .body k⟩)

theorem firstStep (hm : m.Begun front) (hp : m.Proper) (hn : 0 < n) (hle : n ≤ window)
    (hf : input.fill = (none, c)) : FirstStep front c (step n ⟨input, .body m⟩) := by
  cases ha : m.advance c.held.isEmpty n c.held with
  | mk k left =>
    obtain ⟨stop, rest, hrun, hgiven, hbad, hstarved⟩ := hm.advance hle ha
    have hproper := (Body.advance_decodes c.held.isEmpty n c.held hp).proper
    rw [ha] at hproper
    have hstops : Inflate.StopsAt window {} _ (firstWindow (front ++ c.held)) :=
      Inflate.run_spec window (bitsOfBytes (front ++ c.held)) trivial
    rw [hrun] at hstops
    simp only [step, hf, ha]
    by_cases hcorrupt : stop = .corrupt
    · subst hcorrupt
      simp only [hbad, decide_true, if_true]
      exact .corrupt (by rw [hrun])
    · have hclean : k.isCorrupt = false := by simpa [hcorrupt] using hbad
      simp only [hclean, Bool.false_eq_true, if_false, Body.take_eq hproper]
      by_cases hsize : k.inflate.output.size = 0
      · have hsame : min (k.given + n) k.inflate.output.size = k.given := by omega
        simp only [(take_nil_iff hproper hn).mpr (hgiven.trans hsize.symm), hsame, List.isEmpty_nil,
          Bool.not_true, Bool.false_eq_true, if_false]
        cases hstops with
        | full leads unfinished room =>
          have hroom : window ≤ 0 := hsize ▸ room
          simp [window] at hroom
        | finished leads ended => exact .ended ⟨by rw [hrun], by rw [hrun]; exact hsize⟩
        | corrupt leads unfinished bad => exact (hcorrupt rfl).elim
        | starved leads unfinished short =>
          obtain ⟨hcarry, rfl⟩ := hstarved rfl
          split
          · next hover => simp [hover, Phase.isFinished] at unfinished
          · split
            · next hend => exact .short (by simpa using hend)
            · next hend =>
              exact .more (by simpa using hend) ⟨rfl, hgiven, hsize, by rw [hrun, hcarry]⟩
      · have hne := mt (take_nil_iff hproper hn).mp (show k.given ≠ k.inflate.output.size by omega)
        simp only [List.isEmpty_eq_false_iff.mpr hne, Bool.not_false, if_true]
        refine .piece ⟨?_, ?_⟩ hne
        · rw [hrun]
          exact hcorrupt
        · rw [hrun]
          exact Nat.pos_of_ne_zero hsize

/-- The answer to the first read of a member, when reads may bring a front of its body that shows. -/
inductive FirstRead (arrives : Prop) (bytes : List UInt8) : Except Failure (List UInt8) → Prop
  | brings {piece : List UInt8} (some_bytes : piece ≠ []) (shown : arrives) :
      FirstRead arrives bytes (.ok piece)
  | fails {f : Failure} (told : f = corrupt ∨ f = incomplete) (unshown : ¬ arrives) :
      FirstRead arrives bytes (.error f)
  | empty {answer : Except Failure (List UInt8)} (ends : EndsEmpty bytes) :
      FirstRead arrives bytes answer

/-- A byte held after a fill is the one that comes. -/
theorem readByte_eq {b : UInt8} (hf : input.fill = (none, c)) (hheld : c.held = b :: held) :
    readByte input = (.ok b, ⟨c.inner, held⟩) := by
  have hread : Reader.read input 1 = (.ok [b], ⟨c.inner, held⟩) := by
    change input.read 1 = _
    have hsmall : ¬ Buffered.capacity ≤ 1 := by decide
    simp [Buffered.read, hsmall, hf, hheld]
  have hgather : Reader.gather ⟨1, true⟩ (some 1) input = (⟨[b], none⟩, ⟨c.inner, held⟩) := by
    simp [Reader.gather, Reader.gatherWithin, Manner.request, hread]
  rw [readByte, hgather]

theorem step_pushed {h k : Header} {b : UInt8} (under_way : h.part ≠ .complete)
    (sound : ∀ f, h.part ≠ .refused f) (byte : readByte input = (.ok b, c))
    (next : h.push b = (k, none)) : step n ⟨input, .header h⟩ = .onward ⟨c, .header k⟩ := by
  have hstep := step_header n input h
  generalize step n ⟨input, .header h⟩ = x at hstep ⊢
  cases hstep with
  | ended complete => exact (under_way complete).elim
  | refused part => exact (sound _ part).elim
  | failed _ byte' => simp [byte] at byte'
  | pushed _ byte' next' =>
    obtain ⟨rfl, rfl⟩ : b = _ ∧ c = _ := by simpa [byte] using byte'
    obtain rfl : k = _ := by simpa [next] using next'
    rfl
  | complained _ byte' next' =>
    obtain ⟨rfl, rfl⟩ : b = _ ∧ c = _ := by simpa [byte] using byte'
    simp [next] at next'

variable {D : Delivery ρ}

section

variable (never : ∀ {left : List UInt8} {f : Failure}, ¬ D.Stops left (some f)) (hn : 0 < n)
  (hle : n ≤ window)

include never hn hle

/-- The induction is on the number of steps allowed; each of them decodes one more piece, and those
before it have shown nothing. -/
theorem readWithin_body {fuel : Nat} (hm : m.Begun front) (hinput : D.Ahead input future)
    (hs : Sound D.toFlow ⟨input, .body m⟩)
    (hfuel : 4 * Reader.budget input + (Stage.body m).rank < fuel) :
    FirstRead (Arrives input front) (front ++ future) (readWithin n fuel ⟨input, .body m⟩).1 := by
  induction fuel generalizing input m front future with
  | zero => omega
  | succ fuel ih =>
    cases hf : input.fill with
    | mk stop c =>
      cases stop with
      | some f => exact (never (D.fill_fails hinput hf).1).elim
      | none =>
        obtain ⟨⟨rest, rfl, hrest⟩, -⟩ := D.fill_brings hinput hf
        have hfirst := firstStep hm hs.stage hn hle hf
        have hspends := step_spends hn hs
        have harrives := hm.arrives_iff hf
        rw [readWithin, ← List.append_assoc]
        generalize step n ⟨input, .body m⟩ = x at hfirst hspends
        cases hfirst with
        | corrupt bad =>
          refine .fails (Or.inl rfl) ?_
          intro hshown
          obtain ⟨-, more, -, hshows⟩ := harrives.mp hshown
          exact not_shows_of_corrupt bad more hshows
        | piece shows some_bytes =>
          refine .brings some_bytes (harrives.mpr ⟨?_, [], ?_, ?_⟩)
          · intro hnil
            rw [hnil, List.append_nil] at shows
            exact hm.not_shows shows
          · exact Buffered.cuts_empty.mpr (.here _)
          · rwa [List.append_nil]
        | ended ends => exact .empty (ends.append rest)
        | short at_end =>
          refine .fails (Or.inr rfl) ?_
          intro hshown
          exact (harrives.mp hshown).1 at_end
        | more some_held begun =>
          cases hspends with
          | onward sound cost less =>
            have hahead : D.Ahead ⟨c.inner, []⟩ rest := ⟨rest, rfl, hrest⟩
            have hnext := ih begun hahead sound (by dsimp only at less; omega)
            rwa [harrives, and_iff_right some_held]

/-- The induction is on the bytes of the header. Cuts in front of a body are cuts behind each of
them. -/
theorem readWithin_header {h : Header} {fuel : Nat} (haccepts : h.Accepts head)
    (hinput : D.Ahead input (head ++ rest)) (hs : Sound D.toFlow ⟨input, .header h⟩)
    (hfuel : 4 * Reader.budget input + (Stage.header h).rank < fuel) :
    FirstRead (∃ front, input.Cuts (head ++ front) ∧ Shows front) rest
      (readWithin n fuel ⟨input, .header h⟩).1 := by
  induction haccepts generalizing input fuel with
  | complete ended =>
    obtain ⟨fuel, rfl⟩ : ∃ k, fuel = k + 1 := ⟨fuel - 1, by omega⟩
    have hspends := step_spends hn hs
    rename_i g
    have hstep : step n ⟨input, .header g⟩ = .onward ⟨input, .body {}⟩ := by simp [step, ended]
    rw [hstep] at hspends
    rw [readWithin, hstep]
    cases hspends with
    | onward sound cost less =>
      exact readWithin_body never hn hle Body.begun_nil hinput sound (by dsimp only at less; omega)
  | push under_way sound next others ih =>
    rename_i g k b head
    obtain ⟨fuel, rfl⟩ : ∃ k, fuel = k + 1 := ⟨fuel - 1, by omega⟩
    have hspends := step_spends hn hs
    cases hf : input.fill with
    | mk stop c =>
      cases stop with
      | some f => exact (never (D.fill_fails hinput hf).1).elim
      | none =>
        obtain ⟨⟨later, hlater, hinner⟩, hends⟩ := D.fill_brings hinput hf
        cases hheld : c.held with
        | nil => simpa using D.whole (hends hheld)
        | cons x held =>
          rw [hheld] at hlater
          obtain ⟨rfl, hrest⟩ := List.cons.inj hlater
          have hstep : step n ⟨input, .header g⟩ = .onward ⟨⟨c.inner, held⟩, .header k⟩ :=
            step_pushed under_way sound (readByte_eq hf hheld) next
          rw [hstep] at hspends
          rw [readWithin, hstep]
          simp only [List.cons_append, Buffered.cuts_byte hf hheld]
          cases hspends with
          | onward sound cost less =>
            exact ih ⟨later, hrest, hinner⟩ sound (by dsimp only at less; omega)

/-- The first read of a member whose header is accepted. -/
theorem read_header (haccepts : Header.Accepts {} head) (hinput : D.Ahead input (head ++ rest)) :
    FirstRead (∃ front, input.Cuts (head ++ front) ∧ Shows front) rest
      (read ⟨input, .header {}⟩ n).1 := by
  have hproper : (Stage.header {}).Proper :=
    Header.proper_of_part (p := .fixed []) (by simp) rfl
  obtain ⟨later, hlater, hinner⟩ := id hinput
  have := rank_le (.header {})
  rw [read, if_neg (by omega)]
  exact readWithin_header never hn hle haccepts hinput ⟨D.sound hinner, hproper⟩
    (by dsimp only; omega)

end

end Decoder

end InterfaceIndex.Gzip
