import InterfaceIndex.Proofs.Gzip.Steps
import InterfaceIndex.Proofs.Stream.Buffered

/-! The account that a decoder keeps of its input: no bit brings more than 258 bytes. -/
namespace InterfaceIndex.Gzip

open Deflate

namespace Header

variable {h : Header}

/-- A refusal is no interruption. -/
def Proper (h : Header) : Prop := ∀ f, h.part = .refused f → f.isInterrupted = false

theorem proper_of_part {p : HeaderPart} (hp : ∀ f, p ≠ .refused f) (hh : h.part = p) : h.Proper :=
  fun f hf => (hp f (hh ▸ hf)).elim

theorem afterComment_ne (h : Header) (f : Failure) : h.afterComment ≠ .refused f := by
  unfold afterComment
  split <;> simp

theorem afterName_ne (h : Header) (f : Failure) : h.afterName ≠ .refused f := by
  unfold afterName
  split
  · simp
  · exact h.afterComment_ne f

theorem afterExtra_ne (h : Header) (f : Failure) : h.afterExtra ≠ .refused f := by
  unfold afterExtra
  split
  · simp
  · exact h.afterName_ne f

theorem afterFixed_ne (h : Header) (f : Failure) : h.afterFixed ≠ .refused f := by
  unfold afterFixed
  split
  · simp
  · exact h.afterExtra_ne f

theorem proper_ofFixed (h : Header) (front : List UInt8) : (h.ofFixed front).Proper := by
  intro f hf
  unfold ofFixed at hf
  split at hf
  · split at hf
    · exact (afterFixed_ne _ f hf).elim
    · obtain rfl : invalid = f := by simpa using hf
      rfl
  · obtain rfl : invalid = f := by simpa using hf
    rfl

/-- No byte makes a header fail in passing. -/
theorem proper_push (hh : h.Proper) (b : UInt8) :
    (h.push b).1.Proper ∧ ∀ f, (h.push b).2 = some f → f.isInterrupted = false := by
  unfold push
  cases hp : h.part with
  | fixed sofar =>
    dsimp only
    split
    · exact ⟨proper_of_part (by simp) rfl, by simp⟩
    · exact ⟨proper_ofFixed _ _, by simp⟩
  | extraLength low =>
    cases low with
    | none => exact ⟨proper_of_part (by simp) rfl, by simp⟩
    | some low =>
      refine ⟨?_, by simp⟩
      intro f hf
      dsimp only at hf
      split at hf
      · exact (h.afterExtra_ne f hf).elim
      · simp at hf
  | extra left =>
    refine ⟨?_, by simp⟩
    intro f hf
    dsimp only at hf
    split at hf
    · exact (h.afterExtra_ne f hf).elim
    · simp at hf
  | name length =>
    dsimp only
    split
    · exact ⟨proper_of_part h.afterName_ne rfl, by simp⟩
    · split
      · exact ⟨proper_of_part (by simp) rfl, by simp⟩
      · refine ⟨hh, ?_⟩
        intro f hf
        obtain rfl : tooLong = f := by simpa using hf
        rfl
  | comment length =>
    dsimp only
    split
    · exact ⟨proper_of_part h.afterComment_ne rfl, by simp⟩
    · split
      · exact ⟨proper_of_part (by simp) rfl, by simp⟩
      · refine ⟨hh, ?_⟩
        intro f hf
        obtain rfl : tooLong = f := by simpa using hf
        rfl
  | checksum low =>
    cases low with
    | none => exact ⟨proper_of_part (by simp) rfl, by simp⟩
    | some low =>
      refine ⟨?_, by simp⟩
      intro f hf
      dsimp only at hf
      split at hf
      · simp at hf
      · obtain rfl : mismatch = f := by simpa using hf
        rfl
  | complete => exact ⟨hh, by simp⟩
  | refused f =>
    refine ⟨hh, ?_⟩
    intro g hg
    obtain rfl : f = g := by simpa using hg
    exact hh f hp

end Header

/-- The steps that may follow without taking input. -/
def Stage.rank : Stage → Nat
  | .header _ => 3
  | .body _ => 2
  | .trailer _ sofar => if sofar.length < 8 then 1 else 4
  | .ended => 0

/-- What every read leaves of a stage. -/
def Stage.Proper : Stage → Prop
  | .header h => h.Proper
  | .body m => m.Proper
  | .trailer _ sofar => sofar.length ≤ 8
  | .ended => True

namespace Decoder

variable {ρ : Type} [Reader ρ] {d : Decoder ρ} {m : Body} {n : Nat} {input : Buffered ρ}
  {F : Flow ρ}

theorem due_body (m : Body) : due (.body m) =
    258 * m.carry.length + m.inflate.phase.begun + (m.inflate.output.size - m.given) := by
  cases hp : m.inflate.phase <;> simp [due, hp, Phase.begun]

@[simp] theorem budget_mk (input : Buffered ρ) (stage : Stage) :
    Reader.budget (⟨input, stage⟩ : Decoder ρ) = 8 * 258 * Reader.budget input + due stage := rfl

/-- A decoder is sound when its input and its stage are. -/
structure Sound (F : Flow ρ) (d : Decoder ρ) : Prop where
  input : F.Sound d.input.inner
  stage : d.stage.Proper

/-- The account that a step keeps of the budget. A step without an answer takes input, or goes on to
a stage of lower rank. -/
inductive Spends (F : Flow ρ) (n : Nat) (d : Decoder ρ) : Step ρ → Prop
  | ok {bytes : List UInt8} {e : Decoder ρ} (sound : Sound F e) (size : bytes.length ≤ n)
      (cost : Reader.budget e + bytes.length ≤ Reader.budget d) :
      Spends F n d (.answer (.ok bytes) e)
  | error {f : Failure} {e : Decoder ρ} (sound : Sound F e)
      (cost : Reader.budget e ≤ Reader.budget d)
      (less : f.isInterrupted = true → Reader.budget e < Reader.budget d) :
      Spends F n d (.answer (.error f) e)
  | onward {e : Decoder ρ} (sound : Sound F e) (cost : Reader.budget e ≤ Reader.budget d)
      (less : 4 * Reader.budget e.input + e.stage.rank <
        4 * Reader.budget d.input + d.stage.rank) : Spends F n d (.onward e)

/-- A byte taken is a byte less to come; a failure to take one is no interruption. -/
theorem readByte_spends (h : F.Sound input.inner) {answer : Except Failure UInt8}
    {c : Buffered ρ} (hr : readByte input = (answer, c)) : F.Sound c.inner ∧
      (∀ b, answer = .ok b → Reader.budget c < Reader.budget input) ∧
      (∀ f, answer = .error f → Reader.budget c ≤ Reader.budget input ∧ f.isInterrupted = false) := by
  have hg : F.buffered.Spends ⟨1, true⟩ (some 1) _ _ := F.buffered.gather_spends h
  unfold readByte at hr
  generalize Reader.gather ⟨1, true⟩ (some 1) input = x at hg hr
  obtain ⟨⟨bytes, failure⟩, e⟩ := x
  have hcost := hg.cost
  have hpatient := hg.patient rfl
  dsimp only at hcost hpatient
  cases bytes with
  | cons b bytes =>
    obtain ⟨rfl, rfl⟩ := Prod.mk.inj hr
    simp only [List.length_cons] at hcost
    exact ⟨hg.sound, fun _ _ => by omega, by simp⟩
  | nil =>
    simp only [List.length_nil] at hcost
    cases failure with
    | some f =>
      obtain ⟨rfl, rfl⟩ := Prod.mk.inj hr
      refine ⟨hg.sound, by simp, fun g hgf => ⟨by omega, ?_⟩⟩
      exact hpatient g (by simpa using hgf)
    | none =>
      obtain ⟨rfl, rfl⟩ := Prod.mk.inj hr
      refine ⟨hg.sound, by simp, fun g hgf => ⟨by omega, ?_⟩⟩
      obtain rfl : endOfFile = g := by simpa using hgf
      rfl

theorem headerStep_spends {h : Header} {x : Step ρ} (hs : Sound F ⟨input, .header h⟩)
    (hx : HeaderStep input h x) : Spends F n ⟨input, .header h⟩ x := by
  obtain ⟨hinput, hh⟩ := hs
  change F.Sound input.inner at hinput
  change h.Proper at hh
  cases hx with
  | ended complete =>
    exact .onward ⟨hinput, trivial, Nat.le_refl _⟩ (by simp [due]) (by simp [Stage.rank])
  | refused part => exact .error ⟨hinput, hh⟩ (Nat.le_refl _) fun hi => by simp [hh _ part] at hi
  | failed under_way byte =>
    obtain ⟨hc, -, hfail⟩ := readByte_spends hinput byte
    obtain ⟨hcost, hf⟩ := hfail _ rfl
    refine .error ⟨hc, hh⟩ ?_ fun hi => by simp [hf] at hi
    simp only [budget_mk]
    omega
  | pushed under_way byte push =>
    obtain ⟨hc, hbyte, -⟩ := readByte_spends hinput byte
    rename_i b c k
    have hless := hbyte b rfl
    have hpush := Header.proper_push hh b
    rw [push] at hpush
    refine .onward ⟨hc, hpush.1⟩ ?_ ?_
    · simp only [budget_mk, due]
      omega
    · simp only [Stage.rank]
      omega
  | complained under_way byte push =>
    obtain ⟨hc, hbyte, -⟩ := readByte_spends hinput byte
    rename_i b c k f
    have hless := hbyte b rfl
    have hpush := Header.proper_push hh b
    rw [push] at hpush
    refine .error ⟨hc, hpush.1⟩ ?_ fun hi => by simp [hpush.2 _ rfl] at hi
    simp only [budget_mk, due]
    omega

theorem bodyStep_spends {x : Step ρ} (hs : Sound F ⟨input, .body m⟩)
    (hx : BodyStep n input m x) : Spends F n ⟨input, .body m⟩ x := by
  obtain ⟨hinput, hm⟩ := hs
  change F.Sound input.inner at hinput
  change m.Proper at hm
  -- What decoding costs, whatever comes of it.
  have hspent {c : Buffered ρ} {k : Body} {left : List UInt8} (fill : input.fill = (none, c))
      (decodes : m.Decodes c.held k left) : F.Sound c.inner ∧
        left.length + Reader.budget c.inner ≤ Reader.budget input ∧
        8 * 258 * (left.length + Reader.budget c.inner) + due (.body k) ≤
          8 * 258 * Reader.budget input + due (.body m) := by
    obtain ⟨hc, hcost⟩ := F.fill_ok hinput fill
    obtain ⟨taken, htaken⟩ := decodes.taken
    have hlen := congrArg List.length htaken
    have hworth := decodes.worth
    have hgiven := decodes.given
    have hmost := decodes.proper.given
    have hmost' := hm.given
    have hbudget : Reader.budget c = c.held.length + Reader.budget c.inner := rfl
    simp only [Body.worth, List.length_append] at hworth hlen
    rw [due_body, due_body]
    exact ⟨hc, by omega, by omega⟩
  cases hx with
  | failed fill =>
    obtain ⟨hc, hle, hless⟩ := F.fill_error hinput fill
    refine .error ⟨hc, hm⟩ ?_ ?_
    · simp only [budget_mk]
      omega
    · intro hi
      have := hless hi
      simp only [budget_mk]
      omega
  | corrupt fill decodes bad =>
    obtain ⟨hc, -, hcost⟩ := hspent fill decodes
    refine .error ⟨hc, decodes.proper⟩ hcost ?_
    intro hi
    simp [corrupt, Failure.malformed, Failure.isInterrupted] at hi
  | piece fill decodes due near =>
    obtain ⟨hc, -, hcost⟩ := hspent fill decodes
    rw [due_body] at hcost
    refine .ok ⟨hc, decodes.proper.phase, Nat.min_le_right ..⟩ (List.length_take_le ..) ?_
    rw [budget_mk, due_body]
    simp only [Buffered.budget_mk, List.length_take, List.length_drop, Array.length_toList, budget_mk]
    omega
  | ended fill decodes nothing_due finished =>
    obtain ⟨hc, hinput, hcost⟩ := hspent fill decodes
    refine .onward ⟨hc, Nat.zero_le 8⟩ (Nat.le_trans (Nat.le_add_right ..) hcost) ?_
    simp only [Buffered.budget_mk, Stage.rank, List.length_nil, show 0 < 8 by decide, if_true]
    omega
  | short fill decodes nothing_due unfinished starved at_end =>
    obtain ⟨hc, -, hcost⟩ := hspent fill decodes
    refine .error ⟨hc, decodes.proper⟩ hcost ?_
    intro hi
    simp [incomplete, Failure.cutOff, Failure.isInterrupted] at hi
  | more fill decodes nothing_due some_held =>
    obtain ⟨hc, -, hcost⟩ := hspent fill decodes
    rename_i c k
    have hfill := (F.fill_ok hinput fill).2
    have hheld := List.length_pos_iff.mpr some_held
    have hbudget : Reader.budget c = c.held.length + Reader.budget c.inner := rfl
    refine .onward ⟨hc, decodes.proper⟩ hcost ?_
    simp only [Buffered.budget_mk, Stage.rank, List.length_nil]
    omega

theorem trailerStep_spends {content : Array UInt8} {sofar : List UInt8} {x : Step ρ}
    (hs : Sound F ⟨input, .trailer content sofar⟩) (hx : TrailerStep input content sofar x) :
    Spends F n ⟨input, .trailer content sofar⟩ x := by
  obtain ⟨hinput, hsofar⟩ := hs
  change F.Sound input.inner at hinput
  change sofar.length ≤ 8 at hsofar
  cases hx with
  | failed short byte =>
    obtain ⟨hc, -, hfail⟩ := readByte_spends hinput byte
    obtain ⟨hcost, hf⟩ := hfail _ rfl
    refine .error ⟨hc, hsofar⟩ ?_ fun hi => by simp [hf] at hi
    simp only [budget_mk]
    omega
  | more short byte =>
    obtain ⟨hc, hbyte, -⟩ := readByte_spends hinput byte
    have hless := hbyte _ rfl
    refine .onward ⟨hc, ?_⟩ ?_ ?_
    · simp only [Stage.Proper, List.length_cons]
      omega
    · simp only [budget_mk, due]
      omega
    · simp only [Stage.rank, if_pos short]
      split <;> omega
  | unfilled full fill =>
    obtain ⟨hc, hle, hless⟩ := F.fill_error hinput fill
    refine .error ⟨hc, hsofar⟩ ?_ ?_
    · simp only [budget_mk]
      omega
    · intro hi
      have := hless hi
      simp only [budget_mk]
      omega
  | last full sums fill at_end =>
    obtain ⟨hc, hcost⟩ := F.fill_ok hinput fill
    refine .onward ⟨hc, trivial⟩ ?_ ?_
    · simp only [budget_mk, due]
      omega
    · simp only [Stage.rank, if_neg full]
      omega
  | next full sums fill some_held =>
    obtain ⟨hc, hcost⟩ := F.fill_ok hinput fill
    refine .onward ⟨hc, Header.proper_of_part (by simp) rfl⟩ ?_ ?_
    · simp only [budget_mk, due]
      omega
    · simp only [Stage.rank, if_neg full]
      omega
  | mismatch full differ =>
    refine .error ⟨hinput, trivial⟩ ?_ ?_
    · simp only [budget_mk, due]
      omega
    · intro hi
      simp [Header.mismatch, Failure.malformed, Failure.isInterrupted] at hi

theorem step_spends (hn : 0 < n) (h : Sound F d) : Spends F n d (step n d) := by
  obtain ⟨input, stage⟩ := d
  cases stage with
  | header g => exact headerStep_spends h (step_header n input g)
  | body m => exact bodyStep_spends h (step_body hn h.stage)
  | trailer content sofar => exact trailerStep_spends h (step_trailer n input content sofar)
  | ended => exact .ok h (Nat.zero_le n) (Nat.le_refl _)

/-- The induction is on the number of steps allowed, which the input and the rank of the stage
bound. -/
theorem readWithin_spends (hn : 0 < n) {fuel : Nat}
    (hfuel : 4 * Reader.budget d.input + d.stage.rank < fuel) (h : Sound F d) :
    Spends F n d (.answer (readWithin n fuel d).1 (readWithin n fuel d).2) := by
  induction fuel generalizing d with
  | zero => omega
  | succ fuel ih =>
    have hstep := step_spends hn h
    rw [readWithin]
    cases hs : step n d with
    | answer a e => exact hs ▸ hstep
    | onward e =>
      rw [hs] at hstep
      cases hstep with
      | onward sound cost less =>
        have hnext := ih (by omega) sound
        dsimp only
        generalize readWithin n fuel e = x at hnext
        obtain ⟨a, g⟩ := x
        cases hnext with
        | ok sound' size cost' => exact .ok sound' size (by omega)
        | error sound' cost' less' =>
          exact .error sound' (by omega) fun hi => by have := less' hi; omega

theorem rank_le (stage : Stage) : stage.rank ≤ 4 := by
  cases stage with
  | trailer content sofar =>
    simp only [Stage.rank]
    split <;> omega
  | header h => simp [Stage.rank]
  | body m => simp [Stage.rank]
  | ended => simp [Stage.rank]

theorem read_spends (h : Sound F d) (n : Nat) :
    Spends F n d (.answer (d.read n).1 (d.read n).2) := by
  rw [read]
  by_cases hn : n = 0
  · rw [if_pos hn]
    exact .ok h (Nat.zero_le n) (Nat.le_refl _)
  · rw [if_neg hn]
    have := rank_le d.stage
    exact readWithin_spends (by omega) (by omega) h

end Decoder

end InterfaceIndex.Gzip

namespace InterfaceIndex

open Gzip

/-- A decoder is sound when its input and its stage are. -/
def Flow.decoded {ρ : Type} [Reader ρ] (F : Flow ρ) : Flow (Decoder ρ) where
  Sound := Decoder.Sound F
  ok {d e n bytes} h ha := by
    have hread := Decoder.read_spends h n
    change d.read n = _ at ha
    rw [ha] at hread
    cases hread with
    | ok sound size cost => exact ⟨sound, size, cost⟩
  error {d e n f} h ha := by
    have hread := Decoder.read_spends h n
    change d.read n = _ at ha
    rw [ha] at hread
    cases hread with
    | error sound cost less => exact ⟨sound, cost, less⟩

end InterfaceIndex
