import InterfaceIndex.Proofs.Gzip.Body

/-! What one step of a decoder does, stage by stage. -/
namespace InterfaceIndex.Gzip

open Deflate

namespace Decoder

variable {ρ : Type} [Reader ρ] {input : Buffered ρ} {h : Header} {m : Body} {n : Nat}

/-- What a step does in the header of a member. -/
inductive HeaderStep (input : Buffered ρ) (h : Header) : Step ρ → Prop
  | ended (complete : h.part = .complete) : HeaderStep input h (.onward ⟨input, .body {}⟩)
  | refused {f : Failure} (part : h.part = .refused f) :
      HeaderStep input h (.answer (.error f) ⟨input, .header h⟩)
  | failed {f : Failure} {c : Buffered ρ} (under_way : h.part ≠ .complete)
      (byte : readByte input = (.error f, c)) :
      HeaderStep input h (.answer (.error f) ⟨c, .header h⟩)
  | pushed {b : UInt8} {c : Buffered ρ} {k : Header} (under_way : h.part ≠ .complete)
      (byte : readByte input = (.ok b, c)) (push : h.push b = (k, none)) :
      HeaderStep input h (.onward ⟨c, .header k⟩)
  | complained {b : UInt8} {c : Buffered ρ} {k : Header} {f : Failure}
      (under_way : h.part ≠ .complete) (byte : readByte input = (.ok b, c))
      (push : h.push b = (k, some f)) : HeaderStep input h (.answer (.error f) ⟨c, .header k⟩)

theorem step_header (n : Nat) (input : Buffered ρ) (h : Header) :
    HeaderStep input h (step n ⟨input, .header h⟩) := by
  simp only [step]
  split
  · next hp => exact .ended hp
  · next f hp => exact .refused hp
  · next hover hrefused =>
    cases hr : readByte input with
    | mk answer c =>
      cases answer with
      | error f => exact .failed hover hr
      | ok b =>
        cases hp : h.push b with
        | mk k complaint =>
          simp only [hp]
          cases complaint with
          | none => exact .pushed hover hr hp
          | some f => exact .complained hover hr hp

theorem take_nil_iff (hm : m.Proper) (hn : 0 < n) :
    (m.inflate.output.toList.drop m.given).take n = [] ↔ m.given = m.inflate.output.size := by
  have hgiven := hm.given
  rw [List.take_eq_nil_iff, List.drop_eq_nil_iff, Array.length_toList]
  omega

/-- What a step does in the body of a member. -/
inductive BodyStep (n : Nat) (input : Buffered ρ) (m : Body) : Step ρ → Prop
  | failed {f : Failure} {c : Buffered ρ} (fill : input.fill = (some f, c)) :
      BodyStep n input m (.answer (.error f) ⟨c, .body m⟩)
  | corrupt {c : Buffered ρ} {k : Body} {left : List UInt8} (fill : input.fill = (none, c))
      (decodes : m.Decodes c.held k left) (bad : k.isCorrupt = true) :
      BodyStep n input m (.answer (.error corrupt) ⟨⟨c.inner, left⟩, .body k⟩)
  | piece {c : Buffered ρ} {k : Body} {left : List UInt8} (fill : input.fill = (none, c))
      (decodes : m.Decodes c.held k left) (due : k.given < k.inflate.output.size)
      (near : m.Near → k.inflate.output.size ≤ k.given + n + window) :
      BodyStep n input m (.answer (.ok ((k.inflate.output.toList.drop k.given).take n))
        ⟨⟨c.inner, left⟩, .body { k with given := min (k.given + n) k.inflate.output.size }⟩)
  | ended {c : Buffered ρ} {k : Body} {left : List UInt8} (fill : input.fill = (none, c))
      (decodes : m.Decodes c.held k left) (nothing_due : k.given = k.inflate.output.size)
      (finished : k.inflate.phase.isFinished = true) :
      BodyStep n input m (.onward ⟨⟨c.inner, left⟩, .trailer k.inflate.output []⟩)
  | short {c : Buffered ρ} {k : Body} (fill : input.fill = (none, c))
      (decodes : m.Decodes c.held k []) (nothing_due : k.given = k.inflate.output.size)
      (unfinished : k.inflate.phase.isFinished = false)
      (starved : k.inflate.next k.carry = .starved) (at_end : c.held = []) :
      BodyStep n input m (.answer (.error incomplete) ⟨⟨c.inner, []⟩, .body k⟩)
  | more {c : Buffered ρ} {k : Body} (fill : input.fill = (none, c))
      (decodes : m.Decodes c.held k []) (nothing_due : k.given = k.inflate.output.size)
      (some_held : c.held ≠ []) :
      BodyStep n input m (.onward ⟨⟨c.inner, []⟩, .body k⟩)

theorem step_body (hn : 0 < n) (hm : m.Proper) :
    BodyStep n input m (step n ⟨input, .body m⟩) := by
  simp only [step]
  cases hf : input.fill with
  | mk stop c =>
    cases stop with
    | some f => exact .failed hf
    | none =>
      dsimp only
      have hdecodes := Body.advance_decodes c.held.isEmpty n c.held hm
      cases ha : m.advance c.held.isEmpty n c.held with
      | mk k left =>
        have hstopped := Body.advance_stopped _ n hm ha
        have hnear := Body.advance_near c.held.isEmpty n c.held hm
        rw [ha] at hdecodes hnear
        dsimp only at hdecodes hnear ⊢
        split
        · next hbad => exact .corrupt hf hdecodes hbad
        · next hclean =>
          rw [Body.take_eq hdecodes.proper]
          by_cases hdue : k.given = k.inflate.output.size
          · have hsame : min (k.given + n) k.inflate.output.size = k.given := by omega
            simp only [(take_nil_iff hdecodes.proper hn).mpr hdue, hsame, List.isEmpty_nil,
              Bool.not_true, Bool.false_eq_true, if_false]
            rcases hstopped with hbad | hmore | hover | ⟨rfl, hunfinished, hstarved⟩
            · exact (hclean hbad).elim
            · omega
            · rw [Phase.isFinished_iff.mp hover]
              exact .ended hf hdecodes hdue hover
            · split
              · next hover => simp [hover, Phase.isFinished] at hunfinished
              · split
                · next hend =>
                  exact .short hf hdecodes hdue hunfinished hstarved (by simpa using hend)
                · next hend => exact .more hf hdecodes hdue (by simpa using hend)
          · have hlt : k.given < k.inflate.output.size := by
              have := hdecodes.proper.given
              omega
            have hne := mt (take_nil_iff hdecodes.proper hn).mp hdue
            simp only [List.isEmpty_eq_false_iff.mpr hne, Bool.not_false, if_true]
            exact .piece hf hdecodes hlt fun h => hdecodes.given ▸ hnear h

/-- What a step does in the trailer of a member. -/
inductive TrailerStep (input : Buffered ρ) (content : Array UInt8) (sofar : List UInt8) :
    Step ρ → Prop
  | failed {f : Failure} {c : Buffered ρ} (short : sofar.length < 8)
      (byte : readByte input = (.error f, c)) :
      TrailerStep input content sofar (.answer (.error f) ⟨c, .trailer content sofar⟩)
  | more {b : UInt8} {c : Buffered ρ} (short : sofar.length < 8)
      (byte : readByte input = (.ok b, c)) :
      TrailerStep input content sofar (.onward ⟨c, .trailer content (b :: sofar)⟩)
  | unfilled {f : Failure} {c : Buffered ρ} (full : ¬ sofar.length < 8)
      (fill : input.fill = (some f, c)) :
      TrailerStep input content sofar (.answer (.error f) ⟨c, .trailer content sofar⟩)
  | last {c : Buffered ρ} (full : ¬ sofar.length < 8)
      (sums : trailerMatches content sofar.reverse = true) (fill : input.fill = (none, c))
      (at_end : c.held = []) : TrailerStep input content sofar (.onward ⟨c, .ended⟩)
  | next {c : Buffered ρ} (full : ¬ sofar.length < 8)
      (sums : trailerMatches content sofar.reverse = true) (fill : input.fill = (none, c))
      (some_held : c.held ≠ []) : TrailerStep input content sofar (.onward ⟨c, .header {}⟩)
  | mismatch (full : ¬ sofar.length < 8) (differ : trailerMatches content sofar.reverse = false) :
      TrailerStep input content sofar (.answer (.error Header.mismatch) ⟨input, .ended⟩)

theorem step_trailer (n : Nat) (input : Buffered ρ) (content : Array UInt8) (sofar : List UInt8) :
    TrailerStep input content sofar (step n ⟨input, .trailer content sofar⟩) := by
  simp only [step]
  split
  · next hshort =>
    cases hr : readByte input with
    | mk answer c =>
      cases answer with
      | error f => exact .failed hshort hr
      | ok b => exact .more hshort hr
  · next hfull =>
    split
    · next hsums =>
      cases hf : input.fill with
      | mk stop c =>
        cases stop with
        | some f => exact .unfilled hfull hf
        | none =>
          dsimp only
          by_cases hend : c.held = []
          · rw [hend]
            exact .last hfull hsums hf hend
          · rw [List.isEmpty_eq_false_iff.mpr hend]
            exact .next hfull hsums hf hend
    · next hdiffer => exact .mismatch hfull (by simpa using hdiffer)

end Decoder

end InterfaceIndex.Gzip
