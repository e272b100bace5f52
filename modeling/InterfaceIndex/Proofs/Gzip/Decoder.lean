import InterfaceIndex.Proofs.Gzip.Ahead
import InterfaceIndex.Proofs.Gzip.Budget

/-! A decoder delivers the contents of the members ahead and does not end before the last of them. -/
namespace InterfaceIndex.Gzip

open Deflate

namespace Decoder

variable {ρ : Type} [Reader ρ] {D : Delivery ρ} {calm : Prop} {passing : Failure → Prop}
  {slack count : Nat} {d : Decoder ρ} {input : Buffered ρ} {n : Nat} {cut payload : List UInt8}

/-- What a stage keeps ready is at most a window. -/
def Near : Stage → Prop
  | .body m => m.Near
  | _ => True

/-- A decoder whose stage has members ahead. Unless all is calm, there is but one of them; its input may
then be cut short of that, so that so many bytes still come out. -/
structure Holds (D : Delivery ρ) (calm : Prop) (count : Nat) (d : Decoder ρ)
    (payload : List UInt8) : Prop where
  stage : d.stage.Proper
  near : Near d.stage
  ahead : ∃ cut missing, D.Ahead d.input cut ∧ d.stage.Ahead (¬ calm) (cut ++ missing) payload ∧
    (calm → missing = []) ∧ (¬ calm → d.stage.Yields cut count)

/-- How much of its output a decoder may lose when its input stops: it asks for more input before it hands
out what it has made of the last. -/
def lostBy : Option Failure → Nat
  | none => 0
  | some _ => 2 * window

/-- How the input of a decoder may fail: not when all is calm, and otherwise in passing or at its end. A
failure at the end may cost as much of the output as has been decoded by then. -/
structure Fails (D : Delivery ρ) (calm : Prop) (passing : Failure → Prop) (slack : Nat) : Prop where
  rough : ∀ {left : List UInt8} {f : Failure}, D.Stops left (some f) → ¬ calm
  last : ∀ {left : List UInt8} {f : Failure}, D.Stops left (some f) →
    passing f ∨ (left = [] ∧ 2 * window ≤ slack)
  interrupted : ∀ {f : Failure}, passing f → f.isInterrupted = true

/-- What an answer says about the contents that are due. -/
inductive Delivers (D : Delivery ρ) (calm : Prop) (passing : Failure → Prop) (slack count : Nat)
    (payload : List UInt8) : Step ρ → Prop
  | ok {piece rest : List UInt8} {e : Decoder ρ} (eq : payload = piece ++ rest)
      (holds : Holds D calm (count - piece.length) e rest)
      (ends : piece = [] → payload = []) (counted : ¬ calm → piece.length ≤ count) :
      Delivers D calm passing slack count payload (.answer (.ok piece) e)
  | error {f : Failure} {e : Decoder ρ} (rough : ¬ calm) (all : passing f ∨ count ≤ slack)
      (again : f.isInterrupted = true → Holds D calm count e payload) :
      Delivers D calm passing slack count payload (.answer (.error f) e)
  | onward {e : Decoder ρ} (holds : Holds D calm count e payload) :
      Delivers D calm passing slack count payload (.onward e)

/-- A byte is taken off the front. It is missed only at the end of the input, and not when all is calm
unless nothing fails there. -/
theorem readByte_brings (hD : Fails D calm passing slack) (h : D.Ahead input cut)
    {answer : Except Failure UInt8} {c : Buffered ρ} (hr : readByte input = (answer, c)) :
    (∀ b, answer = .ok b → ∃ rest, cut = b :: rest ∧ D.Ahead c rest) ∧
      (∀ f, answer = .error f → f.isInterrupted = false → cut = []) := by
  have hg : D.buffered.Gathers (some 1) cut (Reader.gather ⟨1, true⟩ (some 1) input) :=
    Delivery.gather_spec Nat.one_pos h
  unfold readByte at hr
  generalize Reader.gather ⟨1, true⟩ (some 1) input = x at hg hr
  cases hg with
  | filled eq full holds =>
    rename_i got rest e
    obtain ⟨b, rfl⟩ := List.length_eq_one_iff.mp (Option.some.inj full).symm
    obtain ⟨rfl, rfl⟩ := Prod.mk.inj hr
    refine ⟨fun b' hb => ⟨rest, ?_, holds⟩, by simp⟩
    obtain rfl : b = b' := by simpa using hb
    exact eq
  | ended below holds stops =>
    have hlen := below 1 rfl
    obtain rfl := List.eq_nil_of_length_eq_zero (Nat.lt_one_iff.mp hlen)
    obtain ⟨rfl, rfl⟩ := Prod.mk.inj hr
    exact ⟨by simp, fun _ _ _ => rfl⟩
  | failed eq below stops =>
    have hlen := below 1 rfl
    obtain rfl := List.eq_nil_of_length_eq_zero (Nat.lt_one_iff.mp hlen)
    obtain ⟨rfl, rfl⟩ := Prod.mk.inj hr
    refine ⟨by simp, fun f hf hlast => ?_⟩
    obtain rfl : _ = f := Except.error.inj hf
    rcases hD.last stops with hpass | ⟨hend, -⟩
    · simp [hD.interrupted hpass] at hlast
    · rw [eq, hend]
      rfl

theorem headerStep_delivers (hD : Fails D calm passing slack) {h : Header} {x : Step ρ}
    (hinput : D.Sound input.inner) (hh : Holds D calm count ⟨input, .header h⟩ payload)
    (hx : HeaderStep input h x) : Delivers D calm passing slack count payload x := by
  obtain ⟨hproper, -, cut, missing, hcut, ⟨head, rest, heq, haccepts, hbody⟩, hcalm, hyields⟩ := hh
  change h.Proper at hproper
  change D.Ahead input cut at hcut
  cases hx with
  | ended complete =>
    obtain rfl := haccepts.eq_nil complete
    exact .onward ⟨⟨trivial, Nat.zero_le 0⟩, Nat.zero_le _, cut, missing, hcut, heq ▸ hbody, hcalm,
      fun hq => (hyields hq).ended complete⟩
  | refused part => exact (haccepts.not_refused _ part).elim
  | failed under_way byte =>
    have hlast := ((readByte_spends hinput byte).2.2 _ rfl).2
    obtain rfl := (readByte_brings hD hcut byte).2 _ rfl hlast
    have hrough : ¬ calm := by
      intro hc
      cases haccepts with
      | complete ended => exact under_way ended
      | push => simp [hcalm hc] at heq
    have hnothing := (hyields hrough).unmet under_way
    exact .error hrough (Or.inr (hnothing ▸ Nat.zero_le _)) fun hi => by simp [hlast] at hi
  | pushed under_way byte push =>
    rename_i b c k
    obtain ⟨more, rfl, hmore⟩ := (readByte_brings hD hcut byte).1 b rfl
    have hpushed := fun hq => (hyields hq).pushed under_way haccepts.not_refused push
    cases haccepts with
    | complete ended => exact (under_way ended).elim
    | push under_way' sound next others =>
      rename_i k' b' head'
      obtain ⟨rfl, hrest⟩ := List.cons.inj heq
      rw [push, Prod.mk.injEq] at next
      obtain ⟨rfl, -⟩ := next
      have hpush := (Header.proper_push hproper b).1
      rw [push] at hpush
      exact .onward ⟨hpush, trivial, more, missing, hmore, ⟨head', rest, hrest, others, hbody⟩, hcalm,
        hpushed⟩
  | complained under_way byte push =>
    rename_i b c k f
    obtain ⟨more, rfl, hmore⟩ := (readByte_brings hD hcut byte).1 b rfl
    cases haccepts with
    | complete ended => exact (under_way ended).elim
    | push under_way' sound next others =>
      obtain ⟨rfl, hrest⟩ := List.cons.inj heq
      simp [push] at next

theorem bodyStep_delivers (hD : Fails D calm passing slack) {m : Body} {x : Step ρ} (hn : 0 < n)
    (hm : Holds D calm count ⟨input, .body m⟩ payload) (hx : BodyStep n input m x) :
    Delivers D calm passing slack count payload x := by
  obtain ⟨hproper, hnear, cut, missing, hcut, hbody, hcalm, hyields⟩ := hm
  change m.Proper at hproper
  change m.Near at hnear
  change D.Ahead input cut at hcut
  change BodyAhead (¬ calm) m (cut ++ missing) payload at hbody
  change ¬ calm → m.Yields cut count at hyields
  -- What is ahead of the body after decoding, and of the input.
  have hdecoded {c : Buffered ρ} {k : Body} {left : List UInt8} (fill : input.fill = (none, c))
      (decodes : m.Decodes c.held k left) : ∃ rest, D.Ahead ⟨c.inner, left⟩ (left ++ rest) ∧
        cut = c.held ++ rest ∧ BodyAhead (¬ calm) k (left ++ rest ++ missing) payload ∧
        (¬ calm → k.Yields (left ++ rest) count) := by
    obtain ⟨⟨rest, rfl, hrest⟩, -⟩ := D.fill_brings hcut fill
    obtain ⟨f, tail, later, hahead, htrailer, hpayload⟩ := hbody
    rw [List.append_assoc] at hahead
    refine ⟨rest, ⟨rest, rfl, hrest⟩, rfl, ⟨f, tail, later, ?_, htrailer, ?_⟩,
      fun hq => (hyields hq).decodes decodes⟩
    · rw [List.append_assoc]
      exact decodes.ahead hahead
    · rw [decodes.given, hpayload]
  cases hx with
  | failed fill =>
    obtain ⟨hstops, hagain⟩ := D.fill_fails hcut fill
    have hrough := hD.rough hstops
    refine .error hrough ?_ fun hi =>
      ⟨hproper, hnear, cut, missing, hagain hi, hbody, hcalm, hyields⟩
    rcases hD.last hstops with hpass | ⟨rfl, hslack⟩
    · exact Or.inl hpass
    · obtain ⟨f, tail, later, hahead, -⟩ := hbody
      have hlost := (hyields hrough).lt_windows hproper hnear hahead.carry
      exact Or.inr (by omega)
  | corrupt fill decodes bad =>
    obtain ⟨rest, -, -, ⟨f, tail, later, hahead, -⟩, -⟩ := hdecoded fill decodes
    simp [hahead.clean] at bad
  | piece fill decodes due near =>
    obtain ⟨rest, hrest, -, hk, hky⟩ := hdecoded fill decodes
    obtain ⟨after, rfl, hafter⟩ := hk.take decodes.proper n
    refine .ok rfl ⟨⟨decodes.proper.phase, Nat.min_le_right ..⟩, ?_, _, missing, hrest, hafter, hcalm,
      fun hq => ((hky hq).take decodes.proper n rfl).2⟩ ?_
      fun hq => ((hky hq).take decodes.proper n rfl).1
    · have := near hnear
      simp only [Near, Body.Near]
      omega
    · intro hnil
      have := (take_nil_iff decodes.proper hn).mp hnil
      omega
  | ended fill decodes nothing_due finished =>
    obtain ⟨rest, hrest, -, hk, hky⟩ := hdecoded fill decodes
    exact .onward ⟨Nat.zero_le 8, trivial, _, missing, hrest, hk.trailer finished nothing_due, hcalm,
      fun hq => (hky hq).rests (Or.inl finished) nothing_due⟩
  | short fill decodes nothing_due unfinished starved at_end =>
    obtain ⟨-, hends⟩ := D.fill_brings hcut fill
    obtain rfl := D.whole (hends at_end)
    obtain ⟨rest, -, hcut', hk, hky⟩ := hdecoded fill decodes
    obtain ⟨-, rfl⟩ := List.append_eq_nil_iff.mp hcut'.symm
    have hrough : ¬ calm := by
      intro hc
      rw [hcalm hc] at hk
      exact hk.not_starved unfinished starved
    have hnothing := (hky hrough).rests (Or.inr (by simpa [bitsOfBytes] using starved)) nothing_due
    refine .error hrough (Or.inr (hnothing ▸ Nat.zero_le _)) fun hi => by
      simp [incomplete, Failure.cutOff, Failure.isInterrupted] at hi
  | more fill decodes nothing_due some_held =>
    obtain ⟨rest, hrest, -, hk, hky⟩ := hdecoded fill decodes
    refine .onward ⟨decodes.proper, ?_, _, missing, hrest, hk, hcalm, hky⟩
    simp only [Near, Body.Near]
    omega

theorem trailerStep_delivers (hD : Fails D calm passing slack) {content : Array UInt8}
    {sofar : List UInt8} {x : Step ρ} (hinput : D.Sound input.inner)
    (ht : Holds D calm count ⟨input, .trailer content sofar⟩ payload)
    (hx : TrailerStep input content sofar x) : Delivers D calm passing slack count payload x := by
  obtain ⟨hproper, -, cut, missing, hcut, ⟨more, rest, heq, height, hsums, hrest, hlast⟩, hcalm,
    hyields⟩ := ht
  change D.Ahead input cut at hcut
  change ¬ calm → count = 0 at hyields
  cases hx with
  | failed short byte =>
    have hhard := ((readByte_spends hinput byte).2.2 _ rfl).2
    obtain rfl := (readByte_brings hD hcut byte).2 _ rfl hhard
    have hrough : ¬ calm := by
      intro hc
      rw [hcalm hc, List.nil_append] at heq
      obtain ⟨rfl, -⟩ := List.append_eq_nil_iff.mp heq.symm
      simp at height
      omega
    exact .error hrough (Or.inr (hyields hrough ▸ Nat.zero_le _)) fun hi => by simp [hhard] at hi
  | more short byte =>
    rename_i b c
    obtain ⟨cut', rfl, hcut'⟩ := (readByte_brings hD hcut byte).1 b rfl
    cases more with
    | nil =>
      simp at height
      omega
    | cons b' more =>
      obtain ⟨rfl, hmore⟩ := List.cons.inj heq
      simp only [List.length_cons] at height
      refine .onward ⟨by simp only [Stage.Proper, List.length_cons]; omega, trivial, cut', missing,
        hcut', ⟨more, rest, hmore, by simp only [List.length_cons]; omega, by simpa using hsums, hrest,
          hlast⟩, hcalm, hyields⟩
  | unfilled full fill =>
    obtain ⟨hstops, hagain⟩ := D.fill_fails hcut fill
    have hrough := hD.rough hstops
    exact .error hrough (Or.inr (hyields hrough ▸ Nat.zero_le _)) fun hi =>
      ⟨hproper, trivial, cut, missing, hagain hi, ⟨more, rest, heq, height, hsums, hrest, hlast⟩, hcalm,
        hyields⟩
  | last full sums fill at_end =>
    obtain rfl := List.eq_nil_of_length_eq_zero (show more.length = 0 by omega)
    obtain ⟨hc, hends⟩ := D.fill_brings hcut fill
    obtain rfl := D.whole (hends at_end)
    simp only [List.nil_append] at heq
    have hnil : missing = [] := by
      by_cases hcalm' : calm
      · exact hcalm hcalm'
      · exact heq.trans (hlast hcalm')
    rw [← heq, hnil] at hrest
    exact .onward ⟨trivial, trivial, [], [], hc, hrest.content_nil, fun _ => rfl, hyields⟩
  | next full sums fill some_held =>
    rename_i c
    obtain rfl := List.eq_nil_of_length_eq_zero (show more.length = 0 by omega)
    obtain ⟨⟨cut', rfl, hcut'⟩, -⟩ := D.fill_brings hcut fill
    rw [List.nil_append] at heq
    have hne : rest ≠ [] := by
      rw [← heq]
      simp [some_held]
    have hothers : ¬ ¬ calm := fun hrough => hne (hlast hrough)
    refine .onward ⟨Header.proper_of_part (by simp) rfl, trivial, _, missing, ⟨cut', rfl, hcut'⟩, ?_,
      hcalm, fun hrough => (hothers hrough).elim⟩
    rw [heq]
    exact hrest.ahead hne hothers
  | mismatch full differ =>
    obtain rfl := List.eq_nil_of_length_eq_zero (show more.length = 0 by omega)
    simp [differ] at hsums

theorem step_delivers (hD : Fails D calm passing slack) (hn : 0 < n) (hinput : D.Sound d.input.inner)
    (hd : Holds D calm count d payload) :
    Delivers D calm passing slack count payload (step n d) := by
  obtain ⟨input, stage⟩ := d
  cases stage with
  | header h => exact headerStep_delivers hD hinput hd (step_header n input h)
  | body m => exact bodyStep_delivers hD hn hd (step_body hn hd.stage)
  | trailer content sofar => exact trailerStep_delivers hD hinput hd (step_trailer n input content sofar)
  | ended =>
    obtain ⟨cut, missing, hcut, hnil, hrest⟩ := id hd.ahead
    obtain rfl : payload = [] := hnil
    exact .ok rfl hd (fun _ => rfl) fun _ => Nat.zero_le count

/-- The induction is on the number of steps allowed, which never run out before an answer. -/
theorem readWithin_delivers (hD : Fails D calm passing slack) (hn : 0 < n) {fuel : Nat}
    (hfuel : 4 * Reader.budget d.input + d.stage.rank < fuel) (hs : Sound D.toFlow d)
    (hd : Holds D calm count d payload) :
    Delivers D calm passing slack count payload
      (.answer (readWithin n fuel d).1 (readWithin n fuel d).2) := by
  induction fuel generalizing d with
  | zero => omega
  | succ fuel ih =>
    have hspends := step_spends hn hs
    have hdelivers := step_delivers hD hn hs.input hd
    rw [readWithin]
    cases hstep : step n d with
    | answer a e => exact hstep ▸ hdelivers
    | onward e =>
      rw [hstep] at hspends hdelivers
      cases hspends with
      | onward sound cost less =>
        cases hdelivers with
        | onward holds => exact ih (by omega) sound holds

theorem read_delivers (hD : Fails D calm passing slack) (hn : 0 < n) (hs : Sound D.toFlow d)
    (hd : Holds D calm count d payload) :
    Delivers D calm passing slack count payload (.answer (d.read n).1 (d.read n).2) := by
  have := rank_le d.stage
  rw [read, if_neg (by omega)]
  exact readWithin_delivers hD hn (by omega) hs hd

end Decoder

end InterfaceIndex.Gzip

namespace InterfaceIndex

open Gzip

/-- A decoder delivers the contents of the members ahead of it. When all is calm, it does not fail and is
not cut short. Otherwise it fails in passing, or when so many bytes of the contents, or a little more,
are yet to come out. -/
def Delivery.decoded {ρ : Type} [Reader ρ] (D : Delivery ρ) (calm : Prop) {passing : Failure → Prop}
    {slack : Nat} (short : Nat) (hD : Decoder.Fails D calm passing slack) : Delivery (Decoder ρ) where
  toFlow := D.toFlow.decoded
  Holds d payload := Decoder.Sound D.toFlow d ∧ ∃ count,
    Decoder.Holds D calm count d payload ∧ (¬ calm → count + short = payload.length)
  Stops left stop := (stop = none → left = []) ∧ ∀ f, stop = some f →
    ¬ calm ∧ short ≤ left.length ∧ (passing f ∨ left.length ≤ short + slack)
  whole h := h.1 rfl
  sound h := h.1
  brings {d e n piece payload} h hn ha := by
    obtain ⟨hs, count, hholds, hcount⟩ := h
    have hread := Decoder.read_delivers hD hn hs hholds
    have hsound := (D.toFlow.decoded.ok hs ha).1
    change d.read n = _ at ha
    rw [ha] at hread
    cases hread with
    | ok eq holds ends counted =>
      refine ⟨_, eq, hsound, _, holds, ?_⟩
      intro hrough
      have := hcount hrough
      have := counted hrough
      rw [eq, List.length_append] at *
      omega
  ends {d e n payload} h hn ha := by
    obtain ⟨hs, count, hholds, -⟩ := h
    have hread := Decoder.read_delivers hD hn hs hholds
    change d.read n = _ at ha
    rw [ha] at hread
    cases hread with
    | ok eq holds ends => exact ⟨fun _ => ends rfl, by simp⟩
  fails {d e n f payload} h hn ha := by
    obtain ⟨hs, count, hholds, hcount⟩ := h
    have hread := Decoder.read_delivers hD hn hs hholds
    have hsound := (D.toFlow.decoded.error hs ha).1
    change d.read n = _ at ha
    rw [ha] at hread
    cases hread with
    | error rough all again =>
      have := hcount rough
      refine ⟨⟨by simp, ?_⟩, fun hi => ⟨hsound, count, again hi, hcount⟩⟩
      intro g hg
      obtain rfl : f = g := by simpa using hg
      exact ⟨rough, by omega, all.imp_right fun hle => by omega⟩

end InterfaceIndex
