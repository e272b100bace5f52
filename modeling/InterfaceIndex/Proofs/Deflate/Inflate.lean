import InterfaceIndex.Deflate.Inflate
import InterfaceIndex.Proofs.Deflate.Block

/-! Decoding in pieces comes to decoding at once, wherever the bits end and the room runs out. -/
namespace InterfaceIndex.Deflate

open BitReader hiding pure

namespace Phase

/-- The codes have no empty codeword, and a repetition under way has a byte to come. -/
def Proper : Phase → Prop
  | .coded codes => codes.literals.IsFork
  | .literal _ codes => codes.literals.IsFork
  | .copying left _ codes => codes.literals.IsFork ∧ 0 < left ∧ left ≤ 258
  | _ => True

/-- The bytes of output that are due without a further bit. -/
def begun : Phase → Nat
  | .literal .. => 1
  | .copying left _ _ => left
  | _ => 0

/-- Whether the next step adds a byte to the output, for which there has to be room. -/
def emits : Phase → Bool
  | .stored _ => true
  | .literal .. => true
  | .copying .. => true
  | _ => false

def isFinished : Phase → Bool
  | .finished => true
  | _ => false

theorem isFinished_iff {p : Phase} : p.isFinished = true ↔ p = .finished := by
  cases p <;> simp [isFinished]

theorem Proper.begun_le {p : Phase} (h : p.Proper) : p.begun ≤ 258 := by
  cases p with
  | copying left distance codes => exact h.2.2
  | literal b codes => exact Nat.le_of_ble_eq_true rfl
  | _ => exact Nat.zero_le _

end Phase

namespace Inflate

variable {d e f : Inflate} {goal : Nat} {bits mid rest more : List Bool}

/-- The decoder after one more step, when there is room. -/
def next (d : Inflate) : BitReader Inflate :=
  match d.phase with
  | .header => do
    let (last, block) ← readBlock
    match block with
    | .stored length =>
      pure { d with last, phase := if length = 0 then afterBlock { d with last } else .stored length }
    | .coded codes => pure { d with last, phase := .coded codes }
  | .stored left => do
    let b ← BitReader.number 8
    pure
      { d with
        phase := if left ≤ 1 then d.afterBlock else .stored (left - 1)
        output := d.output.push (UInt8.ofNat b) }
  | .coded codes => do
    match ← codes.readItem with
    | .literal b => pure { d with phase := .literal b codes }
    | .copy length distance => pure { d with phase := .copying length distance codes }
    | .endOfBlock => pure { d with phase := d.afterBlock }
  | .literal b codes => pure { d with phase := .coded codes, output := d.output.push b }
  | .copying left distance codes =>
    pure
      { d with
        phase := if left ≤ 1 then .coded codes else .copying (left - 1) distance codes
        output := d.output.push (lookBack d.output distance) }
  | .finished => pure d

/-- The goal only decides whether a step that adds a byte is taken. -/
theorem step_eq (goal : Nat) (d : Inflate) (bits : List Bool) : d.step goal bits =
    if d.phase.isFinished then .stop .finished d bits
    else if d.phase.emits && decide (goal ≤ d.output.size) then .stop .full d bits
    else
      match d.next bits with
      | .ok e rest => .onward e rest
      | .starved => .stop .starved d bits
      | .corrupt rest => .stop .corrupt d rest := by
  cases hp : d.phase with
  | header =>
    simp only [step, next, hp, Phase.isFinished, Phase.emits, Bool.false_and, bind_eq]
    cases readBlock bits with
    | starved => rfl
    | corrupt rest => rfl
    | ok found rest =>
      obtain ⟨last, block⟩ := found
      cases block <;> rfl
  | stored left =>
    simp only [step, next, hp, Phase.isFinished, Phase.emits, Bool.true_and, bind_eq,
      decide_eq_true_eq]
    by_cases hg : goal ≤ d.output.size
    · simp only [if_pos hg, Bool.false_eq_true, if_false]
    · simp only [if_neg hg, Bool.false_eq_true, if_false]
      cases number 8 bits <;> rfl
  | coded codes =>
    simp only [step, next, hp, Phase.isFinished, Phase.emits, Bool.false_and, bind_eq]
    cases codes.readItem bits with
    | starved => rfl
    | corrupt rest => rfl
    | ok item rest => cases item <;> rfl
  | literal b codes =>
    simp only [step, next, hp, Phase.isFinished, Phase.emits, Bool.true_and, decide_eq_true_eq,
      Bool.false_eq_true, if_false]
    rfl
  | copying left distance codes =>
    simp only [step, next, hp, Phase.isFinished, Phase.emits, Bool.true_and, decide_eq_true_eq,
      Bool.false_eq_true, if_false]
    rfl
  | finished => simp only [step, hp, Phase.isFinished, if_true]

theorem local_next (d : Inflate) : Local d.next := by
  unfold next
  split
  · apply local_readBlock.bind
    intro found
    dsimp only
    split <;> exact local_pure _
  · exact (local_number 8).bind fun _ => local_pure _
  · apply (Codes.local_readItem _).bind
    intro item
    split <;> exact local_pure _
  · exact local_pure _
  · exact local_pure _
  · exact local_pure _

/-- What a step that is taken comes to. It adds a byte or uses a bit, and a bit brings 258 bytes at
most. -/
structure Taken (d : Inflate) (bits : List Bool) (e : Inflate) (rest : List Bool) : Prop where
  proper : e.phase.Proper
  change : (d.phase.emits = true ∧ ∃ b, e.output = d.output.push b) ∨
    (d.phase.emits = false ∧ e.output = d.output ∧ rest.length < bits.length)
  worth : 258 * rest.length + e.phase.begun + e.output.size ≤
    258 * bits.length + d.phase.begun + d.output.size

theorem proper_afterBlock (d : Inflate) : d.afterBlock.Proper ∧ d.afterBlock.begun = 0 := by
  unfold afterBlock
  split <;> exact ⟨trivial, rfl⟩

theorem length_of_number {width n : Nat} (h : number width bits = .ok n rest) :
    rest.length + width = bits.length := by
  induction width generalizing n bits rest with
  | zero => simp [(pure_eq_ok h).2]
  | succ width ih =>
    obtain ⟨low, mid, hlow, h⟩ := bind_eq_ok h
    obtain ⟨high, mid', hhigh, h⟩ := bind_eq_ok h
    obtain ⟨-, rfl⟩ := pure_eq_ok h
    have := ih hhigh
    cases bits with
    | nil => simp [bit] at hlow
    | cons b bits =>
      obtain ⟨-, rfl⟩ : b = low ∧ bits = mid := by simpa [bit] using hlow
      simp only [List.length_cons]
      omega

theorem taken_next (hp : d.phase.Proper) (hf : d.phase.isFinished = false)
    (h : d.next bits = .ok e rest) : Taken d bits e rest := by
  unfold next at h
  cases hph : d.phase with
  | header =>
    simp only [hph] at h
    obtain ⟨⟨last, block⟩, mid, hread, h⟩ := bind_eq_ok h
    have hless := advances_readBlock.less hread
    cases block with
    | stored length =>
      obtain ⟨rfl, rfl⟩ := pure_eq_ok h
      refine ⟨?_, Or.inr ⟨hph ▸ rfl, rfl, hless⟩, ?_⟩ <;> dsimp only <;> split
      · exact (proper_afterBlock _).1
      · trivial
      · rw [(proper_afterBlock _).2]
        omega
      · simp only [Phase.begun]
        omega
    | coded codes =>
      obtain ⟨rfl, rfl⟩ := pure_eq_ok h
      refine ⟨isFork_of_readBlock hread, Or.inr ⟨hph ▸ rfl, rfl, hless⟩, ?_⟩
      simp only [Phase.begun]
      omega
  | stored left =>
    simp only [hph] at h
    obtain ⟨b, mid, hread, h⟩ := bind_eq_ok h
    obtain ⟨rfl, rfl⟩ := pure_eq_ok h
    have hlen := length_of_number hread
    refine ⟨?_, Or.inl ⟨hph ▸ rfl, _, rfl⟩, ?_⟩ <;> dsimp only <;> split
    · exact (proper_afterBlock _).1
    · trivial
    · rw [(proper_afterBlock _).2, Array.size_push]
      omega
    · simp only [Phase.begun, Array.size_push]
      omega
  | coded codes =>
    simp only [hph] at h
    rw [hph] at hp
    obtain ⟨item, mid, hread, h⟩ := bind_eq_ok h
    have hless := (Codes.advances_readItem hp).less hread
    cases item with
    | literal b =>
      obtain ⟨rfl, rfl⟩ := pure_eq_ok h
      refine ⟨hp, Or.inr ⟨hph ▸ rfl, rfl, hless⟩, ?_⟩
      simp only [Phase.begun]
      omega
    | copy length distance =>
      obtain ⟨rfl, rfl⟩ := pure_eq_ok h
      have hcopy := Codes.length_of_readItem hread
      refine ⟨⟨hp, hcopy⟩, Or.inr ⟨hph ▸ rfl, rfl, hless⟩, ?_⟩
      simp only [Phase.begun]
      omega
    | endOfBlock =>
      obtain ⟨rfl, rfl⟩ := pure_eq_ok h
      refine ⟨(proper_afterBlock _).1, Or.inr ⟨hph ▸ rfl, rfl, hless⟩, ?_⟩
      simp only [(proper_afterBlock _).2]
      omega
  | literal b codes =>
    simp only [hph] at h
    rw [hph] at hp
    obtain ⟨rfl, rfl⟩ := pure_eq_ok h
    refine ⟨hp, Or.inl ⟨hph ▸ rfl, _, rfl⟩, ?_⟩
    simp only [hph, Phase.begun, Array.size_push]
    omega
  | copying left distance codes =>
    simp only [hph] at h
    rw [hph] at hp
    obtain ⟨hcodes, hleft, hmost⟩ := hp
    obtain ⟨rfl, rfl⟩ := pure_eq_ok h
    refine ⟨?_, Or.inl ⟨hph ▸ rfl, _, rfl⟩, ?_⟩ <;> dsimp only <;> split
    · exact hcodes
    · exact ⟨hcodes, by omega, by omega⟩
    · simp only [hph, Phase.begun, Array.size_push]
      omega
    · simp only [hph, Phase.begun, Array.size_push]
      omega
  | finished => simp [hph, Phase.isFinished] at hf

/-- A step that is taken uses a bit, or else some of the room for output. -/
theorem room_next (hp : d.phase.Proper) (hf : d.phase.isFinished = false)
    (hroom : d.phase.emits = true → ¬ goal ≤ d.output.size) (h : d.next bits = .ok e rest) :
    rest.length + (goal - e.output.size) < bits.length + (goal - d.output.size) := by
  have hle := (local_next d).length_le (Parsed.ok_eq_tell .. ▸ h)
  rcases (taken_next hp hf h).change with ⟨hemits, b, hpush⟩ | ⟨-, hsame, hless⟩
  · have := hroom hemits
    rw [hpush, Array.size_push]
    omega
  · rw [hsame]
    omega

/-- A decoder that takes no step: it is at the end, or has too few bits before it. -/
def Rests (d : Inflate) (bits : List Bool) : Prop :=
  d.phase.isFinished = true ∨ d.next bits = .starved

/-- Steps lead from a decoder, with the bits before it, to another. -/
inductive Leads : Inflate → List Bool → Inflate → List Bool → Prop
  | refl (d : Inflate) (bits : List Bool) : Leads d bits d bits
  | step {d e f : Inflate} {bits mid rest : List Bool} (unfinished : d.phase.isFinished = false)
      (first : d.next bits = .ok e mid) (others : Leads e mid f rest) : Leads d bits f rest

namespace Leads

theorem trans (h : Leads d bits e mid) (h' : Leads e mid f rest) : Leads d bits f rest := by
  induction h with
  | refl => exact h'
  | step unfinished first _ ih => exact .step unfinished first (ih h')

/-- Whole bytes that arrive later change no step. -/
theorem append (h : Leads d bits e rest) (hm : more.length % 8 = 0) :
    Leads d (bits ++ more) e (rest ++ more) := by
  induction h with
  | refl => exact .refl ..
  | step unfinished first _ ih =>
    exact .step unfinished ((local_next _).append (Parsed.ok_eq_tell .. ▸ first) hm) ih

theorem exists_used (h : Leads d bits e rest) : ∃ used, bits = used ++ rest := by
  induction h with
  | refl => exact ⟨[], rfl⟩
  | step _ first _ ih =>
    obtain ⟨used, rfl, -⟩ := (local_next _).told (Parsed.ok_eq_tell .. ▸ first)
    obtain ⟨later, rfl⟩ := ih
    exact ⟨used ++ later, by simp⟩

theorem length_le (h : Leads d bits e rest) : rest.length ≤ bits.length := by
  obtain ⟨used, rfl⟩ := h.exists_used
  simp

theorem proper (h : Leads d bits e rest) (hp : d.phase.Proper) : e.phase.Proper := by
  induction h with
  | refl => exact hp
  | step unfinished first _ ih => exact ih (taken_next hp unfinished first).proper

theorem worth (h : Leads d bits e rest) (hp : d.phase.Proper) :
    258 * rest.length + e.phase.begun + e.output.size ≤
      258 * bits.length + d.phase.begun + d.output.size := by
  induction h with
  | refl => exact Nat.le_refl _
  | step unfinished first _ ih =>
    have htaken := taken_next hp unfinished first
    exact Nat.le_trans (ih htaken.proper) htaken.worth

/-- Output is only ever added to. -/
theorem output (h : Leads d bits e rest) (hp : d.phase.Proper) :
    ∃ out, e.output.toList = d.output.toList ++ out := by
  induction h with
  | refl => exact ⟨[], by simp⟩
  | step unfinished first _ ih =>
    have htaken := taken_next hp unfinished first
    obtain ⟨out, hout⟩ := ih htaken.proper
    rcases htaken.change with ⟨-, b, hpush⟩ | ⟨-, hsame, -⟩
    · exact ⟨b :: out, by simp [hout, hpush]⟩
    · exact ⟨out, by rw [hout, hsame]⟩

theorem eq_of_isFinished (h : Leads d bits e rest) (hd : d.phase.isFinished = true) :
    d = e ∧ bits = rest := by
  cases h with
  | refl => exact ⟨rfl, rfl⟩
  | step unfinished => simp [unfinished] at hd

/-- Steps are determined, so that those to where decoding rests pass through all others. -/
theorem onward (h : Leads d bits e mid) (hf : Leads d bits f rest) (hend : f.Rests rest) :
    Leads e mid f rest := by
  induction h with
  | refl => exact hf
  | step unfinished first _ ih =>
    cases hf with
    | refl => simp [Rests, unfinished, first] at hend
    | step _ first' others =>
      rw [first, Parsed.ok.injEq] at first'
      obtain ⟨rfl, rfl⟩ := first'
      exact ih others

end Leads

/-- Where decoding with a goal stops. -/
inductive StopsAt (goal : Nat) (d : Inflate) (bits : List Bool) :
    Stop × Inflate × List Bool → Prop
  | full {e : Inflate} {rest : List Bool} (leads : Leads d bits e rest)
      (unfinished : e.phase.isFinished = false) (room : goal ≤ e.output.size) :
      StopsAt goal d bits (.full, e, rest)
  | starved {e : Inflate} {rest : List Bool} (leads : Leads d bits e rest)
      (unfinished : e.phase.isFinished = false) (short : e.next rest = .starved) :
      StopsAt goal d bits (.starved, e, rest)
  | finished {e : Inflate} {rest : List Bool} (leads : Leads d bits e rest)
      (ended : e.phase.isFinished = true) : StopsAt goal d bits (.finished, e, rest)
  | corrupt {e : Inflate} {mid rest : List Bool} (leads : Leads d bits e mid)
      (unfinished : e.phase.isFinished = false) (bad : e.next mid = .corrupt rest) :
      StopsAt goal d bits (.corrupt, e, rest)

theorem StopsAt.step {x : Stop × Inflate × List Bool} (hu : d.phase.isFinished = false)
    (h : d.next bits = .ok e mid) (hx : StopsAt goal e mid x) : StopsAt goal d bits x := by
  cases hx with
  | full leads unfinished room => exact .full (.step hu h leads) unfinished room
  | starved leads unfinished short => exact .starved (.step hu h leads) unfinished short
  | finished leads ended => exact .finished (.step hu h leads) ended
  | corrupt leads unfinished bad => exact .corrupt (.step hu h leads) unfinished bad

/-- The induction is on the number of steps allowed, of which each uses a bit or the room for a
byte. -/
theorem runWithin_spec {fuel : Nat} (hp : d.phase.Proper)
    (hfuel : bits.length + (goal - d.output.size) < fuel) :
    StopsAt goal d bits (runWithin goal fuel d bits) := by
  induction fuel generalizing d bits with
  | zero => omega
  | succ fuel ih =>
    rw [runWithin, step_eq]
    cases hu : d.phase.isFinished with
    | true => exact .finished (.refl ..) hu
    | false =>
      simp only [Bool.false_eq_true, if_false]
      by_cases hfull : (d.phase.emits && decide (goal ≤ d.output.size)) = true
      · rw [if_pos hfull]
        simp only [Bool.and_eq_true, decide_eq_true_eq] at hfull
        exact .full (.refl ..) hu hfull.2
      · rw [if_neg hfull]
        simp only [Bool.and_eq_true, decide_eq_true_eq, not_and] at hfull
        cases hn : d.next bits with
        | starved => exact .starved (.refl ..) hu hn
        | corrupt rest => exact .corrupt (.refl ..) hu hn
        | ok e rest =>
          have hless := room_next hp hu hfull hn
          exact StopsAt.step hu hn (ih (taken_next hp hu hn).proper (by omega))

/-- A run adds no output beyond its goal. The induction is on the number of steps allowed. -/
theorem size_runWithin_le {fuel : Nat} (hp : d.phase.Proper) :
    (runWithin goal fuel d bits).2.1.output.size ≤ max goal d.output.size := by
  induction fuel generalizing d bits with
  | zero => exact Nat.le_max_right ..
  | succ fuel ih =>
    rw [runWithin, step_eq]
    cases hu : d.phase.isFinished with
    | true => exact Nat.le_max_right ..
    | false =>
      simp only [Bool.false_eq_true, if_false]
      by_cases hfull : (d.phase.emits && decide (goal ≤ d.output.size)) = true
      · rw [if_pos hfull]
        exact Nat.le_max_right ..
      · rw [if_neg hfull]
        simp only [Bool.and_eq_true, decide_eq_true_eq, not_and] at hfull
        cases hn : d.next bits with
        | starved => exact Nat.le_max_right ..
        | corrupt rest => exact Nat.le_max_right ..
        | ok e rest =>
          have htaken := taken_next hp hu hn
          have hmore : (runWithin goal fuel e rest).2.1.output.size ≤ max goal e.output.size :=
            ih htaken.proper
          dsimp only
          rcases htaken.change with ⟨hemits, b, hpush⟩ | ⟨-, hsame, -⟩
          · have := hfull hemits
            rw [hpush, Array.size_push] at hmore
            omega
          · rwa [hsame] at hmore

theorem size_run_le (goal : Nat) (bits : List Bool) (hp : d.phase.Proper) :
    (d.run goal bits).2.1.output.size ≤ max goal d.output.size :=
  size_runWithin_le hp

theorem run_spec (goal : Nat) (bits : List Bool) (hp : d.phase.Proper) :
    StopsAt goal d bits (d.run goal bits) :=
  runWithin_spec hp (Nat.lt_succ_self _)

end Inflate

end InterfaceIndex.Deflate
