import InterfaceIndex.Proofs.Deflate.Inflate

/-! A run that asked for more bits goes on with them as if they had been there; no other run needs
them. -/
namespace InterfaceIndex.Deflate.Inflate

variable {d e : Inflate} {goal fuel fuel' : Nat} {bits rest more : List Bool} {reason : Stop}

/-- How a step comes out: only when it asks for more bits does it depend on what comes after them. -/
inductive Steps (goal : Nat) (d : Inflate) (bits : List Bool) : Step → Prop
  | starved (short : d.step goal bits = .stop .starved d bits) :
      Steps goal d bits (.stop .starved d bits)
  | stopped {reason : Stop} {rest : List Bool} (told : reason ≠ .starved)
      (later : ∀ more : List Bool, more.length % 8 = 0 →
        d.step goal (bits ++ more) = .stop reason d (rest ++ more)) :
      Steps goal d bits (.stop reason d rest)
  | onward {e : Inflate} {rest : List Bool}
      (less : d.phase.Proper → e.phase.Proper ∧
        rest.length + (goal - e.output.size) < bits.length + (goal - d.output.size))
      (later : ∀ more : List Bool, more.length % 8 = 0 →
        d.step goal (bits ++ more) = .onward e (rest ++ more)) :
      Steps goal d bits (.onward e rest)

theorem steps (goal : Nat) (d : Inflate) (bits : List Bool) :
    Steps goal d bits (d.step goal bits) := by
  generalize hstep : d.step goal bits = x
  have hall (more : List Bool) := step_eq goal d (bits ++ more)
  have hx := hstep
  rw [step_eq] at hx
  by_cases hu : d.phase.isFinished = true
  · simp only [if_pos hu] at hx hall
    subst hx
    exact .stopped (by simp) fun more _ => hall more
  simp only [if_neg hu] at hx hall
  by_cases hfull : (d.phase.emits && decide (goal ≤ d.output.size)) = true
  · simp only [if_pos hfull] at hx hall
    subst hx
    exact .stopped (by simp) fun more _ => hall more
  simp only [if_neg hfull] at hx hall
  have hlater {answer : Option Inflate} {rest : List Bool} (h : d.next bits = .tell answer rest)
      (more : List Bool) (hm : more.length % 8 = 0) :
      d.next (bits ++ more) = .tell answer (rest ++ more) := (local_next d).append h hm
  cases hn : d.next bits with
  | starved =>
    rw [hn] at hx
    subst hx
    exact .starved hstep
  | corrupt rest =>
    rw [hn] at hx
    subst hx
    refine .stopped (by simp) fun more hm => ?_
    rw [hall, hlater (Parsed.corrupt_eq_tell rest ▸ hn) more hm]
    rfl
  | ok e rest =>
    rw [hn] at hx
    subst hx
    refine .onward ?_ fun more hm => ?_
    · intro hp
      have hunfinished : d.phase.isFinished = false := by simpa using hu
      have hroom : d.phase.emits = true → ¬ goal ≤ d.output.size := by simpa using hfull
      exact ⟨(taken_next hp hunfinished hn).proper, room_next hp hunfinished hroom hn⟩
    · rw [hall, hlater (Parsed.ok_eq_tell e rest ▸ hn) more hm]
      rfl

/-- More steps than a run takes make no difference to it. -/
theorem runWithin_eq (hp : d.phase.Proper)
    (hfuel : bits.length + (goal - d.output.size) < fuel)
    (hfuel' : bits.length + (goal - d.output.size) < fuel') :
    runWithin goal fuel d bits = runWithin goal fuel' d bits := by
  induction fuel generalizing d bits fuel' with
  | zero => omega
  | succ fuel ih =>
    obtain ⟨fuel', rfl⟩ : ∃ n, fuel' = n + 1 := ⟨fuel' - 1, by omega⟩
    rw [runWithin, runWithin]
    have hsteps := steps goal d bits
    generalize d.step goal bits = x at hsteps
    cases hsteps with
    | starved short => rfl
    | stopped told later => rfl
    | onward less later =>
      obtain ⟨hproper, hless⟩ := less hp
      exact ih hproper (by omega) (by omega)

theorem run_stop (h : d.step goal bits = .stop reason e rest) :
    d.run goal bits = (reason, e, rest) := by
  rw [run, runWithin, h]

theorem run_onward (hp : d.phase.Proper) (h : d.step goal bits = .onward e rest) :
    d.run goal bits = e.run goal rest := by
  have hsteps := steps goal d bits
  rw [h] at hsteps
  cases hsteps with
  | onward less later =>
    obtain ⟨hproper, hless⟩ := less hp
    rw [run, runWithin, h, run]
    exact runWithin_eq hproper (by omega) (by omega)

/-- What a run comes to when whole bytes follow the bits it was made on: it goes on if it has asked
for them, and otherwise leaves them. -/
def resume (goal : Nat) (more : List Bool) : Stop × Inflate × List Bool → Stop × Inflate × List Bool
  | (.starved, d, rest) => d.run goal (rest ++ more)
  | (reason, d, rest) => (reason, d, rest ++ more)

/-- The induction is on the bits and the room, of which each step takes some. -/
theorem run_append (hp : d.phase.Proper) (hm : more.length % 8 = 0) :
    d.run goal (bits ++ more) = resume goal more (d.run goal bits) := by
  induction hsize : bits.length + (goal - d.output.size) using Nat.strongRecOn
    generalizing d bits with
  | ind size ih =>
    have hsteps := steps goal d bits
    generalize hstep : d.step goal bits = x at hsteps
    cases hsteps with
    | starved short => rw [run_stop short, resume]
    | stopped told later =>
      rename_i reason rest
      rw [run_stop hstep, run_stop (later more hm)]
      cases reason with
      | starved => exact (told rfl).elim
      | full => rfl
      | finished => rfl
      | corrupt => rfl
    | onward less later =>
      obtain ⟨hproper, hless⟩ := less hp
      rw [run_onward hp hstep, run_onward hp (later more hm)]
      exact ih _ (hsize ▸ hless) hproper rfl

end InterfaceIndex.Deflate.Inflate
