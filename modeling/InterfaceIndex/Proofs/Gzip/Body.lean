import InterfaceIndex.Gzip.Decoder
import InterfaceIndex.Proofs.Deflate.Inflate

/-! The body of a member decodes the same whatever bytes are held when, and loses none of them. -/
namespace InterfaceIndex.Gzip.Body

open Deflate

variable {m k : Body} {f : Inflate} {held left future tail : List UInt8} {last : Bool}
  {goal n fuel : Nat}

/-- A body that is to be decoded further, with no more handed out than there is. -/
structure Proper (m : Body) : Prop where
  phase : m.inflate.phase.Proper
  given : m.given ≤ m.inflate.output.size

/-- The output that is due without further input, when a bit brings 258 bytes at most. -/
def worth (m : Body) (held : List UInt8) : Nat :=
  258 * (m.carry.length + 8 * held.length) + m.inflate.phase.begun + m.inflate.output.size

/-- The bytes to come decode to the end of a body, and then other bytes follow. Carried bits are few,
or else too few to go on. -/
structure Ahead (m : Body) (bytes : List UInt8) (f : Inflate) (tail : List UInt8) : Prop where
  clean : m.isCorrupt = false
  carry : m.carry.length < 8 ∨
    (m.inflate.phase.isFinished = false ∧ m.inflate.next m.carry = .starved)
  runs : ∃ pad, pad.length < 8 ∧
    Inflate.Leads m.inflate (m.carry ++ bitsOfBytes bytes) f (pad ++ bitsOfBytes tail)
  ended : f.phase.isFinished = true

/-- The bytes to come, with no others after them, decode up to where the body rests. -/
structure Runs (m : Body) (bytes : List UInt8) (f : Inflate) (pad : List Bool) : Prop where
  clean : m.isCorrupt = false
  leads : Inflate.Leads m.inflate (m.carry ++ bitsOfBytes bytes) f pad
  rests : f.Rests pad

/-- Decoding held bytes turns a body into another, and leaves some of the bytes. -/
structure Decodes (m : Body) (held : List UInt8) (k : Body) (left : List UInt8) : Prop where
  proper : k.Proper
  given : k.given = m.given
  output : ∃ out, k.inflate.output.toList = m.inflate.output.toList ++ out
  taken : ∃ front, held = front ++ left
  worth : k.worth left ≤ m.worth held
  ahead : ∀ {future tail : List UInt8} {f : Inflate}, m.Ahead (held ++ future) f tail →
    k.Ahead (left ++ future) f tail
  runs : ∀ {future : List UInt8} {f : Inflate} {pad : List Bool}, m.Runs (held ++ future) f pad →
    k.Runs (left ++ future) f pad

theorem Decodes.refl (hm : m.Proper) (held : List UInt8) : Decodes m held m held :=
  ⟨hm, rfl, ⟨[], by simp⟩, ⟨[], rfl⟩, Nat.le_refl _, id, id⟩

theorem Decodes.trans {j : Body} {more : List UInt8} (h : Decodes m held k left)
    (h' : Decodes k left j more) : Decodes m held j more := by
  obtain ⟨out, hout⟩ := h.output
  obtain ⟨out', hout'⟩ := h'.output
  obtain ⟨taken, rfl⟩ := h.taken
  obtain ⟨taken', rfl⟩ := h'.taken
  exact ⟨h'.proper, by rw [h'.given, h.given], ⟨out ++ out', by simp [hout', hout]⟩,
    ⟨taken ++ taken', by simp⟩, Nat.le_trans h'.worth h.worth, fun ha => h'.ahead (h.ahead ha),
    fun hr => h'.runs (h.runs hr)⟩

theorem Decodes.size_le (h : Decodes m held k left) :
    m.inflate.output.size ≤ k.inflate.output.size := by
  obtain ⟨out, hout⟩ := h.output
  have := congrArg List.length hout
  simp only [List.length_append, Array.length_toList] at this
  omega

/-- Why a body that is not corrupt stops with bytes left: it is over, or there is output. -/
def HasStopped (m k : Body) (left : List UInt8) : Prop :=
  k.isCorrupt = true ∨ m.inflate.output.size < k.inflate.output.size ∨
    k.inflate.phase.isFinished = true ∨
    (left = [] ∧ k.inflate.phase.isFinished = false ∧ k.inflate.next k.carry = .starved)

theorem lt_windowEnd (n : Nat) : n < windowEnd n := by
  have := Nat.div_add_mod n window
  have := Nat.mod_lt n (show 0 < window by decide)
  rw [windowEnd, Nat.add_mul, Nat.mul_comm (n / window)]
  omega

/-- Bits left over are those of the last bytes that fit into them, after others. -/
theorem exists_carry {carry rest used : List Bool} (count : Nat)
    (h : carry ++ bitsOfBytes held = used ++ rest) (hc : 8 * count ≤ rest.length) :
    rest = rest.take (rest.length - 8 * (held.drop (held.length - count)).length) ++
      bitsOfBytes (held.drop (held.length - count)) := by
  have hleft : (bitsOfBytes (held.drop (held.length - count))).length ≤ rest.length := by
    simp only [length_bitsOfBytes, List.length_drop]
    omega
  have hsuffix : bitsOfBytes (held.drop (held.length - count)) <:+ carry ++ bitsOfBytes held := by
    refine ⟨carry ++ bitsOfBytes (held.take (held.length - count)), ?_⟩
    rw [List.append_assoc, ← bitsOfBytes_append, List.take_append_drop]
  obtain ⟨front, hfront⟩ := List.suffix_of_suffix_length_le hsuffix ⟨used, h.symm⟩ hleft
  have hlen := congrArg List.length hfront
  simp only [List.length_append, length_bitsOfBytes] at hlen
  have htake : rest.take (rest.length - 8 * (held.drop (held.length - count)).length) = front := by
    rw [← hfront, List.take_left']
    simp only [List.length_append, length_bitsOfBytes]
    omega
  rw [htake, hfront]

theorem windowEnd_le (n : Nat) : windowEnd n ≤ n + window := by
  have := Nat.div_mul_le_self n window
  rw [windowEnd, Nat.add_mul]
  omega

/-- How decoding a window comes out, in terms of the bits that it goes over. -/
theorem decodeWindow_eq (hm : m.Proper) (held : List UInt8) :
    ∃ stop e carry left, m.decodeWindow held =
        (stop, ⟨e, carry, m.given, decide (stop = .corrupt)⟩, left) ∧
      Inflate.StopsAt (windowEnd m.inflate.output.size) m.inflate (m.carry ++ bitsOfBytes held)
        (stop, e, carry ++ bitsOfBytes left) ∧
      (∃ taken, held = taken ++ left) ∧ (stop = .starved → left = []) ∧
      (stop ≠ .starved → (carry ++ bitsOfBytes left).length < 8 * (held.length + 1) →
        carry.length < 8) := by
  have hrun := Inflate.run_spec (windowEnd m.inflate.output.size)
    (m.carry ++ bitsOfBytes held) hm.phase
  rw [decodeWindow]
  generalize m.inflate.run _ _ = x at hrun
  obtain ⟨stop, e, rest⟩ := x
  have hused : ∃ used, m.carry ++ bitsOfBytes held = used ++ rest := by
    cases hrun with
    | full leads => exact leads.exists_used
    | starved leads => exact leads.exists_used
    | finished leads => exact leads.exists_used
    | corrupt leads _ bad =>
      obtain ⟨used, hused⟩ := leads.exists_used
      obtain ⟨later, rfl, -⟩ := (Inflate.local_next _).told (Parsed.corrupt_eq_tell _ ▸ bad)
      exact ⟨used ++ later, by rw [hused, List.append_assoc]⟩
  obtain ⟨used, hused⟩ := hused
  by_cases hs : stop = .starved
  · subst hs
    refine ⟨_, _, _, _, rfl, ?_, ⟨held, by simp⟩, by simp, by simp⟩
    simpa [bitsOfBytes] using hrun
  · have hsplit := exists_carry (rest.length / 8) hused (by omega)
    refine ⟨stop, e, _, _, rfl, ?_, ?_, fun h => (hs h).elim, ?_⟩
    · rw [if_neg hs, ← hsplit]
      exact hrun
    · rw [if_neg hs]
      exact ⟨_, (List.take_append_drop _ _).symm⟩
    · intro _ hlen
      rw [if_neg hs] at hlen ⊢
      rw [← hsplit] at hlen
      simp only [List.length_take, List.length_drop]
      omega

/-- A step that fails on the bits held cannot be one of those to the end of the body. -/
theorem not_corrupt_of_leads {d e : Inflate} {bits mid rest more pad : List Bool}
    (hm : more.length % 8 = 0) (h : Inflate.Leads d bits e mid)
    (hu : e.phase.isFinished = false) (hbad : e.next mid = .corrupt rest)
    (hruns : Inflate.Leads d (bits ++ more) f pad) (hrests : f.Rests pad) : False := by
  have hlater := (Inflate.local_next e).append (Parsed.corrupt_eq_tell _ ▸ hbad) hm
  cases (h.append hm).onward hruns hrests with
  | refl => simp [Inflate.Rests, hu, hlater, Parsed.tell] at hrests
  | step _ first _ => simp [hlater, Parsed.tell] at first

/-- Few bits are carried from a body that goes on: what bits it had are used with those held. -/
theorem length_lt_of_leads {e : Inflate} {rest : List Bool} (ha : m.Ahead (held ++ future) f tail)
    (h : Inflate.Leads m.inflate (m.carry ++ bitsOfBytes held) e rest)
    (hmoved : m.inflate.phase.isFinished = false → e ≠ m.inflate) :
    rest.length < 8 * (held.length + 1) := by
  rcases ha.carry with hfew | ⟨hu, hshort⟩
  · have := h.length_le
    simp only [List.length_append, length_bitsOfBytes] at this
    omega
  · cases h with
    | refl => exact (hmoved hu rfl).elim
    | step _ first others =>
      have hless := (Inflate.local_next _).uses_all hshort (by simp) (Parsed.ok_eq_tell .. ▸ first)
      have := others.length_le
      simp only [length_bitsOfBytes] at hless
      omega

/-- Where the bits held lead to, the bits to come go on from. -/
theorem leads_left {e : Inflate} {carry pad : List Bool} (hf : f.Rests pad)
    (hruns : Inflate.Leads m.inflate (m.carry ++ bitsOfBytes (held ++ future)) f pad)
    (hleads : Inflate.Leads m.inflate (m.carry ++ bitsOfBytes held) e
      (carry ++ bitsOfBytes left)) :
    Inflate.Leads e (carry ++ bitsOfBytes (left ++ future)) f pad := by
  rw [bitsOfBytes_append, ← List.append_assoc] at hruns ⊢
  exact (hleads.append (by simp)).onward hruns hf

theorem Ahead.onward {e : Inflate} {carry : List Bool} (ha : m.Ahead (held ++ future) f tail)
    (hleads : Inflate.Leads m.inflate (m.carry ++ bitsOfBytes held) e
      (carry ++ bitsOfBytes left)) :
    ∃ pad, pad.length < 8 ∧
      Inflate.Leads e (carry ++ bitsOfBytes (left ++ future)) f (pad ++ bitsOfBytes tail) := by
  obtain ⟨pad, hpad, hruns⟩ := ha.runs
  exact ⟨pad, hpad, leads_left (Or.inl ha.ended) hruns hleads⟩

/-- A window decodes part of what is ahead, and stops for one of four reasons. -/
theorem decodeWindow_spec (hm : m.Proper) {stop : Inflate.Stop}
    (h : m.decodeWindow held = (stop, k, left)) :
    Decodes m held k left ∧ HasStopped m k left ∧
      (stop = .full → m.inflate.output.size < k.inflate.output.size) := by
  obtain ⟨stop', e, carry, left', heq, hstops, htaken, hall, hfew⟩ := decodeWindow_eq hm held
  obtain ⟨rfl, rfl, rfl⟩ : stop' = stop ∧ _ = k ∧ left' = left := by simpa [heq] using h
  have hbound := lt_windowEnd m.inflate.output.size
  have hbits : (bitsOfBytes left').length = 8 * left'.length := length_bitsOfBytes left'
  have hstart : (m.carry ++ bitsOfBytes held).length = m.carry.length + 8 * held.length := by simp
  -- What holds of every reason to stop, once the steps before it are known.
  have hdecodes {mid : List Bool}
      (hleads : Inflate.Leads m.inflate (m.carry ++ bitsOfBytes held) e mid)
      (hlen : (carry ++ bitsOfBytes left').length ≤ mid.length)
      (hahead : ∀ {future tail : List UInt8} {f : Inflate}, m.Ahead (held ++ future) f tail →
        (⟨e, carry, m.given, decide (stop' = .corrupt)⟩ : Body).Ahead (left' ++ future) f tail)
      (hruns : ∀ {future : List UInt8} {f : Inflate} {pad : List Bool},
        m.Runs (held ++ future) f pad →
        (⟨e, carry, m.given, decide (stop' = .corrupt)⟩ : Body).Runs (left' ++ future) f pad) :
      Decodes m held ⟨e, carry, m.given, decide (stop' = .corrupt)⟩ left' := by
    obtain ⟨out, hout⟩ := hleads.output hm.phase
    have hsize := congrArg List.length hout
    have hworth := hleads.worth hm.phase
    have hgiven := hm.given
    simp only [List.length_append, Array.length_toList] at hsize hlen
    exact ⟨⟨hleads.proper hm.phase, by simp only; omega⟩, rfl, ⟨out, hout⟩, htaken,
      by simp only [worth]; omega, hahead, hruns⟩
  cases hstops with
  | full leads unfinished room =>
    have hgrown : m.inflate.output.size < e.output.size := by omega
    refine ⟨hdecodes leads (Nat.le_refl _) (fun ha => ⟨rfl, Or.inl ?_, ha.onward leads, ha.ended⟩)
      fun hr => ⟨rfl, leads_left hr.rests hr.leads leads, hr.rests⟩, Or.inr (Or.inl hgrown),
      fun _ => hgrown⟩
    refine hfew (by simp) (length_lt_of_leads ha leads ?_)
    intro _ hsame
    rw [hsame] at room
    omega
  | starved leads unfinished short =>
    obtain rfl := hall rfl
    have hshort : e.next carry = .starved := by simpa [bitsOfBytes] using short
    exact ⟨hdecodes leads (Nat.le_refl _) (fun ha =>
      ⟨rfl, Or.inr ⟨unfinished, hshort⟩, ha.onward leads, ha.ended⟩)
      fun hr => ⟨rfl, leads_left hr.rests hr.leads leads, hr.rests⟩,
      Or.inr (Or.inr (Or.inr ⟨rfl, unfinished, hshort⟩)), by simp⟩
  | finished leads ended =>
    refine ⟨hdecodes leads (Nat.le_refl _) (fun ha => ⟨rfl, Or.inl ?_, ha.onward leads, ha.ended⟩)
      fun hr => ⟨rfl, leads_left hr.rests hr.leads leads, hr.rests⟩, Or.inr (Or.inr (Or.inl ended)),
      by simp⟩
    refine hfew (by simp) (length_lt_of_leads ha leads ?_)
    intro hu hsame
    simp [hsame, hu] at ended
  | corrupt leads unfinished bad =>
    have hlen := (Inflate.local_next e).length_le (Parsed.corrupt_eq_tell _ ▸ bad)
    have hnever {future : List UInt8} {f : Inflate} {pad : List Bool} (hf : f.Rests pad)
        (hruns : Inflate.Leads m.inflate (m.carry ++ bitsOfBytes (held ++ future)) f pad) :
        False := by
      rw [bitsOfBytes_append, ← List.append_assoc] at hruns
      exact not_corrupt_of_leads (by simp) leads unfinished bad hruns hf
    refine ⟨hdecodes leads hlen ?_ fun hr => (hnever hr.rests hr.leads).elim,
      Or.inl rfl, by simp⟩
    intro future f tail ha
    obtain ⟨pad, -, hruns⟩ := ha.runs
    exact (hnever (Or.inl ha.ended) hruns).elim

/-- The induction is on the number of windows allowed. Each of them decodes part of what is ahead. -/
theorem decodeWindows_decodes (last : Bool) (goal fuel : Nat) (held : List UInt8) (hm : m.Proper) :
    Decodes m held (decodeWindows last goal fuel m held).1
      (decodeWindows last goal fuel m held).2 := by
  induction fuel generalizing m held with
  | zero => exact .refl hm held
  | succ fuel ih =>
    rw [decodeWindows]
    cases hw : m.decodeWindow held with
    | mk stop found =>
      obtain ⟨k, left⟩ := found
      obtain ⟨hdecodes, -⟩ := decodeWindow_spec hm hw
      cases stop with
      | full =>
        dsimp only
        split
        · exact hdecodes.trans (ih _ hdecodes.proper)
        · exact hdecodes
      | starved => exact hdecodes
      | finished => exact hdecodes
      | corrupt => exact hdecodes

/-- The first window stops for a reason, and windows after it only add to the output. -/
theorem decodeWindows_stopped (last : Bool) (goal fuel : Nat) (held : List UInt8) (hm : m.Proper) :
    HasStopped m (decodeWindows last goal (fuel + 1) m held).1
      (decodeWindows last goal (fuel + 1) m held).2 := by
  rw [decodeWindows]
  cases hw : m.decodeWindow held with
  | mk stop found =>
    obtain ⟨k, left⟩ := found
    obtain ⟨hdecodes, hstopped, hgrown⟩ := decodeWindow_spec hm hw
    cases stop with
    | full =>
      dsimp only
      split
      · have hsize := (decodeWindows_decodes last goal fuel left hdecodes.proper).size_le
        exact Or.inr (Or.inl (Nat.lt_of_lt_of_le (hgrown rfl) hsize))
      · exact hstopped
    | starved => exact hstopped
    | finished => exact hstopped
    | corrupt => exact hstopped

theorem advance_decodes (last : Bool) (n : Nat) (held : List UInt8) (hm : m.Proper) :
    Decodes m held (m.advance last n held).1 (m.advance last n held).2 := by
  unfold advance
  split
  · exact .refl hm held
  · exact decodeWindows_decodes last _ _ held hm

/-- After a body has advanced, it is corrupt or has output to hand out, or it is over, or it has too
few bits to go on and no byte left. -/
theorem advance_stopped (last : Bool) (n : Nat) (hm : m.Proper)
    (h : m.advance last n held = (k, left)) :
    k.isCorrupt = true ∨ k.given < k.inflate.output.size ∨ k.inflate.phase.isFinished = true ∨
      (left = [] ∧ k.inflate.phase.isFinished = false ∧ k.inflate.next k.carry = .starved) := by
  have hdecodes := advance_decodes last n held hm
  rw [h] at hdecodes
  unfold advance at h
  split at h
  · next hskip =>
    obtain ⟨rfl, rfl⟩ := Prod.mk.inj h
    simp only [Bool.or_eq_true, decide_eq_true_eq] at hskip
    exact hskip.imp_right Or.inl
  · next hgo =>
    have hstopped := decodeWindows_stopped last (m.given + n) (n / window + 1) held hm
    rw [h] at hstopped
    simp only [Bool.or_eq_true, decide_eq_true_eq, not_or] at hgo
    have hgiven := hdecodes.given
    have hmost := hm.given
    rcases hstopped with hbad | hgrown | hover | hshort
    · exact Or.inl hbad
    · exact Or.inr (Or.inl (by dsimp only at *; omega))
    · exact Or.inr (Or.inr (Or.inl hover))
    · exact Or.inr (Or.inr (Or.inr hshort))

/-- A window adds no more output than its size. -/
theorem size_decodeWindow_le (hm : m.Proper) (held : List UInt8) :
    (m.decodeWindow held).2.1.inflate.output.size ≤ m.inflate.output.size + window := by
  have hrun := Inflate.size_run_le (windowEnd m.inflate.output.size) (m.carry ++ bitsOfBytes held)
    hm.phase
  have hend := windowEnd_le m.inflate.output.size
  exact Nat.le_trans hrun (Nat.max_le.mpr ⟨hend, Nat.le_add_right ..⟩)

/-- Only a window that begins below the goal is decoded after the first one. -/
theorem size_decodeWindows_le (last : Bool) (held : List UInt8) (hm : m.Proper) :
    (decodeWindows last goal fuel m held).1.inflate.output.size ≤
      max goal m.inflate.output.size + window := by
  induction fuel generalizing m held with
  | zero => exact Nat.le_trans (Nat.le_max_right ..) (Nat.le_add_right ..)
  | succ fuel ih =>
    have hfirst := size_decodeWindow_le hm held
    rw [decodeWindows]
    cases hw : m.decodeWindow held with
    | mk stop found =>
      obtain ⟨k, left⟩ := found
      obtain ⟨hdecodes, -⟩ := decodeWindow_spec hm hw
      rw [hw] at hfirst
      dsimp only at hfirst
      have hone : k.inflate.output.size ≤ max goal m.inflate.output.size + window := by omega
      cases stop with
      | full =>
        dsimp only
        split
        · next hmore =>
          simp only [Bool.and_eq_true, decide_eq_true_eq] at hmore
          have := ih left hdecodes.proper
          omega
        · exact hone
      | starved => exact hone
      | finished => exact hone
      | corrupt => exact hone

/-- What has been decoded and not handed out is at most a window. -/
def Near (m : Body) : Prop := m.inflate.output.size ≤ m.given + window

theorem advance_near (last : Bool) (n : Nat) (held : List UInt8) (hm : m.Proper) (h : m.Near) :
    (m.advance last n held).1.inflate.output.size ≤ m.given + n + window := by
  have hgiven := hm.given
  unfold Near at h
  unfold advance
  split
  · dsimp only
    omega
  · next hgo =>
    simp only [Bool.or_eq_true, decide_eq_true_eq, not_or] at hgo
    have hmost : (decodeWindows last (m.given + n) (n / window + 2) m held).1.inflate.output.size ≤
        max (m.given + n) m.inflate.output.size + window := size_decodeWindows_le last held hm
    omega

/-- What is taken is the output not handed out yet, as far as asked for. -/
theorem take_eq (hm : m.Proper) (n : Nat) :
    m.take n = ((m.inflate.output.toList.drop m.given).take n,
      { m with given := min (m.given + n) m.inflate.output.size }) := by
  have hgiven := hm.given
  simp only [take, Array.toList_extract, List.extract_eq_take_drop, Nat.add_sub_cancel_left,
    Prod.mk.injEq, mk.injEq, true_and, and_true]
  simp only [List.length_take, List.length_drop, Array.length_toList]
  omega

end InterfaceIndex.Gzip.Body
