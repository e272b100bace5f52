import InterfaceIndex.Proofs.Tar.Members

/-! A pass over an archive turn by turn, whatever the stream brings and whatever the visitor does: every
turn takes a block out of the stream, so the turns come to an end. -/
namespace InterfaceIndex.Tar

/-- One turn of a pass: the members met up to an entry, with that of the entry itself, and the file
that is visited for it, if one is. -/
structure Turn where
  mets : List Met
  visited : Option SourceFile

/-- The members met in some turns, and then those met with no further entry behind them. -/
def metIn (turns : List Turn) (last : List Met) : List Met :=
  turns.flatMap (·.mets) ++ last

def visitedIn (turns : List Turn) : List SourceFile :=
  turns.filterMap (·.visited)

@[simp] theorem metIn_nil (last : List Met) : metIn [] last = last := rfl

@[simp] theorem metIn_cons (turn : Turn) (turns : List Turn) (last : List Met) :
    metIn (turn :: turns) last = turn.mets ++ metIn turns last := by
  simp [metIn]

theorem length_le_metIn {turns : List Turn} (h : ∀ turn ∈ turns, turn.mets ≠ []) (last : List Met) :
    turns.length ≤ (metIn turns last).length := by
  induction turns with
  | nil => exact Nat.zero_le _
  | cons turn turns ih =>
    obtain ⟨hturn, hturns⟩ := List.forall_mem_cons.mp h
    have hmets : 0 < turn.mets.length := List.length_pos_iff.mpr hturn
    have hothers := ih hturns
    rw [metIn_cons, List.length_append, List.length_cons]
    omega

variable {ρ σ ε : Type} [Reader ρ] {F : Flow (Archive ρ)} {root : String} {visit : Visitor σ ε}
  {a : Archive ρ} {c : Content ρ} {es es' : Entries ρ} {entry : Entry} {mets last : List Met}
  {turns : List Turn} {tally : Tally} {state : σ} {x : σ × PassEnd ε × Archive ρ} {fuel : Nat}

/-- A pass turn by turn, with nothing to bound their number. It goes from a tally and a state of the
visitor to what it comes to; the members met after the last entry come with it. -/
inductive Entries.Turns (root : String) (visit : Visitor σ ε) : Tally → σ → Entries ρ → List Turn →
    List Met → σ × PassEnd ε × Archive ρ → Prop
  | faulty {tally : Tally} {state : σ} {es es' : Entries ρ} {last : List Met} {f : Failure}
      (advance : Meets {} es last (.error f, es')) :
      Turns root visit tally state es [] last (state, .complete (some f) tally, es'.archive)
  | exhausted {tally : Tally} {state : σ} {es es' : Entries ρ} {last : List Met}
      (advance : Meets {} es last (.ok none, es')) :
      Turns root visit tally state es [] last (state, .complete none tally, es'.archive)
  | passed {tally : Tally} {state : σ} {es es' : Entries ρ} {entry : Entry} {mets last : List Met}
      {turns : List Turn} {x : σ × PassEnd ε × Archive ρ}
      (advance : Meets {} es mets (.ok (some entry), es'))
      (select : SourceFile.select? (Utf8.decodeLossy entry.path) root = none)
      (others : Turns root visit ⟨tally.entries + 1, tally.scanned⟩ state es' turns last x) :
      Turns root visit tally state es (⟨mets, none⟩ :: turns) last x
  | goes_on {tally : Tally} {state state' : σ} {es es' : Entries ρ} {entry : Entry} {file : SourceFile}
      {content : Content ρ} {mets last : List Met} {turns : List Turn}
      {x : σ × PassEnd ε × Archive ρ} (advance : Meets {} es mets (.ok (some entry), es'))
      (select : SourceFile.select? (Utf8.decodeLossy entry.path) root = some file)
      (answer : (visit state file).run (⟨es'.archive, entry.parts⟩ : Content ρ) =
        ((state', none), content))
      (others : Turns root visit ⟨tally.entries + 1, tally.scanned + 1⟩ state'
        ⟨content.archive, es'.next⟩ turns last x) :
      Turns root visit tally state es (⟨mets, some file⟩ :: turns) last x
  | gives_up {tally : Tally} {state state' : σ} {es es' : Entries ρ} {entry : Entry}
      {file : SourceFile} {content : Content ρ} {mets : List Met} {e : ε}
      (advance : Meets {} es mets (.ok (some entry), es'))
      (select : SourceFile.select? (Utf8.decodeLossy entry.path) root = some file)
      (answer : (visit state file).run (⟨es'.archive, entry.parts⟩ : Content ρ) =
        ((state', some e), content)) :
      Turns root visit tally state es [⟨mets, some file⟩] [] (state', .aborted e, content.archive)

/-- A whole pass turn by turn. An archive that has been read from is not gone over again. -/
inductive Archive.Turns (root : String) (visit : Visitor σ ε) (state : σ) (a : Archive ρ) :
    List Turn → List Met → σ × PassEnd ε × Archive ρ → Prop
  | begun {turns : List Turn} {last : List Met} {x : σ × PassEnd ε × Archive ρ}
      (start : a.position = 0) (made : Entries.Turns root visit {} state ⟨a, 0⟩ turns last x) :
      Turns root visit state a turns last x
  | refused (later : a.position ≠ 0) : Turns root visit state a [] [] (state, .notAtStart, a)

namespace Entries

/-- However an entry's content is read, this leaves the archive before the next header. -/
theorem Meets.trail_entry (h : Meets {} es mets (.ok (some entry), es')) (hs : F.Sound es.archive)
    (hle : es.archive.position ≤ es.next) (hnear : es.next < es.archive.position + UInt64.size)
    (hread : Reader.Reaches (⟨es'.archive, entry.parts⟩ : Content ρ) c) :
    Trail F es mets ⟨c.archive, es'.next⟩ ∧ c.archive.position ≤ es'.next := by
  obtain ⟨htrail, hentry⟩ := h.trail hs hle hnear
  have hsize : es'.archive.position + storedIn entry.parts ≤ es'.next := hentry entry rfl
  have hcontent : c.archive.position + storedIn c.parts ≤
      es'.archive.position + storedIn entry.parts :=
    (Content.stop_reaches htrail.sound hread).2
  have hbehind : Trail F es' [] ⟨c.archive, es'.next⟩ :=
    .read htrail.sound htrail.near (Content.reaches_archive hread)
  refine ⟨?_, by omega⟩
  simpa using htrail.trans hbehind

theorem reaches_answer {file : SourceFile} {parts : List Part} {answer : σ × Option ε}
    (h : (visit state file).run (⟨a, parts⟩ : Content ρ) = (answer, c)) :
    Reader.Reaches (⟨a, parts⟩ : Content ρ) c := by
  have hreach := (visit state file).reaches_run (⟨a, parts⟩ : Content ρ)
  rwa [h] at hreach

/-- The induction is on the turns: each of them leaves the archive before the place where the next
header is due. -/
theorem Turns.trail (h : Turns root visit tally state es turns last x) (hs : F.Sound es.archive)
    (hle : es.archive.position ≤ es.next) (hnear : es.next < es.archive.position + UInt64.size) :
    ∃ stop, Trail F es (metIn turns last) ⟨x.2.2, stop⟩ := by
  induction h with
  | faulty advance => exact ⟨_, (advance.trail hs hle hnear).1⟩
  | exhausted advance => exact ⟨_, (advance.trail hs hle hnear).1⟩
  | passed advance select others ih =>
    obtain ⟨hturn, hbefore⟩ := advance.trail_entry hs hle hnear .refl
    obtain ⟨stop, hothers⟩ := ih hturn.sound hbefore hturn.near
    exact ⟨stop, metIn_cons .. ▸ hturn.trans hothers⟩
  | goes_on advance select answer others ih =>
    obtain ⟨hturn, hbefore⟩ := advance.trail_entry hs hle hnear (reaches_answer answer)
    obtain ⟨stop, hothers⟩ := ih hturn.sound hbefore hturn.near
    exact ⟨stop, metIn_cons .. ▸ hturn.trans hothers⟩
  | gives_up advance select answer =>
    have hturn := (advance.trail_entry hs hle hnear (reaches_answer answer)).1
    exact ⟨_, by simpa using hturn⟩

/-- Every turn meets a member. -/
theorem Turns.mets_ne_nil (h : Turns root visit tally state es turns last x) :
    ∀ turn ∈ turns, turn.mets ≠ [] := by
  induction h with
  | faulty advance => simp
  | exhausted advance => simp
  | passed advance select others ih => exact List.forall_mem_cons.mpr ⟨advance.ne_nil, ih⟩
  | goes_on advance select answer others ih => exact List.forall_mem_cons.mpr ⟨advance.ne_nil, ih⟩
  | gives_up advance select answer => simpa using advance.ne_nil

/-- Every turn is counted, and so is every visit. -/
theorem Turns.counted (h : Turns root visit tally state es turns last x) :
    (∃ e, x.2.1 = .aborted e) ∨ ∃ fault, x.2.1 = .complete fault
      ⟨tally.entries + turns.length, tally.scanned + (visitedIn turns).length⟩ := by
  induction h with
  | faulty advance => exact Or.inr ⟨_, rfl⟩
  | exhausted advance => exact Or.inr ⟨_, rfl⟩
  | passed advance select others ih =>
    refine ih.imp_right ?_
    rintro ⟨fault, hend⟩
    exact ⟨fault, by rw [hend]; simp [visitedIn]; omega⟩
  | goes_on advance select answer others ih =>
    refine ih.imp_right ?_
    rintro ⟨fault, hend⟩
    exact ⟨fault, by rw [hend]; simp [visitedIn]; omega⟩
  | gives_up advance select answer => exact Or.inl ⟨_, rfl⟩

/-- What a pass comes to does not depend on how many more entries are allowed than there are turns. -/
theorem Turns.visitWithin_eq (h : Turns root visit tally state es turns last x)
    (hs : F.Sound es.archive) (hle : es.archive.position ≤ es.next)
    (hnear : es.next < es.archive.position + UInt64.size) (more : Nat) :
    es.visitWithin root visit (more + turns.length + 1) tally state = x := by
  induction h with
  | faulty advance => rw [visitWithin, advance.advance_eq hs hle hnear]
  | exhausted advance => rw [visitWithin, advance.advance_eq hs hle hnear]
  | passed advance select others ih =>
    obtain ⟨hturn, hbefore⟩ := advance.trail_entry hs hle hnear .refl
    rw [visitWithin, advance.advance_eq hs hle hnear]
    simp only [select]
    exact ih hturn.sound hbefore hturn.near
  | goes_on advance select answer others ih =>
    obtain ⟨hturn, hbefore⟩ := advance.trail_entry hs hle hnear (reaches_answer answer)
    rw [visitWithin, advance.advance_eq hs hle hnear]
    simp only [select, answer]
    exact ih hturn.sound hbefore hturn.near
  | gives_up advance select answer =>
    rw [visitWithin, advance.advance_eq hs hle hnear]
    simp only [select, answer]

/-- A pass is made of turns. The induction is on the number of entries allowed: each takes a block out
of the stream, which leaves enough for the others. -/
theorem visitWithin_turns (root : String) (visit : Visitor σ ε) (tally : Tally) (state : σ)
    (es : Entries ρ) (hs : F.Sound es.archive) (hle : es.archive.position ≤ es.next)
    (hnear : es.next < es.archive.position + UInt64.size)
    (hfuel : Reader.budget es.archive < fuel) : ∃ turns last,
      Turns root visit tally state es turns last (es.visitWithin root visit fuel tally state) := by
  induction fuel generalizing tally state es with
  | zero => omega
  | succ fuel ih =>
    obtain ⟨mets, hadvance⟩ := meets_advance hs hle hnear
    rw [visitWithin]
    rcases hx : es.advance with ⟨f | _ | entry, es'⟩
    · exact ⟨[], mets, .faulty (hx ▸ hadvance)⟩
    · exact ⟨[], mets, .exhausted (hx ▸ hadvance)⟩
    · rw [hx] at hadvance
      have hpaid {c : Content ρ} (hread : Reader.Reaches ⟨es'.archive, entry.parts⟩ c) :
          F.Sound c.archive ∧ c.archive.position ≤ es'.next ∧
            es'.next < c.archive.position + UInt64.size ∧ Reader.budget c.archive < fuel := by
        obtain ⟨hturn, hbefore⟩ := hadvance.trail_entry hs hle hnear hread
        have hcost := hturn.cost
        have hmets := length_le_blocksOf mets
        have hsome : 0 < mets.length := List.length_pos_iff.mpr hadvance.ne_nil
        have hblocks : blockSize ≤ blockSize * blocksOf mets :=
          Nat.le_mul_of_pos_right _ (by omega)
        have hblock : 0 < blockSize := by decide
        exact ⟨hturn.sound, hbefore, hturn.near, by dsimp only at hcost; omega⟩
      dsimp only
      cases hselect : SourceFile.select? (Utf8.decodeLossy entry.path) root with
      | none =>
        obtain ⟨hsound, hbefore, hahead, hleft⟩ := hpaid .refl
        obtain ⟨turns, last, hothers⟩ :=
          ih ⟨tally.entries + 1, tally.scanned⟩ state es' hsound hbefore hahead hleft
        exact ⟨_, last, .passed hadvance hselect hothers⟩
      | some file =>
        dsimp only
        rcases hanswer : (visit state file).run (⟨es'.archive, entry.parts⟩ : Content ρ) with
          ⟨⟨state', _ | e⟩, content⟩
        · obtain ⟨hsound, hbefore, hahead, hleft⟩ := hpaid (reaches_answer hanswer)
          obtain ⟨turns, last, hothers⟩ := ih ⟨tally.entries + 1, tally.scanned + 1⟩ state'
            ⟨content.archive, es'.next⟩ hsound hbefore hahead hleft
          exact ⟨_, last, .goes_on hadvance hselect hanswer hothers⟩
        · exact ⟨_, [], .gives_up hadvance hselect hanswer⟩

end Entries

theorem Archive.visitSources_turns (hs : F.Sound a) (root : String) (visit : Visitor σ ε) (state : σ) :
    ∃ turns last, a.Turns root visit state turns last (a.visitSources root visit state) := by
  rw [visitSources]
  split
  · next hstart =>
    obtain ⟨turns, last, hmade⟩ := Entries.visitWithin_turns root visit {} state ⟨a, 0⟩ hs
      (Nat.le_of_eq hstart) (Nat.add_pos_right _ (by decide)) (Nat.lt_succ_self _)
    exact ⟨turns, last, .begun hstart hmade⟩
  · next hlater => exact ⟨[], [], .refused hlater⟩

namespace Archive.Turns

theorem trail (h : a.Turns root visit state turns last x) (hs : F.Sound a) :
    ∃ stop, Trail F ⟨a, a.position⟩ (metIn turns last) ⟨x.2.2, stop⟩ := by
  cases h with
  | begun start made =>
    rw [start]
    exact made.trail hs (Nat.le_of_eq start) (Nat.add_pos_right _ (by decide))
  | refused later => exact ⟨a.position, .read hs (Nat.lt_add_of_pos_right (by decide)) .refl⟩

theorem length_le (h : a.Turns root visit state turns last x) :
    turns.length ≤ (metIn turns last).length := by
  cases h with
  | begun start made => exact length_le_metIn made.mets_ne_nil last
  | refused later => exact Nat.zero_le _

theorem visitWithin_eq {allowance : Nat} (h : a.Turns root visit state turns last x)
    (hs : F.Sound a) (hstart : a.position = 0) (hallowance : turns.length < allowance) :
    Entries.visitWithin root visit allowance {} state ⟨a, 0⟩ = x := by
  cases h with
  | begun start made =>
    obtain ⟨more, rfl⟩ : ∃ more, allowance = more + turns.length + 1 :=
      ⟨allowance - turns.length - 1, by omega⟩
    exact made.visitWithin_eq hs (Nat.le_of_eq start) (Nat.add_pos_right _ (by decide)) more
  | refused later => exact (later hstart).elim

end Archive.Turns

end InterfaceIndex.Tar
