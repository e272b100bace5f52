import InterfaceIndex.Proofs.Tar.Payload

/-! A pass over a payload goes along the walk over it, whatever its visitor does. -/
namespace InterfaceIndex.Tar

variable {ρ σ ε : Type} [Reader ρ] {D : Delivery ρ} {payload : List UInt8} {root : String}
  {es : Entries ρ} {state : σ} {tally : Tally} {visit : Visitor σ ε}
  {made : σ → PackedFile → σ × Option ε → Prop}

/-- A tally after a walk. -/
def Walk.tallyFrom (walk : Walk) (tally : Tally) : Tally :=
  ⟨tally.entries + walk.entries, tally.scanned + walk.files.length⟩

theorem Walk.tallyFrom_pass (walk : Walk) (content : List UInt8) (tally : Tally) :
    (walk.meet none content).tallyFrom tally =
      walk.tallyFrom ⟨tally.entries + 1, tally.scanned⟩ := by
  simp only [tallyFrom, meet, Option.map_none, Option.toList_none, List.nil_append, Tally.mk.injEq,
    and_true]
  omega

theorem Walk.tallyFrom_visit (walk : Walk) (file : SourceFile) (content : List UInt8)
    (tally : Tally) : (walk.meet (some file) content).tallyFrom tally =
      walk.tallyFrom ⟨tally.entries + 1, tally.scanned + 1⟩ := by
  simp only [tallyFrom, meet, Option.map_some, Option.toList_some, List.singleton_append,
    List.length_cons, Tally.mk.injEq]
  omega

/-- What a visitor makes of any file of a payload, in any state, from wherever an archive stands. -/
def Makes (D : Delivery ρ) (payload : List UInt8) (visit : Visitor σ ε)
    (made : σ → PackedFile → σ × Option ε → Prop) : Prop :=
  ∀ (state : σ) (file : SourceFile) (a : Archive ρ) (parts : List Part), a.Stands D payload →
    made state ⟨file, spread (payload.drop a.position) parts⟩
      ((visit state file).run (⟨a, parts⟩ : Content ρ)).1

/-- How a pass comes out that should visit given files and then end with a fault and a tally: unless
the visitor gives up, all of them are visited in order. -/
inductive Along (made : σ → PackedFile → σ × Option ε → Prop) (fault : Option Failure)
    (tally : Tally) : σ → List PackedFile → σ → PassEnd ε → Prop
  | finished {state : σ} : Along made fault tally state [] state (.complete fault tally)
  | goes_on {state next last : σ} {packed : PackedFile} {files : List PackedFile}
      {ending : PassEnd ε} (visit : made state packed (next, none))
      (others : Along made fault tally next files last ending) :
      Along made fault tally state (packed :: files) last ending
  | gives_up {state last : σ} {packed : PackedFile} {files : List PackedFile} {e : ε}
      (visit : made state packed (last, some e)) :
      Along made fault tally state (packed :: files) last (.aborted e)

/-- The induction is on the number of entries allowed: each takes a header out of the stream. The
archive stands within the payload, no further than the next header, wherever a visit left it. -/
theorem Entries.visitWithin_along (hD : D.Calm) (hmade : Makes D payload visit made)
    {fuel k : Nat} (h : es.archive.Stands D payload) (hle : es.archive.position ≤ es.next)
    (hfuel : Reader.budget es.archive < fuel) (henough : Enough payload k es.next) :
    Along made (walkWithin payload root k {} es.next).fault
      ((walkWithin payload root k {} es.next).tallyFrom tally) state
      (walkWithin payload root k {} es.next).files (es.visitWithin root visit fuel tally state).1
      (es.visitWithin root visit fuel tally state).2.1 := by
  induction fuel generalizing es tally state k with
  | zero => omega
  | succ fuel ih =>
    have hadvances : Advances D payload root (Reader.budget es.archive)
        (walkWithin payload root k {} es.next) es.advance :=
      advanceWithin_walk hD h hle (Nat.lt_succ_self _) henough
    rw [Entries.visitWithin]
    generalize es.advance = x at hadvances
    cases hadvances with
    | stopped eq =>
      rw [eq]
      exact .finished
    | ended eq =>
      rw [eq]
      exact .finished
    | entry stands spent inside enough eq =>
      rename_i path parts next k' b
      have on (c : Archive ρ) (tally : Tally) (state : σ) (hc : c.Stands D payload)
          (hpos : c.position ≤ b.position + storedIn parts) (hcost : Reader.budget c ≤ Reader.budget b) :
          Along made (walkWithin payload root k' {} next).fault
            ((walkWithin payload root k' {} next).tallyFrom tally) state
            (walkWithin payload root k' {} next).files
            (Entries.visitWithin root visit fuel tally state ⟨c, next⟩).1
            (Entries.visitWithin root visit fuel tally state ⟨c, next⟩).2.1 := by
        have hbefore : c.position ≤ next := by omega
        have hless : Reader.budget c < fuel := by omega
        exact @ih ⟨c, next⟩ state tally k' hc hbefore hless enough
      rw [eq]
      dsimp only
      cases SourceFile.select? (Utf8.decodeLossy path) root with
      | none =>
        rw [Walk.tallyFrom_pass]
        exact on b ⟨tally.entries + 1, tally.scanned⟩ state stands (Nat.le_add_right _ _)
          (Nat.le_refl _)
      | some file =>
        rw [Walk.tallyFrom_visit]
        have hvisit := hmade state file b parts stands
        have hreach := Reading.reaches_run (visit state file) (⟨b, parts⟩ : Content ρ)
        dsimp only
        generalize (visit state file).run (⟨b, parts⟩ : Content ρ) = x at hvisit hreach
        obtain ⟨hstands, hpos, hcost⟩ := stands.after_reads hD hreach
        obtain ⟨⟨next, answer⟩, c⟩ := x
        cases answer with
        | some e => exact .gives_up hvisit
        | none =>
          exact .goes_on hvisit (on c.archive ⟨tally.entries + 1, tally.scanned + 1⟩ next hstands
            hpos hcost)

/-- A pass from the start of a payload goes along the whole walk. -/
theorem Archive.visitSources_along {a : Archive ρ} (hD : D.Calm)
    (hmade : Makes D payload visit made) (h : a.Stands D payload) (hstart : a.position = 0) :
    Along made (walk payload root).fault ((walk payload root).tallyFrom {}) state
      (walk payload root).files (a.visitSources root visit state).1
      (a.visitSources root visit state).2.1 := by
  have henough : Enough payload (payload.length + 1) 0 := ⟨Nat.succ_pos _, Nat.lt_succ_self _⟩
  rw [visitSources, if_pos hstart]
  exact @Entries.visitWithin_along _ _ _ _ _ _ _ ⟨a, 0⟩ state {} visit made hD hmade _ _ h
    (Nat.le_of_eq hstart) (Nat.lt_succ_self _) henough

end InterfaceIndex.Tar
