import InterfaceIndex.Traversal

/-! A pass over an archive, as far as its visitor is concerned. -/
namespace InterfaceIndex.Tar

variable {ρ σ τ ε : Type} [Reader ρ] {root : String} {visit : Visitor σ ε} {P : σ → Prop}
  {Q : ε → Prop} {visit' : Visitor τ ε} {R : σ → τ → Prop}

/-- Two visitors keep in step when they go about a file alike, whatever the stream answers, and stay
in related states. -/
def InStep (ρ : Type) [Reader ρ] (R : σ → τ → Prop) (visit : Visitor σ ε) (visit' : Visitor τ ε) :
    Prop :=
  ∀ (file : SourceFile) (s : σ) (t : τ) (c : Content ρ), R s t → ∃ s' t' answer d,
    (visit s file).run c = ((s', answer), d) ∧ (visit' t file).run c = ((t', answer), d) ∧ R s' t'

/-- Passes of visitors that keep in step end alike. -/
theorem Entries.visitWithin_inStep (hstep : InStep ρ R visit visit') (fuel : Nat) (tally : Tally)
    {s : σ} {t : τ} (es : Entries ρ) (hr : R s t) : ∃ s' t' ending b,
      es.visitWithin root visit fuel tally s = (s', ending, b) ∧
      es.visitWithin root visit' fuel tally t = (t', ending, b) ∧ R s' t' := by
  induction fuel generalizing tally s t es with
  | zero => exact ⟨s, t, _, _, rfl, rfl, hr⟩
  | succ fuel ih =>
    rw [visitWithin, visitWithin]
    rcases es.advance with ⟨f | entry, es'⟩
    · exact ⟨s, t, _, _, rfl, rfl, hr⟩
    · cases entry with
      | none => exact ⟨s, t, _, _, rfl, rfl, hr⟩
      | some entry =>
        dsimp only
        cases SourceFile.select? (Utf8.decodeLossy entry.path) root with
        | none => exact ih _ _ hr
        | some file =>
          obtain ⟨s', t', answer, d, hs, ht, hr'⟩ :=
            hstep file s t ⟨es'.archive, entry.parts⟩ hr
          dsimp only
          rw [hs, ht]
          cases answer with
          | some e => exact ⟨s', t', _, _, rfl, rfl, hr'⟩
          | none => exact ih _ _ hr'

theorem Archive.visitSources_inStep (root : String) (hstep : InStep ρ R visit visit') {s : σ} {t : τ}
    (a : Archive ρ) (hr : R s t) : ∃ s' t' ending b,
      a.visitSources root visit s = (s', ending, b) ∧
      a.visitSources root visit' t = (t', ending, b) ∧ R s' t' := by
  unfold visitSources
  split
  · exact Entries.visitWithin_inStep hstep _ _ _ hr
  · exact ⟨s, t, _, _, rfl, rfl, hr⟩

end InterfaceIndex.Tar
