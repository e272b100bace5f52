import InterfaceIndex.ReleaseArchive
import InterfaceIndex.Proofs.Tar.Stream

/-! Decoding, walking over a tar archive and visiting its files only read the compressed stream. -/
namespace InterfaceIndex

open Reader

variable {ρ : Type} [Reader ρ]

namespace Gzip.Decoder

/-- The decoder that a step leaves. -/
def Step.decoder : Step ρ → Decoder ρ
  | .answer _ d => d
  | .onward d => d

theorem reaches_readByte (input : Buffered ρ) :
    Reaches input.inner (readByte input).2.inner := by
  have hg := Buffered.reaches_inner (reaches_gather ⟨1, true⟩ (some 1) input)
  unfold readByte
  split <;> simp_all

theorem reaches_step (n : Nat) (d : Decoder ρ) :
    Reaches d.input.inner (step n d).decoder.input.inner := by
  have hbyte := reaches_readByte d.input
  have hfill := d.input.reaches_fill
  unfold step
  split
  · split
    · exact .refl
    · exact .refl
    · split
      · simp_all [Step.decoder]
      · split <;> simp_all [Step.decoder]
  · split
    · simp_all [Step.decoder]
    · next m hm input hf =>
      rw [hf] at hfill
      dsimp only
      split
      · exact hfill
      · split
        · exact hfill
        · split
          · exact hfill
          · split <;> exact hfill
  · split
    · split <;> simp_all [Step.decoder]
    · split
      · split <;> simp_all [Step.decoder]
      · exact .refl
  · exact .refl

theorem reaches_readWithin (n fuel : Nat) (d : Decoder ρ) :
    Reaches d.input.inner (readWithin n fuel d).2.input.inner := by
  induction fuel generalizing d with
  | zero => exact .refl
  | succ fuel ih =>
    have hstep := reaches_step n d
    rw [readWithin]
    cases hs : step n d with
    | answer a e => simpa [hs, Step.decoder] using hstep
    | onward e =>
      rw [hs] at hstep
      exact hstep.trans (ih e)

theorem reaches_read (d : Decoder ρ) (n : Nat) :
    Reaches d.input.inner (d.read n).2.input.inner := by
  unfold read
  split
  · exact .refl
  · exact reaches_readWithin ..

theorem reaches_input {d e : Decoder ρ} (h : Reaches d e) : Reaches d.input.inner e.input.inner :=
  h.down (·.input.inner) reaches_read

end Gzip.Decoder

namespace Tar

theorem Archive.reaches_read (a : Archive ρ) (n : Nat) : Reaches a.inner (a.read n).2.inner := by
  have h := Reader.reaches_read a.inner n
  unfold read
  split <;> simp_all

theorem Archive.reaches_inner {a b : Archive ρ} (h : Reaches a b) : Reaches a.inner b.inner :=
  h.down inner reaches_read

theorem Content.Reads.reaches {n : Nat} {parts : List Part} {a : Archive ρ}
    {x : Except Failure (List UInt8) × Content ρ} (h : Reads n parts a x) :
    Reaches a x.2.archive := by
  induction h with
  | spent => exact .refl
  | blank hsome => exact .refl
  | closed hnone others ih => exact ih
  | empty others ih => exact ih
  | dry hsome hread others ih => exact (tracks_reaches.ok hread).trans ih
  | piece hsome hread hbring => exact tracks_reaches.ok hread
  | failed hsome hread => exact tracks_reaches.error hread

theorem Content.reaches_read (c : Content ρ) (n : Nat) :
    Reaches c.archive (c.read n).2.archive :=
  (c.reads n).reaches

theorem Content.reaches_archive {c d : Content ρ} (h : Reaches c d) :
    Reaches c.archive d.archive :=
  h.down archive reaches_read

theorem Archive.reaches_skip (a : Archive ρ) (amount : Nat) : Reaches a (a.skip amount).2 := by
  have hg := reaches_gather ⟨32768, false⟩ (some amount) a
  unfold skip
  dsimp only
  split
  · exact hg
  · split <;> exact hg

/-- Whatever a block turns out to be, all of it has been read. -/
theorem Archive.snd_readBlock (a : Archive ρ) :
    a.readBlock.2 = (Reader.gather ⟨blockSize, false⟩ (some blockSize) a).2 := by
  unfold readBlock
  dsimp only
  split
  · rfl
  · split
    · rfl
    · split <;> rfl

theorem Archive.reaches_readBlock (a : Archive ρ) : Reaches a a.readBlock.2 := by
  rw [snd_readBlock]
  exact reaches_gather ..

namespace Entries

theorem reaches_readHeader (es : Entries ρ) : Reaches es.archive es.readHeader.2 := by
  have hs := es.archive.reaches_skip (es.next - es.archive.position)
  unfold readHeader
  split
  · simp_all
  · next a ha =>
    have hblock := a.reaches_readBlock
    rw [ha] at hs
    split <;> simp_all [hs.trans]

theorem reaches_extendWithin (size fuel : Nat) (map : SparseMap) (es : Entries ρ) :
    Reaches es.archive (extendWithin size fuel map es).2.archive := by
  induction fuel generalizing map es with
  | zero => exact .refl
  | succ fuel ih =>
    have hblock := es.archive.reaches_readBlock
    rw [extendWithin]
    cases hb : es.archive.readBlock with
    | mk answer a =>
      rw [hb] at hblock
      rcases answer with f | _ | block
      · exact hblock
      · exact hblock
      · dsimp only
        split
        · exact hblock
        · split
          · exact hblock.trans (ih _ ⟨a, _⟩)
          · exact hblock

theorem reaches_readMap (h : Header) (size : Nat) (es : Entries ρ) :
    Reaches es.archive (readMap h size es).2.archive := by
  unfold readMap
  split
  · exact .refl
  · split
    · exact reaches_extendWithin ..
    · exact .refl

theorem reaches_readParts (h : Header) (size : Nat) (es : Entries ρ) :
    Reaches es.archive (readParts h size es).2.archive := by
  have hmap := reaches_readMap h size es
  unfold readParts
  split
  · split
    · split <;> simp_all
    · exact .refl
  · exact .refl

/-- The first thing read is the header; the rest of the members take what the fuel allows. -/
theorem reaches_behind_header {fuel : Nat} (hmore : ∀ (notes : Notes) (es : Entries ρ),
      Reaches es.archive (advanceWithin fuel notes es).2.archive)
    (notes : Notes) (es : Entries ρ) :
    Reaches es.readHeader.2 (advanceWithin (fuel + 1) notes es).2.archive := by
  rw [advanceWithin]
  cases hh : es.readHeader with
  | mk answer a =>
    rcases answer with f | _ | h
    · exact .refl
    · exact .refl
    · dsimp only
      split
      · exact .refl
      · next size next _ =>
        split
        · have hparts := reaches_readParts h size ⟨a, next⟩
          split <;> simp_all
        · split
          · exact .refl
          · have hc := Content.reaches_archive
              (reaches_gather .whole none (⟨a, [.data size]⟩ : Content ρ))
            split
            · exact hc
            · exact hc.trans (hmore _ ⟨_, next⟩)

theorem reaches_advanceWithin (fuel : Nat) (notes : Notes) (es : Entries ρ) :
    Reaches es.archive (advanceWithin fuel notes es).2.archive := by
  induction fuel generalizing notes es with
  | zero => exact .refl
  | succ fuel ih => exact es.reaches_readHeader.trans (reaches_behind_header ih notes es)

variable {σ ε : Type}

/-- The first thing a pass does is to advance to an entry. -/
theorem reaches_behind_entry {root : String} {visit : Visitor σ ε} {fuel : Nat}
    (hmore : ∀ (tally : Tally) (state : σ) (es : Entries ρ),
      Reaches es.archive (visitWithin root visit fuel tally state es).2.2)
    (tally : Tally) (state : σ) (es : Entries ρ) :
    Reaches es.advance.2.archive (visitWithin root visit (fuel + 1) tally state es).2.2 := by
  rw [visitWithin]
  cases hadv : es.advance with
  | mk answer es' =>
    rcases answer with f | _ | entry
    · exact .refl
    · exact .refl
    · dsimp only
      split
      · exact hmore ..
      · next file _ =>
        have hv := Content.reaches_archive
          (Reading.reaches_run (visit state file) (⟨es'.archive, entry.parts⟩ : Content ρ))
        split
        · next hrun =>
          rw [hrun] at hv
          exact hv
        · next content hrun =>
          rw [hrun] at hv
          exact hv.trans (hmore _ _ ⟨content.archive, _⟩)

theorem reaches_visitWithin (root : String) (visit : Visitor σ ε) (fuel : Nat) (tally : Tally)
    (state : σ) (es : Entries ρ) :
    Reaches es.archive (visitWithin root visit fuel tally state es).2.2 := by
  induction fuel generalizing tally state es with
  | zero => exact .refl
  | succ fuel ih =>
    have ha : Reaches es.archive es.advance.2.archive := reaches_advanceWithin ..
    exact ha.trans (reaches_behind_entry ih tally state es)

end Entries

theorem Archive.reaches_visitSources {σ ε : Type} (a : Archive ρ) (root : String)
    (visit : Visitor σ ε) (state : σ) : Reaches a (a.visitSources root visit state).2.2 := by
  unfold visitSources
  split
  · exact Entries.reaches_visitWithin root visit _ _ _ ⟨a, 0⟩
  · exact .refl

end Tar

namespace ReleaseArchive

variable {σ ε : Type} {version : String} {stream : ρ} {a : ReleaseArchive ρ}

/-- The hashed stream at the bottom of an archive. -/
def bottom (a : ReleaseArchive ρ) : Hashed ρ :=
  a.tar.inner.inner.input.inner

/-- An archive is opened by two fills, of a buffer below the decoder and of one above it. -/
theorem ofStream_eq_ok (h : ofStream version stream = .ok a) : ∃ input payload,
    Buffered.fill ⟨(⟨stream, .start⟩ : Hashed ρ), []⟩ = (none, input) ∧
    Buffered.fill ⟨(⟨input, .header {}⟩ : Gzip.Decoder (Hashed ρ)), []⟩ = (none, payload) ∧
    a = ⟨⟨payload, 0⟩⟩ := by
  unfold ofStream at h
  split at h
  · simp at h
  · next input hinput =>
    split at h
    · split at h
      · simp at h
      · next payload hpayload => exact ⟨input, payload, hinput, hpayload, (Except.ok.inj h).symm⟩
    · simp at h

/-- Opening an archive only reads the stream. -/
theorem reaches_ofStream (h : ofStream version stream = .ok a) :
    Reaches (⟨stream, .start⟩ : Hashed ρ) a.bottom := by
  obtain ⟨input, payload, hinput, hpayload, rfl⟩ := ofStream_eq_ok h
  have hfill := Buffered.reaches_fill (⟨(⟨stream, .start⟩ : Hashed ρ), []⟩)
  have hdecode := Buffered.reaches_fill (⟨(⟨input, .header {}⟩ : Gzip.Decoder (Hashed ρ)), []⟩)
  rw [hinput] at hfill
  rw [hpayload] at hdecode
  exact hfill.trans (Gzip.Decoder.reaches_input hdecode)

/-- A pass only reads the stream, whatever the visitor does. -/
theorem reaches_visitSources (a : ReleaseArchive ρ) (root : String) (visit : Visitor σ ε)
    (state : σ) : Reaches a.bottom (a.visitSources root visit state).2.2.bottom := by
  have htar := a.tar.reaches_visitSources root visit state
  exact Gzip.Decoder.reaches_input (Buffered.reaches_inner (Tar.Archive.reaches_inner htar))

end ReleaseArchive

end InterfaceIndex
