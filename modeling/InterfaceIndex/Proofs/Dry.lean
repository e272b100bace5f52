import InterfaceIndex.Proofs.Gzip.Budget
import InterfaceIndex.Proofs.Layers
import InterfaceIndex.Proofs.Tar.Stream

/-! Streams that have nothing more to give, layer by layer, and the first bytes of those that have. -/
namespace InterfaceIndex

namespace Reader

variable {ρ : Type} [Reader ρ] {r s : ρ}

/-- Reads bring nothing and leave the stream as it is, from now on. -/
def Dry (r : ρ) : Prop := ∀ n, read r n = (.ok [], r)

theorem Dry.gather (h : Dry r) (m : Manner) (limit : Option Nat) :
    gather m limit r = (⟨[], none⟩, r) := by
  by_cases hl : limit = some 0
  · subst hl
    rfl
  · rw [Reader.gather, gatherWithin.eq_3 _ _ _ _ (by simpa using hl), h]

/-- A run of reads brings what its first read brings. -/
theorem gather_ne_nil (m : Manner) (limit : Option Nat) {b : UInt8} {piece : List UInt8}
    (hl : limit ≠ some 0) (hread : read r (m.request limit) = (.ok (b :: piece), s)) :
    (gather m limit r).1.bytes ≠ [] := by
  rw [gather, gatherWithin.eq_3 _ _ _ _ (by simpa using hl), hread]
  simp

end Reader

open Reader

namespace Gzip.Decoder

variable {ρ : Type} [Reader ρ] {F : Flow ρ} {d e : Decoder ρ} {n fuel : Nat}

theorem dry (h : d.stage = .ended) : Dry d := by
  intro n
  change d.read n = _
  rw [Decoder.read]
  split
  · rfl
  · simp only [readWithin, step, h]

/-- Only at the end of its members does a decoder answer that there is nothing more: a header or a
trailer is never an answer, and a body answers with some bytes or a failure. -/
theorem step_nil (hn : 0 < n) (hd : d.stage.Proper) (h : step n d = .answer (.ok []) e) :
    e.stage = .ended := by
  obtain ⟨input, stage⟩ := d
  cases stage with
  | header g =>
    have hstep := step_header n input g
    rw [h] at hstep
    cases hstep
  | body m =>
    have hstep : BodyStep n input m (step n ⟨input, .body m⟩) := step_body hn hd
    rw [h] at hstep
    generalize hx : Step.answer (.ok []) e = x at hstep
    cases hstep with
    | piece fill decodes due near =>
      have hnil := (Step.answer.inj hx).1
      rw [Except.ok.injEq, eq_comm, take_nil_iff decodes.proper hn] at hnil
      omega
    | _ => simp at hx
  | trailer content sofar =>
    have hstep := step_trailer n input content sofar
    rw [h] at hstep
    cases hstep
  | ended =>
    simp only [step, Step.answer.injEq, true_and] at h
    rw [← h]

/-- The induction is on the number of steps allowed, which is never used up. -/
theorem readWithin_nil (hn : 0 < n) (hfuel : 4 * Reader.budget d.input + d.stage.rank < fuel)
    (h : Sound F d) (hr : readWithin n fuel d = (.ok [], e)) : e.stage = .ended := by
  induction fuel generalizing d with
  | zero => omega
  | succ fuel ih =>
    have hspends := step_spends hn h
    rw [readWithin] at hr
    cases hs : step n d with
    | answer a g =>
      simp only [hs, Prod.mk.injEq] at hr
      obtain ⟨rfl, rfl⟩ := hr
      exact step_nil hn h.stage hs
    | onward g =>
      rw [hs] at hr hspends
      cases hspends with
      | onward sound cost less => exact ih (by omega) sound hr

theorem dry_of_read (h : Sound F d) (hn : 0 < n) (hr : Reader.read d n = (.ok [], e)) : Dry e := by
  change d.read n = _ at hr
  have := rank_le d.stage
  rw [Decoder.read, if_neg (by omega)] at hr
  exact dry (readWithin_nil hn (by omega) h hr)

end Gzip.Decoder

namespace Buffered

variable {ρ : Type} [Reader ρ] {b c : Buffered ρ}

theorem dry (hheld : b.held = []) (h : Dry b.inner) : Dry b := by
  intro n
  obtain ⟨inner, held⟩ := b
  subst hheld
  change Buffered.read _ n = _
  rcases read_cases (⟨inner, []⟩ : Buffered ρ) n with ⟨-, -, hr⟩ | ⟨f, c, hfill, -⟩ | ⟨c, hfill, hr⟩
  · rw [hr, h]
  · simp [fill, h capacity] at hfill
  · obtain rfl : (⟨inner, []⟩ : Buffered ρ) = c := by simpa [fill, h capacity] using hfill
    simp [hr]

/-- Held bytes are handed out at once. -/
theorem read_held {n : Nat} {x : UInt8} {held : List UInt8} (hheld : b.held = x :: held) (hn : 0 < n) :
    ∃ piece c, Reader.read b n = (.ok (x :: piece), c) := by
  obtain ⟨k, rfl⟩ := Nat.exists_eq_add_of_lt hn
  refine ⟨held.take k, ⟨b.inner, held.drop k⟩, ?_⟩
  change b.read _ = _
  simp [Buffered.read, fill, hheld]

end Buffered

namespace Tar

variable {ρ σ ε : Type} [Reader ρ] {a : Archive ρ} {root : String} {visit : Visitor σ ε} {state : σ}

theorem Archive.dry (h : Dry a.inner) : Dry a := by
  intro n
  change a.read n = _
  simp [Archive.read, h n]

theorem Archive.readBlock_dry (h : Dry a) : a.readBlock = (.ok none, a) := by
  simp [Archive.readBlock, h.gather]

/-- Nothing is skipped before the first header. -/
theorem Entries.readHeader_start (hp : a.position = 0) :
    (⟨a, 0⟩ : Entries ρ).readHeader =
      (a.readBlock.1.map (·.bind Header.ofBlock?), a.readBlock.2) := by
  have hskip : a.skip 0 = (none, a) := rfl
  simp only [Entries.readHeader, hp, Nat.sub_zero, hskip]
  rcases a.readBlock with ⟨f | block, b⟩ <;> rfl

/-- A pass over a stream that has nothing to give meets no entry, and may be made again. -/
theorem Archive.visitSources_dry (hp : a.position = 0) (h : Dry a) :
    a.visitSources root visit state = (state, .complete none {}, a) := by
  have hheader : (⟨a, 0⟩ : Entries ρ).readHeader = (.ok none, a) := by
    rw [Entries.readHeader_start hp, readBlock_dry h]
    rfl
  have hadvance : (⟨a, 0⟩ : Entries ρ).advance = (.ok none, ⟨a, 0⟩) := by
    simp only [Entries.advance, Entries.advanceWithin, hheader]
    rfl
  simp only [Archive.visitSources, hp, if_true, Entries.visitWithin, hadvance]

/-- A pass over a stream whose next read brings bytes takes some of them, whatever comes then. -/
theorem Archive.visitSources_begun (hp : a.position = 0) {b : UInt8} {piece : List UInt8}
    {c : Archive ρ} (hread : Reader.read a blockSize = (.ok (b :: piece), c)) :
    0 < (a.visitSources root visit state).2.2.position := by
  have hblock : 0 < a.readBlock.2.position := by
    have hbytes := gather_ne_nil ⟨blockSize, false⟩ (some blockSize) (by decide) hread
    have hcount := a.position_gather ⟨blockSize, false⟩ (some blockSize)
    have := List.length_pos_iff.mpr hbytes
    rw [a.snd_readBlock, hcount]
    omega
  have hadvance : Reaches a.readBlock.2 (⟨a, 0⟩ : Entries ρ).advance.2.archive := by
    have h := Entries.reaches_behind_header (Entries.reaches_advanceWithin (Reader.budget a)) {}
      (⟨a, 0⟩ : Entries ρ)
    rwa [Entries.readHeader_start hp] at h
  have hpass := Entries.reaches_behind_entry (Entries.reaches_visitWithin root visit (Reader.budget a))
    {} state (⟨a, 0⟩ : Entries ρ)
  have hvisit : a.visitSources root visit state =
      Entries.visitWithin root visit (Reader.budget a + 1) {} state ⟨a, 0⟩ := if_pos hp
  rw [hvisit]
  exact Nat.lt_of_lt_of_le hblock (Archive.position_le (hadvance.trans hpass))

end Tar

end InterfaceIndex
