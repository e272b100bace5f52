import InterfaceIndex.Proofs.Release.Visits

/-! The checksum covers the whole compressed stream, however much of it the passes have used. -/
namespace InterfaceIndex

namespace Source

variable {stuck : Option Failure} {gone rest : List Arrival}

/-- A reading that no failure ends gets every byte. -/
theorem outcome_whole (h : (outcome stuck rest).failure = none) :
    (outcome stuck rest).bytes = bytesOf rest ∧ stuck = none := by
  induction rest with
  | nil => exact ⟨rfl, h⟩
  | cons a rest ih =>
    cases a with
    | byte b => simpa [outcome, bytesOf] using ih h
    | fault f =>
      rw [outcome] at h ⊢
      split at h
      · next hf => simpa [hf, bytesOf] using ih h
      · simp at h

/-- What no failure ends, no failure ends later. -/
theorem outcome_later (h : (outcome stuck (gone ++ rest)).failure = none) :
    (outcome stuck rest).failure = none := by
  induction gone with
  | nil => exact h
  | cons a gone ih =>
    cases a with
    | byte b => exact ih h
    | fault f =>
      rw [List.cons_append, outcome] at h
      split at h
      · exact ih h
      · simp at h

end Source

namespace ReleaseArchive

open Source

variable {s : Source} {a b : ReleaseArchive Source} {version : String} {data : List UInt8}
  {faults : List Fault} {stride : Nat → Nat}

/-- Passes over an archive, each below any root and with any visitor. -/
inductive AfterPasses {ρ : Type} [Reader ρ] (a : ReleaseArchive ρ) : ReleaseArchive ρ → Prop
  | start : AfterPasses a a
  | pass {b : ReleaseArchive ρ} {σ ε : Type} (h : AfterPasses a b) (root : String)
      (visit : Visitor σ ε) (state : σ) : AfterPasses a (b.visitSources root visit state).2.2

theorem AfterPasses.reaches {ρ : Type} [Reader ρ] {a b : ReleaseArchive ρ} (h : AfterPasses a b) :
    Reader.Reaches a.bottom b.bottom := by
  induction h with
  | start => exact .refl
  | pass _ root visit state ih => exact ih.trans (reaches_visitSources ..)

/-- Between the start of a source and its checksum lie reads alone. -/
theorem after_passes (ho : ofStream version s = .ok a) (hp : AfterPasses a b) :
    ∃ gone, Hashed.After s b.bottom gone :=
  Hashed.after_reaches ((reaches_ofStream ho).trans hp.reaches) ⟨[], Hashed.after_start s⟩

/-- The rest of the source is read patiently: its first failure that is no interruption is the
answer, and without one the sum of all its bytes is. -/
theorem checksum_eq (hs : s.Settles) {gone : List Arrival} (ha : Hashed.After s a.bottom gone) :
    a.checksum =
      match (outcome s.stuck a.bottom.inner.arrivals).failure with
      | some f => .error f
      | none => .ok (hexOfBytes (Sha256.ofMessage (bytesOf s.arrivals))) := by
  have hsettles : a.bottom.inner.Settles := fun f hf => hs f (ha.stuck ▸ hf)
  have hholds : (Delivery.untilStop (outcome s.stuck a.bottom.inner.arrivals).failure
      (·.isInterrupted = true)).hashed.buffered.Holds a.tar.inner.inner.input
        (a.tar.inner.inner.input.held ++ (outcome s.stuck a.bottom.inner.arrivals).bytes) :=
    ⟨_, rfl, hsettles, congrArg (outcome · a.bottom.inner.arrivals) ha.stuck, fun _ _ hf => hf⟩
  have hg : Delivery.Gathers _ none _ (Reader.gather .whole none a.tar.inner.inner.input) :=
    Delivery.gather_spec (by decide) hholds
  have hpatient := (Flow.gather_spends _ (Delivery.sound _ hholds) :
    Flow.Spends _ .whole none _ (Reader.gather .whole none a.tar.inner.inner.input)).patient rfl
  have hreach := Buffered.reaches_inner
    (Reader.reaches_gather .whole none a.tar.inner.inner.input)
  rw [checksum, drain]
  generalize Reader.gather .whole none a.tar.inner.inner.input = x at hg hpatient hreach
  cases hg with
  | filled eq full holds => simp at full
  | ended below holds stops =>
    rename_i c
    obtain ⟨more, hafter⟩ : ∃ more, Hashed.After s c.inner more :=
      Hashed.after_reaches hreach ⟨gone, ha⟩
    obtain ⟨rest, hrest, -, hout, -⟩ := holds
    obtain ⟨-, rfl⟩ := List.append_eq_nil_iff.mp hrest.symm
    rcases stops with ⟨-, hstop⟩ | ⟨f, hf, -⟩
    · rw [← hstop] at hout ⊢
      have hwhole := (outcome_whole (by rw [hout])).1
      rw [hout] at hwhole
      simp only [Hashed.digest, Sha256.hexDigest, hafter.sum, Sha256.finish_absorb]
      rw [hafter.arrivals, bytesOf_append, ← hwhole, List.append_nil]
    · simp at hf
  | failed eq below stops =>
    rename_i got rest f c
    rcases stops with ⟨-, hstop⟩ | ⟨g, hg, hi⟩
    · rw [← hstop]
    · obtain rfl : f = g := by simpa using hg
      simp [hpatient f rfl] at hi

/-- The checksum after any passes over an archive that could be opened. A digest is that of all
compressed data, from the first byte to the last. There is none exactly when a failure that is no
interruption comes up in the rest of the source, and never when the source has no such failure. -/
theorem checksum_afterPasses (hf : Bearable faults)
    (ho : ofStream version (ofSchedule data faults stride) = .ok a) (hp : AfterPasses a b) :
    (∀ digest, b.checksum = .ok digest → digest = hexOfBytes (Sha256.ofMessage data)) ∧
    (∃ gone, (ofSchedule data faults stride).arrivals = gone ++ b.bottom.inner.arrivals) ∧
    (∀ f, b.checksum = .error f ↔
      (outcome (ofSchedule data faults stride).stuck b.bottom.inner.arrivals).failure = some f) ∧
    (firstFatal faults data.length = none → ∃ digest, b.checksum = .ok digest) := by
  obtain ⟨gone, hafter⟩ := after_passes ho hp
  rw [checksum_eq (settles_ofSchedule hf data stride) hafter]
  refine ⟨?_, ⟨gone, hafter.arrivals⟩, ?_, ?_⟩
  · intro digest hd
    cases hfail : (outcome (ofSchedule data faults stride).stuck b.bottom.inner.arrivals).failure with
    | some f => simp [hfail] at hd
    | none =>
      have hfree := (outcome_whole hfail).2
      rw [stuck_ofSchedule, Option.map_eq_none_iff] at hfree
      simp only [hfail, Except.ok.injEq] at hd
      rw [← hd, bytesOf_ofSchedule, reachable, hfree]
  · intro f
    cases (outcome (ofSchedule data faults stride).stuck b.bottom.inner.arrivals).failure <;> simp
  · intro hnone
    have hwhole := outcome_ofSchedule hf data stride
    rw [untilFatal, hnone, hafter.arrivals] at hwhole
    rw [outcome_later (by rw [hwhole])]
    exact ⟨_, rfl⟩

/-- A payload that ends behind the content of its only file, and the same in one block. -/
def oneFile : List UInt8 := Release.readerFile.front ++ Release.readerFile.content

def oneFilePacked : List UInt8 := Gzip.inOneBlock [1, 0x13, 2, 0xec, 0xfd] oneFile

theorem members_oneFilePacked : Gzip.Members oneFilePacked oneFile := by
  have hlength : oneFile.length = 531 := by decide +kernel
  exact .single (Gzip.member_inOneBlock (hlength ▸ rfl) (by decide))

/-- A compressed archive without contents. -/
def emptyMember : List UInt8 :=
  [0x1f, 0x8b, 8, 0, 0, 0, 0, 0, 0, 3, 3, 0, 0, 0, 0, 0, 0, 0, 0, 0]

/-- A pass that is given up at the first word of a file, with the rest of the stream yet to come, and one
over an archive without contents, whose stream is interrupted on the way. -/
theorem checksum_afterPasses_firstWord :
    (∃ a, ofStream "1.4" (ofSchedule oneFilePacked [] fun _ => 7) = .ok a ∧
      (a.visitSources "go/src" (Inquiry.visitor firstWord) ((), [])).2.1 = .aborted "type" ∧
      (a.visitSources "go/src" (Inquiry.visitor firstWord) ((), [])).2.2.checksum =
        .ok (hexOfBytes (Sha256.ofMessage oneFilePacked))) ∧
    ∃ a, ofStream "1.4" (ofSchedule emptyMember [⟨14, ⟨.interrupted, "again"⟩, false⟩] fun _ => 7) =
        .ok a ∧
      (a.visitSources "go/src" (Inquiry.visitor firstWord) ((), [])).2.2.checksum =
        .ok "59869db34853933b239f1e2219cf7d431da006aa919635478511fabbfc8849d2" := by
  constructor
  · have hgz : oneFilePacked ≠ [] := by decide
    obtain ⟨a, ho⟩ : ∃ a, ofStream "1.4" (ofSchedule oneFilePacked [] fun _ => 7) = .ok a :=
      ofStream_faultless "1.4" members_oneFilePacked hgz (by decide)
    obtain ⟨state, visits, ending, b, hrun, hvisits⟩ :=
      visitSources_visits members_oneFilePacked hgz ho "go/src" firstWord ()
    have hfiles : (Tar.walk oneFile "go/src").files =
        [⟨⟨"go/src/io/io.go", "io"⟩, Utf8.encode "type R interface \x7b\n"⟩] := by decide +kernel
    have hword : Utf8.decodeLossy ((Utf8.encode "type R interface \x7b\n").take 4) = "type" := by
      decide +kernel
    rw [hfiles] at hvisits
    have hend : ending = .aborted "type" := hword ▸ firstWord_aborts hvisits
    have hp : AfterPasses a (a.visitSources "go/src" (Inquiry.visitor firstWord) ((), [])).2.2 :=
      .pass .start ..
    obtain ⟨hdigest, -, -, hok⟩ := checksum_afterPasses (by decide) ho hp
    obtain ⟨digest, hd⟩ := hok rfl
    exact ⟨a, ho, (congrArg (·.2.1) hrun).trans hend, hdigest digest hd ▸ hd⟩
  · have hopen : (ofStream "1.4" (ofSchedule emptyMember [⟨14, ⟨.interrupted, "again"⟩, false⟩]
        fun _ => 7)).isOk = true := by decide +kernel
    cases ho : ofStream "1.4" (ofSchedule emptyMember [⟨14, ⟨.interrupted, "again"⟩, false⟩]
        fun _ => 7) with
    | error problem => simp [ho, Except.isOk, Except.toBool] at hopen
    | ok a =>
      have hp : AfterPasses a (a.visitSources "go/src" (Inquiry.visitor firstWord) ((), [])).2.2 :=
        .pass .start ..
      obtain ⟨hdigest, -, -, hok⟩ := checksum_afterPasses (by decide) ho hp
      obtain ⟨digest, hd⟩ := hok (by decide)
      have hsum : hexOfBytes (Sha256.ofMessage emptyMember) =
          "59869db34853933b239f1e2219cf7d431da006aa919635478511fabbfc8849d2" := by decide +kernel
      exact ⟨a, rfl, hsum ▸ hdigest digest hd ▸ hd⟩

end ReleaseArchive

end InterfaceIndex
