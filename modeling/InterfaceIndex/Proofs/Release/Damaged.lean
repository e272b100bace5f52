import InterfaceIndex.Proofs.Release.Archive

/-! Scanning a damaged archive: the index, if there is one, is that of some files at the front, and
damage that hits the content of a scanned file makes the scan fail. -/
namespace InterfaceIndex

open Source Tar ReleaseArchive

namespace Release

variable {r : Release} {files : List StoredFile} {passing : Failure → Prop}
  {slack came position : Nat} {scan : ArchiveScan} {cut : List UInt8}

/-- The front of a member that decodes to so many bytes. -/
theorem begins_cut {gz missing payload : List UInt8} (hm : Gzip.Member gz payload)
    (hgz : gz = cut ++ missing) (hy : Gzip.Stage.Yields (.header {}) cut came)
    (hle : came ≤ payload.length) : Begins False (payload.length - came) cut payload := by
  refine ⟨⟨missing, ?_, False.elim⟩, fun _ => ⟨came, hy, by omega⟩⟩
  rw [← hgz]
  simpa using hm.ahead .nil fun _ => rfl

/-- A position lies within the content of a file that is scanned. -/
def WithinScanned (r : Release) (files : List StoredFile) (position : Nat) : Prop :=
  ∃ before file after, files = before ++ file :: after ∧ r.scanned? file ≠ none ∧
    contentStart before file ≤ position ∧
    position < contentStart before file + file.content.length

/-- One of some failures has ended the pass of a scan early. -/
def EndedBy (r : Release) (passing : Failure → Prop) (scan : ArchiveScan) : Prop :=
  ∃ f, passing f ∧ .endedEarly r.version f ∈ scan.events

/-- A schedule without interruptions ends no pass early by one. -/
theorem not_endedBy_interrupts {faults : List Fault} (h : ∀ f ∈ faults, f.isFatal = true) :
    ¬ r.EndedBy (Interrupts faults) scan := by
  rintro ⟨f, ⟨hi, g, hg, rfl⟩, -⟩
  simpa [Fault.isFatal, hi] using h g hg

theorem LeavesWhole.not_within {k : Nat} (h : r.LeavesWhole 0 files k position) :
    ¬ r.WithinScanned files position := by
  rintro ⟨before, file, after, heq, hsome, hbegun, hunfinished⟩
  have := h before file after heq hsome
  omega

/-- Not all files have been left whole where the content of one goes on. -/
theorem LeavesWhole.not_all {k : Nat} (h : r.LeavesWhole 0 files k position) (hle : position ≤ came)
    (hwithin : r.WithinScanned files came) : k ≠ files.length := by
  obtain ⟨before, file, after, rfl, hsome, hbegun, hunfinished⟩ := hwithin
  have := h before file after rfl hsome
  simp only [List.length_append, List.length_cons]
  omega

/-- A pass that ends within the content of a scanned file makes the scan fail. -/
theorem Outcome.fails_within {calm : Prop} {short : Nat}
    (h : Outcome calm passing slack short r files position scan)
    (hwithin : r.WithinScanned files position) : ∃ problem, scan.result = .error problem := by
  cases h with
  | found count whole => exact (whole.not_within hwithin).elim
  | failed rough => exact ⟨_, rfl⟩

/-- So does a source that stops within such a content, if what is lost at the stop is of it as well: a
pass gets to the rest, unless it has been interrupted before. -/
theorem Outcome.fails_hit
    (h : Outcome False passing slack ((archiveOf files).length - came) r files position scan)
    (hle : came ≤ (archiveOf files).length)
    (hhit : ∀ p ≤ came, came ≤ p + slack → r.WithinScanned files p) :
    (∃ problem, scan.result = .error problem) ∨ r.EndedBy passing scan := by
  cases h with
  | found count whole all before reach =>
    have hbefore := before id
    have hcame : position ≤ came := by omega
    rcases reach with hk | hpassing | hreach
    · exact (whole.not_all hcame (hhit came (Nat.le_refl _) (Nat.le_add_right _ _)) hk).elim
    · exact Or.inr hpassing
    · exact (whole.not_within (hhit position hcame (by omega))).elim
  | failed rough => exact Or.inl ⟨_, rfl⟩

/-- A damaged archive: the single member of a gzip stream, cut off anywhere and read from a source with
any faults but lasting interruptions. Some front of the payload comes out of the bytes before the first
fault that is no interruption. The index, if there is one, is that of some files at the front of the
archive: each of them lies within what came and has been read whole, and no other scanned file has been
begun. They are all files, or the pass went on to the end of what came, less what a decoder loses when its
source fails, or an interruption ended it. A pass that ends within the content of a scanned file makes the
scan fail. So does damage that hits such a content, by a cut or by a failure, unless an interruption ended
the pass before. -/
theorem scanArchive_damaged (r : Release) (files : List StoredFile) {gz cut lost : List UInt8}
    (hm : Gzip.Member gz (archiveOf files)) (hcut : gz = cut ++ lost)
    (hfits : (archiveOf files).length < UInt64.size) {faults : List Fault} (hf : Bearable faults)
    (stride : Nat → Nat) :
    (∃ came, Gzip.Stage.Yields (.header {}) (untilFatal faults cut).bytes came) ∧
    ∀ came, Gzip.Stage.Yields (.header {}) (untilFatal faults cut).bytes came →
      (∀ index, (r.scanArchive (ofSchedule cut faults stride)).result = .ok index →
        ∃ k a, k ≤ files.length ∧ index = r.indexOf (files.take k) ∧
          ofStream r.version (ofSchedule cut faults stride) = .ok a ∧
          r.LeavesWhole 0 files k (r.endOf a) ∧ r.endOf a ≤ came ∧
          (k = files.length ∨
            r.EndedBy (Interrupts faults) (r.scanArchive (ofSchedule cut faults stride)) ∨
            came ≤ r.endOf a + Gzip.Decoder.lostBy (untilFatal faults cut).failure)) ∧
      (∀ a, ofStream r.version (ofSchedule cut faults stride) = .ok a →
        r.WithinScanned files (r.endOf a) →
        ∃ problem, (r.scanArchive (ofSchedule cut faults stride)).result = .error problem) ∧
      ((∀ p ≤ came, came ≤ p + Gzip.Decoder.lostBy (untilFatal faults cut).failure →
          r.WithinScanned files p) →
        (∃ problem, (r.scanArchive (ofSchedule cut faults stride)).result = .error problem) ∨
        r.EndedBy (Interrupts faults) (r.scanArchive (ofSchedule cut faults stride))) := by
  obtain ⟨missing, hmissing⟩ := untilFatal_prefix faults cut
  have hgz : gz = (untilFatal faults cut).bytes ++ (missing ++ lost) := by
    rw [← List.append_assoc, ← hmissing, hcut]
  refine ⟨(hgz ▸ hm).exists_yields, fun came hcame => ?_⟩
  have hle := (hgz ▸ hm).yields_le hcame
  have hout {a : ReleaseArchive Source} (ho : ofStream r.version (ofSchedule cut faults stride) = .ok a) :
      Outcome False (Interrupts faults) (Gzip.Decoder.lostBy (untilFatal faults cut).failure)
        ((archiveOf files).length - came) r files (r.endOf a)
        (r.scanArchive (ofSchedule cut faults stride)) :=
    scanArchive_outcome (Gzip.Decoder.fails_untilStop False.elim fun _ => And.left)
      (holds_ofSchedule hf cut stride) (begins_cut hm hgz hcame hle) hfits ho
  refine ⟨?_, fun a ho hwithin => (hout ho).fails_within hwithin, ?_⟩
  · intro index hindex
    cases ho : ofStream r.version (ofSchedule cut faults stride) with
    | error problem => simp [scanArchive, ho] at hindex
    | ok a =>
      have hout := hout ho
      unfold EndedBy
      generalize r.scanArchive (ofSchedule cut faults stride) = scan at hout hindex
      cases hout with
      | found count whole all before reach =>
        have := before id
        refine ⟨_, a, count, (Except.ok.inj hindex).symm, rfl, whole, by omega, ?_⟩
        exact reach.imp_right (Or.imp_right fun hreach => by omega)
      | failed rough => simp at hindex
  · intro hhit
    cases ho : ofStream r.version (ofSchedule cut faults stride) with
    | error problem => exact Or.inl ⟨problem, by simp [scanArchive, ho]⟩
    | ok a => exact (hout ho).fails_hit hle hhit

/-- A file with a content of more than two windows. -/
def largeFile : StoredFile :=
  .short "go/src/io/tables.go" (List.replicate 100000 0x0a) (by decide)
    (by rw [List.length_replicate]; decide)

theorem length_front_largeFile : largeFile.front.length = 512 :=
  (states_written (by decide) (by rw [List.length_replicate]; decide)).whole

theorem largeFile_scanned {p : Nat} (hbegun : 512 ≤ p) (hunfinished : p < 512 + 100000) :
    WithinScanned ⟨"1.4", {}⟩ [largeFile] p := by
  have hcontent : largeFile.content.length = 100000 := List.length_replicate
  refine ⟨[], largeFile, [], rfl, by decide +kernel, ?_, ?_⟩ <;>
    rw [contentStart, length_front_largeFile, extentOf_nil] <;> omega

theorem length_archiveOf_largeFile : (archiveOf [largeFile]).length = 101888 := by
  have hcontent : largeFile.content.length = 100000 := List.length_replicate
  simp only [archiveOf, List.flatMap_cons, List.flatMap_nil, StoredFile.bytes, List.length_append,
    List.length_replicate, length_padding, length_front_largeFile, hcontent]
  decide

theorem length_take_largeFile : ((archiveOf [largeFile]).take 90000).length = 90000 := by
  rw [List.length_take, length_archiveOf_largeFile]
  rfl

/-- The first 90000 bytes of the archive come before a reset behind the block that has the last of them. -/
theorem untilFatal_largeFile :
    untilFatal [⟨540010, ⟨.connectionReset, "reset"⟩, false⟩] (Gzip.stored (archiveOf [largeFile])) =
      ⟨Gzip.plainHeader ++ Gzip.blocksOf ((archiveOf [largeFile]).take 90000),
        some ⟨.connectionReset, "reset"⟩⟩ := by
  obtain ⟨lost, hlost⟩ := Gzip.stored_append ((archiveOf [largeFile]).take 90000)
    ((archiveOf [largeFile]).drop 90000)
  rw [List.take_append_drop] at hlost
  have hplace : (Gzip.plainHeader ++ Gzip.blocksOf ((archiveOf [largeFile]).take 90000)).length =
      540010 := by
    rw [List.length_append, Gzip.length_blocksOf, length_take_largeFile]
    rfl
  rw [hlost, ← hplace]
  exact untilFatal_single rfl

/-- A cut within the content of a file, and a connection that is reset within a large one. -/
theorem scanArchive_damaged_stored :
    (∃ lost, Gzip.stored (archiveOf [readerFile]) =
      (Gzip.plainHeader ++ Gzip.blocksOf ((archiveOf [readerFile]).take 530)) ++ lost) ∧
    (∃ problem, (scanArchive ⟨"1.4", {}⟩
        (ofSchedule (Gzip.plainHeader ++ Gzip.blocksOf ((archiveOf [readerFile]).take 530)) []
          fun p => p + 2)).result = .error problem) ∧
    ∃ problem, (scanArchive ⟨"1.4", {}⟩ (ofSchedule (Gzip.stored (archiveOf [largeFile]))
        [⟨540010, ⟨.connectionReset, "reset"⟩, false⟩] fun p => p + 2)).result = .error problem := by
  have hcut := Gzip.stored_append ((archiveOf [readerFile]).take 530)
    ((archiveOf [readerFile]).drop 530)
  rw [List.take_append_drop] at hcut
  refine ⟨hcut, ?_, ?_⟩
  · obtain ⟨lost, hlost⟩ := id hcut
    have hyields := Gzip.yields_blocksOf ((archiveOf [readerFile]).take 530)
    rw [show ((archiveOf [readerFile]).take 530).length = 530 by decide +kernel] at hyields
    have hwithin : WithinScanned ⟨"1.4", {}⟩ [readerFile] 530 :=
      ⟨[], readerFile, [], rfl, by decide +kernel, by decide +kernel, by decide +kernel⟩
    have hbearable : Bearable [] := by decide
    obtain ⟨-, hscan⟩ := scanArchive_damaged ⟨"1.4", {}⟩ [readerFile]
      (Gzip.member_stored (archiveOf [readerFile])) hlost (by decide +kernel) hbearable fun p => p + 2
    refine ((hscan 530 hyields).2.2 ?_).resolve_right (not_endedBy_interrupts (by simp))
    intro p hle hreach
    obtain rfl : p = 530 := Nat.le_antisymm hle hreach
    exact hwithin
  · have hyields := Gzip.yields_blocksOf ((archiveOf [largeFile]).take 90000)
    rw [length_take_largeFile] at hyields
    have hbearable : Bearable [⟨540010, ⟨.connectionReset, "reset"⟩, false⟩] := by decide
    obtain ⟨-, hscan⟩ := scanArchive_damaged ⟨"1.4", {}⟩ [largeFile]
      (Gzip.member_stored (archiveOf [largeFile])) (List.append_nil _).symm
      (by rw [length_archiveOf_largeFile]; decide) hbearable fun p => p + 2
    rw [untilFatal_largeFile] at hscan
    refine ((hscan 90000 hyields).2.2 ?_).resolve_right (not_endedBy_interrupts (by decide))
    intro p hle hreach
    change 90000 ≤ p + 65536 at hreach
    exact largeFile_scanned (by omega) (by omega)

end Release

end InterfaceIndex
