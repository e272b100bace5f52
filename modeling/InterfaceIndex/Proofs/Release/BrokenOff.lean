import InterfaceIndex.Proofs.Release.Visits
import InterfaceIndex.Proofs.Tar.BrokenOff

/-! A scan depends on the payload alone, and a payload that breaks off is scanned as far as it goes. -/
namespace InterfaceIndex

open Source Tar ReleaseArchive

namespace Release

variable {ρ : Type} [Reader ρ] {D : Delivery ρ} {payload gz : List UInt8} {stride : Nat → Nat}
  {r : Release} {ds : List Declared} {p last : Progress} {fault : Option Failure} {tally : Tally}
  {packed : List PackedFile} {files : List StoredFile} {ending : PassEnd Problem}

/-- What a source file of a payload declares; a test fixture declares nothing. -/
def declaredBySource (r : Release) (packed : PackedFile) : List Declared :=
  if packed.file.isFixture then [] else r.declarations packed.file packed.content

/-- What an entry with a name and a content declares. -/
def declaredUnder (r : Release) (part : String × List UInt8) : List Declared :=
  match (SourceFile.select? part.1 (packageRoot r.version)).filter fun source =>
    !source.isFixture with
  | some source => r.declarations source part.2
  | none => []

theorem declaredUnder_stored (r : Release) (file : StoredFile) :
    r.declaredUnder (file.name, file.content) = r.declaredIn file := rfl

theorem declaredUnder_packed (r : Release) (part : String × List UInt8) :
    (packed? (packageRoot r.version) part).toList.flatMap r.declaredBySource =
      r.declaredUnder part := by
  unfold packed? declaredUnder
  cases SourceFile.select? part.1 (packageRoot r.version) with
  | none => rfl
  | some source => cases hfix : source.isFixture <;> simp [declaredBySource, Option.filter, hfix]

/-- A visit adds what a file declares to the progress, and the pass goes on. -/
def ScansFile (r : Release) (p : Progress) (packed : PackedFile)
    (x : Progress × Option Problem) : Prop :=
  x.2 = none ∧ ∀ ds, Found ds p → Found (ds ++ r.declaredBySource packed) x.1

/-- No file of a stream that never fails is unreadable. -/
theorem makes_scanner (hD : D.Calm) (r : Release) : Makes D payload r.scanner r.ScansFile := by
  intro p file a parts h
  have hcontent := h.holds_content hD parts
  unfold scanner
  rw [Reading.run_map]
  cases hfix : file.isFixture with
  | true =>
    have hnothing : r.declaredBySource ⟨file, spread (payload.drop a.position) parts⟩ = [] := by
      simp [declaredBySource, hfix]
    rw [scan_fixture hfix]
    refine ⟨rfl, fun ds hp => ?_⟩
    rw [hnothing]
    exact hp.add
  | false =>
    have hdeclared : r.declaredBySource ⟨file, spread (payload.drop a.position) parts⟩ =
        r.declarations file (spread (payload.drop a.position) parts) := by
      simp [declaredBySource, hfix]
    rcases scan_run (r := r) _ hfix hcontent with ⟨c, hrun, -⟩ | ⟨f, rest, got, c, -, -, hstop, -⟩
    · rw [hrun]
      refine ⟨rfl, fun ds hp => ?_⟩
      rw [hdeclared]
      exact hp.add
    · exact (Delivery.never_within hD hstop).elim

/-- The scanner never gives up, and finds what all files declare. -/
theorem found_of_along (h : Along r.ScansFile fault tally p packed last ending) (hp : Found ds p) :
    Found (ds ++ packed.flatMap r.declaredBySource) last ∧ ending = .complete fault tally := by
  induction h generalizing ds with
  | finished => exact ⟨by simpa using hp, rfl⟩
  | goes_on made others ih => simpa using ih (made.2 ds hp)
  | gives_up made => exact absurd made.1 (by simp)

/-- A scan depends on the payload alone: however it was packed and in whatever pieces it comes, the
index is that of the source files of the walk, and the fault of the walk is told of. -/
theorem scanArchive_payload (r : Release) (hm : Gzip.Members gz payload) (hgz : gz ≠ [])
    (htwo : 2 ≤ stride 0) :
    (r.scanArchive (ofSchedule gz [] stride)).result = .ok (.ofDeclarations
        ((walk payload (packageRoot r.version)).files.flatMap r.declaredBySource)) ∧
      ∀ f, (walk payload (packageRoot r.version)).fault = some f →
        .endedEarly r.version f ∈ (r.scanArchive (ofSchedule gz [] stride)).events := by
  obtain ⟨a, ho⟩ := ofStream_faultless r.version hm hgz htwo
  have halong := visitSources_along hm hgz ho (makes_scanner calm_contents r)
    (packageRoot r.version) {}
  obtain ⟨hfound, hend⟩ := found_of_along halong found_start
  rw [scanArchive, ho]
  dsimp only
  generalize a.visitSources (packageRoot r.version) r.scanner {} = x at hfound hend
  obtain ⟨progress, ending, b⟩ := x
  dsimp only at hfound hend
  subst hend
  refine ⟨congrArg Except.ok hfound.index, ?_⟩
  intro f hf
  exact List.mem_append_right _ (endedEarly_mem_closing.mpr ⟨rfl, hf⟩)

/-- A payload that breaks off ends a scan like the end of an archive. If an archive has been cut,
wherever that may be, the index is that of the files whose headers have not been cut, each with as
much of its content as there is. If a block in disorder stands behind the files, the index is that of
all of them whatever comes after it, and the end is told of. Positions in an archive are checked to
fit in 64 bits. -/
theorem scanArchive_brokenOff (r : Release) (files : List StoredFile)
    (hfits : (archiveOf files).length < UInt64.size) (stride : Nat → Nat) (htwo : 2 ≤ stride 0) :
    (∀ (cut : Nat) (gz : List UInt8), Gzip.Members gz ((archiveOf files).take cut) → gz ≠ [] →
      (r.scanArchive (ofSchedule gz [] stride)).result =
        .ok (.ofDeclarations ((frontOf files cut).flatMap r.declaredUnder))) ∧
    ∀ (h : Header) (after gz : List UInt8), h.InDisorder →
      Gzip.Members gz (files.flatMap StoredFile.bytes ++ (h.block ++ after)) →
      (r.scanArchive (ofSchedule gz [] stride)).result = .ok (r.indexOf files) ∧
      ∃ f, .endedEarly r.version f ∈ (r.scanArchive (ofSchedule gz [] stride)).events := by
  constructor
  · intro cut gz hm hgz
    obtain ⟨hresult, -⟩ := r.scanArchive_payload hm hgz htwo
    rw [hresult, walk_cut hfits, List.flatMap_assoc]
    simp only [declaredUnder_packed]
  · intro h after gz hh hm
    have hgz : gz ≠ [] := by
      rintro rfl
      have hnil := congrArg List.length hm.content_nil
      have hblock : 0 < blockSize := by decide
      simp only [List.length_append, hh.whole, List.length_nil] at hnil
      omega
    have hless : extentOf files < UInt64.size := by
      rw [archiveOf, List.length_append] at hfits
      exact Nat.lt_of_le_of_lt (Nat.le_add_right _ _) hfits
    obtain ⟨hresult, htold⟩ := r.scanArchive_payload hm hgz htwo
    obtain ⟨hfiles, f, hf⟩ := walk_disorder hh hless (packageRoot r.version) after
    refine ⟨?_, f, htold f hf⟩
    rw [hresult, hfiles, List.flatMap_assoc, List.flatMap_map]
    simp only [declaredUnder_packed, declaredUnder_stored]
    rfl

/-- A header in disorder: its sum is no number. -/
def disorderly : Header := ⟨List.replicate blockSize 0x42⟩

theorem scanArchive_brokenOff_stored :
    Gzip.Members (Gzip.stored ((archiveOf [readerFile]).take 530)) ((archiveOf [readerFile]).take 530) ∧
    (∃ index, (scanArchive ⟨"1.4", {}⟩ (ofSchedule (Gzip.stored ((archiveOf [readerFile]).take 530)) []
        fun p => p + 2)).result = .ok index ∧ (index.find? ⟨"R", "io"⟩).isSome = true) ∧
    ∃ f, .endedEarly "1.4" f ∈ (scanArchive ⟨"1.4", {}⟩ (ofSchedule
      (Gzip.stored ([readerFile].flatMap StoredFile.bytes ++ (disorderly.block ++ [0x17]))) []
        fun p => p + 2)).events := by
  have hm := Gzip.Members.single (Gzip.member_stored ((archiveOf [readerFile]).take 530))
  have hm' := Gzip.Members.single (Gzip.member_stored
    ([readerFile].flatMap StoredFile.bytes ++ (disorderly.block ++ [0x17])))
  have hgz : Gzip.stored ((archiveOf [readerFile]).take 530) ≠ [] := by decide
  have hfits : (archiveOf [readerFile]).length < UInt64.size := by decide +kernel
  have htwo : 2 ≤ (fun p : Nat => p + 2) 0 := by decide
  have hdisorder : disorderly.InDisorder := by
    refine ⟨by decide +kernel, by decide +kernel, ?_⟩
    intro stated hstated
    have herror : ∃ f, disorderly.statedSum = .error f := ⟨_, rfl⟩
    obtain ⟨f, hf⟩ := herror
    simp [hf] at hstated
  obtain ⟨hcut, hbroken⟩ := scanArchive_brokenOff ⟨"1.4", {}⟩ [readerFile] hfits (fun p => p + 2) htwo
  exact ⟨hm, ⟨_, hcut 530 _ hm hgz, by decide +kernel⟩, (hbroken disorderly [0x17] _ hdisorder hm').2⟩

end Release

end InterfaceIndex
