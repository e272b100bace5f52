import InterfaceIndex.Proofs.Dry
import InterfaceIndex.Proofs.Release.Checksum
import InterfaceIndex.Proofs.Traversal

/-! An archive is visited once: what the passes after the first one come to. -/
namespace InterfaceIndex

open Reader

/-- The visitor that goes about a file in the same way and also notes that it was handed the file. -/
def Visitor.noting {σ ε : Type} (visit : Visitor σ ε) : Visitor (σ × List SourceFile) ε :=
  fun noted file =>
    (visit noted.1 file).map fun answer => ((answer.1, noted.2 ++ [file]), answer.2)

namespace ReleaseArchive

variable {ρ σ ε : Type} [Reader ρ] {a b c : ReleaseArchive ρ} {stream : ρ} {version : String}

/-- A pass that is to be made. -/
structure Plan where
  {σ ε : Type}
  root : String
  visit : Visitor σ ε
  state : σ

namespace Plan

def run (p : Plan) (a : ReleaseArchive ρ) : p.σ × PassEnd p.ε × ReleaseArchive ρ :=
  a.visitSources p.root p.visit p.state

/-- The files that the visitor is handed, in order. -/
def handed (p : Plan) (a : ReleaseArchive ρ) : List SourceFile :=
  (a.visitSources p.root p.visit.noting (p.state, [])).1.2

/-- The archive that the pass leaves. -/
def after (p : Plan) (a : ReleaseArchive ρ) : ReleaseArchive ρ :=
  (p.run a).2.2

/-- The files that are handed to a visitor in passes made one after another, whether they fail or
not. -/
def handedOver : List Plan → ReleaseArchive ρ → List SourceFile
  | [], _ => []
  | p :: later, a => p.handed a ++ handedOver later (p.after a)

end Plan

theorem inStep_noting (visit : Visitor σ ε) :
    Tar.InStep ρ (fun s (noted : σ × List SourceFile) => noted.1 = s) visit visit.noting := by
  rintro file _ noted c rfl
  have hrun := (visit noted.1 file).run_map
    (fun answer : σ × Option ε => ((answer.1, noted.2 ++ [file]), answer.2)) c
  exact ⟨_, (((visit noted.1 file).run c).1.1, noted.2 ++ [file]), _, _, rfl, hrun, rfl⟩

/-- Noting the files makes no difference to a pass. -/
theorem run_noting (p : Plan) (a : ReleaseArchive ρ) :
    a.visitSources p.root p.visit.noting (p.state, []) =
      (((p.run a).1, p.handed a), (p.run a).2) := by
  obtain ⟨s, ⟨s', files⟩, ending, b, hplain, hnoting, hsame⟩ :=
    Tar.Archive.visitSources_inStep p.root (inStep_noting p.visit) a.tar
      (t := (p.state, [])) rfl
  obtain rfl : s' = s := hsame
  simp only [Plan.run, Plan.handed, visitSources, hplain, hnoting]

/-- A sound stream makes for a sound decoder. -/
theorem sound_decoder {F : Flow ρ} {input : Buffered (Hashed ρ)} (hs : F.Sound stream)
    (hinput : Buffered.fill ⟨(⟨stream, .start⟩ : Hashed ρ), []⟩ = (none, input)) :
    Gzip.Decoder.Sound F.hashed ⟨input, .header {}⟩ := by
  have hstream : F.hashed.Sound (⟨stream, .start⟩ : Hashed ρ) := hs
  have hbuffer : F.hashed.Sound input.inner :=
    (F.hashed.fill_ok (b := ⟨(⟨stream, .start⟩ : Hashed ρ), []⟩) hstream hinput).1
  exact ⟨hbuffer, Gzip.Header.proper_of_part (p := .fixed []) (by simp) rfl⟩

/-- An archive that has been opened either holds bytes for the first pass or has none to give at
all. -/
theorem held_or_dry {F : Flow ρ} (hs : F.Sound stream) (ho : ofStream version stream = .ok a) :
    a.tar.position = 0 ∧ (a.tar.inner.held ≠ [] ∨ Dry a.tar) := by
  obtain ⟨input, payload, hinput, hpayload, rfl⟩ := ofStream_eq_ok ho
  have hsound := sound_decoder hs hinput
  refine ⟨rfl, ?_⟩
  rcases Buffered.fill_cases (⟨⟨input, .header {}⟩, []⟩ : Buffered (Gzip.Decoder (Hashed ρ)))
    with ⟨hheld, -⟩ | ⟨-, piece, inner, hread, hbrought⟩ | ⟨-, f, inner, -, hfailed⟩
  · exact (hheld rfl).elim
  · obtain rfl : (⟨inner, piece⟩ : Buffered _) = payload := by simpa [hbrought] using hpayload
    by_cases hpiece : piece = []
    · subst hpiece
      have hdry := Gzip.Decoder.dry_of_read hsound Buffered.capacity_pos hread
      exact Or.inr (Tar.Archive.dry (Buffered.dry rfl hdry))
    · exact Or.inl hpiece
  · simp [hfailed] at hpayload

/-- An archive that no pass gets anything more out of. -/
def Spent (b : ReleaseArchive ρ) : Prop := 0 < b.tar.position ∨ Dry b.tar

theorem Spent.run (h : Spent b) (p : Plan) :
    p.run b = (p.state, if b.tar.position = 0 then .complete none {} else .notAtStart, b) := by
  by_cases hp : b.tar.position = 0
  · rcases h with hpos | hdry
    · omega
    · simp only [Plan.run, visitSources, Tar.Archive.visitSources_dry hp hdry, if_pos hp]
  · simp only [Plan.run, visitSources, Tar.Archive.visitSources, if_neg hp]

theorem Spent.handed (h : Spent b) (p : Plan) : p.handed b = [] :=
  congrArg (·.1.2) (h.run ⟨p.root, p.visit.noting, (p.state, [])⟩)

theorem Spent.handedOver (h : Spent b) (later : List Plan) : Plan.handedOver later b = [] := by
  induction later with
  | nil => rfl
  | cons p later ih =>
    have hafter : p.after b = b := congrArg (·.2.2) (h.run p)
    rw [Plan.handedOver, h.handed, hafter, ih, List.append_nil]

theorem Spent.afterPasses (h : Spent b) (hp : AfterPasses b c) : c = b := by
  induction hp with
  | start => rfl
  | pass _ root visit state ih =>
    subst ih
    exact congrArg (·.2.2) (h.run ⟨root, visit, state⟩)

/-- A pass over an archive that holds bytes takes some of them. -/
theorem position_after (hp : a.tar.position = 0) (hheld : a.tar.inner.held ≠ []) (first : Plan) :
    0 < (first.after a).tar.position := by
  obtain ⟨x, held, hheld⟩ := List.exists_cons_of_ne_nil hheld
  obtain ⟨piece, inner, hread⟩ := Buffered.read_held (n := Tar.blockSize) hheld (by decide)
  have hfirst : Reader.read a.tar Tar.blockSize = (.ok (x :: piece), ⟨inner, piece.length + 1⟩) := by
    change a.tar.read _ = _
    simp [Tar.Archive.read, hread, hp]
  exact Tar.Archive.visitSources_begun hp hfirst

/-- The first pass leaves nothing for another one: either it has taken some bytes, or there were
none. -/
theorem spent_after (hp : a.tar.position = 0) (h : a.tar.inner.held ≠ [] ∨ Dry a.tar) (first : Plan) :
    Spent (first.after a) := by
  rcases h with hheld | hdry
  · exact Or.inl (position_after hp hheld first)
  · have hafter : first.after a = a := congrArg (·.2.2) (Spent.run (Or.inr hdry) first)
    rw [hafter]
    exact Or.inr hdry

open Source Tar

/-- Once a pass has been made over an archive, whatever its visitor did and however it ended, every
later pass hands its visitor no file, leaves its state and the archive alone and is not aborted. It
reports that the archive is no longer at its start exactly when the first pass had taken at least one
byte of the contents out of it, and nothing otherwise. So passes one after another hand over what the
first of them does and no more. -/
theorem visitSources_again {data : List UInt8} {faults : List Fault} {stride : Nat → Nat}
    {a b : ReleaseArchive Source} (hf : Bearable faults)
    (ho : ofStream version (ofSchedule data faults stride) = .ok a) (first : Plan)
    (hp : AfterPasses (first.after a) b) :
    a.tar.position = 0 ∧
    (∀ later : Plan, later.handed b = [] ∧ ∃ ending, later.run b = (later.state, ending, b) ∧
      (∀ e, ending ≠ .aborted e) ∧
      (ending.fault? = some (.other "cannot call entries unless archive is at position 0") ↔
        0 < (first.after a).tar.position) ∧
      (ending.fault? = none ↔ (first.after a).tar.position = 0)) ∧
    ∀ later : List Plan, Plan.handedOver (first :: later) a = first.handed a := by
  obtain ⟨hstart, hready⟩ := held_or_dry (F := Flow.source) (settles_ofSchedule hf data stride) ho
  have hspent := spent_after hstart hready first
  obtain rfl := hspent.afterPasses hp
  refine ⟨hstart, ?_, ?_⟩
  · intro later
    refine ⟨hspent.handed later, _, hspent.run later, ?_⟩
    by_cases hpos : (first.after a).tar.position = 0
    · rw [if_pos hpos]
      refine ⟨by simp, iff_of_false (by simp [PassEnd.fault?]) (by omega), iff_of_true rfl hpos⟩
    · rw [if_neg hpos]
      exact ⟨by simp, iff_of_true rfl (by omega), iff_of_false (by simp [PassEnd.fault?]) hpos⟩
  · intro later
    rw [Plan.handedOver, hspent.handedOver, List.append_nil]

/-- An archive with contents holds some of them when it has been opened. -/
theorem held_ofStream {gz payload : List UInt8} {stride : Nat → Nat} {a : ReleaseArchive Source}
    (hm : Gzip.Members gz payload) (hgz : gz ≠ []) (hpayload : payload ≠ [])
    (ho : ofStream version (ofSchedule gz [] stride) = .ok a) :
    a.tar.position = 0 ∧ a.tar.inner.held ≠ [] := by
  obtain ⟨hstart, hready⟩ :=
    held_or_dry (F := Flow.source) (settles_ofSchedule (by simp [Bearable]) gz stride) ho
  refine ⟨hstart, hready.resolve_right fun hdry => ?_⟩
  have hends := Delivery.ends _ (holds_members hm hgz ho).1 Nat.one_pos (hdry 1)
  exact hpayload (Delivery.whole _ hends)

/-- A pass that is given up at the first word of a file. -/
def Plan.firstWord (root : String) : Plan :=
  ⟨root, Inquiry.visitor ReleaseArchive.firstWord, ((), [])⟩

/-- A pass that fails in the middle of its first header, one that is given up at a file, and after each of
them another attempt. -/
theorem visitSources_again_cut :
    (∃ a : ReleaseArchive Source, ofStream "1.4" (ofSchedule (Gzip.stored [0x41]) [] fun _ => 7) = .ok a ∧
      (Plan.firstWord "go/src").handed ((Plan.firstWord "go/src").after a) = [] ∧
      ((Plan.firstWord "go/src").run ((Plan.firstWord "go/src").after a)).2.1.fault? =
        some (.other "cannot call entries unless archive is at position 0")) ∧
    ∃ a : ReleaseArchive Source,
      ofStream "1.4" (ofSchedule (Gzip.stored (archiveOf [Release.readerFile])) [] fun p => p + 2) =
        .ok a ∧
      ((Plan.firstWord "go/src").run a).2.1 = .aborted "type" ∧
      (Plan.firstWord "go/src").handed ((Plan.firstWord "go/src").after a) = [] ∧
      ((Plan.firstWord "go/src").run ((Plan.firstWord "go/src").after a)).2.1.fault? =
        some (.other "cannot call entries unless archive is at position 0") := by
  have hbearable : Bearable [] := by decide
  constructor
  · have hm := Gzip.Members.single (Gzip.member_stored [0x41])
    have hgz : Gzip.stored [0x41] ≠ [] := by decide
    obtain ⟨a, ho⟩ : ∃ a, ofStream "1.4" (ofSchedule (Gzip.stored [0x41]) [] fun _ => 7) = .ok a :=
      ofStream_faultless "1.4" hm hgz (by decide)
    obtain ⟨hstart, hheld⟩ := held_ofStream hm hgz (by simp) ho
    obtain ⟨-, hlater, -⟩ := visitSources_again hbearable ho (.firstWord "go/src") .start
    obtain ⟨hnone, ending, hrun, -, hfault, -⟩ := hlater (.firstWord "go/src")
    refine ⟨a, ho, hnone, ?_⟩
    rw [hrun]
    exact hfault.mpr (position_after hstart hheld _)
  · have hm := Gzip.Members.single (Gzip.member_stored (archiveOf [Release.readerFile]))
    have hgz : Gzip.stored (archiveOf [Release.readerFile]) ≠ [] := by decide
    obtain ⟨a, ho⟩ : ∃ a, ofStream "1.4" (ofSchedule (Gzip.stored (archiveOf [Release.readerFile])) []
        fun p => p + 2) = .ok a := ofStream_faultless "1.4" hm hgz (by decide)
    obtain ⟨hstart, hheld⟩ := held_ofStream hm hgz (archiveOf_ne_nil _) ho
    obtain ⟨state, visits, ending, b, hvisited, hvisits⟩ :=
      visitSources_visits hm hgz ho "go/src" ReleaseArchive.firstWord ()
    rw [files_readerFile] at hvisits
    have hword : Utf8.decodeLossy ((Utf8.encode "type R interface \x7b\n").take 4) = "type" := by
      decide +kernel
    have hend : ending = .aborted "type" := hword ▸ firstWord_aborts hvisits
    obtain ⟨-, hlater, -⟩ := visitSources_again hbearable ho (.firstWord "go/src") .start
    obtain ⟨hnone, ending', hrun, -, hfault, -⟩ := hlater (.firstWord "go/src")
    refine ⟨a, ho, (congrArg (·.2.1) hvisited).trans hend, hnone, ?_⟩
    rw [hrun]
    exact hfault.mpr (position_after hstart hheld _)

end ReleaseArchive

end InterfaceIndex
