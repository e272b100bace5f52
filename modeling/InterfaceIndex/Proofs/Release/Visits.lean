import InterfaceIndex.Proofs.Release.Archive
import InterfaceIndex.Proofs.Tar.Along

/-! A pass depends on the payload alone: not on how it was packed, not on the pieces it comes in, and
not on how much of each file is read. -/
namespace InterfaceIndex

open Tar

variable {ρ σ ε : Type} [Reader ρ] {D : Delivery ρ} {payload : List UInt8} {root : String}
  {a : Archive ρ} {es : Entries ρ} {state : σ} {tally : Tally} {fault : Option Failure}
  {files : List PackedFile}

/-- What a visitor did with a file: how many bytes it asked for, those that came, and its answer. -/
structure Visit (ε : Type) where
  file : SourceFile
  asked : Nat
  came : List UInt8
  answer : Option ε

/-- How a visitor goes about a file: it asks for so many bytes in reads of any sizes, and then goes
on as it pleases. Any visitor does so, if only for no bytes. -/
structure Inquiry (σ ε : Type) where
  asked : Nat
  size : Nat → Nat
  next : List UInt8 → Reading (σ × Option ε)

/-- The visitor that goes about files in its way and keeps a record of its visits. -/
def Inquiry.visitor (inquire : σ → SourceFile → Inquiry σ ε) : Visitor (σ × List (Visit ε)) ε :=
  fun (state, visits) file =>
    let inquiry := inquire state file
    .ask inquiry.size inquiry.asked fun came =>
      (inquiry.next came).map fun (state, answer) =>
        ((state, visits ++ [⟨file, inquiry.asked, came, answer⟩]), answer)

/-- A visit to a file, by a visitor in a given state, brings the bytes at the front, as many as were
asked for or as there are; the answer is what the visitor comes to with them, having read on. -/
structure Visit.IsOf (visit : Visit ε) (inquire : σ → SourceFile → Inquiry σ ε) (state : σ)
    (packed : PackedFile) : Prop where
  file : visit.file = packed.file
  asked : visit.asked = (inquire state packed.file).asked
  came : visit.came = packed.content.take visit.asked
  answer : ∃ (τ : Type) (_ : Reader τ) (rest : τ),
    visit.answer = (((inquire state packed.file).next visit.came).run rest).1.2

/-- How a pass comes out that should visit given files and then end with a fault and a tally: unless
the visitor gives up, all of them are visited. -/
inductive Visits (inquire : σ → SourceFile → Inquiry σ ε) (fault : Option Failure) (tally : Tally) :
    List PackedFile → List (Visit ε) → PassEnd ε → Prop
  | finished : Visits inquire fault tally [] [] (.complete fault tally)
  | goes_on {state : σ} {packed : PackedFile} {files : List PackedFile} {visit : Visit ε}
      {visits : List (Visit ε)} {ending : PassEnd ε} (made : visit.IsOf inquire state packed)
      (answer : visit.answer = none) (others : Visits inquire fault tally files visits ending) :
      Visits inquire fault tally (packed :: files) (visit :: visits) ending
  | gives_up {state : σ} {packed : PackedFile} {files : List PackedFile} {visit : Visit ε} {e : ε}
      (made : visit.IsOf inquire state packed) (answer : visit.answer = some e) :
      Visits inquire fault tally (packed :: files) [visit] (.aborted e)

namespace Visits

variable {inquire : σ → SourceFile → Inquiry σ ε} {visits : List (Visit ε)} {ending : PassEnd ε}
  {visit : Visit ε} {n : Nat} {e : ε}

/-- The files are visited in order. -/
theorem isOf (h : Visits inquire fault tally files visits ending) (hn : visits[n]? = some visit) :
    ∃ packed state, files[n]? = some packed ∧ visit.IsOf inquire state packed := by
  induction h generalizing n with
  | finished => simp at hn
  | goes_on made answer others ih =>
    cases n with
    | zero =>
      obtain rfl : _ = visit := by simpa using hn
      exact ⟨_, _, rfl, made⟩
    | succ n => simpa using ih (by simpa using hn)
  | gives_up made answer =>
    cases n with
    | zero =>
      obtain rfl : _ = visit := by simpa using hn
      exact ⟨_, _, rfl, made⟩
    | succ n => simp at hn

/-- A visitor that never gives up visits all files. -/
theorem complete (h : Visits inquire fault tally files visits ending)
    (hnone : ∀ visit ∈ visits, visit.answer = none) :
    visits.length = files.length ∧ ending = .complete fault tally := by
  induction h with
  | finished => exact ⟨rfl, rfl⟩
  | goes_on made answer others ih =>
    obtain ⟨hlen, hend⟩ := ih fun visit hv => hnone visit (List.mem_cons_of_mem _ hv)
    exact ⟨by simp [hlen], hend⟩
  | gives_up made answer => simp [hnone _ List.mem_cons_self] at answer

/-- A visitor that gives up ends the pass with its reason. -/
theorem aborted (h : Visits inquire fault tally files visits ending) (hn : visits[n]? = some visit)
    (he : visit.answer = some e) : visits.length = n + 1 ∧ ending = .aborted e := by
  induction h generalizing n with
  | finished => simp at hn
  | goes_on made answer others ih =>
    cases n with
    | zero =>
      obtain rfl : _ = visit := by simpa using hn
      simp [answer] at he
    | succ n =>
      obtain ⟨hlen, hend⟩ := ih (n := n) (by simpa using hn)
      exact ⟨by simp [hlen], hend⟩
  | gives_up made answer =>
    cases n with
    | zero =>
      obtain rfl : _ = visit := by simpa using hn
      obtain rfl := Option.some.inj (answer.symm.trans he)
      exact ⟨rfl, rfl⟩
    | succ n => simp at hn

end Visits

/-- A visit to a file has been added to those there were. -/
def Visited (inquire : σ → SourceFile → Inquiry σ ε) (before : σ × List (Visit ε))
    (packed : PackedFile) (x : (σ × List (Visit ε)) × Option ε) : Prop :=
  ∃ visit, x.1.2 = before.2 ++ [visit] ∧ x.2 = visit.answer ∧ visit.IsOf inquire before.1 packed

theorem makes_visitor (hD : D.Calm) (inquire : σ → SourceFile → Inquiry σ ε) :
    Makes D payload (Inquiry.visitor inquire) (Visited inquire) := by
  intro before file a parts h
  obtain ⟨s, hs⟩ := Delivery.run_ask (Delivery.never_within hD)
    (inquire before.1 file).size (inquire before.1 file).asked
    (fun came => ((inquire before.1 file).next came).map fun x : σ × Option ε =>
      ((x.1, before.2 ++ [⟨file, (inquire before.1 file).asked, came, x.2⟩]), x.2))
    (h.holds_content hD parts)
  have hrun : (Inquiry.visitor inquire before file).run (⟨a, parts⟩ : Content ρ) = _ := hs
  rw [Reading.run_map] at hrun
  rw [hrun]
  exact ⟨⟨file, (inquire before.1 file).asked, _, _⟩, rfl, rfl, rfl, rfl, rfl, _, _, s, rfl⟩

/-- The record that a visitor keeps tells how its pass went. -/
theorem visits_of_along {inquire : σ → SourceFile → Inquiry σ ε} {before last : σ × List (Visit ε)}
    {ending : PassEnd ε} (h : Along (Visited inquire) fault tally before files last ending) :
    ∃ more, last.2 = before.2 ++ more ∧ Visits inquire fault tally files more ending := by
  induction h with
  | finished => exact ⟨[], (List.append_nil _).symm, .finished⟩
  | goes_on made others ih =>
    obtain ⟨visit, hrecord, hanswer, isOf⟩ := made
    obtain ⟨more, hmore, hvisits⟩ := ih
    refine ⟨visit :: more, ?_, .goes_on isOf hanswer.symm hvisits⟩
    rw [hmore, hrecord, List.append_assoc]
    rfl
  | gives_up made =>
    obtain ⟨visit, hrecord, hanswer, isOf⟩ := made
    exact ⟨[visit], hrecord, .gives_up isOf hanswer.symm⟩

namespace ReleaseArchive

/-- Whole members that come without faults never fail. -/
theorem calm_contents : Delivery.contents.Calm :=
  Delivery.calm_buffered fun hstop => (hstop.2 _ rfl).1 trivial

/-- An archive that has been opened stands at the start of its payload. -/
theorem stands_ofStream {gz payload : List UInt8} {stride : Nat → Nat} {version : String}
    {a : ReleaseArchive Source} (hm : Gzip.Members gz payload) (hgz : gz ≠ [])
    (ho : ofStream version (Source.ofSchedule gz [] stride) = .ok a) :
    a.tar.Stands .contents payload ∧ a.tar.position = 0 := by
  obtain ⟨hholds, hstart⟩ := holds_members hm hgz ho
  refine ⟨?_, hstart⟩
  rw [Archive.Stands, hstart, List.drop_zero]
  exact hholds

/-- A pass goes along the walk over the payload. -/
theorem visitSources_along {gz payload : List UInt8} {stride : Nat → Nat} {version : String}
    {a : ReleaseArchive Source} {visit : Visitor σ ε}
    {made : σ → PackedFile → σ × Option ε → Prop} (hm : Gzip.Members gz payload) (hgz : gz ≠ [])
    (ho : ofStream version (Source.ofSchedule gz [] stride) = .ok a)
    (hmade : Makes .contents payload visit made)
    (root : String) (state : σ) :
    Along made (walk payload root).fault ((walk payload root).tallyFrom {}) state
      (walk payload root).files (a.visitSources root visit state).1
      (a.visitSources root visit state).2.1 := by
  obtain ⟨hstands, hstart⟩ := stands_ofStream hm hgz ho
  exact Archive.visitSources_along calm_contents hmade hstands hstart

/-- A pass follows the walk over the payload. -/
theorem visitSources_visits {gz payload : List UInt8} {stride : Nat → Nat} {version : String}
    {a : ReleaseArchive Source} (hm : Gzip.Members gz payload) (hgz : gz ≠ [])
    (ho : ofStream version (Source.ofSchedule gz [] stride) = .ok a) (root : String)
    (inquire : σ → SourceFile → Inquiry σ ε) (state : σ) :
    ∃ (state' : σ) (visits : List (Visit ε)) (ending : PassEnd ε) (b : ReleaseArchive Source),
      a.visitSources root (Inquiry.visitor inquire) (state, []) = ((state', visits), ending, b) ∧
      Visits inquire (walk payload root).fault ((walk payload root).tallyFrom {})
        (walk payload root).files visits ending := by
  have halong := visitSources_along hm hgz ho (makes_visitor calm_contents inquire) root (state, [])
  obtain ⟨visits, hrecord, hvisits⟩ := visits_of_along halong
  generalize a.visitSources root (Inquiry.visitor inquire) (state, []) = x at hrecord hvisits
  obtain ⟨⟨state', record⟩, ending, b⟩ := x
  obtain rfl : record = visits := hrecord
  exact ⟨state', record, ending, b, rfl, hvisits⟩

/-- A pass over an archive depends on the payload alone. However the payload was packed, in whatever
pieces it comes, and whatever a visitor reads of the files, it visits the source files of the walk
over the payload in their order, gets the bytes at the front of each, and ends with the fault and the
tally of the walk; a visitor that gives up at a file ends the pass there with its reason, and the end
of the pass is not told of. -/
theorem visitSources_payload {gz payload : List UInt8} {stride : Nat → Nat}
    (hm : Gzip.Members gz payload) (hgz : gz ≠ []) (htwo : 2 ≤ stride 0) (version root : String)
    (inquire : σ → SourceFile → Inquiry σ ε) (state : σ) :
    ∃ a, ofStream version (Source.ofSchedule gz [] stride) = .ok a ∧
    ∃ (state' : σ) (visits : List (Visit ε)) (ending : PassEnd ε) (b : ReleaseArchive Source),
      a.visitSources root (Inquiry.visitor inquire) (state, []) = ((state', visits), ending, b) ∧
      (∀ (n : Nat) visit, visits[n]? = some visit →
        ∃ packed st, (walk payload root).files[n]? = some packed ∧
          visit.IsOf inquire st packed) ∧
      ((∀ visit ∈ visits, visit.answer = none) →
        visits.length = (walk payload root).files.length ∧
        ending = .complete (walk payload root).fault
          ⟨(walk payload root).entries, (walk payload root).files.length⟩ ∧
        ending.told =
          [.traversed (walk payload root).entries (walk payload root).files.length]) ∧
      ∀ (n : Nat) visit e, visits[n]? = some visit → visit.answer = some e →
        visits.length = n + 1 ∧ ending = .aborted e ∧ ending.told = [] := by
  obtain ⟨a, ho⟩ := ofStream_faultless version hm hgz htwo
  obtain ⟨state', visits, ending, b, hrun, hvisits⟩ :=
    visitSources_visits hm hgz ho root inquire state
  refine ⟨a, ho, state', visits, ending, b, hrun, ?_, ?_, ?_⟩
  · intro n visit hn
    exact hvisits.isOf hn
  · intro hnone
    obtain ⟨hlen, hend⟩ := hvisits.complete hnone
    have htally : (walk payload root).tallyFrom {} =
        ⟨(walk payload root).entries, (walk payload root).files.length⟩ := by
      simp [Walk.tallyFrom]
    rw [hend, htally]
    exact ⟨hlen, rfl, rfl⟩
  · intro n visit e hn he
    obtain ⟨hlen, hend⟩ := hvisits.aborted hn he
    rw [hend]
    exact ⟨hlen, rfl, rfl⟩

/-- A visitor that looks at the first word of a file and stops there. -/
def firstWord : Unit → SourceFile → Inquiry Unit String :=
  fun _ _ => ⟨4, fun _ => 3, fun came => .done ((), some (Utf8.decodeLossy came))⟩

/-- It gives up at the first file. -/
theorem firstWord_aborts {packed : PackedFile} {visits : List (Visit String)} {ending : PassEnd String}
    (h : Visits firstWord fault tally (packed :: files) visits ending) :
    ending = .aborted (Utf8.decodeLossy (packed.content.take 4)) := by
  cases h with
  | goes_on made answer others =>
    obtain ⟨τ, reader, rest, hanswer⟩ := made.answer
    rw [answer] at hanswer
    cases hanswer
  | gives_up made answer =>
    obtain ⟨τ, reader, rest, hanswer⟩ := made.answer
    rw [answer, made.came, made.asked] at hanswer
    exact congrArg PassEnd.aborted (Option.some.inj hanswer)

theorem files_readerFile : (walk (archiveOf [Release.readerFile]) "go/src").files =
    [⟨⟨"go/src/io/io.go", "io"⟩, Utf8.encode "type R interface \x7b\n"⟩] := by
  decide +kernel

theorem visitSources_payload_firstWord :
    ∃ a, ofStream "1.4" (Source.ofSchedule (Gzip.stored (archiveOf [Release.readerFile])) []
      fun p => p + 2) = .ok a ∧
    ∃ visits b, a.visitSources "go/src" (Inquiry.visitor firstWord) ((), []) =
      (((), visits), .aborted "type", b) ∧ visits.length = 1 := by
  have hm := Gzip.Members.single (Gzip.member_stored (archiveOf [Release.readerFile]))
  have hgz : Gzip.stored (archiveOf [Release.readerFile]) ≠ [] := by decide
  have htwo : 2 ≤ (fun p : Nat => p + 2) 0 := by decide
  obtain ⟨a, ho, ⟨⟩, visits, ending, b, hrun, hof, hall, hstop⟩ :=
    @visitSources_payload _ _ _ _ (fun p => p + 2) hm hgz htwo "1.4" "go/src" firstWord ()
  cases visits with
  | nil =>
    have hlen := (hall (by simp)).1
    simp [files_readerFile] at hlen
  | cons visit visits =>
    obtain ⟨packed, st, hpacked, isOf⟩ := hof 0 visit rfl
    obtain ⟨τ, reader, rest, hanswer⟩ := isOf.answer
    rw [files_readerFile] at hpacked
    obtain rfl := Option.some.inj hpacked
    have hfront : (Utf8.encode "type R interface \x7b\n").take 4 = Utf8.encode "type" := by
      decide +kernel
    have hword : some (Utf8.decodeLossy (Utf8.encode "type")) = some "type" := by decide +kernel
    have hcame : visit.came = Utf8.encode "type" := by
      rw [isOf.came, isOf.asked]
      exact hfront
    have htype : visit.answer = some "type" := by
      rw [hanswer, hcame]
      exact hword
    obtain ⟨hlen, rfl, -⟩ := hstop 0 visit "type" rfl htype
    exact ⟨a, ho, _, b, hrun, hlen⟩

end ReleaseArchive

end InterfaceIndex
