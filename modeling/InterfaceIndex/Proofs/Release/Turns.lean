import InterfaceIndex.Proofs.Release.Again
import InterfaceIndex.Proofs.Release.Visits
import InterfaceIndex.Proofs.Tar.BrokenOff
import InterfaceIndex.Proofs.Tar.Turns

/-! A pass over the archive of a release ends: it takes no more turns than there are blocks in what it
takes out of the archive. -/
namespace InterfaceIndex

open Tar

variable {ρ σ ε : Type} [Reader ρ] {root : String} {visit : Visitor σ ε} {tally : Tally} {state : σ}
  {turns : List Turn} {last : List Met}

/-- What a visitor that notes a file comes to is what it comes to without, and the file. -/
theorem Visitor.run_noting {noted noted' : σ × List SourceFile} {file : SourceFile}
    {answer : Option ε} {r s : ρ} (h : (visit.noting noted file).run r = ((noted', answer), s)) :
    (visit noted.1 file).run r = ((noted'.1, answer), s) ∧ noted'.2 = noted.2 ++ [file] := by
  rw [noting, Reading.run_map] at h
  generalize (visit noted.1 file).run r = y at h
  obtain ⟨⟨state', answer'⟩, s'⟩ := y
  cases h
  exact ⟨rfl, rfl⟩

namespace Tar

variable {noted : σ × List SourceFile} {a : Archive ρ} {es : Entries ρ}
  {x : (σ × List SourceFile) × PassEnd ε × Archive ρ}

/-- A visitor that notes the files it is handed goes about the same turns. -/
theorem Entries.Turns.noting
    (h : Entries.Turns root visit.noting tally noted es turns last x) :
    Entries.Turns root visit tally noted.1 es turns last (x.1.1, x.2) ∧
      x.1.2 = noted.2 ++ visitedIn turns := by
  induction h with
  | faulty advance => exact ⟨.faulty advance, (List.append_nil _).symm⟩
  | exhausted advance => exact ⟨.exhausted advance, (List.append_nil _).symm⟩
  | passed advance select others ih => exact ⟨.passed advance select ih.1, ih.2⟩
  | goes_on advance select answer others ih =>
    obtain ⟨hrun, hnoted⟩ := Visitor.run_noting answer
    refine ⟨.goes_on advance select hrun ih.1, ?_⟩
    rw [ih.2, hnoted, List.append_assoc]
    rfl
  | gives_up advance select answer =>
    obtain ⟨hrun, hnoted⟩ := Visitor.run_noting answer
    exact ⟨.gives_up advance select hrun, hnoted⟩

theorem Archive.Turns.noting
    (h : a.Turns root visit.noting (state, []) turns last x) :
    a.Turns root visit state turns last (x.1.1, x.2) ∧ x.1.2 = visitedIn turns := by
  cases h with
  | begun start made =>
    obtain ⟨hmade, hnoted⟩ := made.noting
    exact ⟨.begun start hmade, hnoted⟩
  | refused later => exact ⟨.refused later, rfl⟩

/-- The end of a pass that is not given up tells the number of the turns and of the visits. -/
theorem Archive.Turns.told {x : σ × PassEnd ε × Archive ρ} (h : a.Turns root visit state turns last x)
    (hstart : a.position = 0) (hend : ∀ e, x.2.1 ≠ .aborted e) :
    x.2.1.told = [.traversed turns.length (visitedIn turns).length] := by
  cases h with
  | begun start made =>
    rcases made.counted with ⟨e, he⟩ | ⟨fault, hcomplete⟩
    · exact (hend e he).elim
    · rw [hcomplete]
      simp [PassEnd.told]
  | refused later => exact (later hstart).elim

end Tar

namespace ReleaseArchive

variable {a b : ReleaseArchive ρ} {stream : ρ} {version : String}

theorem AfterPasses.reaches_tar (h : AfterPasses a b) : Reader.Reaches a.tar b.tar := by
  induction h with
  | start => exact .refl
  | pass _ root visit state ih => exact ih.trans (Archive.reaches_visitSources ..)

/-- A sound stream makes for a sound archive. -/
theorem sound_ofStream {F : Flow ρ} (hs : F.Sound stream) (ho : ofStream version stream = .ok a) :
    F.hashed.decoded.buffered.archive.Sound a.tar := by
  obtain ⟨input, payload, hinput, hpayload, rfl⟩ := ofStream_eq_ok ho
  have hdecoder : F.hashed.decoded.Sound ⟨input, .header {}⟩ := sound_decoder hs hinput
  exact (F.hashed.decoded.fill_ok hdecoder hpayload).1

namespace Plan

/-- How many bytes of the contents a pass takes out of the archive. -/
def taken (p : Plan) (b : ReleaseArchive ρ) : Nat :=
  (p.after b).tar.position - b.tar.position

/-- A pass is made of turns, and the files that are visited in them are those that its visitor is
handed. -/
theorem made_of_turns {F : Flow (Tar.Archive (Buffered (Gzip.Decoder (Hashed ρ))))}
    (hs : F.Sound b.tar) (p : Plan) : ∃ turns last,
      b.tar.Turns p.root p.visit p.state turns last ((p.run b).1, (p.run b).2.1, (p.after b).tar) ∧
      p.handed b = visitedIn turns := by
  obtain ⟨turns, last, hturns⟩ := Archive.visitSources_turns hs p.root p.visit.noting (p.state, [])
  obtain ⟨hmade, hnoted⟩ := hturns.noting
  have hrun : b.tar.visitSources p.root p.visit.noting (p.state, []) =
      (((p.run b).1, p.handed b), (p.run b).2.1, (p.after b).tar) := by
    have hnoting := run_noting p b
    rw [visitSources] at hnoting
    generalize b.tar.visitSources p.root p.visit.noting (p.state, []) = y at hnoting
    obtain ⟨noted, ending, tar⟩ := y
    obtain ⟨hnoted, hend⟩ := Prod.mk.inj hnoting
    rw [hnoted, after, ← hend]
  rw [hrun] at hmade hnoted
  exact ⟨turns, last, hmade, hnoted⟩

end Plan

open Source

/-- A pass over an archive ends, whatever the stream brings and whatever the visitor does with it. It
is made of turns, no more of them than there are blocks in what it takes out of the archive, and hands
its visitor at most one file in a turn. If it is begun and not given up, its end tells the number of
the turns and of the files. The stream and the visitor alone end it: any allowance above that bound
comes to the same. All members that it meets, those that only speak of others among them, are as few,
even with all further blocks behind their headers; they lie one behind another, and the archive never
goes back. To count places to 64 bits makes no difference to what is skipped. A place runs over
those 64 bits only where a sparse file has further blocks, which are counted without a check, or
behind as many bytes. Nor is any run of reads on the way, of the archive or of a content, cut short. -/
theorem visitSources_bounded {data : List UInt8} {faults : List Fault} {stride : Nat → Nat}
    {a b : ReleaseArchive Source} (hf : Bearable faults)
    (ho : ofStream version (ofSchedule data faults stride) = .ok a) (hp : AfterPasses a b)
    (p : Plan) : ∃ turns last,
      b.tar.Turns p.root p.visit p.state turns last ((p.run b).1, (p.run b).2.1, (p.after b).tar) ∧
      turns.length ≤ p.taken b / blockSize ∧
      p.handed b = visitedIn turns ∧ (p.handed b).length ≤ turns.length ∧
      (b.tar.position = 0 →
        ((∀ e, (p.run b).2.1 ≠ .aborted e) →
          (p.run b).2.1.told = [.traversed turns.length (p.handed b).length]) ∧
        ∀ allowance, p.taken b / blockSize < allowance →
          Entries.visitWithin p.root p.visit allowance {} p.state ⟨b.tar, 0⟩ =
            ((p.run b).1, (p.run b).2.1, (p.after b).tar)) ∧
      (metIn turns last).length ≤ p.taken b / blockSize ∧
      blocksOf (metIn turns last) ≤ p.taken b / blockSize ∧
      (∃ stop, Laid b.tar.position (metIn turns last) stop) ∧
      (∀ m ∈ metIn turns last, m.behind + blockSize * m.extensions ≤ (p.after b).tar.position) ∧
      b.tar.position ≤ (p.after b).tar.position ∧
      (∀ m ∈ metIn turns last,
        (UInt64.ofNat m.due - UInt64.ofNat m.stood).toNat = m.due - m.stood) ∧
      ((∀ m ∈ metIn turns last, m.extensions = 0) → (p.after b).tar.position < UInt64.size →
        ∀ m ∈ metIn turns last, m.next < UInt64.size) ∧
      ∀ c, Reader.Reaches b.tar c → Reader.RunsEnd c ∧
        ∀ parts, Reader.RunsEnd (⟨c, parts⟩ : Content _) := by
  have hsource : Flow.source.Sound (ofSchedule data faults stride) := settles_ofSchedule hf data stride
  obtain ⟨hs, -⟩ := Flow.reaches _ hp.reaches_tar (sound_ofStream hsource ho)
  obtain ⟨turns, last, hmade, hhanded⟩ := p.made_of_turns hs
  obtain ⟨stop, htrail⟩ := hmade.trail hs
  have hblocks : blocksOf (metIn turns last) ≤ p.taken b / blockSize := htrail.blocksOf_le
  have hmets := Nat.le_trans (length_le_blocksOf _) hblocks
  have hturns : turns.length ≤ p.taken b / blockSize := Nat.le_trans hmade.length_le hmets
  have hgrown : b.tar.position ≤ (p.after b).tar.position :=
    Nat.le_trans (Nat.le_add_right _ _) htrail.taken
  refine ⟨turns, last, hmade, hturns, hhanded, ?_, ?_, hmets, hblocks, ⟨stop, htrail.laid⟩,
    htrail.behind, hgrown, fun m hm => htrail.laid.skipped hm, ?_, ?_⟩
  · rw [hhanded]
    exact List.length_filterMap_le _ _
  · intro hstart
    refine ⟨?_, ?_⟩
    · intro hend
      rw [hhanded]
      exact hmade.told hstart hend
    · intro allowance hallowance
      exact hmade.visitWithin_eq hs hstart (Nat.lt_of_le_of_lt hturns hallowance)
  · intro hplain hshort
    refine (htrail.laid.fits (Nat.lt_of_le_of_lt hgrown hshort) hplain fun m hm => ?_).1
    exact Nat.lt_of_le_of_lt (Nat.le_trans (Nat.le_add_right _ _) (htrail.behind m hm)) hshort
  · intro c hreach
    have hc := (Flow.reaches _ hreach hs).1
    refine ⟨Flow.runsEnd _ hc, ?_⟩
    intro parts
    exact Flow.source.hashed.decoded.buffered.archive.content.runsEnd hc

/-- A visitor that reads nothing and never gives up. -/
def lookOn : Unit → SourceFile → Inquiry Unit Empty :=
  fun _ _ => ⟨0, fun _ => 0, fun _ => .done ((), none)⟩

def Plan.lookingOn (root : String) : Plan :=
  ⟨root, Inquiry.visitor lookOn, ((), [])⟩

/-- A payload that ends right behind the header of a file, of which that header says that it is as large
as a header can say in octal digits. -/
def overstated : List UInt8 :=
  Release.readerFile.bytes ++ (written (Utf8.encode "go/src/io/pipe.go") 0o77777777777 0x30).block

theorem visitSources_bounded_overstated : ∃ a : ReleaseArchive Source,
    ofStream "1.4" (ofSchedule (Gzip.stored overstated) [] fun p => p + 2) = .ok a ∧
    ((Plan.lookingOn "go/src").run a).2.1.told = [.traversed 2 2] ∧
    ((Plan.lookingOn "go/src").handed a).length = 2 ∧
    2 ≤ (Plan.lookingOn "go/src").taken a / blockSize := by
  have hm := Gzip.Members.single (Gzip.member_stored overstated)
  have hgz : Gzip.stored overstated ≠ [] := by decide
  have hbearable : Bearable [] := by decide
  obtain ⟨a, ho⟩ : ∃ a, ofStream "1.4" (ofSchedule (Gzip.stored overstated) [] fun p => p + 2) =
      .ok a := ofStream_faultless "1.4" hm hgz (by decide)
  obtain ⟨hstart, -⟩ :=
    held_or_dry (F := Flow.source) (settles_ofSchedule hbearable _ fun p => p + 2) ho
  obtain ⟨state', visits, ending, b, hrun, hvisits⟩ := visitSources_visits hm hgz ho "go/src" lookOn ()
  have hgoes_on : ∀ visit ∈ visits, visit.answer = none := by
    intro visit _
    cases visit.answer with
    | none => rfl
    | some e => exact e.elim
  have htally : (walk overstated "go/src").tallyFrom {} = ⟨2, 2⟩ := by decide +kernel
  have hend : ((Plan.lookingOn "go/src").run a).2.1 =
      .complete (walk overstated "go/src").fault ⟨2, 2⟩ := by
    rw [← htally]
    exact (congrArg (·.2.1) hrun).trans (hvisits.complete hgoes_on).2
  have htold : ((Plan.lookingOn "go/src").run a).2.1.told = [.traversed 2 2] := by
    rw [hend]
    rfl
  obtain ⟨turns, last, -, hturns, -, -, hends, -⟩ :=
    visitSources_bounded hbearable ho .start (.lookingOn "go/src")
  have hcounts := (hends hstart).1 fun e => e.elim
  simp only [htold, List.cons.injEq, Event.traversed.injEq, and_true] at hcounts
  obtain ⟨hlength, hhanded⟩ := hcounts
  exact ⟨a, ho, htold, hhanded.symm, hlength ▸ hturns⟩

/-- The header of a sparse file of which almost as much is said to be stored as 64 bits can count, with
further descriptors to come. -/
def boundless : Header :=
  let front := Utf8.encode "go/src/io/io.go" ++ (List.replicate 109 0 ++
    ([0x80, 0, 0, 0, 0xff, 0xff, 0xff, 0xff, 0xff, 0xff, 0xfc, 0] ++ List.replicate 12 0))
  let rest := 0x53 :: (List.replicate 100 0 ++ (Utf8.encode "ustar  \x00" ++
    (List.replicate 217 0 ++ 1 :: List.replicate 29 0)))
  let sum := (front ++ rest).foldl (fun sum b => sum + b.toNat) (8 * 32)
  ⟨front ++ (octalDigits 7 sum ++ [0] ++ rest)⟩

/-- A block without descriptors in use, which says that another one comes. -/
def idleExtension : List UInt8 := List.replicate 504 0 ++ 1 :: List.replicate 7 0

/-- A payload that ends right behind the start of a second block with descriptors. -/
def overrun : List UInt8 := boundless.block ++ (idleExtension ++ [1])

/-- An advance in it meets the sparse file with one further block, which puts off the next header to a
place of 65 bits. -/
theorem meets_overrun {D : Delivery ρ} (hD : D.Calm) {a : Archive ρ} (h : a.Stands D overrun)
    (hstart : a.position = 0) : ∃ b es', b.position = blockSize ∧
      Entries.Meets {} ⟨a, 0⟩ [(⟨a, 0⟩ : Entries ρ).met b (UInt64.size - 1024) 1]
        (.error (.other "failed to read entire block"), es') := by
  obtain ⟨b, hheader, hb⟩ := @Archive.Stands.readHeader _ _ _ _ ⟨a, 0⟩ hD h (Nat.le_of_eq hstart)
  have hfirst : headerAt overrun 0 = .ok (some boundless) :=
    headerAt_eq (by decide +kernel) (by decide +kernel) rfl
  obtain ⟨hb, hbpos, -⟩ := hb boundless hfirst
  dsimp only at hbpos
  rw [Nat.zero_add] at hbpos
  rw [hfirst] at hheader
  obtain ⟨c, hblock, hc⟩ := hb.readBlock hD
  have hsecond : blockAt overrun b.position = .ok (some idleExtension) := by
    rw [hbpos]
    decide +kernel
  obtain ⟨hc, hcpos, -⟩ := hc idleExtension hsecond
  rw [hsecond] at hblock
  obtain ⟨d, hbroken, -⟩ := hc.readBlock hD
  have hthird : blockAt overrun c.position = .error (.other "failed to read entire block") := by
    rw [hcpos, hbpos]
    decide +kernel
  rw [hthird] at hbroken
  have hidle : SparseMap.addAll (UInt64.size - 1024) ⟨[], 0, UInt64.size - 1024⟩
      (moreDescriptors idleExtension) = .ok ⟨[], 0, UInt64.size - 1024⟩ := by decide +kernel
  have hextends : Entries.Extends (UInt64.size - 1024) ⟨[], 0, UInt64.size - 1024⟩
      ⟨b, UInt64.size - blockSize⟩ 1 (.error (.other "failed to read entire block"),
        ⟨d, UInt64.size - blockSize + blockSize⟩) :=
    .onward hblock hidle (by decide +kernel) (.unread hbroken)
  have hchecked : checked boundless none 0 = .ok (UInt64.size - 1024, UInt64.size - blockSize) := by
    decide +kernel
  exact ⟨b, _, hbpos, .unmapped hheader hchecked (by decide +kernel)
    (.broken (by decide +kernel) (by decide +kernel) (by decide +kernel) (by decide +kernel)
      hextends)⟩

/-- The further blocks of a sparse file lead the count of places beyond 64 bits and back to the start of
the archive, where a size that leads as far would be refused. -/
theorem place_runs_over : ∃ a : ReleaseArchive Source,
    ofStream "1.18" (ofSchedule (Gzip.stored overrun) [] fun p => p + 2) = .ok a ∧
    ∃ turns last, a.tar.Turns "go/src" (Inquiry.visitor lookOn) ((), []) turns last
        (((Plan.lookingOn "go/src").run a).1, ((Plan.lookingOn "go/src").run a).2.1,
          ((Plan.lookingOn "go/src").after a).tar) ∧
      ((Plan.lookingOn "go/src").run a).2.1 =
        .complete (some (.other "failed to read entire block")) {} ∧
      ∃ m ∈ metIn turns last, m.next = UInt64.size ∧ UInt64.ofNat m.next = 0 ∧ 0 < m.behind := by
  have hm := Gzip.Members.single (Gzip.member_stored overrun)
  have hgz : Gzip.stored overrun ≠ [] := by decide
  obtain ⟨a, ho⟩ : ∃ a, ofStream "1.18" (ofSchedule (Gzip.stored overrun) [] fun p => p + 2) =
      .ok a := ofStream_faultless "1.18" hm hgz (by decide)
  obtain ⟨hstands, hstart⟩ := stands_ofStream hm hgz ho
  obtain ⟨b, es', hbpos, hmeets⟩ := meets_overrun calm_contents hstands hstart
  have hturns : a.tar.Turns "go/src" (Inquiry.visitor lookOn) ((), []) [] _ _ :=
    .begun hstart (.faulty hmeets)
  have hrun : Entries.visitWithin "go/src" (Inquiry.visitor lookOn) (Reader.budget a.tar + 1) {}
      ((), []) ⟨a.tar, 0⟩ = _ :=
    hturns.visitWithin_eq (Delivery.sound _ hstands) hstart (Nat.succ_pos _)
  have hpass : (Plan.lookingOn "go/src").run a = (((), []),
      .complete (some (.other "failed to read entire block")) {}, ⟨es'.archive⟩) := by
    simp only [Plan.run, Plan.lookingOn, visitSources, Archive.visitSources, if_pos hstart, hrun]
  have hnext : ((⟨a.tar, 0⟩ : Entries _).met b (UInt64.size - 1024) 1).next = UInt64.size := by
    change 0 + blockSize + padded (UInt64.size - 1024) + blockSize * 1 = UInt64.size
    decide +kernel
  refine ⟨a, ho, [], [(⟨a.tar, 0⟩ : Entries _).met b (UInt64.size - 1024) 1], ?_,
    congrArg (·.2.1) hpass, _, List.mem_singleton_self _, hnext, ?_, ?_⟩
  · rw [Plan.after, hpass]
    exact hturns
  · rw [hnext]
    decide +kernel
  · change 0 < b.position
    rw [hbpos]
    decide

end ReleaseArchive

end InterfaceIndex
