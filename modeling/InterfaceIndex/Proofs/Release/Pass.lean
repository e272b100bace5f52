import InterfaceIndex.Collection
import InterfaceIndex.Proofs.Release.Scan
import InterfaceIndex.Proofs.Tar.Entries

/-! A pass over an archive finds what whole files declare, however many of them it gets to. -/
namespace InterfaceIndex

open Tar

namespace Release

variable {ρ : Type} [Reader ρ] {D : Delivery ρ} {r : Release} {total k start position : Nat}
  {ds : List Declared} {p : Progress} {file : StoredFile} {files : List StoredFile}
  {source : SourceFile} {a : Archive ρ} {after : List UInt8}

/-- The source file that a stored file is scanned as: it lies below the root of the release and is
no test fixture. -/
def scanned? (r : Release) (file : StoredFile) : Option SourceFile :=
  (SourceFile.select? file.name (packageRoot r.version)).filter fun source => !source.isFixture

/-- What a stored file declares. -/
def declaredIn (r : Release) (file : StoredFile) : List Declared :=
  match r.scanned? file with
  | some source => r.declarations source file.content
  | none => []

/-- The index of some stored files; later declarations win. -/
def indexOf (r : Release) (files : List StoredFile) : Index :=
  .ofDeclarations (files.flatMap r.declaredIn)

/-- A position in an archive from a given start on leaves no scanned file partly read: the content
of each that is among the first `k` lies before it, that of any other has not been begun. -/
def LeavesWhole (r : Release) (start : Nat) (files : List StoredFile) (k position : Nat) : Prop :=
  ∀ before file after, files = before ++ file :: after → r.scanned? file ≠ none →
    (before.length < k ∧ start + contentStart before file + file.content.length ≤ position) ∨
    (k ≤ before.length ∧ position < start + contentStart before file)

/-- What follows a pass tells of the fault that ended it, and of no other. -/
theorem endedEarly_mem_closing {ending : PassEnd Problem} {archive : ReleaseArchive ρ} {index : Index}
    {version : String} {f : Failure} :
    .endedEarly version f ∈ r.closing ending archive index ↔
      version = r.version ∧ ending.fault? = some f := by
  have hdrained : Event.endedEarly version f ≠ archive.drainTold := by
    unfold ReleaseArchive.drainTold
    split <;> simp
  cases ending <;> simp [closing, PassEnd.told, PassEnd.fault?, hdrained, and_comm, eq_comm]

/-- Progress that stands for some declarations. -/
structure Found (ds : List Declared) (p : Progress) : Prop where
  index : p.index = .ofDeclarations ds
  events : ∀ e ∈ p.events, e.isReplacement = true

theorem found_start : Found [] {} := ⟨rfl, by simp⟩

theorem Found.add {es : List Declared} (h : Found ds p) :
    Found (ds ++ es) (p.add (.ofDeclarations es)) := by
  constructor
  · rw [← Index.merge_ofDeclarations, ← h.index]
    rfl
  · intro e he
    rcases List.mem_append.mp he with he | he
    · exact h.events e he
    · obtain ⟨replacement, -, rfl⟩ := List.mem_map.mp he
      rfl

/-- One visit: a file is scanned whole, or the pass gives up. -/
theorem scanner_run (hp : Found ds p)
    (hsource : SourceFile.select? file.name (packageRoot r.version) = some source)
    (ha : (D.archive total).Holds a (file.content ++ after)) :
    (∃ p' c, (r.scanner p source).run (⟨a, [.data file.content.length]⟩ : Content ρ) =
        ((p', none), c) ∧ Found (ds ++ r.declaredIn file) p' ∧
      (∃ gap, (D.archive total).Holds c.archive (gap ++ after)) ∧
      (r.scanned? file ≠ none → c.archive.position = a.position + file.content.length)) ∨
    (∃ f c, (r.scanner p source).run (⟨a, [.data file.content.length]⟩ : Content ρ) =
        ((p, some (.unreadable source.path f)), c) ∧ ∃ left, D.Stops left (some f)) := by
  have hc : ((D.archive total).content after).Holds ⟨a, [.data file.content.length]⟩ file.content :=
    ⟨ha, Or.inl rfl⟩
  unfold scanner
  rw [Reading.run_map]
  cases hfix : source.isFixture with
  | true =>
    have hnone : r.scanned? file = none := by simp [scanned?, hsource, hfix]
    have hempty : r.declaredIn file = [] := by rw [declaredIn, hnone]
    rw [scan_fixture hfix]
    exact Or.inl ⟨_, _, rfl, hempty ▸ hp.add, ⟨file.content, ha⟩, fun h => (h hnone).elim⟩
  | false =>
    have hsome : r.scanned? file = some source := by simp [scanned?, hsource, hfix]
    have hdeclared : r.declaredIn file = r.declarations source file.content := by
      rw [declaredIn, hsome]
    rcases scan_run (r := r) _ hfix hc with
        ⟨c, hrun, hholds, -⟩ | ⟨f, rest, got, c, hrun, -, hstop, -⟩
    · have hpos := ha.2
      have hpos' := hholds.1.2
      simp only [List.length_append, List.nil_append] at hpos hpos'
      rw [hrun]
      exact Or.inl ⟨_, c, rfl, hdeclared ▸ hp.add, ⟨[], hholds.1⟩, fun _ => by omega⟩
    · rw [hrun]
      exact Or.inr ⟨f, c, rfl, _, hstop.2 f rfl⟩

/-- How a pass over files comes out that begins at a given position: it gets to the end, or a failure
between two of them stops it, or one within a scanned file makes it give up. -/
inductive Passes (D : Delivery ρ) (total : Nat) (r : Release) (ds : List Declared) (start : Nat)
    (files : List StoredFile) : Progress × PassEnd Problem × Archive ρ → Prop
  | complete {k : Nat} {fault : Option Failure} {tally : Tally} {p : Progress} {a : Archive ρ}
      (count : k ≤ files.length) (found : Found (ds ++ (files.take k).flatMap r.declaredIn) p)
      (all : fault = none → k = files.length ∧ ∃ rest, (D.archive total).Holds a rest)
      (stops : ∀ f, fault = some f → D.StopsAt total f a.position)
      (whole : r.LeavesWhole start files k a.position) :
      Passes D total r ds start files (p, .complete fault tally, a)
  | aborted {f : Failure} {path : String} {p : Progress} {a : Archive ρ}
      (stops : ∃ left, D.Stops left (some f)) :
      Passes D total r ds start files (p, .aborted (.unreadable path f), a)

/-- No file has been begun where the first is not. -/
theorem leavesWhole_zero (h : position < start + file.front.length) :
    r.LeavesWhole start (file :: files) 0 position := by
  intro before other after heq _
  refine Or.inr ⟨Nat.zero_le _, ?_⟩
  cases before with
  | nil =>
    obtain ⟨rfl, -⟩ := List.cons.inj heq
    simpa [contentStart] using h
  | cons first before =>
    obtain ⟨rfl, -⟩ := List.cons.inj heq
    simp only [contentStart, extentOf_cons, StoredFile.bytes, List.length_append]
    omega

/-- The file in front has been left whole, too, when its content has gone by. -/
theorem LeavesWhole.cons (h : r.LeavesWhole (start + file.bytes.length) files k position)
    (hpast : r.scanned? file ≠ none → start + file.front.length + file.content.length ≤ position) :
    r.LeavesWhole start (file :: files) (k + 1) position := by
  intro before other after heq hsome
  cases before with
  | nil =>
    obtain ⟨rfl, -⟩ := List.cons.inj heq
    have := hpast hsome
    refine Or.inl ⟨Nat.zero_lt_succ k, ?_⟩
    simpa [contentStart, Nat.add_assoc] using this
  | cons first before =>
    obtain ⟨rfl, rfl⟩ := List.cons.inj heq
    have := h before other after rfl hsome
    simp only [contentStart, extentOf_cons, List.length_cons] at this ⊢
    omega

/-- What a pass over the files behind the first one comes to is what a pass over all of them does. -/
theorem Passes.cons {x : Progress × PassEnd Problem × Archive ρ}
    (h : Passes D total r (ds ++ r.declaredIn file) (start + file.bytes.length) files x)
    (hpast : r.scanned? file ≠ none →
      start + file.front.length + file.content.length ≤ x.2.2.position) :
    Passes D total r ds start (file :: files) x := by
  cases h with
  | complete count found all stops whole =>
    rename_i k fault tally p a
    refine .complete (k := k + 1) (by simpa using count) ?_ (by simpa using all) stops
      (whole.cons hpast)
    simpa using found
  | aborted stops => exact .aborted stops

/-- A pass that has gone past a file, and has kept what it declares. -/
structure Past (D : Delivery ρ) (total : Nat) (r : Release) (ds : List Declared) (es : Entries ρ)
    (file : StoredFile) (after : List UInt8) (p : Progress) (es' : Entries ρ) : Prop where
  next : es'.next = es.next + file.bytes.length
  ahead : es'.Ahead D total after
  spent : Reader.budget es'.archive < Reader.budget es.archive
  found : Found (ds ++ r.declaredIn file) p
  whole : r.scanned? file ≠ none →
    es.next + file.front.length + file.content.length ≤ es'.archive.position

/-- With the content of a file begun, a pass goes past the file or is aborted within it. -/
theorem visitWithin_content (fuel : Nat) (tally : Tally) {es : Entries ρ} {b : Archive ρ}
    (hahead : es.Ahead D total (file.bytes ++ after)) (hp : Found ds p)
    (hadvance : es.advance = (.ok (some ⟨Utf8.encode file.name, [.data file.content.length]⟩),
      ⟨b, es.next + file.front.length + padded file.content.length⟩))
    (hb : (D.archive total).Holds b (file.content ++ (padding file.content ++ after)))
    (hspent : Reader.budget b < Reader.budget es.archive) :
    (∃ tally' p' es', es.visitWithin (packageRoot r.version) r.scanner (fuel + 1) tally p =
        es'.visitWithin (packageRoot r.version) r.scanner fuel tally' p' ∧
      Past D total r ds es file after p' es') ∨
    ∃ path f a, es.visitWithin (packageRoot r.version) r.scanner (fuel + 1) tally p =
      (p, .aborted (.unreadable path f), a) ∧ ∃ left, D.Stops left (some f) := by
  have hnext := hahead.1
  have hbpos := hb.2
  have hcontent := length_padded file.content
  have hbytes : file.bytes.length = file.front.length + padded file.content.length := by
    simp only [StoredFile.bytes, List.length_append]
    omega
  simp only [List.length_append] at hnext hbpos
  -- Both kinds of files leave an archive that has the others ahead.
  have past {c : Archive ρ} {gap : List UInt8} {p' : Progress}
      (hc : (D.archive total).Holds c (gap ++ (padding file.content ++ after)))
      (hle : Reader.budget c ≤ Reader.budget b) (hp' : Found (ds ++ r.declaredIn file) p')
      (hpast : r.scanned? file ≠ none →
        es.next + file.front.length + file.content.length ≤ c.position) :
      Past D total r ds es file after p'
        ⟨c, es.next + file.front.length + padded file.content.length⟩ := by
    refine ⟨by dsimp only; omega, ⟨by dsimp only; omega, gap ++ padding file.content, ?_⟩,
      Nat.lt_of_le_of_lt hle hspent, hp', hpast⟩
    rwa [List.append_assoc]
  rw [Entries.visitWithin, hadvance]
  dsimp only
  rw [Utf8.decodeLossy_encode]
  split
  · next hnone =>
    have hscanned : r.scanned? file = none := by simp [scanned?, hnone]
    have hempty : r.declaredIn file = [] := by rw [declaredIn, hscanned]
    refine Or.inl ⟨_, _, _, rfl, past hb (Nat.le_refl _) (by simpa [hempty] using hp) ?_⟩
    intro hsome
    exact (hsome hscanned).elim
  · next source hsource =>
    have hreach := Content.reaches_archive (Reading.reaches_run (r.scanner p source)
      (⟨b, [.data file.content.length]⟩ : Content ρ))
    have hle := ((D.archive total).toFlow.reaches hreach (Delivery.sound _ hb)).2
    rcases scanner_run hp hsource hb with
      ⟨p', c, hrun, hfound, ⟨gap, hc⟩, hpos⟩ | ⟨f, c, hrun, hstop⟩
    · rw [hrun] at hle ⊢
      refine Or.inl ⟨_, _, _, rfl, past hc hle hfound ?_⟩
      intro hsome
      have := hpos hsome
      omega
    · rw [hrun]
      exact Or.inr ⟨_, f, _, rfl, hstop⟩

/-- The induction is on the files. Each takes a header out of the stream, so that the bound on the
number of entries is never met. -/
theorem visitWithin_spec {fuel : Nat} {tally : Tally} {es : Entries ρ}
    (hahead : es.Ahead D total (archiveOf files)) (hfits : total < UInt64.size)
    (hfuel : Reader.budget es.archive < fuel) (hp : Found ds p) :
    Passes D total r ds es.next files
      (es.visitWithin (packageRoot r.version) r.scanner fuel tally p) := by
  induction files generalizing fuel tally es p ds with
  | nil =>
    obtain ⟨fuel, rfl⟩ : ∃ n, fuel = n + 1 := ⟨fuel - 1, by omega⟩
    rw [Entries.visitWithin]
    have hnone (position : Nat) : r.LeavesWhole es.next [] 0 position := fun _ _ _ h => by simp at h
    rcases Entries.advance_end hahead with ⟨es', rest, hadvance, hholds⟩ | ⟨f, es', hadvance, hstop⟩
    · rw [hadvance]
      exact .complete (Nat.le_refl 0) (by simpa using hp) (fun _ => ⟨rfl, rest, hholds⟩) (by simp)
        (hnone _)
    · rw [hadvance]
      exact .complete (Nat.le_refl 0) (by simpa using hp) (by simp) (by simpa using hstop) (hnone _)
  | cons file files ih =>
    obtain ⟨fuel, rfl⟩ : ∃ n, fuel = n + 1 := ⟨fuel - 1, by omega⟩
    rw [archiveOf_cons] at hahead
    have harrives := Entries.advance_file hahead hfits
    generalize hadvance : es.advance = x at harrives
    cases harrives with
    | stopped before stops =>
      rw [Entries.visitWithin, hadvance]
      exact .complete (Nat.zero_le _) (by simpa using hp) (by simp) (by simpa using stops)
        (leavesWhole_zero before)
    | there holds spent =>
      rcases visitWithin_content fuel tally hahead hp hadvance holds spent with
        ⟨tally', p', es', hon, hpast⟩ | ⟨path, f, a, hgiven_up, hstop⟩
      · rw [hon]
        have hreach := Entries.reaches_visitWithin (packageRoot r.version) r.scanner fuel tally' p' es'
        have hless : Reader.budget es'.archive < fuel :=
          Nat.lt_of_lt_of_le hpast.spent (Nat.lt_succ_iff.mp hfuel)
        have hothers : Passes D total r (ds ++ r.declaredIn file) es'.next files
            (es'.visitWithin (packageRoot r.version) r.scanner fuel tally' p') :=
          ih hpast.ahead hless hpast.found
        rw [hpast.next] at hothers
        apply hothers.cons
        intro hsome
        exact Nat.le_trans (hpast.whole hsome) (Archive.position_le hreach)
      · rw [hgiven_up]
        exact .aborted hstop

end Release

end InterfaceIndex
