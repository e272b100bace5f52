import InterfaceIndex.Collection
import InterfaceIndex.Proofs.Merging
import InterfaceIndex.Proofs.Stream.Reach
import InterfaceIndex.Proofs.Traversal

/-! What a scan tells of its merges: every record that it found is in the index or was replaced. -/
namespace InterfaceIndex

open Index

variable {ρ : Type} [Reader ρ] {r : Release} {stream : ρ} {index : Index}

/-- The visitor that scans each file and keeps what it finds, but merges nothing. -/
def Release.finder (r : Release) : Visitor (List Index) Problem :=
  fun finds file =>
    (r.scan file).map fun
      | .ok found => (finds ++ [found], none)
      | .error problem => (finds, some problem)

/-- The indexes that a pass over an archive finds, one for each file that it scans. -/
def Release.finds (r : Release) (archive : ReleaseArchive ρ) : List Index :=
  (archive.visitSources (packageRoot r.version) r.finder []).1

/-- Progress that has merged some finds, and told of nothing but the replacements. -/
def Progress.Accounts (finds : List Index) (p : Progress) : Prop :=
  ∃ trail, Merges finds p.index trail ∧ p.events = trail.map .replaced

theorem Progress.Accounts.add {finds : List Index} {p : Progress} (h : p.Accounts finds)
    (found : Index) : (p.add found).Accounts (finds ++ [found]) := by
  obtain ⟨trail, hmerges, hevents⟩ := h
  refine ⟨trail ++ (p.index.merge found).2, .merge hmerges (.refl _), ?_⟩
  rw [List.map_append, ← hevents]
  rfl

namespace Release

/-- A scanner goes about a file like a finder, and merges what that keeps. -/
theorem inStep_scanner (r : Release) :
    Tar.InStep ρ (fun finds p => Progress.Accounts finds p) r.finder r.scanner := by
  intro file finds p c hp
  unfold finder scanner
  rw [Reading.run_map, Reading.run_map]
  rcases (r.scan file).run c with ⟨problem | found, d⟩
  · exact ⟨finds, p, some problem, d, rfl, rfl, hp⟩
  · exact ⟨finds ++ [found], p.add found, none, d, rfl, rfl, hp.add found⟩

theorem closing_not_replacement (ending : PassEnd Problem) (archive : ReleaseArchive ρ) :
    ∀ e ∈ r.closing ending archive index, e.isReplacement = false := by
  intro e he
  simp only [closing, List.mem_append, List.mem_singleton] at he
  rcases he with (((he | he) | rfl) | he) | rfl
  · cases ending with
    | complete fault tally =>
      obtain rfl := List.mem_singleton.mp he
      rfl
    | notAtStart => simp [PassEnd.told] at he
    | aborted problem => simp [PassEnd.told] at he
  · obtain ⟨f, -, rfl⟩ := List.mem_map.mp he
    rfl
  · unfold ReleaseArchive.drainTold
    split <;> rfl
  · obtain ⟨digest, -, rfl⟩ := List.mem_map.mp he
    rfl
  · rfl

theorem scanned_mem_closing (ending : PassEnd Problem) (archive : ReleaseArchive ρ) :
    .scanned r.version index.size ∈ r.closing ending archive index := by
  simp [closing]

/-- A scan that succeeds has merged what the files of the archive declare, file by file, and its
events are the replacements, in order, and others that are none. -/
theorem scanArchive_merges (h : (r.scanArchive stream).result = .ok index) :
    ∃ archive trail others, ReleaseArchive.ofStream r.version stream = .ok archive ∧
      Merges (r.finds archive) index trail ∧
      (r.scanArchive stream).events = trail.map .replaced ++ others ∧
      (∀ e ∈ others, e.isReplacement = false) ∧ .scanned r.version index.size ∈ others := by
  unfold scanArchive at h ⊢
  cases ho : ReleaseArchive.ofStream r.version stream with
  | error problem => simp [ho] at h
  | ok archive =>
    have hstart : ({} : Progress).Accounts [] := ⟨[], .start, rfl⟩
    obtain ⟨finds, p, ending, b, hfinds, hp, trail, hmerges, hevents⟩ :=
      Tar.Archive.visitSources_inStep (packageRoot r.version) r.inStep_scanner archive.tar hstart
    have hkept : r.finds archive = finds := by
      rw [Release.finds, ReleaseArchive.visitSources, hfinds]
    have hpass : archive.visitSources (packageRoot r.version) r.scanner {} = (p, ending, ⟨b⟩) := by
      rw [ReleaseArchive.visitSources, hp]
    simp only [ho, hpass] at h ⊢
    cases ending with
    | aborted problem => simp at h
    | complete fault tally =>
      obtain rfl : p.index = index := Except.ok.inj h
      exact ⟨archive, trail, _, rfl, hkept ▸ hmerges, congrArg (· ++ _) hevents,
        closing_not_replacement _ _, scanned_mem_closing _ _⟩
    | notAtStart =>
      obtain rfl : p.index = index := Except.ok.inj h
      exact ⟨archive, trail, _, rfl, hkept ▸ hmerges, congrArg (· ++ _) hevents,
        closing_not_replacement _ _, scanned_mem_closing _ _⟩

end Release

/-- Merges and their account. Indexes merged one after another into an empty one, each in any order
of its entries, come to the union in which the last of them has the say; the replacements of each
interface lead through all its locations in order, one for each that gave way, and none is left out
or told of twice. So merging is associative, has the empty index on both sides, and makes nothing
new of what it has just merged; and the replacements that the scan of an archive tells of, together
with the entries that it ends with, are as many as the records of its files. -/
theorem merging_accounted :
    (∀ (sources : List Index) (x : Index) (trail : List Replacement), Merges sources x trail →
      (∀ i place, x.find? i = some place ↔ ∃ before source after,
        sources = before ++ source :: after ∧ source.find? i = some place ∧
        ∀ later ∈ after, later.find? i = none) ∧
      (∀ i, trail.filter (·.interface == i) =
          Replacement.along i (sources.filterMap (·.find? i)) ∧
        Replacement.Chain (sources.filterMap (·.find? i)) (trail.filter (·.interface == i)) ∧
        (sources.filterMap (·.find? i)).getLast? = x.find? i) ∧
      x.size + trail.length = (sources.map size).sum ∧
      ∀ (y : Index) (trail' : List Replacement), Merges sources y trail' → y = x) ∧
    (∀ (x y : Index) (order : List Declared), order.Perm y.entries →
      (x.absorb order).1 = (x.merge y).1) ∧
    (∀ x y z : Index, ((x.merge y).1.merge z).1 = (x.merge (y.merge z).1).1) ∧
    (∀ x : Index, (x.merge empty).1 = x ∧ (empty.merge x).1 = x) ∧
    (∀ x y : Index, ((x.merge y).1.merge y).1 = (x.merge y).1) ∧
    ∀ (ρ : Type) [Reader ρ] (r : Release) (stream : ρ) (index : Index),
      (r.scanArchive stream).result = .ok index →
      ∃ archive, ReleaseArchive.ofStream r.version stream = .ok archive ∧
        (∃ trail, Merges (r.finds archive) index trail ∧
          (r.scanArchive stream).events.filter (·.isReplacement) = trail.map .replaced) ∧
        .scanned r.version index.size ∈ (r.scanArchive stream).events ∧
        (r.scanArchive stream).events.countP (·.isReplacement) + index.size =
          ((r.finds archive).map size).sum := by
  refine ⟨?_, ?_, merge_assoc, ?_, merge_twice, ?_⟩
  · intro sources x trail h
    refine ⟨fun _ _ => h.find?_eq_some_iff, ?_, h.size_add_length, fun _ _ h' => h'.eq h⟩
    intro i
    have hchain := Replacement.chain_along i (sources.filterMap (·.find? i))
    rw [h.filter_trail]
    exact ⟨rfl, hchain, (h.find?_eq i).symm⟩
  · intro x y order h
    exact fst_absorb_order h x
  · intro x
    exact ⟨merge_empty x, empty_merge x⟩
  · intro ρ _ r stream index h
    obtain ⟨archive, trail, others, ho, hmerges, hevents, hothers, hscanned⟩ :=
      Release.scanArchive_merges h
    have hnone : others.filter (·.isReplacement) = [] := by
      apply List.filter_eq_nil_iff.mpr
      intro e he
      simp [hothers e he]
    have hall : (trail.map Event.replaced).filter (·.isReplacement) = trail.map .replaced := by
      apply List.filter_eq_self.mpr
      intro e he
      obtain ⟨replacement, -, rfl⟩ := List.mem_map.mp he
      rfl
    have hfilter : (r.scanArchive stream).events.filter (·.isReplacement) =
        trail.map .replaced := by
      rw [hevents, List.filter_append, hall, hnone, List.append_nil]
    refine ⟨archive, ho, ⟨trail, hmerges, hfilter⟩, ?_, ?_⟩
    · rw [hevents]
      exact List.mem_append_right _ hscanned
    · have hsize := hmerges.size_add_length
      rw [List.countP_eq_length_filter, hfilter, List.length_map]
      omega

/-- A declaration of an interface at a place with a given link. -/
def declaredAt (name link : String) : Declared :=
  ⟨⟨name, "io"⟩, ⟨"1.4", "src/io/io.go", 1, link⟩⟩

theorem merging_accounted_thrice : ∃ early middle late x trail, Merges [early, middle, late] x trail ∧
    early = ofDeclarations [declaredAt "R" "a", declaredAt "W" "b"] ∧
    middle = ofDeclarations [declaredAt "R" "c"] ∧
    late = ofDeclarations [declaredAt "R" "d", declaredAt "W" "e"] ∧
    [declaredAt "W" "e", declaredAt "R" "d"].Perm late.entries ∧
    trail.filter (·.interface == ⟨"R", "io"⟩) =
      [⟨⟨"R", "io"⟩, "a", "c"⟩, ⟨⟨"R", "io"⟩, "c", "d"⟩] ∧
    x.size + trail.length = 5 := by
  let early := ofDeclarations [declaredAt "R" "a", declaredAt "W" "b"]
  let middle := ofDeclarations [declaredAt "R" "c"]
  let late := ofDeclarations [declaredAt "R" "d", declaredAt "W" "e"]
  have horder : [declaredAt "W" "e", declaredAt "R" "d"].Perm late.entries := .swap _ _ _
  have hmerges := ((Merges.start.merge (.refl early.entries)).merge (.refl middle.entries)).merge
    horder
  obtain ⟨-, hchain, hcount, -⟩ := merging_accounted.1 [early, middle, late] _ _ hmerges
  exact ⟨early, middle, late, _, _, hmerges, rfl, rfl, rfl, horder, (hchain ⟨"R", "io"⟩).1, hcount⟩

end InterfaceIndex
