import InterfaceIndex.Release.Scan
import InterfaceIndex.Proofs.Declaration
import InterfaceIndex.Proofs.Index
import InterfaceIndex.Proofs.Stream.Lines
import InterfaceIndex.Proofs.Stream.Schedule
import Mathlib.Data.List.Induction

/-! Scanning a file finds the declarations of its lines, whatever reads the stream answers. -/
namespace InterfaceIndex

open Declaration

namespace Release

variable {ρ : Type} [Reader ρ] {r : Release} {file : SourceFile} {content : List UInt8}

/-- The declaration that a line with a given number makes. -/
def declaredBy (r : Release) (file : SourceFile) (line : List UInt8) (number : Nat) :
    Option Declared :=
  (name? line).map fun name => r.declared file name number

/-- The declarations that some lines make, in order, when the first has a given number. -/
def declarationsFrom (r : Release) (file : SourceFile) (number : Nat) (lines : List (List UInt8)) :
    List Declared :=
  (lines.zipIdx number).filterMap fun (line, k) => r.declaredBy file line k

/-- The declarations of a content, which has its lines between line feeds. -/
def declarations (r : Release) (file : SourceFile) (content : List UInt8) : List Declared :=
  r.declarationsFrom file 1 (content.splitOn 0x0a)

theorem declarationsFrom_cons (line : List UInt8) (lines : List (List UInt8)) (number : Nat) :
    r.declarationsFrom file number (line :: lines) =
      (r.declaredBy file line number).toList ++ r.declarationsFrom file (number + 1) lines := by
  simp only [declarationsFrom, List.zipIdx_cons, List.filterMap_cons]
  cases r.declaredBy file line number <;> rfl

theorem scanLine_eq (s : LineScan) (line : List UInt8) : r.scanLine file s line =
    ⟨s.line + 1, (r.declaredBy file line (s.line + 1)).toList.foldl Index.insert s.index⟩ := by
  cases hn : name? line <;> simp [scanLine, declaredBy, hn]

/-- The counter stays in step with the lines read: a scan that goes on numbers the lines to come
from where it stands. -/
theorem foldl_scanLine (lines : List (List UInt8)) (s : LineScan) :
    lines.foldl (r.scanLine file) s =
      ⟨s.line + lines.length,
        (r.declarationsFrom file (s.line + 1) lines).foldl Index.insert s.index⟩ := by
  induction lines generalizing s with
  | nil => rfl
  | cons line lines ih =>
    rw [List.foldl_cons, ih, scanLine_eq, declarationsFrom_cons, List.foldl_append]
    simp only [List.length_cons, LineScan.mk.injEq, and_true]
    omega

theorem declaredBy_feed (line : List UInt8) (number : Nat) :
    r.declaredBy file (line ++ [0x0a]) number = r.declaredBy file line number := by
  rw [declaredBy, name?_feed, declaredBy]

theorem declaredBy_nil (number : Nat) : r.declaredBy file [] number = none := rfl

/-- Lines with their line feeds declare what the lines between line feeds do. -/
theorem declarationsFrom_linesOf (number : Nat) (content : List UInt8) :
    r.declarationsFrom file number (linesOf content) =
      r.declarationsFrom file number (content.splitOn 0x0a) := by
  rcases feed_cases content with hfeed | ⟨front, rest, rfl, hfront⟩
  · rw [List.splitOn_eq_singleton hfeed]
    by_cases hnil : content = []
    · subst hnil
      rw [declarationsFrom_cons, declaredBy_nil]
      rfl
    · rw [linesOf_last hfeed hnil]
  · rw [linesOf_line hfront, List.splitOn_append_cons_self_of_not_mem hfront,
      declarationsFrom_cons, declarationsFrom_cons, declaredBy_feed, declarationsFrom_linesOf]
termination_by content.length
decreasing_by
  subst content
  simp only [List.length_append, List.length_cons]
  omega

theorem index_foldl_linesOf (content : List UInt8) :
    ((linesOf content).foldl (r.scanLine file) {}).index =
      .ofDeclarations (r.declarations file content) := by
  rw [foldl_scanLine, declarationsFrom_linesOf]
  rfl

/-- The place of a declaration on the line with a given number. -/
def placeIn (r : Release) (file : SourceFile) (line : Nat) : Location where
  version := r.version
  sourceFile := file.pathInRepository
  line
  link := r.endpoints.lineLink r.version file.pathInRepository line

/-- The line after so many others declares an interface of a given name. -/
def DeclaredAfter (lines : List (List UInt8)) (name : String) (k : Nat) : Prop :=
  ∃ line bytes, lines[k]? = some line ∧ Declares bytes line ∧ textOfAscii bytes = name

/-- No later line declares an interface of the same name. -/
def LastDeclaredAfter (lines : List (List UInt8)) (name : String) (k : Nat) : Prop :=
  DeclaredAfter lines name k ∧ ∀ j, DeclaredAfter lines name j → j ≤ k

theorem declaredAfter_concat {lines : List (List UInt8)} {line : List UInt8} {name : String}
    {k : Nat} : DeclaredAfter (lines ++ [line]) name k ↔ DeclaredAfter lines name k ∨
      (k = lines.length ∧ ∃ bytes, Declares bytes line ∧ textOfAscii bytes = name) := by
  constructor
  · rintro ⟨found, bytes, hk, hd, hn⟩
    by_cases hlt : k < lines.length
    · rw [List.getElem?_append_left hlt] at hk
      exact Or.inl ⟨found, bytes, hk, hd, hn⟩
    · have hk' : k = lines.length := by
        have := (List.getElem?_eq_some_iff.mp hk).1
        simp only [List.length_append, List.length_singleton] at this
        omega
      subst hk'
      obtain rfl : line = found := by simpa using hk
      exact Or.inr ⟨rfl, bytes, hd, hn⟩
  · rintro (⟨found, bytes, hk, hd, hn⟩ | ⟨rfl, bytes, hd, hn⟩)
    · have hlt := (List.getElem?_eq_some_iff.mp hk).1
      exact ⟨found, bytes, by rw [List.getElem?_append_left hlt, hk], hd, hn⟩
    · exact ⟨line, bytes, by simp, hd, hn⟩

theorem declaredAfter_lt {lines : List (List UInt8)} {name : String} {k : Nat}
    (h : DeclaredAfter lines name k) : k < lines.length := by
  obtain ⟨line, bytes, hk, -⟩ := h
  exact (List.getElem?_eq_some_iff.mp hk).1

theorem declarationsFrom_concat (number : Nat) (lines : List (List UInt8)) (line : List UInt8) :
    r.declarationsFrom file number (lines ++ [line]) =
      r.declarationsFrom file number lines ++
        (r.declaredBy file line (number + lines.length)).toList := by
  simp only [declarationsFrom, List.zipIdx_append, List.filterMap_append, List.zipIdx_singleton]
  cases hd : r.declaredBy file line (number + lines.length) <;> simp [hd]

/-- The last declaration of an interface is the one on the last line that declares it. The induction
takes lines off the end, where a declaration decides the matter. -/
theorem lastOf_declarationsFrom (number : Nat) (lines : List (List UInt8)) (i : Interface)
    (place : Location) :
    Declared.lastOf (r.declarationsFrom file number lines) i = some place ↔
      i.package = file.package ∧
        ∃ k, LastDeclaredAfter lines i.name k ∧ place = r.placeIn file (number + k) := by
  induction lines using List.reverseRecOn with
  | nil =>
    simp only [declarationsFrom, List.zipIdx_nil, List.filterMap_nil, Declared.lastOf_nil,
      reduceCtorEq, false_iff, not_and, not_exists]
    rintro - k ⟨hk, -⟩
    exact absurd (declaredAfter_lt hk) (by simp)
  | append_singleton lines line ih =>
    rw [declarationsFrom_concat, Declared.lastOf_append]
    by_cases hline : ∃ bytes, Declares bytes line ∧ textOfAscii bytes = i.name
    · have hlast (k : Nat) : LastDeclaredAfter (lines ++ [line]) i.name k ↔ k = lines.length := by
        have hself : DeclaredAfter (lines ++ [line]) i.name lines.length :=
          declaredAfter_concat.mpr (Or.inr ⟨rfl, hline⟩)
        constructor
        · rintro ⟨hk, hmax⟩
          have := declaredAfter_lt hk
          have := hmax _ hself
          simp only [List.length_append, List.length_singleton] at *
          omega
        · rintro rfl
          refine ⟨hself, ?_⟩
          intro j hj
          have := declaredAfter_lt hj
          simp only [List.length_append, List.length_singleton] at this
          omega
      simp only [hlast, exists_eq_left]
      obtain ⟨bytes, hd, hname⟩ := hline
      simp only [declaredBy, name?_eq_some_iff.mpr hd, Option.map_some, Option.toList_some,
        Declared.lastOf_singleton]
      by_cases hp : i.package = file.package
      · have hi : (r.declared file bytes (number + lines.length)).interface = i := by
          simp [declared, hname, ← hp]
        rw [if_pos hi]
        simp [hp, declared, placeIn, eq_comm]
      · have hi : (r.declared file bytes (number + lines.length)).interface ≠ i := by
          rintro rfl
          exact hp rfl
        rw [if_neg hi, Option.none_or, ih]
        simp [hp]
    · have hlast (k : Nat) : LastDeclaredAfter (lines ++ [line]) i.name k ↔
          LastDeclaredAfter lines i.name k := by
        simp only [LastDeclaredAfter, declaredAfter_concat, hline, and_false, or_false]
      have hnone : Declared.lastOf (r.declaredBy file line (number + lines.length)).toList i =
          none := by
        cases hn : name? line with
        | none => simp [declaredBy, hn]
        | some bytes =>
          have hi : (r.declared file bytes (number + lines.length)).interface ≠ i := by
            rintro rfl
            exact hline ⟨bytes, name?_eq_some_iff.mp hn, rfl⟩
          simp [declaredBy, hn, Declared.lastOf_singleton, hi]
      rw [hnone, Option.none_or, ih]
      simp only [hlast]

theorem scan_fixture (hfix : file.isFixture = true) : r.scan file = .done (.ok .empty) := by
  rw [scan, if_pos hfix]

/-- How scanning a file that is no test fixture comes out, over any stream. -/
theorem scan_run (D : Delivery ρ) {s : ρ} (hfix : file.isFixture = false)
    (h : D.Holds s content) :
    (∃ t, (r.scan file).run s = (.ok (.ofDeclarations (r.declarations file content)), t) ∧
      D.Holds t [] ∧ D.Stops [] none) ∨
    (∃ f rest got t, (r.scan file).run s = (.error (.unreadable file.path f), t) ∧
      content = got ++ rest ∧ D.Stops rest (some f) ∧ f.isInterrupted = false) := by
  have hl : D.ReadsLines content (Buffered.lines ⟨s, []⟩) :=
    Delivery.lines_spec ⟨content, rfl, h⟩
  simp only [scan, hfix, Bool.false_eq_true, if_false, Reading.run]
  generalize Buffered.lines (⟨s, []⟩ : Buffered ρ) = x at hl
  cases hl with
  | whole holds stops =>
    rename_i c
    obtain ⟨rest, hrest, hinner⟩ := holds
    obtain ⟨-, rfl⟩ := List.append_eq_nil_iff.mp hrest.symm
    dsimp only
    rw [index_foldl_linesOf]
    exact Or.inl ⟨c.inner, rfl, hinner, stops⟩
  | failed eq stops lasting => exact Or.inr ⟨_, _, _, _, rfl, eq, stops, lasting⟩

/-- How a scan comes out over a source with faults: the first fault that is no interruption decides,
and only if there is none within the content does the content. -/
theorem scan_run_ofSchedule {faults : List Fault} (h : Source.Bearable faults)
    (hfix : file.isFixture = false) (stride : Nat → Nat) :
    ((r.scan file).run (Source.ofSchedule content faults stride)).1 =
      match Source.firstFatal faults content.length with
      | some f => .error (.unreadable file.path f.failure)
      | none => .ok (.ofDeclarations (r.declarations file content)) := by
  have ho := Source.outcome_ofSchedule h content stride
  have hs := Source.settles_ofSchedule h content stride
  rw [Source.untilFatal] at ho
  cases hf : Source.firstFatal faults content.length with
  | some f =>
    rw [hf] at ho
    rcases scan_run (r := r) (.untilStop (some f.failure) (·.isInterrupted = true)) hfix
        ⟨hs, ho, fun _ _ hg => hg⟩ with
        ⟨t, hrun, -, hstop⟩ | ⟨g, rest, got, t, hrun, -, hstop, hg⟩
    · simp [Delivery.untilStop] at hstop
    · rcases hstop with ⟨-, hfg⟩ | ⟨g', hgg, hi⟩
      · rw [hrun, Option.some.inj hfg]
      · obtain rfl : g = g' := by simpa using hgg
        simp [hg] at hi
  | none =>
    rw [hf] at ho
    rcases scan_run (r := r) (.untilStop none (·.isInterrupted = true)) hfix
        ⟨hs, ho, fun _ _ hg => hg⟩ with
        ⟨t, hrun, -⟩ | ⟨g, rest, got, t, hrun, -, hstop, hg⟩
    · rw [hrun]
    · rcases hstop with ⟨-, hfg⟩ | ⟨g', hgg, hi⟩
      · simp at hfg
      · obtain rfl : g = g' := by simpa using hgg
        simp [hg] at hi

/-- A scan over any source, cut into reads of any sizes and with any faults but lasting
interruptions. A test fixture is not read. Otherwise the first fault that is no interruption and
fires within the content is the problem; without one, the index holds for every interface the last
line of the content that declares it. Neither the sizes of reads nor interruptions matter. -/
theorem scan_ofSchedule (r : Release) (file : SourceFile) (content : List UInt8)
    {faults : List Fault} (h : Source.Bearable faults) (stride : Nat → Nat) :
    (file.isFixture = true → r.scan file = .done (.ok .empty)) ∧
    (file.isFixture = false →
      (∀ f, Source.firstFatal faults content.length = some f →
        ((r.scan file).run (Source.ofSchedule content faults stride)).1 =
          .error (.unreadable file.path f.failure)) ∧
      (Source.firstFatal faults content.length = none →
        ∃ index, ((r.scan file).run (Source.ofSchedule content faults stride)).1 = .ok index ∧
          ∀ i place, index.find? i = some place ↔ i.package = file.package ∧
            ∃ k, LastDeclaredAfter (content.splitOn 0x0a) i.name k ∧
              place = r.placeIn file (k + 1))) ∧
    ∀ faults' stride', Source.Bearable faults' →
      faults'.filter Fault.isFatal = faults.filter Fault.isFatal →
      ((r.scan file).run (Source.ofSchedule content faults' stride')).1 =
        ((r.scan file).run (Source.ofSchedule content faults stride)).1 := by
  cases hfix : file.isFixture with
  | true => simp [scan_fixture hfix, Reading.run]
  | false =>
    refine ⟨by simp, fun _ => ⟨?_, ?_⟩, ?_⟩
    · intro f hf
      rw [scan_run_ofSchedule h hfix, hf]
    · intro hf
      refine ⟨_, by rw [scan_run_ofSchedule h hfix, hf], ?_⟩
      intro i place
      rw [Index.find?_ofDeclarations, declarations, lastOf_declarationsFrom]
      simp only [Nat.add_comm 1]
    · intro faults' stride' h' hsame
      have hsplit (l : List Fault) :
          l.filter (fun f => f.isFatal && decide (f.position ≤ content.length)) =
            (l.filter Fault.isFatal).filter fun f => decide (f.position ≤ content.length) := by
        simp [List.filter_filter, Bool.and_comm]
      have hfirst : Source.firstFatal faults' content.length =
          Source.firstFatal faults content.length := by
        rw [Source.firstFatal, Source.firstFatal, hsplit, hsplit, hsame]
      rw [scan_run_ofSchedule h hfix, scan_run_ofSchedule h' hfix, hfirst]

theorem scan_ofSchedule_twice :
    Source.Bearable [⟨3, ⟨.interrupted, "again"⟩, false⟩, ⟨99, .other "late", true⟩] ∧
    ∃ index, ((scan ⟨"1.4", {}⟩ ⟨"go/src/io/io.go", "io"⟩).run
        (Source.ofSchedule (Utf8.encode "type R interface \x7b\n\ntype R interface \x7b")
          [⟨3, ⟨.interrupted, "again"⟩, false⟩, ⟨99, .other "late", true⟩] fun p => p + 2)).1 =
        .ok index ∧
      index.find? ⟨"R", "io"⟩ = some (placeIn ⟨"1.4", {}⟩ ⟨"go/src/io/io.go", "io"⟩ 3) := by
  have hb : Source.Bearable
      [⟨3, ⟨.interrupted, "again"⟩, false⟩, ⟨99, .other "late", true⟩] := by decide
  obtain ⟨index, hrun, hfind⟩ := ((scan_ofSchedule ⟨"1.4", {}⟩ ⟨"go/src/io/io.go", "io"⟩
    (Utf8.encode "type R interface \x7b\n\ntype R interface \x7b") hb fun p => p + 2).2.1
      (by decide)).2 (by decide)
  refine ⟨hb, index, hrun, (hfind _ _).mpr ⟨rfl, 2, ⟨?_, ?_⟩, rfl⟩⟩
  · exact ⟨Utf8.encode "type R interface \x7b", Utf8.encode "R", by decide,
      name?_eq_some_iff.mp (by decide), by decide⟩
  · intro j hj
    have hlines :
        ((Utf8.encode "type R interface \x7b\n\ntype R interface \x7b").splitOn 0x0a).length = 3 := by
      decide
    have := declaredAfter_lt hj
    omega

end Release

end InterfaceIndex
