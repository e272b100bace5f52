import InterfaceIndex.Proofs.Declaration
import InterfaceIndex.Proofs.Order
import InterfaceIndex.Proofs.Output
import Mathlib.Data.List.TakeWhile

/-! Reading a table back: its dashes tell how wide the columns are, and cutting its lines there gives
back every row. -/
namespace InterfaceIndex.Table

variable {t : Table} {d : Declared} {row : List String} {cell : List Char} {widths : List Nat}
  {column : Declared → String} {c : Char}

/-- What a row shows. -/
structure Row where
  name : String
  link : String
  package : String
  sourceFile : String
  line : Nat
  deriving DecidableEq

def Row.of (d : Declared) : Row :=
  ⟨d.interface.name, d.location.link, d.interface.package, d.location.sourceFile, d.location.line⟩

/-- Splits a line at every gap of two spaces. -/
def splitAtGaps : List Char → List (List Char)
  | ' ' :: ' ' :: rest => [] :: splitAtGaps rest
  | c :: rest => (splitAtGaps rest).modifyHead (c :: ·)
  | [] => [[]]

/-- Cuts a line at columns of the given widths, with two characters between them. -/
def cut : List Nat → List Char → List (List Char)
  | [], _ => []
  | width :: widths, line => line.take width :: cut widths (line.drop (width + 2))

/-- A cell without the spaces at its end. -/
def trimEnd (cell : List Char) : List Char :=
  (cell.reverse.dropWhile (· == ' ')).reverse

/-- The name and the link of a cell that shows the name as a link. -/
def link? (cell : List Char) : Option (String × String) :=
  (after? ['['] cell).bind fun text =>
    let name := text.takeWhile (· != ']')
    (after? [']', '('] (text.drop name.length)).bind fun link =>
      if link.getLast? = some ')' then some (String.ofList name, String.ofList link.dropLast)
      else none

/-- What a line with columns of the given widths shows. -/
def row? (widths : List Nat) (line : List Char) : Option Row :=
  match (cut widths line).map trimEnd with
  | [shown, package, sourceFile, number] =>
    (link? shown).map fun (name, link) =>
      ⟨name, link, String.ofList package, String.ofList sourceFile, Nat.ofDigitChars 10 number 0⟩
  | _ => none

/-- The rows of a table: the second line gives the widths of the columns, and every line after it
but what follows the last newline is a row. -/
def read (text : String) : List (Option Row) :=
  match text.toList.splitOn '\n' with
  | _ :: dashes :: rest => rest.dropLast.map (row? ((splitAtGaps dashes).map List.length))
  | _ => []

/-- The columns of a table. -/
def columns : List (Declared → String) :=
  [fun d => "[" ++ d.interface.name ++ "](" ++ d.location.link ++ ")", (·.interface.package),
    (·.location.sourceFile), fun d => toString d.location.line]

/-- The length of the longest cell of a column, and 0 if there are no rows. -/
def widest (t : Table) (column : Declared → String) : Nat :=
  (t.entries.map fun d => (column d).length).max?.getD 0

/-- Nothing in a row hides where its cells and lines end. -/
structure IsShowable (d : Declared) : Prop where
  name_closed : ']' ∉ d.interface.name.toList
  name_line : '\n' ∉ d.interface.name.toList
  link_line : '\n' ∉ d.location.link.toList
  package_line : '\n' ∉ d.interface.package.toList
  package_end : d.interface.package.toList.getLast? ≠ some ' '
  sourceFile_line : '\n' ∉ d.location.sourceFile.toList
  sourceFile_end : d.location.sourceFile.toList.getLast? ≠ some ' '

theorem length_le_widest (h : d ∈ t.entries) : (column d).length ≤ t.widest column := by
  have hmem := List.mem_map_of_mem (f := fun d => (column d).length) h
  obtain ⟨widest, hwidest⟩ := Option.isSome_iff_exists.mp
    (List.isSome_max?_of_mem hmem)
  rw [Table.widest, hwidest]
  exact (List.max?_eq_some_iff.mp hwidest).2 _ hmem

theorem foldl_max_eq (lengths : List Nat) : lengths.foldl max 0 = lengths.max?.getD 0 := by
  cases lengths with
  | nil => rfl
  | cons length lengths => rw [List.max?_cons', List.foldl_cons, Nat.zero_max, Option.getD_some]

/-- The widths are those of the widest cells. -/
theorem widths_eq (t : Table) : t.widths = columns.map t.widest := by
  have hfold (entries : List Declared) (sofar : (Declared → String) → Nat) :
      entries.foldl (fun widths d => widths.zipWith max ((cells d).map String.length))
        (columns.map sofar) = columns.map fun column =>
          (entries.map fun d => (column d).length).foldl max (sofar column) := by
    induction entries generalizing sofar with
    | nil => rfl
    | cons d entries ih =>
      have hstep : (columns.map sofar).zipWith max ((cells d).map String.length) =
          columns.map fun column => max (sofar column) (column d).length := rfl
      rw [List.foldl_cons, hstep, ih]
      rfl
  have hzero := hfold t.entries fun _ => 0
  simp only [foldl_max_eq] at hzero
  exact hzero

/-- The characters of a line, without its newline. -/
def shown (widths : List Nat) (cells : List String) : List Char :=
  gap.toList.intercalate ((widths.zipWith pad cells).map String.toList)

/-- The characters of the line of dashes, without its newline. -/
def dashes (widths : List Nat) : List Char :=
  gap.toList.intercalate (widths.map fun width => List.replicate width '-')

/-- The lines of a table, without their newlines. -/
def lines (t : Table) : List (List Char) :=
  shown t.widths titles :: dashes t.widths :: t.entries.map fun d => shown t.widths (cells d)

theorem flatMap_intersperse (between : String) (parts : List String) :
    (parts.intersperse between).flatMap String.toList =
      between.toList.intercalate (parts.map String.toList) := by
  induction parts with
  | nil => rfl
  | cons part parts ih =>
    cases parts with
    | nil => simp
    | cons next parts => simpa [List.intercalate_cons_cons] using ih

theorem toList_linePieces (widths : List Nat) (cells : List String) :
    (String.join (linePieces widths cells)).toList = shown widths cells ++ ['\n'] := by
  rw [linePieces, String.toList_join, List.flatMap_append, flatMap_intersperse]
  rfl

theorem toList_rule (widths : List Nat) : (rule widths).toList = dashes widths ++ ['\n'] := by
  simp [rule, dashes, String.toList_intercalate, Function.comp_def]

/-- A table is its lines, each of them closed by a newline. -/
theorem toList_text (t : Table) : t.text.toList = t.lines.flatMap (· ++ ['\n']) := by
  have hrows (entries : List Declared) : (String.join (entries.flatMap fun d =>
      linePieces t.widths (cells d))).toList =
      (entries.map fun d => shown t.widths (cells d)).flatMap (· ++ ['\n']) := by
    induction entries with
    | nil => rfl
    | cons d entries ih =>
      rw [List.flatMap_cons, String.join_append, String.toList_append, toList_linePieces, ih]
      rfl
  rw [text, pieces, String.join_append, String.join_append, String.toList_append,
    String.toList_append, toList_linePieces, hrows]
  simp [lines, toList_rule]

theorem not_mem_intercalate {between : List Char} {parts : List (List Char)} (hb : c ∉ between)
    (h : ∀ part ∈ parts, c ∉ part) : c ∉ between.intercalate parts := by
  induction parts with
  | nil => simp
  | cons part parts ih =>
    cases parts with
    | nil => simpa using h
    | cons next parts =>
      have hpart := h part List.mem_cons_self
      have hrest := ih fun part hp => h part (List.mem_cons_of_mem _ hp)
      simp [List.intercalate_cons_cons, hpart, hb, hrest]

theorem toList_pad (width : Nat) (cell : String) :
    (pad width cell).toList = cell.toList ++ List.replicate (width - cell.length) ' ' := by
  simp [pad]

theorem newline_not_mem_shown (h : ∀ cell ∈ row, '\n' ∉ cell.toList) :
    '\n' ∉ shown widths row := by
  refine not_mem_intercalate (by decide) ?_
  intro part hpart
  rw [← List.map_uncurry_zip_eq_zipWith, List.map_map] at hpart
  obtain ⟨⟨width, cell⟩, hzip, rfl⟩ := List.mem_map.mp hpart
  have hcell := h cell (List.of_mem_zip hzip).2
  simp [toList_pad, hcell]

theorem newline_not_mem_dashes (widths : List Nat) : '\n' ∉ dashes widths := by
  refine not_mem_intercalate (by decide) ?_
  intro part hpart
  obtain ⟨width, -, rfl⟩ := List.mem_map.mp hpart
  simp

/-- The digits of a line number. -/
theorem toList_number (line : Nat) : (toString line).toList = Nat.toDigits 10 line := by
  simp

theorem isDigit_of_mem_number {line : Nat} (h : c ∈ (toString line).toList) : c.isDigit = true := by
  rw [toList_number] at h
  exact Nat.isDigit_of_mem_toDigits (by decide) (by decide) h

theorem newline_not_mem_cells (h : IsShowable d) : ∀ cell ∈ cells d, '\n' ∉ cell.toList := by
  have hline : '\n' ∉ (toString d.location.line).toList := fun hc =>
    absurd (isDigit_of_mem_number hc) (by decide)
  simp only [Table.cells, List.mem_cons, List.not_mem_nil, or_false, forall_eq_or_imp, forall_eq]
  refine ⟨?_, h.package_line, h.sourceFile_line, hline⟩
  simp [h.name_line, h.link_line]

/-- The lines of a table by what stands between its newlines. -/
theorem splitOn_lines {lines : List (List Char)} (h : ∀ line ∈ lines, '\n' ∉ line) :
    (lines.flatMap (· ++ ['\n'])).splitOn '\n' = lines ++ [[]] := by
  induction lines with
  | nil => rfl
  | cons line lines ih =>
    have hrest := ih fun line hl => h line (List.mem_cons_of_mem _ hl)
    rw [List.flatMap_cons, List.append_assoc, List.singleton_append,
      List.splitOn_append_cons_self_of_not_mem (h line List.mem_cons_self), hrest]
    rfl

theorem splitAtGaps_dashes (width : Nat) (rest : List Char) :
    splitAtGaps (List.replicate width '-' ++ ' ' :: ' ' :: rest) =
      List.replicate width '-' :: splitAtGaps rest := by
  induction width with
  | zero => rfl
  | succ width ih =>
    rw [List.replicate_succ, List.cons_append, splitAtGaps, ih]
    · rfl
    · simp

/-- The line of dashes falls into the dashes of its columns. -/
theorem splitAtGaps_eq {width : Nat} : splitAtGaps (dashes (width :: widths)) =
    (width :: widths).map fun width => List.replicate width '-' := by
  induction widths generalizing width with
  | nil =>
    have hrun : splitAtGaps (List.replicate width '-') = [List.replicate width '-'] := by
      induction width with
      | zero => rfl
      | succ width ih =>
        rw [List.replicate_succ, splitAtGaps, ih]
        · rfl
        · simp
    simpa [dashes] using hrun
  | cons next widths ih =>
    have hgap : dashes (width :: next :: widths) =
        List.replicate width '-' ++ ' ' :: ' ' :: dashes (next :: widths) := by
      simp [dashes, List.intercalate_cons_cons, gap]
    rw [hgap, splitAtGaps_dashes, ih]
    rfl

/-- Lines fall into their parts when cut at their lengths. -/
theorem cut_intercalate (parts : List (List Char)) :
    cut (parts.map List.length) (gap.toList.intercalate parts) = parts := by
  induction parts with
  | nil => rfl
  | cons part parts ih =>
    cases parts with
    | nil => simp [cut]
    | cons next parts =>
      have hgap : gap.toList.length = 2 := rfl
      have hlength : part.length + 2 = (part ++ gap.toList).length := by
        rw [List.length_append, hgap]
      rw [List.map_cons, cut, List.intercalate_cons_cons, hlength, List.drop_left, ih,
        List.append_assoc, List.take_left]

theorem trimEnd_append (n : Nat) (h : cell.getLast? ≠ some ' ') :
    trimEnd (cell ++ List.replicate n ' ') = cell := by
  have hspaces : (List.replicate n ' ').dropWhile (· == ' ') = [] := by simp
  have hcell : cell.reverse.dropWhile (· == ' ') = cell.reverse := by
    rw [← List.head?_reverse] at h
    cases hreverse : cell.reverse with
    | nil => rfl
    | cons last rest =>
      have hlast : last ≠ ' ' := by simpa [hreverse] using h
      simp [hlast]
  rw [trimEnd, List.reverse_append, List.reverse_replicate, List.dropWhile_append, hspaces, hcell]
  simp

theorem link?_eq {name : List Char} (link : List Char) (h : ']' ∉ name) :
    link? ('[' :: name ++ ']' :: '(' :: link ++ [')']) =
      some (String.ofList name, String.ofList link) := by
  have hopen : after? ['['] ('[' :: name ++ ']' :: '(' :: link ++ [')']) =
      some (name ++ ']' :: '(' :: link ++ [')']) := after?_eq_some_iff.mpr rfl
  have hname : (name ++ ']' :: '(' :: link ++ [')']).takeWhile (· != ']') = name := by
    have hall : ∀ c ∈ name, (c != ']') = true := by
      intro c hc
      simpa using ne_of_mem_of_not_mem hc h
    rw [List.append_assoc, List.takeWhile_append_of_pos hall]
    simp
  have hlink : after? [']', '('] (']' :: '(' :: link ++ [')']) = some (link ++ [')']) :=
    after?_eq_some_iff.mpr rfl
  rw [link?, hopen, Option.bind_some]
  dsimp only
  rw [hname, List.append_assoc, List.drop_left, hlink]
  simp

/-- No cell of a row that can be shown ends with a space. -/
theorem getLast?_of_mem_columns (h : IsShowable d) (hcolumn : column ∈ columns) :
    (column d).toList.getLast? ≠ some ' ' := by
  simp only [columns, List.mem_cons, List.not_mem_nil, or_false] at hcolumn
  rcases hcolumn with rfl | rfl | rfl | rfl
  · rw [String.toList_append, List.getLast?_append]
    simp
  · exact h.package_end
  · exact h.sourceFile_end
  · intro hlast
    exact absurd (isDigit_of_mem_number (List.mem_of_getLast? hlast)) (by decide)

/-- The line of a row, cut at the columns and without the padding of its cells. -/
theorem cut_shown (hd : d ∈ t.entries) (h : IsShowable d) :
    (cut t.widths (shown t.widths (cells d))).map trimEnd =
      columns.map fun column => (column d).toList := by
  have hshown : shown t.widths (cells d) = gap.toList.intercalate
      (columns.map fun column => (pad (t.widest column) (column d)).toList) := by
    rw [widths_eq]
    rfl
  have hwidths : t.widths =
      (columns.map fun column => (pad (t.widest column) (column d)).toList).map List.length := by
    rw [widths_eq, List.map_map]
    apply List.map_congr_left
    intro column _
    have hfits : (column d).length ≤ t.widest column := length_le_widest hd
    rw [Function.comp_apply, toList_pad, List.length_append, List.length_replicate,
      String.length_toList]
    omega
  rw [hshown, hwidths, cut_intercalate, List.map_map]
  apply List.map_congr_left
  intro column hcolumn
  rw [Function.comp_apply, toList_pad, trimEnd_append _ (getLast?_of_mem_columns h hcolumn)]

/-- A line that shows a declaration reads as its row. -/
theorem row?_shown (hd : d ∈ t.entries) (h : IsShowable d) :
    row? t.widths (shown t.widths (cells d)) = some (Row.of d) := by
  have hlink := link?_eq d.location.link.toList h.name_closed
  have hcell : ("[" ++ d.interface.name ++ "](" ++ d.location.link ++ ")").toList =
      '[' :: d.interface.name.toList ++ ']' :: '(' :: d.location.link.toList ++ [')'] := by simp
  simp only [row?, cut_shown hd h, columns, List.map_cons, List.map_nil, hcell, hlink,
    toList_number, Nat.ofDigitChars_ten_toDigits, Option.map_some, String.ofList_toList, Row.of]

theorem splitOn_text (h : ∀ d ∈ t.entries, IsShowable d) :
    t.text.toList.splitOn '\n' = t.lines ++ [[]] := by
  rw [toList_text]
  apply splitOn_lines
  intro line hline
  simp only [lines, List.mem_cons, List.mem_map] at hline
  rcases hline with rfl | rfl | ⟨d, hd, rfl⟩
  · exact newline_not_mem_shown (by decide)
  · exact newline_not_mem_dashes _
  · exact newline_not_mem_shown (newline_not_mem_cells (h d hd))

/-- The line of dashes has a run of dashes for every column, as wide as its longest cell. -/
theorem splitAtGaps_widths (t : Table) : splitAtGaps (dashes t.widths) =
    columns.map fun column => List.replicate (t.widest column) '-' := by
  have hcolumns : t.widths = t.widest (columns.head (by decide)) :: (columns.map t.widest).tail :=
    widths_eq t
  rw [hcolumns, splitAtGaps_eq]
  rfl

/-- A table reads as its rows. -/
theorem read_text (h : ∀ d ∈ t.entries, IsShowable d) :
    read t.text = t.entries.map fun d => some (Row.of d) := by
  have hruns : (splitAtGaps (dashes t.widths)).map List.length = t.widths := by
    rw [splitAtGaps_widths, widths_eq]
    simp
  simp only [read, splitOn_text h, lines, List.cons_append, hruns]
  rw [List.dropLast_concat, List.map_map]
  apply List.map_congr_left
  intro d hd
  exact row?_shown hd (h d hd)

/-- The table of an index is lossless and no wider than it has to be: it has a line of titles, a
line of dashes and a line for each entry; the dashes of a column are as many as its longest cell has
characters; and the lines, cut where the dashes end, read as the rows that were shown. So indexes
with the same table have the same rows. -/
theorem ofIndex_lossless (x : Index) (h : ∀ d ∈ x.entries, IsShowable d) :
    (ofIndex x).write {} = (none, { accepted := (Utf8.encode (ofIndex x).text).toArray }) ∧
    (∃ head dashes rows, (ofIndex x).text.toList.splitOn '\n' = head :: dashes :: rows ++ [[]] ∧
      rows.length = x.size ∧
      splitAtGaps dashes =
        columns.map fun column => List.replicate ((ofIndex x).widest column) '-') ∧
    read (ofIndex x).text = (ofIndex x).entries.map (fun d => some (Row.of d)) ∧
    ∀ y : Index, (∀ d ∈ y.entries, IsShowable d) → (ofIndex y).text = (ofIndex x).text →
      y.entries.map Row.of = x.entries.map Row.of := by
  have hread {z : Index} (hz : ∀ d ∈ z.entries, IsShowable d) :
      read (ofIndex z).text = (z.entries.map Row.of).map some := by
    rw [read_text (entries_ofIndex z ▸ hz), entries_ofIndex, List.map_map]
    rfl
  refine ⟨?_, ⟨_, _, _, splitOn_text (entries_ofIndex x ▸ h), ?_, splitAtGaps_widths _⟩,
    read_text (entries_ofIndex x ▸ h), ?_⟩
  · have hwrite := writeAll_unlimited (ofIndex x).pieces #[]
    simpa [write, text] using hwrite
  · rw [List.length_map, entries_ofIndex, Index.size]
  · intro y hy htext
    have hrows := hread hy
    rw [htext, hread h] at hrows
    exact (List.map_inj_right fun a b => Option.some.inj).mp hrows.symm

/-- An entry without a package, so that this column is empty, and with spaces in other cells. -/
def bareEntry : Declared :=
  ⟨⟨"A", ""⟩, ⟨"1.4", "a  b", 10, "x (y)"⟩⟩

theorem ofIndex_lossless_bare : (∀ d ∈ (Index.ofDeclarations [bareEntry]).entries, IsShowable d) ∧
    read (ofIndex (.ofDeclarations [bareEntry])).text = [some ⟨"A", "x (y)", "", "a  b", 10⟩] := by
  have hentries : (Index.ofDeclarations [bareEntry]).entries = [bareEntry] := rfl
  have h : ∀ d ∈ (Index.ofDeclarations [bareEntry]).entries, IsShowable d := by
    rw [hentries]
    intro d hd
    obtain rfl := List.mem_singleton.mp hd
    constructor <;> decide
  obtain ⟨-, -, hread, -⟩ := ofIndex_lossless _ h
  rw [entries_ofIndex, hentries] at hread
  exact ⟨h, hread⟩

end InterfaceIndex.Table
