import InterfaceIndex.Proofs.SourceFile
import InterfaceIndex.Proofs.Text.Utf8

/-! The selection of a name read back from its three parts, and carried out on the bytes of a name. -/
namespace InterfaceIndex

namespace Utf8

variable {text front : String}

/-- A text begins with the bytes of another one just when it begins with that text. -/
theorem encode_prefix_iff : encode front <+: encode text ↔ ∃ rest, text = front ++ rest := by
  constructor
  · rintro ⟨rest, hrest⟩
    rw [encode_eq, encode_eq] at hrest
    have hpieces : front.toList.map some ++ pieces none rest = text.toList.map some := by
      rw [← pieces_append, hrest, pieces_flatMap]
    have hmap : front.toList.map some <+: text.toList.map some := ⟨_, hpieces⟩
    obtain ⟨chars, hchars⟩ := (List.prefix_map_iff_of_injective fun _ _ => Option.some.inj).mp hmap
    refine ⟨String.ofList chars, ?_⟩
    rw [← String.toList_inj, String.toList_append, String.toList_ofList, hchars]
  · rintro ⟨rest, rfl⟩
    exact ⟨encode rest, (encode_append front rest).symm⟩

/-- What follows so many bytes of a text, if that is where a character begins or the text ends. -/
def cut? (text : String) (bytes : Nat) : Option String :=
  if h : (⟨bytes⟩ : String.Pos.Raw).IsValid text then some (text.sliceFrom ⟨_, h⟩).copy else none

theorem isValid_append (front rest : String) :
    (⟨front.utf8ByteSize⟩ : String.Pos.Raw).IsValid (front ++ rest) :=
  String.Pos.Raw.isValid_iff_exists_append.mpr ⟨front, rest, rfl, rfl⟩

theorem cut?_append (front rest : String) : cut? (front ++ rest) front.utf8ByteSize = some rest := by
  have hvalid := isValid_append front rest
  have hsplits : (String.Pos.mk _ hvalid).Splits front rest := ⟨rfl, rfl⟩
  rw [cut?, dif_pos hvalid, Option.some.injEq]
  exact String.copy_sliceFrom_eq_iff_exists_splits.mpr ⟨front, hsplits⟩

end Utf8

namespace SourceFile

variable {text word package part : List Char} {name root : String} {file : SourceFile}

/-- A word between two separators of a list that is closed by one more at each end. -/
theorem closed_infix_of_mem {words : List (List Char)} (h : word ∈ words) :
    '/' :: word ++ ['/'] <:+: '/' :: ['/'].intercalate words ++ ['/'] := by
  induction words with
  | nil => simp at h
  | cons first others ih =>
    rcases others with _ | ⟨second, others⟩
    · obtain rfl := List.mem_singleton.mp h
      simp
    · rw [List.intercalate_cons_cons]
      rcases List.mem_cons.mp h with rfl | h
      · refine (List.prefix_append ('/' :: word ++ ['/'])
          (['/'].intercalate (second :: others) ++ ['/'])).isInfix.trans ?_
        simp
      · refine (ih h).trans (List.IsSuffix.isInfix ⟨'/' :: first, ?_⟩)
        simp

theorem mem_splitOn_of_closed_infix (hflat : '/' ∉ word)
    (h : '/' :: word ++ ['/'] <:+: '/' :: text ++ ['/']) : word ∈ text.splitOn '/' := by
  obtain ⟨before, after, heq⟩ := h
  -- Both sides are split; the separators at the ends leave an empty word each.
  have hleft : (before ++ ('/' :: word ++ ['/']) ++ after).splitOn '/' =
      before.splitOn '/' ++ word :: after.splitOn '/' := by
    have hform : before ++ ('/' :: word ++ ['/']) ++ after =
        before ++ '/' :: (word ++ '/' :: after) := by
      simp
    rw [hform, List.splitOn_append_cons_self, List.splitOn_append_cons_self_of_not_mem hflat]
  have hright : ('/' :: text ++ ['/']).splitOn '/' = [] :: text.splitOn '/' ++ [[]] := by
    have hform : '/' :: text ++ ['/'] = [] ++ '/' :: (text ++ '/' :: []) := rfl
    rw [hform, List.splitOn_append_cons_self, List.splitOn_append_cons_self, List.splitOn_nil]
    rfl
  rw [heq, hright] at hleft
  obtain ⟨first, firsts, hfirst⟩ := List.exists_cons_of_ne_nil (List.splitOn_ne_nil '/' before)
  obtain ⟨lasts, last, hlast⟩ := List.eq_nil_or_concat (after.splitOn '/') |>.resolve_left
    (List.splitOn_ne_nil '/' after)
  rw [hfirst, hlast, List.concat_eq_append, List.cons_append, List.cons_append] at hleft
  have hmiddle : text.splitOn '/' ++ [[]] = (firsts ++ word :: lasts) ++ [last] := by
    simpa using (List.cons.inj hleft).2
  rw [(List.append_inj' hmiddle rfl).1]
  simp

/-- The words of a path are what stands between two slashes, one more slash at each end of it. -/
theorem mem_splitOn_iff (hflat : '/' ∉ word) :
    word ∈ text.splitOn '/' ↔ '/' :: word ++ ['/'] <:+: '/' :: text ++ ['/'] := by
  constructor
  · intro h
    have hclosed := closed_infix_of_mem h
    rwa [List.intercalate_splitOn] at hclosed
  · exact mem_splitOn_of_closed_infix hflat

/-- What ends in a slash does not reach into a part without one. -/
theorem infix_closed_iff (hpart : '/' ∉ part) :
    word ++ ['/'] <:+: package ++ '/' :: part ↔ word ++ ['/'] <:+: package ++ ['/'] := by
  constructor
  · rintro ⟨before, after, heq⟩
    have heq : (before ++ word) ++ '/' :: after = package ++ '/' :: part := by simpa using heq
    rcases List.append_eq_append_iff.mp heq with ⟨between, rfl, hbetween⟩ | ⟨between, hwhole, hbetween⟩
    · cases between with
      | nil => exact ⟨before, [], by simp⟩
      | cons c between =>
        obtain ⟨rfl, -⟩ := List.cons.inj hbetween
        exact ⟨before, between ++ ['/'], by simp⟩
    · cases between with
      | nil =>
        rw [List.append_nil] at hwhole
        exact ⟨before, [], by simp [← hwhole]⟩
      | cons c between =>
        have hpart' : part = between ++ '/' :: after := (List.cons.inj hbetween).2
        exact (hpart (by simp [hpart'])).elim
  · intro h
    exact h.trans (List.IsPrefix.isInfix ⟨part, by simp⟩)

/-- Test fixtures are the files with a directory of that name anywhere between root and file part. -/
theorem isFixture_iff (hpart : '/' ∉ part) : file.isFixture = true ↔
    "/testdata/".toList <:+: '/' :: (file.package.toList ++ '/' :: part) := by
  have hword : "/testdata/".toList = ('/' :: "testdata".toList) ++ ['/'] := rfl
  rw [isFixture, List.contains_iff_mem, mem_splitOn_iff (by decide), hword, ← List.cons_append,
    infix_closed_iff hpart]

/-- The part of the selection that follows the root. -/
def packaged? (name : String) (below : List Char) : Option SourceFile := do
  let relative ← after? ['/'] below
  let (package, _) ← splitAtLastSlash relative
  if package.isEmpty then none else some ⟨name, String.ofList package⟩

/-- The selection on bytes: the front of a name is compared with the root byte by byte, and the name
is cut behind as many bytes as the root has. Nothing comes back when that cut fails. -/
def selectOnBytes (name root : String) : Option (Option SourceFile) :=
  if (Utf8.encode root).isPrefixOf (Utf8.encode name) && hasSourceEnding name.toList then
    (Utf8.cut? name root.utf8ByteSize).map fun below => packaged? name below.toList
  else some none

/-- The cut is always where a character begins or the name ends. -/
theorem selectOnBytes_eq : selectOnBytes name root = some (select? name root) := by
  cases hending : hasSourceEnding name.toList with
  | false => simp [selectOnBytes, select?, hending]
  | true =>
    by_cases hfront : ∃ below, name = root ++ below
    · obtain ⟨below, rfl⟩ := id hfront
      have hafter : after? root.toList (root ++ below).toList = some below.toList :=
        after?_eq_some_iff.mpr String.toList_append
      have hbytes : (Utf8.encode root).isPrefixOf (Utf8.encode (root ++ below)) = true :=
        List.isPrefixOf_iff_prefix.mpr (Utf8.encode_prefix_iff.mpr hfront)
      simp only [selectOnBytes, hbytes, hending, Bool.and_self, if_true, Utf8.cut?_append,
        Option.map_some, select?, hafter, Option.bind_eq_bind, Option.bind_some]
      rfl
    · have hbytes : (Utf8.encode root).isPrefixOf (Utf8.encode name) = false := by
        rw [Bool.eq_false_iff, ne_eq, List.isPrefixOf_iff_prefix, Utf8.encode_prefix_iff]
        exact hfront
      have hafter : after? root.toList name.toList = none := by
        rw [Option.eq_none_iff_forall_ne_some]
        intro below hbelow
        refine hfront ⟨String.ofList below, ?_⟩
        rw [← String.toList_inj, String.toList_append, String.toList_ofList]
        exact after?_eq_some_iff.mp hbelow
      simp only [selectOnBytes, hbytes, Bool.false_and, Bool.false_eq_true, if_false, select?, hending,
        if_true, hafter, Option.bind_eq_bind, Option.bind_none]

/-- A name of three parts, character by character. -/
theorem toList_parts (root package part : String) :
    (root ++ "/" ++ package ++ "/" ++ part).toList =
      root.toList ++ '/' :: (package.toList ++ '/' :: part.toList) := by
  simp [String.toList_append]

/-- A name is read back in one way only. -/
theorem parts_unique {package part other otherPart : String} (hpart : '/' ∉ part.toList)
    (hother : '/' ∉ otherPart.toList)
    (heq : root ++ "/" ++ package ++ "/" ++ part = root ++ "/" ++ other ++ "/" ++ otherPart) :
    package = other ∧ part = otherPart := by
  have hchars := congrArg String.toList heq
  rw [toList_parts, toList_parts, List.append_cancel_left_eq, List.cons.injEq] at hchars
  have hsplit := congrArg splitAtLastSlash hchars.2
  rw [splitAtLastSlash_append hpart, splitAtLastSlash_append hother, Option.some.injEq,
    Prod.mk.injEq, String.toList_inj, String.toList_inj] at hsplit
  exact hsplit

theorem select?_eq_some_iff_parts : select? name root = some file ↔
    ∃ package part : String, package ≠ "" ∧ IsReadable part.toList ∧
      name = root ++ "/" ++ package ++ "/" ++ part ∧ file = ⟨name, package⟩ := by
  rw [select?_eq_some_iff]
  constructor
  · rintro ⟨rfl, hne, part, hpart, hname⟩
    refine ⟨file.package, String.ofList part, hne, by rwa [String.toList_ofList], ?_, rfl⟩
    rw [← String.toList_inj, toList_parts, String.toList_ofList, hname]
  · rintro ⟨package, part, hne, hpart, hname, rfl⟩
    exact ⟨rfl, hne, part.toList, hpart, by rw [hname, toList_parts]⟩

/-- A name is selected just when it is the root, a package that is not empty and a file part without
a slash that ends as a source file does and neither as documentation nor as a test, one slash between
each two. Package and file part are then the only ones, the file has that name and that package, and
it is a test fixture just when such a directory stands somewhere behind the root. The root is as many
bytes of the name as it has itself, so that cutting them off never splits a character. -/
theorem selection_exactly (name root : String) :
    (∀ file, select? name root = some file ↔ ∃ package part : String, package ≠ "" ∧
      IsReadable part.toList ∧ name = root ++ "/" ++ package ++ "/" ++ part ∧ file = ⟨name, package⟩) ∧
    (∀ package part other otherPart : String, '/' ∉ part.toList → '/' ∉ otherPart.toList →
      name = root ++ "/" ++ package ++ "/" ++ part → name = root ++ "/" ++ other ++ "/" ++ otherPart →
      package = other ∧ part = otherPart) ∧
    (∀ file below, select? name root = some file → name = root ++ below →
      (file.isFixture = true ↔ "/testdata/".toList <:+: below.toList)) ∧
    (Utf8.encode root <+: Utf8.encode name →
      (⟨root.utf8ByteSize⟩ : String.Pos.Raw).IsValid name) ∧
    selectOnBytes name root = some (select? name root) := by
  refine ⟨fun file => select?_eq_some_iff_parts, ?_, ?_, ?_, selectOnBytes_eq⟩
  · intro package part other otherPart hpart hother hname hname'
    exact parts_unique hpart hother (hname ▸ hname')
  · intro file below hfile hbelow
    obtain ⟨package, part, -, hpart, hname, rfl⟩ := select?_eq_some_iff_parts.mp hfile
    have hchars : below.toList = '/' :: (package.toList ++ '/' :: part.toList) := by
      have heq := congrArg String.toList (hbelow.symm.trans hname)
      rwa [toList_parts, String.toList_append, List.append_cancel_left_eq] at heq
    rw [hchars]
    exact isFixture_iff hpart.flat
  · intro hfront
    obtain ⟨below, rfl⟩ := Utf8.encode_prefix_iff.mp hfront
    exact Utf8.isValid_append root below

/-- A root that ends in a character of two bytes, and a package with doubled slashes and a directory
of test fixtures. -/
theorem selection_exactly_doubled :
    select? "gö//x//testdata/a.go" "gö" = some ⟨"gö//x//testdata/a.go", "/x//testdata"⟩ ∧
    SourceFile.isFixture ⟨"gö//x//testdata/a.go", "/x//testdata"⟩ = true ∧
    (⟨3⟩ : String.Pos.Raw).IsValid "gö//x//testdata/a.go" := by
  obtain ⟨hselect, -, hfixture, hvalid, -⟩ := selection_exactly "gö//x//testdata/a.go" "gö"
  have hfile : select? "gö//x//testdata/a.go" "gö" =
      some ⟨"gö//x//testdata/a.go", "/x//testdata"⟩ :=
    (hselect _).mpr ⟨"/x//testdata", "a.go", by decide, ⟨by decide, by decide, by decide, by decide⟩,
      by decide, rfl⟩
  refine ⟨hfile, (hfixture _ "//x//testdata/a.go" hfile (by decide)).mpr ?_, hvalid ?_⟩
  · exact ⟨"//x/".toList, "a.go".toList, by decide⟩
  · exact ⟨Utf8.encode "//x//testdata/a.go", by decide⟩

end SourceFile

end InterfaceIndex
