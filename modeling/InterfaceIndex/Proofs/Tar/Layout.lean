import InterfaceIndex.Tar.Archive
import InterfaceIndex.Proofs.Tar.Field
import Mathlib.Algebra.Group.Nat.Defs

/-! The form of an archive: files one after another, each behind a header that describes it. -/
namespace InterfaceIndex.Tar

variable {h : Header} {size position : Nat} {name front content : List UInt8}

/-- A header of one block that states the sum of its bytes and the size of what comes after it. -/
structure Header.States (h : Header) (size : Nat) : Prop where
  whole : h.block.length = blockSize
  sum : WritesOctal h.actualSum (h.slice 148 156)
  size : WritesOctal size (h.slice 124 136)

/-- The header of a regular file. -/
def Header.IsRegular (h : Header) : Prop := h.typeFlag = '0'.toUInt8 ∨ h.typeFlag = 0

/-- A header whose own field has room for the whole name. -/
structure Header.Names (h : Header) (name : List UInt8) : Prop where
  own : Spells name (h.slice 0 100)
  no_lead : h.isPosix = true → (h.slice 345 500).head? = some 0

/-- A header of one of the extended formats that announces the name of the next file. -/
structure Header.AnnouncesName (h : Header) : Prop where
  extended : h.isPosix = true ∨ h.isGnu = true
  flag : h.typeFlag = 'L'.toUInt8

/-- The zeros that fill up the last block of a content. -/
def padding (content : List UInt8) : List UInt8 :=
  List.replicate (padded content.length - content.length) 0

/-- What stands before the content of a file: its header, which names it unless a member before it
does. The content of such a member may end with a zero byte. -/
inductive Heads (name content : List UInt8) : List UInt8 → Prop
  | short {h : Header} (states : h.States content.length) (regular : h.IsRegular)
      (names : h.Names name) : Heads name content h.block
  | long {l h : Header} {text : List UInt8} (announces : l.AnnouncesName)
      (names : 0 ∉ name ∧ (text = name ∨ text = name ++ [0])) (described : l.States text.length)
      (states : h.States content.length) (regular : h.IsRegular) :
      Heads name content (l.block ++ (text ++ (padding text ++ h.block)))

/-- A file as an archive stores it. -/
structure StoredFile where
  name : String
  front : List UInt8
  content : List UInt8
  heads : Heads (Utf8.encode name) content front

/-- A file with all that belongs to it, a whole number of blocks. -/
def StoredFile.bytes (file : StoredFile) : List UInt8 :=
  file.front ++ (file.content ++ padding file.content)

/-- Where the header of the next file stands, after some files. -/
def extentOf (files : List StoredFile) : Nat := (files.flatMap StoredFile.bytes).length

/-- An archive of some files, which ends with two blocks of zeros. -/
def archiveOf (files : List StoredFile) : List UInt8 :=
  files.flatMap StoredFile.bytes ++ List.replicate (2 * blockSize) 0

/-- Where the content of a file begins that is stored after some others. -/
def contentStart (before : List StoredFile) (file : StoredFile) : Nat :=
  extentOf before + file.front.length

@[simp] theorem extentOf_nil : extentOf [] = 0 := rfl

@[simp] theorem extentOf_cons (file : StoredFile) (files : List StoredFile) :
    extentOf (file :: files) = file.bytes.length + extentOf files := by
  simp [extentOf]

theorem archiveOf_cons (file : StoredFile) (files : List StoredFile) :
    archiveOf (file :: files) = file.bytes ++ archiveOf files := by
  simp [archiveOf]

theorem archiveOf_ne_nil (files : List StoredFile) : archiveOf files ≠ [] := by
  intro h
  have hlen := congrArg List.length h
  simp only [archiveOf, List.length_append, List.length_replicate, blockSize,
    List.length_nil] at hlen
  omega

theorem le_padded (size : Nat) : size ≤ padded size := by
  unfold padded blockSize
  omega

@[simp] theorem length_padding (content : List UInt8) :
    (padding content).length = padded content.length - content.length := List.length_replicate

theorem length_padded (content : List UInt8) :
    content.length + (padding content).length = padded content.length := by
  have := le_padded content.length
  rw [length_padding]
  omega

/-- The sum of a block takes no more than six octal digits. -/
theorem Header.actualSum_lt (hlen : h.block.length = blockSize) : h.actualSum < 8 ^ 6 := by
  have hbound (bytes : List UInt8) (start : Nat) :
      bytes.foldl (fun sum b => sum + b.toNat) start ≤ start + 256 * bytes.length := by
    induction bytes generalizing start with
    | nil => simp
    | cons b bytes ih =>
      have := ih (start + b.toNat)
      have := b.toNat_lt
      simp only [List.foldl_cons, List.length_cons]
      omega
  have := hbound (h.block.take 148 ++ h.block.drop 156) (8 * 32)
  simp only [List.length_append, List.length_take, List.length_drop, hlen, blockSize] at this
  unfold actualSum
  omega

/-- A stated sum takes a digit, so that a header is no block of zeros. -/
theorem Header.States.not_zero (hs : h.States size) : h.block.all (· == 0) = false := by
  obtain ⟨-, ⟨lead, digits, fill, -, hdigits, hne, -, -, -, tail, hfield, -⟩, -⟩ := hs
  obtain ⟨b, more, rfl⟩ := List.exists_cons_of_ne_nil hne
  have hb : b ∈ h.slice 148 156 := by simp [hfield]
  have hmem : b ∈ h.block := List.mem_of_mem_drop (List.mem_of_mem_take hb)
  have hoctal := (hdigits b List.mem_cons_self).1
  rw [List.all_eq_false]
  refine ⟨b, hmem, ?_⟩
  rw [beq_iff_eq]
  rintro rfl
  exact absurd hoctal (by decide)

/-- A header in order passes the check and tells where the next one stands, if 64 bits do. -/
theorem checked_eq (hs : h.States size) (hnext : position + blockSize + padded size < UInt64.size) :
    checked h none position = .ok (size, position + blockSize + padded size) := by
  have hle := le_padded size
  have hsum : h.actualSum < UInt32.size := Nat.lt_trans (Header.actualSum_lt hs.whole) (by decide)
  have hsum64 : h.actualSum < UInt64.size := Nat.lt_trans hsum (by decide)
  have hsize : h.statedSize = .ok size := by
    rw [Header.statedSize, octalOrBinary_eq hs.size (by omega)]
    rfl
  have hstated : h.statedSum = .ok h.actualSum := by
    rw [Header.statedSum, octal_eq hs.sum hsum64]
    exact congrArg Except.ok (Nat.mod_eq_of_lt hsum)
  have hfits : size + (blockSize - 1) < UInt64.size := by
    unfold blockSize at hnext ⊢
    omega
  have hnone : (if h.takesSizeRecord = true then (none : Option (List UInt8)).bind Record.size?
      else none) = none := by
    split <;> rfl
  have hextent : extent h none position = .ok (size, position + blockSize + padded size) := by
    rw [extent, hsize]
    dsimp only [bind, Except.bind]
    have hplace : (position + blockSize) % UInt64.size + padded size < UInt64.size :=
      Nat.lt_of_le_of_lt (Nat.add_le_add_right (Nat.mod_le _ _) _) hnext
    rw [hnone, Option.getD_none, if_pos ⟨hfits, hplace⟩]
  rw [checked, hstated]
  dsimp only [bind, Except.bind]
  rw [if_pos rfl, hextent]

/-- What a regular file is not: a member about other members. -/
theorem Header.IsRegular.role (hr : h.IsRegular) : h.role = .entry := by
  unfold Header.role
  split
  · rcases hr with hr | hr <;> rw [hr] <;> rfl
  · rfl

theorem Header.IsRegular.not_sparse (hr : h.IsRegular) : h.isSparse = false := by
  unfold Header.isSparse
  rcases hr with hr | hr <;> rw [hr] <;> rfl

theorem Header.AnnouncesName.role (ha : h.AnnouncesName) : h.role = .longName := by
  unfold Header.role
  rw [if_pos (by simpa using ha.extended), if_pos ha.flag]

theorem Header.Names.name_eq (hn : h.Names name) : h.name = name := by
  have hown := untilZero_eq hn.own
  unfold Header.name
  rw [hown]
  cases hp : h.isPosix with
  | false => rfl
  | true =>
    have hlead : untilZero (h.slice 345 500) = [] := by
      obtain ⟨rest, hrest⟩ := List.head?_eq_some_iff.mp (hn.no_lead hp)
      rw [hrest]
      rfl
    rw [hlead]
    rfl

end InterfaceIndex.Tar
