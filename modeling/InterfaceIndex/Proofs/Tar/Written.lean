import InterfaceIndex.Proofs.Tar.Layout
import Mathlib.Algebra.Group.Nat.Defs

/-! Every file with a name free of zero bytes and fewer than `8 ^ 11` bytes can be stored. -/
namespace InterfaceIndex.Tar

variable {name content fields rest : List UInt8} {flag : UInt8} {size n width : Nat}

/-- The last octal digits of a number, so many of them. -/
def octalDigits : Nat → Nat → List UInt8
  | 0, _ => []
  | width + 1, n => octalDigits width (n / 8) ++ [UInt8.ofNat (0x30 + n % 8)]

@[simp] theorem length_octalDigits (width n : Nat) : (octalDigits width n).length = width := by
  induction width generalizing n with
  | zero => rfl
  | succ width ih => simp [octalDigits, ih]

theorem toNat_digit (n : Nat) : (UInt8.ofNat (0x30 + n % 8)).toNat = 0x30 + n % 8 :=
  Utf8.toNat_ofNat (by omega)

theorem isOctal_octalDigits (width n : Nat) : ∀ b ∈ octalDigits width n, IsOctal b := by
  induction width generalizing n with
  | zero => simp [octalDigits]
  | succ width ih =>
    intro b hb
    rcases List.mem_append.mp hb with hb | hb
    · exact ih (n / 8) b hb
    · obtain rfl := List.mem_singleton.mp hb
      rw [IsOctal, toNat_digit]
      omega

theorem octalValue_octalDigits (h : n < 8 ^ width) : octalValue (octalDigits width n) = n := by
  induction width generalizing n with
  | zero =>
    obtain rfl : n = 0 := by simpa using h
    rfl
  | succ width ih =>
    have hdiv : n / 8 < 8 ^ width := by
      rw [Nat.pow_succ] at h
      omega
    have hfront := ih hdiv
    unfold octalValue at hfront ⊢
    rw [octalDigits, List.foldl_append, hfront, List.foldl_cons, List.foldl_nil, toNat_digit]
    omega

/-- A field of digits that a zero byte ends. -/
theorem writesOctal_digits (h : n < 8 ^ (width + 1)) :
    WritesOctal n (octalDigits (width + 1) n ++ [0]) := by
  have hdigits := isOctal_octalDigits (width + 1) n
  refine .intro [] _ [] (by simp) hdigits ?_ (octalValue_octalDigits h) (by simp)
    ⟨?_, [0], by simp, by simp⟩
  · intro hnil
    simpa using congrArg List.length hnil
  · simp only [List.append_nil, List.nil_append]
    intro hzero
    exact absurd (hdigits 0 hzero).1 (by decide)

/-- What stands in a header before the sum: a name, fields without use here, and a size. -/
def beforeSum (name : List UInt8) (size : Nat) : List UInt8 :=
  name ++ (List.replicate (124 - name.length) 0 ++
    ((octalDigits 11 size ++ [0]) ++ List.replicate 12 0))

/-- What stands in a header after the sum: a type, and the mark of the format. -/
def afterSum (flag : UInt8) : List UInt8 :=
  flag :: (List.replicate 100 0 ++ (Utf8.encode "ustar  \x00" ++ List.replicate 247 0))

/-- The header of a member. -/
def written (name : List UInt8) (size : Nat) (flag : UInt8) : Header :=
  let sum := (beforeSum name size ++ afterSum flag).foldl (fun sum b => sum + b.toNat) (8 * 32)
  ⟨beforeSum name size ++ ((octalDigits 7 sum ++ [0]) ++ afterSum flag)⟩

theorem slice_eq {h : Header} {before field after : List UInt8} {first last : Nat}
    (hblock : h.block = before ++ (field ++ after)) (hbefore : before.length = first)
    (hfield : field.length = last - first) : h.slice first last = field := by
  rw [Header.slice, hblock, ← hbefore, List.drop_left, hbefore, ← hfield, List.take_left]

theorem length_beforeSum (size : Nat) (hname : name.length ≤ 100) :
    (beforeSum name size).length = 148 := by
  simp only [beforeSum, List.length_append, List.length_replicate, length_octalDigits,
    List.length_singleton]
  omega

theorem length_afterSum (flag : UInt8) : (afterSum flag).length = 356 := by
  have hmark : (Utf8.encode "ustar  \x00").length = 8 := by decide
  simp only [afterSum, List.length_cons, List.length_append, List.length_replicate, hmark]

/-- The sum that a written header states is that of its bytes. -/
theorem actualSum_written (hname : name.length ≤ 100) : (written name size flag).actualSum =
    (beforeSum name size ++ afterSum flag).foldl (fun sum b => sum + b.toNat) (8 * 32) := by
  have hbefore := length_beforeSum size hname
  unfold Header.actualSum written
  dsimp only
  rw [List.take_left' hbefore, ← List.append_assoc, List.drop_left' (by simp [hbefore])]

theorem block_written (size : Nat) (flag : UInt8) (hname : name.length ≤ 100) :
    (written name size flag).block = beforeSum name size ++
      ((octalDigits 7 (written name size flag).actualSum ++ [0]) ++ afterSum flag) := by
  rw [actualSum_written hname]
  rfl

theorem states_written (hname : name.length ≤ 100) (hsize : size < 8 ^ 11) :
    (written name size flag).States size := by
  have hblock := block_written size flag hname
  have hbefore := length_beforeSum size hname
  have hafter := length_afterSum flag
  have hwhole : (written name size flag).block.length = blockSize := by
    simp [hblock, hbefore, hafter, blockSize]
  have hlt := Header.actualSum_lt hwhole
  refine ⟨hwhole, ?_, ?_⟩
  · rw [slice_eq hblock hbefore (by simp)]
    exact writesOctal_digits (Nat.lt_trans hlt (by decide))
  · simp only [beforeSum, List.append_assoc] at hblock
    rw [← List.append_assoc name, ← List.append_assoc (octalDigits 11 size)] at hblock
    rw [slice_eq hblock (by simp; omega) (by simp)]
    exact writesOctal_digits hsize

theorem typeFlag_written (hname : name.length ≤ 100) :
    (written name size flag).typeFlag = flag := by
  have hbefore := length_beforeSum size hname
  rw [Header.typeFlag, block_written _ _ hname, ← List.append_assoc, List.getD_eq_getElem?_getD,
    List.getElem?_append_right (by simp [hbefore])]
  simp only [List.length_append, hbefore, length_octalDigits, List.length_singleton]
  rfl

theorem format_written (hname : name.length ≤ 100) :
    (written name size flag).format = Utf8.encode "ustar  \x00" := by
  have hbefore := length_beforeSum size hname
  have hblock : (written name size flag).block =
      (beforeSum name size ++ (octalDigits 7 (written name size flag).actualSum ++ [0]) ++
        (flag :: List.replicate 100 0)) ++
      (Utf8.encode "ustar  \x00" ++ List.replicate 247 0) := by
    rw [block_written _ _ hname, afterSum]
    simp only [List.append_assoc, List.cons_append]
  exact slice_eq hblock (by simp [hbefore]) (by decide)

theorem names_written (hname : name.length ≤ 100) (hzero : 0 ∉ name) :
    (written name size flag).Names name := by
  have hpad : List.replicate (124 - name.length) (0 : UInt8) =
      List.replicate (100 - name.length) 0 ++ List.replicate 24 0 := by
    rw [List.replicate_append_replicate]
    congr 1
    omega
  have hblock : (written name size flag).block =
      [] ++ ((name ++ List.replicate (100 - name.length) 0) ++
        (List.replicate 24 0 ++ (octalDigits 11 size ++ [0] ++ List.replicate 12 0) ++
          (octalDigits 7 (written name size flag).actualSum ++ [0] ++ afterSum flag))) := by
    rw [block_written _ _ hname, beforeSum, hpad]
    simp only [List.append_assoc, List.nil_append]
  have hfield : (written name size flag).slice 0 100 =
      name ++ List.replicate (100 - name.length) 0 :=
    slice_eq hblock rfl (by simp; omega)
  refine ⟨⟨hzero, _, hfield, ?_⟩, ?_⟩
  · intro b hb
    exact List.eq_of_mem_replicate (List.mem_of_mem_head? hb)
  · intro hposix
    rw [Header.isPosix, format_written hname] at hposix
    exact absurd hposix (by decide)

/-- A file with a name that its header has room for, or that a member before it announces. -/
theorem exists_heads (hname : 0 ∉ name) (hlong : name.length < 8 ^ 11)
    (hcontent : content.length < 8 ^ 11) : ∃ front, Heads name content front := by
  by_cases hfits : name.length ≤ 100
  · exact ⟨_, .short (states_written hfits hcontent) (Or.inl (typeFlag_written hfits))
      (names_written hfits hname)⟩
  · have hempty : ([] : List UInt8).length ≤ 100 := Nat.zero_le 100
    have hgnu : (written [] name.length 'L'.toUInt8).isGnu = true := by
      rw [Header.isGnu, format_written hempty]
      decide
    exact ⟨_, .long ⟨Or.inr hgnu, typeFlag_written hempty⟩ ⟨hname, Or.inl rfl⟩
      (states_written hempty hlong) (states_written hempty hcontent)
      (Or.inl (typeFlag_written hempty))⟩

/-- Every content that a size field can tell of has a file of any name without zero bytes. -/
theorem StoredFile.exists_of_content (name : String) {content : List UInt8}
    (hname : 0 ∉ Utf8.encode name) (hlong : (Utf8.encode name).length < 8 ^ 11)
    (hcontent : content.length < 8 ^ 11) :
    ∃ file : StoredFile, file.name = name ∧ file.content = content := by
  obtain ⟨front, heads⟩ := exists_heads hname hlong hcontent
  exact ⟨⟨name, front, content, heads⟩, rfl, rfl⟩

/-- A file with a name that its header has room for. -/
def StoredFile.short (name : String) (content : List UInt8)
    (hname : 0 ∉ Utf8.encode name ∧ (Utf8.encode name).length ≤ 100)
    (hcontent : content.length < 8 ^ 11) : StoredFile where
  name := name
  front := (written (Utf8.encode name) content.length '0'.toUInt8).block
  content := content
  heads := .short (states_written hname.2 hcontent) (Or.inl (typeFlag_written hname.2))
    (names_written hname.2 hname.1)

end InterfaceIndex.Tar
