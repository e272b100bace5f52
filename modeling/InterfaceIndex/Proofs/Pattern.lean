import InterfaceIndex.Proofs.Declaration
import InterfaceIndex.Proofs.Text.Utf8
import InterfaceIndex.Release.Scan

/-! Lines that declare an interface, as the regular expression that describes them. -/
namespace InterfaceIndex

/-- A regular expression over bytes, for the front of a line. -/
inductive Pattern where
  | nothing
  | one (set : List UInt8)
  | andThen (first second : Pattern)
  /-- Any number of times. -/
  | many (p : Pattern)
  /-- What it matches is captured. -/
  | group (p : Pattern)

namespace Pattern

/-- What a pattern matches, and what its groups capture there, in order. -/
inductive Matches : Pattern → List UInt8 → List (List UInt8) → Prop
  | nothing : Matches nothing [] []
  | one {set : List UInt8} {b : UInt8} (mem : b ∈ set) : Matches (one set) [b] []
  | andThen {p q : Pattern} {s t : List UInt8} {cs ds : List (List UInt8)} (first : Matches p s cs)
      (second : Matches q t ds) : Matches (andThen p q) (s ++ t) (cs ++ ds)
  | none {p : Pattern} : Matches (many p) [] []
  | more {p : Pattern} {s t : List UInt8} {cs ds : List (List UInt8)} (first : Matches p s cs)
      (others : Matches (many p) t ds) : Matches (many p) (s ++ t) (cs ++ ds)
  | group {p : Pattern} {s : List UInt8} {cs : List (List UInt8)} (inside : Matches p s cs) :
      Matches (group p) s (s :: cs)

def sequence (ps : List Pattern) : Pattern := ps.foldr andThen nothing

def text (bytes : List UInt8) : Pattern := sequence (bytes.map fun b => one [b])

/-- At least once. -/
def repeated (p : Pattern) : Pattern := andThen p (many p)

/-- Tab, line feed, vertical tab, form feed, carriage return and space. -/
def whiteSpace : List UInt8 := [0x09, 0x0a, 0x0b, 0x0c, 0x0d, 0x20]

def capitals : List UInt8 := Utf8.encode "ABCDEFGHIJKLMNOPQRSTUVWXYZ"

/-- ASCII letters, digits and the underscore. -/
def wordBytes : List UInt8 :=
  capitals ++ Utf8.encode "abcdefghijklmnopqrstuvwxyz" ++ Utf8.encode "0123456789" ++ Utf8.encode "_"

/-- `^\s*type\s+([A-Z]\w*)\s+interface\s+\{` with ASCII classes: white space or none, the word type, a
name of word bytes that begins with a capital letter and is captured, the word interface and an opening
brace, with white space between each two. -/
def declaration : Pattern :=
  sequence [many (one whiteSpace), text (Utf8.encode "type"), repeated (one whiteSpace),
    group (andThen (one capitals) (many (one wordBytes))), repeated (one whiteSpace),
    text (Utf8.encode "interface"), repeated (one whiteSpace), text (Utf8.encode "\x7b")]

variable {p q : Pattern} {s bytes set : List UInt8} {cs : List (List UInt8)} {ps : List Pattern}

theorem matches_one_iff : (one set).Matches s cs ↔ ∃ b ∈ set, s = [b] ∧ cs = [] := by
  constructor
  · intro h
    cases h with
    | one mem => exact ⟨_, mem, rfl, rfl⟩
  · rintro ⟨b, hb, rfl, rfl⟩
    exact .one hb

theorem matches_andThen_iff : (andThen p q).Matches s cs ↔ ∃ s₁ s₂ cs₁ cs₂,
    s = s₁ ++ s₂ ∧ cs = cs₁ ++ cs₂ ∧ p.Matches s₁ cs₁ ∧ q.Matches s₂ cs₂ := by
  constructor
  · intro h
    cases h with
    | andThen first second => exact ⟨_, _, _, _, rfl, rfl, first, second⟩
  · rintro ⟨s₁, s₂, cs₁, cs₂, rfl, rfl, first, second⟩
    exact .andThen first second

theorem matches_group_iff : (group p).Matches s cs ↔ ∃ inner, cs = s :: inner ∧ p.Matches s inner := by
  constructor
  · intro h
    cases h with
    | group inside => exact ⟨_, rfl, inside⟩
  · rintro ⟨inner, rfl, inside⟩
    exact .group inside

/-- A repeated byte of a set: the induction is on the number of times. -/
theorem matches_many_iff : (many (one set)).Matches s cs ↔ (∀ b ∈ s, b ∈ set) ∧ cs = [] := by
  constructor
  · intro h
    generalize hp : many (one set) = p at h
    induction h with
    | none => exact ⟨by simp, rfl⟩
    | more first others _ ih =>
      obtain rfl := Pattern.many.inj hp
      obtain ⟨b, hb, rfl, rfl⟩ := matches_one_iff.mp first
      obtain ⟨hrest, rfl⟩ := ih rfl
      exact ⟨by simpa using ⟨hb, hrest⟩, rfl⟩
    | nothing | one | andThen | group => simp at hp
  · rintro ⟨hs, rfl⟩
    induction s with
    | nil => exact .none
    | cons b s ih =>
      obtain ⟨hb, hs⟩ := List.forall_mem_cons.mp hs
      exact .more (.one hb) (ih hs)

theorem matches_repeated_iff :
    (repeated (one set)).Matches s cs ↔ s ≠ [] ∧ (∀ b ∈ s, b ∈ set) ∧ cs = [] := by
  simp only [repeated, matches_andThen_iff, matches_one_iff, matches_many_iff]
  constructor
  · rintro ⟨_, s, _, _, rfl, rfl, ⟨b, hb, rfl, rfl⟩, hs, rfl⟩
    exact ⟨by simp, by simpa using ⟨hb, hs⟩, rfl⟩
  · rintro ⟨hne, hs, rfl⟩
    obtain ⟨b, s, rfl⟩ := List.exists_cons_of_ne_nil hne
    obtain ⟨hb, hs⟩ := List.forall_mem_cons.mp hs
    exact ⟨[b], s, [], [], rfl, rfl, ⟨b, hb, rfl, rfl⟩, hs, rfl⟩

theorem matches_sequence_cons_iff : (sequence (p :: ps)).Matches s cs ↔ ∃ s₁ s₂ cs₁ cs₂,
    s = s₁ ++ s₂ ∧ cs = cs₁ ++ cs₂ ∧ p.Matches s₁ cs₁ ∧ (sequence ps).Matches s₂ cs₂ :=
  matches_andThen_iff

theorem matches_sequence_nil_iff : (sequence []).Matches s cs ↔ s = [] ∧ cs = [] := by
  constructor
  · intro h
    cases h
    exact ⟨rfl, rfl⟩
  · rintro ⟨rfl, rfl⟩
    exact .nothing

theorem matches_text_iff : (text bytes).Matches s cs ↔ s = bytes ∧ cs = [] := by
  induction bytes generalizing s cs with
  | nil => exact matches_sequence_nil_iff
  | cons b bytes ih =>
    have hmore (t : List UInt8) (ds : List (List UInt8)) :
        (sequence (bytes.map fun b => one [b])).Matches t ds ↔ t = bytes ∧ ds = [] := ih
    simp only [text, List.map_cons, matches_sequence_cons_iff, matches_one_iff, hmore]
    constructor
    · rintro ⟨_, _, _, _, rfl, rfl, ⟨c, hc, rfl, rfl⟩, rfl, rfl⟩
      exact ⟨by simpa using hc, rfl⟩
    · rintro ⟨rfl, rfl⟩
      exact ⟨[b], bytes, [], [], rfl, rfl, ⟨b, by simp, rfl, rfl⟩, rfl, rfl⟩

/-- A part that captures nothing, at the front of a sequence. -/
theorem matches_plain_cons_iff {P : List UInt8 → Prop}
    (hp : ∀ s cs, p.Matches s cs ↔ P s ∧ cs = []) : (sequence (p :: ps)).Matches s cs ↔
      ∃ front rest, s = front ++ rest ∧ P front ∧ (sequence ps).Matches rest cs := by
  rw [matches_sequence_cons_iff]
  constructor
  · rintro ⟨front, rest, _, _, rfl, rfl, hmatch, hrest⟩
    obtain ⟨hfront, rfl⟩ := (hp _ _).mp hmatch
    exact ⟨front, rest, rfl, hfront, hrest⟩
  · rintro ⟨front, rest, rfl, hfront, hrest⟩
    exact ⟨front, rest, [], cs, rfl, rfl, (hp _ _).mpr ⟨hfront, rfl⟩, hrest⟩

theorem matches_many_cons_iff : (sequence (many (one set) :: ps)).Matches s cs ↔
    ∃ front rest, s = front ++ rest ∧ (∀ b ∈ front, b ∈ set) ∧ (sequence ps).Matches rest cs :=
  matches_plain_cons_iff fun _ _ => matches_many_iff

theorem matches_repeated_cons_iff : (sequence (repeated (one set) :: ps)).Matches s cs ↔
    ∃ front rest, s = front ++ rest ∧ (front ≠ [] ∧ ∀ b ∈ front, b ∈ set) ∧
      (sequence ps).Matches rest cs :=
  matches_plain_cons_iff fun _ _ => by rw [matches_repeated_iff, and_assoc]

theorem matches_text_cons_iff : (sequence (text bytes :: ps)).Matches s cs ↔
    ∃ rest, s = bytes ++ rest ∧ (sequence ps).Matches rest cs := by
  rw [matches_plain_cons_iff fun _ _ => matches_text_iff]
  constructor
  · rintro ⟨_, rest, rfl, rfl, hrest⟩
    exact ⟨rest, rfl, hrest⟩
  · rintro ⟨rest, rfl, hrest⟩
    exact ⟨bytes, rest, rfl, rfl, hrest⟩

end Pattern

namespace Declaration

open Pattern

variable {line name w : List UInt8} {b : UInt8}

/-- The bytes of consecutive codes. -/
theorem mem_codes_iff {first count : Nat} (h : first + count ≤ 256) :
    b ∈ (List.range' first count).map UInt8.ofNat ↔ first ≤ b.toNat ∧ b.toNat < first + count := by
  rw [List.mem_map]
  constructor
  · rintro ⟨n, hn, rfl⟩
    rw [List.mem_range'_1] at hn
    rwa [Utf8.toNat_ofNat (by omega)]
  · intro hb
    exact ⟨b.toNat, List.mem_range'_1.mpr hb, UInt8.ofNat_toNat⟩

theorem mem_capitals_iff : b ∈ capitals ↔ 0x41 ≤ b.toNat ∧ b.toNat < 0x5b := by
  have hcodes : capitals = (List.range' 0x41 26).map UInt8.ofNat := by decide
  rw [hcodes, mem_codes_iff (by decide)]

theorem mem_wordBytes_iff : b ∈ wordBytes ↔ b ∈ capitals ∨ (0x61 ≤ b.toNat ∧ b.toNat < 0x7b) ∨
    (0x30 ≤ b.toNat ∧ b.toNat < 0x3a) ∨ b.toNat = 0x5f := by
  have hcodes : wordBytes = capitals ++ ((List.range' 0x61 26).map UInt8.ofNat ++
      ((List.range' 0x30 10).map UInt8.ofNat ++ (List.range' 0x5f 1).map UInt8.ofNat)) := by decide
  rw [hcodes, List.mem_append, List.mem_append, List.mem_append, mem_codes_iff (by decide),
    mem_codes_iff (by decide), mem_codes_iff (by decide)]
  exact or_congr_right (or_congr_right (or_congr_right (by omega)))

theorem isSpace_iff : isSpace b = true ↔ b ∈ whiteSpace := by
  simp only [isSpace, whiteSpace, Bool.or_eq_true, Bool.and_eq_true, decide_eq_true_eq, beq_iff_eq,
    List.mem_cons, List.not_mem_nil, or_false, UInt8.le_iff_toNat_le, ← UInt8.toNat_inj,
    UInt8.reduceToNat]
  omega

theorem isCapital_iff : isCapital b = true ↔ b ∈ capitals := by
  rw [mem_capitals_iff]
  simp only [isCapital, Bool.and_eq_true, decide_eq_true_eq, UInt8.le_iff_toNat_le,
    UInt8.reduceToNat]
  omega

theorem isWordByte_iff : isWordByte b = true ↔ b ∈ wordBytes := by
  rw [mem_wordBytes_iff, ← isCapital_iff]
  simp only [isWordByte, Bool.or_eq_true, Bool.and_eq_true, decide_eq_true_eq, beq_iff_eq, or_assoc,
    UInt8.le_iff_toNat_le, ← UInt8.toNat_inj, UInt8.reduceToNat]
  exact or_congr_right (by omega)

theorem encode_brace : Utf8.encode "\x7b" = [0x7b] := by decide

theorem blank_iff : Blank w ↔ ∀ b ∈ w, b ∈ whiteSpace := by
  simp only [Blank, isSpace_iff]

theorem gap_iff : Gap w ↔ w ≠ [] ∧ ∀ b ∈ w, b ∈ whiteSpace := by
  rw [Gap, blank_iff]

theorem isExported_iff : IsExported name ↔
    ∃ b rest, name = b :: rest ∧ b ∈ capitals ∧ ∀ c ∈ rest, c ∈ wordBytes := by
  simp only [IsExported, isCapital_iff, isWordByte_iff]

theorem matches_name_iff {s : List UInt8} {cs : List (List UInt8)} :
    (group (andThen (one capitals) (many (one wordBytes)))).Matches s cs ↔
      IsExported s ∧ cs = [s] := by
  simp only [matches_group_iff, matches_andThen_iff, matches_one_iff, matches_many_iff,
    isExported_iff]
  constructor
  · rintro ⟨_, rfl, _, rest, _, _, rfl, rfl, ⟨b, hb, rfl, rfl⟩, hrest, rfl⟩
    exact ⟨⟨b, rest, rfl, hb, hrest⟩, rfl⟩
  · rintro ⟨⟨b, rest, rfl, hb, hrest⟩, rfl⟩
    exact ⟨[], rfl, [b], rest, [], [], rfl, rfl, ⟨b, hb, rfl, rfl⟩, hrest, rfl⟩

theorem matches_name_cons_iff {ps : List Pattern} {s : List UInt8} {cs : List (List UInt8)} :
    (sequence (group (andThen (one capitals) (many (one wordBytes))) :: ps)).Matches s cs ↔
      ∃ name rest more, s = name ++ rest ∧ cs = name :: more ∧ IsExported name ∧
        (sequence ps).Matches rest more := by
  rw [matches_sequence_cons_iff]
  constructor
  · rintro ⟨name, rest, _, more, rfl, rfl, hmatch, hrest⟩
    obtain ⟨hname, rfl⟩ := matches_name_iff.mp hmatch
    exact ⟨name, rest, more, rfl, rfl, hname, hrest⟩
  · rintro ⟨name, rest, more, rfl, rfl, hname, hrest⟩
    exact ⟨name, rest, [name], more, rfl, rfl, matches_name_iff.mpr ⟨hname, rfl⟩, hrest⟩

/-- The pattern matches at the front of the lines that declare an interface, and captures the name. -/
theorem matches_declaration_iff {groups : List (List UInt8)} :
    (∃ front, front <+: line ∧ declaration.Matches front groups) ↔
      ∃ name, groups = [name] ∧ Declares name line := by
  simp only [declaration, matches_many_cons_iff, matches_text_cons_iff, matches_repeated_cons_iff,
    matches_name_cons_iff, matches_sequence_nil_iff, ← blank_iff]
  constructor
  · rintro ⟨_, ⟨tail, rfl⟩, w₀, _, rfl, start, _, rfl, w₁, _, rfl, first, name, _, _, rfl, rfl,
      exported, w₂, _, rfl, second, _, rfl, w₃, _, rfl, third, _, rfl, rfl, rfl⟩
    refine ⟨name, rfl, ?_⟩
    simp only [encode_brace, List.append_assoc, List.cons_append, List.nil_append]
    exact .intro tail start first exported second third
  · rintro ⟨name, rfl, h⟩
    obtain ⟨tail, start, first, exported, second, third⟩ := h
    rename_i w₀ w₁ w₂ w₃
    refine ⟨_, ⟨tail, ?_⟩, w₀, _, rfl, start, _, rfl, w₁, _, rfl, first, name, _, [], rfl, rfl,
      exported, w₂, _, rfl, second, _, rfl, w₃, _, rfl, third, [], rfl, rfl, rfl⟩
    simp only [encode_brace, List.append_assoc, List.cons_append, List.nil_append]

/-- The grammar with its sets written out. -/
theorem declares_iff : Declares name line ↔ ∃ w₀ w₁ initial rest w₂ w₃ tail,
    (∀ b ∈ w₀ ++ w₁ ++ w₂ ++ w₃, b ∈ whiteSpace) ∧ w₁ ≠ [] ∧ w₂ ≠ [] ∧ w₃ ≠ [] ∧
    name = initial :: rest ∧ initial ∈ capitals ∧ (∀ b ∈ rest, b ∈ wordBytes) ∧
    line = w₀ ++ Utf8.encode "type" ++ w₁ ++ name ++ w₂ ++ Utf8.encode "interface" ++ w₃ ++
      Utf8.encode "\x7b" ++ tail := by
  constructor
  · rintro ⟨tail, start, first, exported, second, third⟩
    rename_i w₀ w₁ w₂ w₃
    obtain ⟨initial, rest, rfl, hinitial, hrest⟩ := isExported_iff.mp exported
    obtain ⟨hne₁, first⟩ := gap_iff.mp first
    obtain ⟨hne₂, second⟩ := gap_iff.mp second
    obtain ⟨hne₃, third⟩ := gap_iff.mp third
    refine ⟨w₀, w₁, initial, rest, w₂, w₃, tail, ?_, hne₁, hne₂, hne₃, rfl, hinitial, hrest, ?_⟩
    · simp only [List.forall_mem_append]
      exact ⟨⟨⟨blank_iff.mp start, first⟩, second⟩, third⟩
    · simp only [encode_brace, List.append_assoc, List.cons_append, List.nil_append]
  · rintro ⟨w₀, w₁, initial, rest, w₂, w₃, tail, hspace, hne₁, hne₂, hne₃, rfl, hinitial, hrest, rfl⟩
    simp only [List.forall_mem_append] at hspace
    obtain ⟨⟨⟨start, first⟩, second⟩, third⟩ := hspace
    have h := Declares.intro tail (blank_iff.mpr start) (gap_iff.mpr ⟨hne₁, first⟩)
      (isExported_iff.mpr ⟨initial, rest, rfl, hinitial, hrest⟩) (gap_iff.mpr ⟨hne₂, second⟩)
      (gap_iff.mpr ⟨hne₃, third⟩)
    simpa only [encode_brace, List.append_assoc, List.cons_append, List.nil_append] using h

/-- A line declares at most one name, however it is taken apart. -/
theorem Declares.unique {other : List UInt8} (h : Declares name line) (h' : Declares other line) :
    name = other := by
  rw [← name?_eq_some_iff] at h h'
  exact Option.some.inj (h.symm.trans h')

theorem wordBytes_ascii (hb : b ∈ wordBytes) : b.toNat < 128 := by
  rw [mem_wordBytes_iff, mem_capitals_iff] at hb
  omega

theorem Declares.ascii (h : Declares name line) : ∀ b ∈ name, b.toNat < 128 := by
  obtain ⟨tail, start, first, exported, second, third⟩ := h
  intro b hb
  exact wordBytes_ascii (isWordByte_iff.mp (exported.isWordByte b hb))

theorem utf8EncodeChar_ofNat :
    ∀ n < 128, String.utf8EncodeChar (Char.ofNat n) = [UInt8.ofNat n] := by
  decide +kernel

/-- ASCII bytes are the UTF-8 of their text. -/
theorem encode_textOfAscii {bytes : List UInt8} (h : ∀ b ∈ bytes, b.toNat < 128) :
    Utf8.encode (textOfAscii bytes) = bytes := by
  rw [Utf8.encode_eq, textOfAscii, String.toList_ofList]
  induction bytes with
  | nil => rfl
  | cons b bytes ih =>
    obtain ⟨hb, hbytes⟩ := List.forall_mem_cons.mp h
    rw [List.map_cons, List.flatMap_cons, utf8EncodeChar_ofNat _ hb, UInt8.ofNat_toNat, ih hbytes,
      List.singleton_append]

/-- A line declares a name exactly when it is white space or none, the word type, the name, the word
interface, an opening brace and any bytes at all, with white space between each two words; the matcher
finds the name then and nothing otherwise. That is what the pattern matches at the front of a line,
and the name is all that it captures there. A line has one name at most, of ASCII bytes only, and an
entry for it is recorded under its bytes. -/
theorem declaration_exactly (line : List UInt8) :
    (∀ name, Declares name line ↔ ∃ w₀ w₁ initial rest w₂ w₃ tail,
      (∀ b ∈ w₀ ++ w₁ ++ w₂ ++ w₃, b ∈ whiteSpace) ∧ w₁ ≠ [] ∧ w₂ ≠ [] ∧ w₃ ≠ [] ∧
      name = initial :: rest ∧ initial ∈ capitals ∧ (∀ b ∈ rest, b ∈ wordBytes) ∧
      line = w₀ ++ Utf8.encode "type" ++ w₁ ++ name ++ w₂ ++ Utf8.encode "interface" ++ w₃ ++
        Utf8.encode "\x7b" ++ tail) ∧
    (∀ name, name? line = some name ↔ Declares name line) ∧
    (∀ groups, (∃ front, front <+: line ∧ declaration.Matches front groups) ↔
      ∃ name, groups = [name] ∧ Declares name line) ∧
    (∀ name other, Declares name line → Declares other line → name = other) ∧
    ∀ name, Declares name line → (∀ b ∈ name, b.toNat < 128) ∧
      Utf8.decodeLossy name = textOfAscii name ∧
      ∀ (r : Release) (file : SourceFile) (number : Nat),
        Utf8.encode (r.declared file name number).interface.name = name := by
  refine ⟨fun name => declares_iff, fun name => name?_eq_some_iff,
    fun groups => matches_declaration_iff, fun name other h h' => h.unique h', ?_⟩
  intro name h
  have hascii := h.ascii
  have hname : Utf8.encode (textOfAscii name) = name := encode_textOfAscii hascii
  refine ⟨hascii, ?_, fun r file number => hname⟩
  calc Utf8.decodeLossy name = Utf8.decodeLossy (Utf8.encode (textOfAscii name)) := by rw [hname]
    _ = textOfAscii name := Utf8.decodeLossy_encode _

/-- A name that ends in a word of the language, between white space of every kind and before bytes
that are no text. -/
theorem declaration_exactly_keywords :
    let line := [0x0b, 0x0c] ++ Utf8.encode "type\r" ++ Utf8.encode "Type_interface" ++ [0x09, 0x0a] ++
      Utf8.encode "interface \x7b" ++ [0xff, 0xc3, 0x0a]
    Declares (Utf8.encode "Type_interface") line ∧
    (∃ front, front <+: line ∧ declaration.Matches front [Utf8.encode "Type_interface"]) ∧
    ∀ other, Declares other line → other = Utf8.encode "Type_interface" := by
  intro line
  obtain ⟨-, hfinds, hmatches, hunique, -⟩ := declaration_exactly line
  have h : Declares (Utf8.encode "Type_interface") line := (hfinds _).mp (by decide +kernel)
  exact ⟨h, (hmatches _).mpr ⟨_, rfl, h⟩, fun other h' => hunique _ _ h' h⟩

end Declaration

end InterfaceIndex
