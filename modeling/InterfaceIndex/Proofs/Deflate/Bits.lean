import InterfaceIndex.Deflate.Block

/-! Readers of bits answer from the bits that they use, wherever the bits at hand end. -/
namespace InterfaceIndex.Deflate

theorem bitsOfBytes_append (a b : List UInt8) :
    bitsOfBytes (a ++ b) = bitsOfBytes a ++ bitsOfBytes b :=
  List.flatMap_append

@[simp] theorem length_bitsOfBytes (bytes : List UInt8) :
    (bitsOfBytes bytes).length = 8 * bytes.length := by
  induction bytes with
  | nil => rfl
  | cons b bytes ih =>
    have hcons : bitsOfBytes (b :: bytes) = bitsOfByte b ++ bitsOfBytes bytes := rfl
    rw [hcons, List.length_append, ih, List.length_cons]
    simp only [bitsOfByte, List.length_cons, List.length_nil]
    omega

/-- The byte with given bits. -/
def byteOfBits (bits : List Bool) : UInt8 :=
  bits.foldr (fun b n => b.toUInt8 + 2 * n) 0

theorem byteOfBits_bitsOfByte (b : UInt8) : byteOfBits (bitsOfByte b) = b := by
  have hall : ∀ n : Fin 256, byteOfBits (bitsOfByte (UInt8.ofFin n)) = UInt8.ofFin n := by
    decide +kernel
  exact hall b.toFin

theorem bitsOfByte_injective {a b : UInt8} (h : bitsOfByte a = bitsOfByte b) : a = b := by
  rw [← byteOfBits_bitsOfByte a, h, byteOfBits_bitsOfByte]

theorem bitsOfBytes_injective {a b : List UInt8} (h : bitsOfBytes a = bitsOfBytes b) : a = b := by
  induction a generalizing b with
  | nil =>
    cases b with
    | nil => rfl
    | cons y b => simpa using congrArg List.length h
  | cons x a ih =>
    cases b with
    | nil => simpa using congrArg List.length h
    | cons y b =>
      have happ : bitsOfByte x ++ bitsOfBytes a = bitsOfByte y ++ bitsOfBytes b := h
      obtain ⟨hx, ha⟩ := List.append_inj happ rfl
      rw [bitsOfByte_injective hx, ih ha]

/-- Fewer bits than a byte before whole bytes are told apart from them. -/
theorem append_bitsOfBytes_inj {p q : List Bool} {a b : List UInt8} (hp : p.length < 8)
    (hq : q.length < 8) (h : p ++ bitsOfBytes a = q ++ bitsOfBytes b) : p = q ∧ a = b := by
  have hlen := congrArg List.length h
  simp only [List.length_append, length_bitsOfBytes] at hlen
  obtain ⟨rfl, hab⟩ := List.append_inj h (by omega)
  exact ⟨rfl, bitsOfBytes_injective hab⟩

variable {α β : Type}

/-- What a reader tells: a value, or that no stream goes on like this, and the bits after it. -/
def Parsed.tell : Option α → List Bool → Parsed α
  | some value, rest => .ok value rest
  | none, rest => .corrupt rest

theorem Parsed.ok_eq_tell (value : α) (rest : List Bool) : ok value rest = tell (some value) rest :=
  rfl

theorem Parsed.corrupt_eq_tell (rest : List Bool) : (corrupt rest : Parsed α) = tell none rest := rfl

namespace BitReader

/-- A reader tells the same whatever bits come after those that it uses, as long as they end with
the same part of a byte. -/
structure Local (r : BitReader α) : Prop where
  told : ∀ {bits rest : List Bool} {answer : Option α}, r bits = .tell answer rest →
    ∃ used, bits = used ++ rest ∧
      ∀ other, other.length % 8 = rest.length % 8 → r (used ++ other) = .tell answer other

/-- A reader that uses a bit whenever it gives a value. -/
structure Advances (r : BitReader α) : Prop where
  less : ∀ {bits rest : List Bool} {value : α}, r bits = .ok value rest → rest.length < bits.length

section

variable {r : BitReader α} {next : α → BitReader β} {bits rest more : List Bool}
  {answer : Option α}

theorem Local.length_le (hr : Local r) (h : r bits = .tell answer rest) :
    rest.length ≤ bits.length := by
  obtain ⟨used, rfl, -⟩ := hr.told h
  simp

/-- Whole bytes that arrive later do not change what has been told. -/
theorem Local.append (hr : Local r) (h : r bits = .tell answer rest) (hm : more.length % 8 = 0) :
    r (bits ++ more) = .tell answer (rest ++ more) := by
  obtain ⟨used, rfl, hused⟩ := hr.told h
  rw [List.append_assoc]
  exact hused _ (by simp only [List.length_append]; omega)

/-- A reader without enough bits uses them all once more bytes let it tell something. -/
theorem Local.uses_all (hr : Local r) (hs : r bits = .starved) (hm : more.length % 8 = 0)
    (h : r (bits ++ more) = .tell answer rest) : rest.length < more.length := by
  obtain ⟨used, hbits, hused⟩ := hr.told h
  by_cases hlt : rest.length < more.length
  · exact hlt
  · obtain ⟨left, rfl⟩ : ∃ left, bits = used ++ left := by
      have hlen := congrArg List.length hbits
      simp only [List.length_append] at hlen
      have hused : used <+: bits ++ more := ⟨rest, hbits.symm⟩
      obtain ⟨left, hleft⟩ :=
        List.prefix_of_prefix_length_le hused (List.prefix_append bits more) (by omega)
      exact ⟨left, hleft.symm⟩
    rw [List.append_assoc] at hbits
    have hrest := List.append_cancel_left hbits
    have htell := hused left (by rw [← hrest, List.length_append]; omega)
    rw [hs] at htell
    cases answer <;> simp [Parsed.tell] at htell

theorem local_pure (value : α) : Local (BitReader.pure value) := by
  constructor
  intro bits rest answer h
  cases answer with
  | none => simp [BitReader.pure, Parsed.tell] at h
  | some v =>
    obtain ⟨rfl, rfl⟩ : value = v ∧ bits = rest := by simpa [BitReader.pure, Parsed.tell] using h
    exact ⟨[], rfl, fun _ _ => rfl⟩

theorem local_corrupt : Local (corrupt : BitReader α) := by
  constructor
  intro bits rest answer h
  cases answer with
  | some v => simp [corrupt, Parsed.tell] at h
  | none =>
    obtain rfl : bits = rest := by simpa [corrupt, Parsed.tell] using h
    exact ⟨[], rfl, fun _ _ => rfl⟩

theorem bind_eq (bits : List Bool) : (r >>= next) bits =
    match r bits with
    | .ok value rest => next value rest
    | .starved => .starved
    | .corrupt rest => .corrupt rest := rfl

/-- The bits that two readers use, one after the other, decide what both tell. -/
theorem Local.bind (hr : Local r) (hn : ∀ value, Local (next value)) : Local (r >>= next) := by
  constructor
  intro bits rest answer h
  rw [bind_eq] at h
  cases hp : r bits with
  | starved => cases answer <;> simp [hp, Parsed.tell] at h
  | corrupt left =>
    rw [hp] at h
    cases answer with
    | some v => simp [Parsed.tell] at h
    | none =>
      obtain rfl : left = rest := by simpa [Parsed.tell] using h
      obtain ⟨used, rfl, hused⟩ := hr.told (Parsed.corrupt_eq_tell left ▸ hp)
      exact ⟨used, rfl, fun other ho => by rw [bind_eq, hused other ho]; rfl⟩
  | ok value left =>
    rw [hp] at h
    obtain ⟨used, rfl, hused⟩ := hr.told (Parsed.ok_eq_tell value left ▸ hp)
    obtain ⟨later, rfl, hlater⟩ := (hn value).told h
    refine ⟨used ++ later, by simp, ?_⟩
    intro other ho
    rw [bind_eq, List.append_assoc, hused _ (by simp only [List.length_append]; omega)]
    exact hlater other ho

theorem Advances.bind (hr : Advances r) (hn : ∀ value, Local (next value)) :
    Advances (r >>= next) := by
  constructor
  intro bits rest value h
  rw [bind_eq] at h
  cases hp : r bits with
  | starved => simp [hp] at h
  | corrupt left => simp [hp] at h
  | ok v left =>
    rw [hp] at h
    have := hr.less hp
    have := (hn v).length_le (Parsed.ok_eq_tell value rest ▸ h)
    omega

end

theorem local_bit : Local bit := by
  constructor
  intro bits rest answer h
  cases bits with
  | nil => cases answer <;> simp [bit, Parsed.tell] at h
  | cons b bits =>
    cases answer with
    | none => simp [bit, Parsed.tell] at h
    | some v =>
      obtain ⟨rfl, rfl⟩ : b = v ∧ bits = rest := by simpa [bit, Parsed.tell] using h
      exact ⟨[b], rfl, fun _ _ => rfl⟩

theorem advances_bit : Advances bit := by
  constructor
  intro bits rest value h
  cases bits with
  | nil => simp [bit] at h
  | cons b bits =>
    obtain ⟨-, rfl⟩ : b = value ∧ bits = rest := by simpa [bit] using h
    simp

theorem local_number (width : Nat) : Local (number width) := by
  induction width with
  | zero => exact local_pure 0
  | succ width ih => exact local_bit.bind fun _ => ih.bind fun _ => local_pure _

theorem local_numbers (width count : Nat) : Local (numbers width count) := by
  induction count with
  | zero => exact local_pure []
  | succ count ih => exact (local_number width).bind fun _ => ih.bind fun _ => local_pure _

/-- Where bytes end is all that alignment looks at. -/
theorem local_align : Local align := by
  constructor
  intro bits rest answer h
  cases answer with
  | none => simp [align, Parsed.tell] at h
  | some v =>
    obtain rfl : bits.drop (bits.length % 8) = rest := by simpa [align, Parsed.tell] using h
    refine ⟨bits.take (bits.length % 8), by simp, ?_⟩
    intro other ho
    have hmod : (bits.take (bits.length % 8) ++ other).length % 8 =
        (bits.take (bits.length % 8)).length := by
      simp only [List.length_append, List.length_take, List.length_drop] at *
      omega
    rw [align, hmod, List.drop_left]
    rfl

end BitReader

end InterfaceIndex.Deflate
