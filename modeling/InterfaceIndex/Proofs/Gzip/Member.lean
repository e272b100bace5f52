import InterfaceIndex.Gzip.Decoder
import InterfaceIndex.Proofs.Deflate.Inflate

/-! The form of a gzip stream: members one after another, each a header, a body and a trailer. -/
namespace InterfaceIndex.Gzip

open Deflate

/-- The bytes that bring a header to its end, none of them complained about. -/
inductive Header.Accepts : Header → List UInt8 → Prop
  | complete {h : Header} (ended : h.part = .complete) : Accepts h []
  | push {h k : Header} {b : UInt8} {rest : List UInt8} (under_way : h.part ≠ .complete)
      (sound : ∀ f, h.part ≠ .refused f) (next : h.push b = (k, none)) (others : Accepts k rest) :
      Accepts h (b :: rest)

/-- A member and its content. What is left of the last byte of the body is skipped. -/
inductive Member : List UInt8 → List UInt8 → Prop
  | intro {head packed trailer : List UInt8} {pad : List Bool} {f : Inflate}
      (header : Header.Accepts {} head)
      (body : Inflate.Leads {} (bitsOfBytes packed) f pad) (ended : f.phase.isFinished = true)
      (short : pad.length < 8) (eight : trailer.length = 8)
      (sums : trailerMatches f.output trailer = true) :
      Member (head ++ (packed ++ trailer)) f.output.toList

/-- Members one after another, and their contents. -/
inductive Members : List UInt8 → List UInt8 → Prop
  | nil : Members [] []
  | cons {bytes rest content later : List UInt8} (first : Member bytes content)
      (others : Members rest later) : Members (bytes ++ rest) (content ++ later)

variable {bytes content payload : List UInt8}

theorem Member.ne_nil (h : Member bytes content) : bytes ≠ [] := by
  obtain ⟨_, _, _, _, eight, _⟩ := h
  intro hnil
  have := congrArg List.length hnil
  simp only [List.length_append, List.length_nil] at this
  omega

theorem Members.content_nil (h : Members [] payload) : payload = [] := by
  generalize hb : ([] : List UInt8) = bytes at h
  cases h with
  | nil => rfl
  | cons first others => exact (first.ne_nil (List.append_eq_nil_iff.mp hb.symm).1).elim

theorem Members.single (h : Member bytes content) : Members bytes content := by
  simpa using Members.cons h .nil

theorem Header.Accepts.not_refused {h : Header} (ha : h.Accepts bytes) (f : Failure) :
    h.part ≠ .refused f := by
  cases ha with
  | complete ended => simp [ended]
  | push _ sound => exact sound f

theorem Header.magic_of_ofFixed {h : Header} {front : List UInt8}
    (hf : ∀ f, (h.ofFixed front).part ≠ .refused f) : ∃ rest, front = magic ++ rest := by
  unfold ofFixed at hf
  split at hf
  · next m₀ m₁ method flags rest =>
    split at hf
    · next hcond => exact ⟨method :: flags :: rest, by rw [← hcond.1]; rfl⟩
    · exact (hf _ rfl).elim
  · exact (hf _ rfl).elim

/-- The induction is on the bytes that the front of a header still lacks. -/
theorem Header.Accepts.magic_of_fixed {h : Header} {sofar : List UInt8} (lacking : Nat)
    (hpart : h.part = .fixed sofar) (hlen : sofar.length + lacking = 9) (ha : h.Accepts bytes) :
    ∃ rest, sofar.reverse ++ bytes = Header.magic ++ rest := by
  induction lacking generalizing h sofar bytes with
  | zero =>
    cases ha with
    | complete ended => simp [hpart] at ended
    | push under_way sound next others =>
      rename_i k b rest
      simp only [Header.push, hpart, if_neg (show ¬ sofar.length < 9 by omega), Prod.mk.injEq,
        and_true] at next
      obtain ⟨rest', hrest'⟩ := magic_of_ofFixed (next ▸ others.not_refused)
      refine ⟨rest' ++ rest, ?_⟩
      rw [List.reverse_cons] at hrest'
      rw [← List.singleton_append, ← List.append_assoc, hrest', List.append_assoc]
  | succ lacking ih =>
    cases ha with
    | complete ended => simp [hpart] at ended
    | push under_way sound next others =>
      rename_i k b rest
      simp only [Header.push, hpart, if_pos (show sofar.length < 9 by omega), Prod.mk.injEq,
        and_true] at next
      have hpart' : k.part = .fixed (b :: sofar) := by rw [← next]
      have hlen' : (b :: sofar).length + lacking = 9 := by
        rw [List.length_cons]
        omega
      have hrest := ih hpart' hlen' others
      simpa using hrest

theorem Header.Accepts.magic (ha : Header.Accepts {} bytes) :
    ∃ rest, bytes = Header.magic ++ rest := by
  obtain ⟨rest, hrest⟩ := ha.magic_of_fixed 9 rfl rfl
  exact ⟨rest, by simpa using hrest⟩

/-- A member begins with the magic number. -/
theorem Member.magic (h : Member bytes content) : ∃ rest, bytes = Header.magic ++ rest := by
  obtain ⟨header, _, _, _, _, _⟩ := h
  obtain ⟨rest, hrest⟩ := header.magic
  exact ⟨_, by rw [hrest, List.append_assoc]⟩

theorem Members.magic (h : Members bytes payload) (hne : bytes ≠ []) :
    ∃ rest, bytes = Header.magic ++ rest := by
  cases h with
  | nil => exact (hne rfl).elim
  | cons first others =>
    obtain ⟨rest, hrest⟩ := first.magic
    exact ⟨_, by rw [hrest, List.append_assoc]⟩

end InterfaceIndex.Gzip
