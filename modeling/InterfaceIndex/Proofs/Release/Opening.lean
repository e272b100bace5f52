import InterfaceIndex.Proofs.Gzip.FirstRead
import InterfaceIndex.Proofs.Release.Archive

/-! What opening an archive depends on: the first read of the stream, and the first bytes of content. -/
namespace InterfaceIndex.ReleaseArchive

open Source Gzip

variable {stride : Nat → Nat} {head : List UInt8}

/-- A stream without faults is taken for no gzip stream when it does not begin with the magic number,
and also when its first read brings less than that. -/
theorem ofStream_notGzip_iff (version : String) (data : List UInt8) (stride : Nat → Nat) :
    ofStream version (ofSchedule data [] stride) = .error (.notGzip version) ↔
      ¬ Header.magic <+: data ∨ stride 0 < 2 := by
  obtain ⟨input, hfill, hheld⟩ := fill_faultless data stride
  have hmagic := magic_isPrefixOf_take data (stride 0)
  rw [← hheld] at hmagic
  simp only [ofStream, hfill]
  by_cases hbegins : Header.magic.isPrefixOf input.held = true
  · obtain ⟨hfront, htwo⟩ := hmagic.mp hbegins
    have hneither : ¬ (¬ Header.magic <+: data ∨ stride 0 < 2) := by
      rintro (hnot | hone)
      · exact hnot hfront
      · omega
    rw [if_pos hbegins, iff_false_right hneither]
    split <;> simp
  · rw [if_neg hbegins]
    refine iff_of_true rfl ?_
    by_contra hneither
    simp only [not_or, Decidable.not_not, Nat.not_lt] at hneither
    exact hbegins (hmagic.mpr hneither)

/-- The bytes of a member are taken for no gzip stream when the first read brings one of them. -/
theorem ofStream_notGzip_oneByte : Header.magic <+: stored [] ∧
    (∃ a, ofStream "1.18" (ofSchedule (stored []) [] fun _ => 2) = .ok a) ∧
    ofStream "1.18" (ofSchedule (stored []) [] fun _ => 1) = .error (.notGzip "1.18") := by
  have hmembers := Members.single (member_stored [])
  exact ⟨⟨_, rfl⟩, ofStream_faultless "1.18" hmembers (by simp [stored, plainHeader]) (by decide), rfl⟩

theorem never_fails {left : List UInt8} {f : Failure} :
    ¬ Delivery.faultless.Stops left (some f) := by
  rintro (⟨-, hnone⟩ | ⟨-, -, hnever⟩)
  · simp at hnone
  · exact hnever

/-- The first fill makes one of the reads that cut a stream. -/
theorem cuts_filled {s : Source} {input : Buffered (Hashed Source)}
    (hfill : Buffered.fill ⟨⟨s, .start⟩, []⟩ = (none, input)) (hbegun : input.held ≠ [])
    {front : List UInt8} (hne : front ≠ []) : input.Cuts front ↔ Reader.Cuts s front := by
  have hcuts := Buffered.cuts_fill hfill hne
  rw [and_iff_right hbegun, Buffered.cuts_empty, Hashed.cuts_iff] at hcuts
  exact hcuts.symm

/-- Opening makes the first read of the member at the front, and fails if that does. -/
theorem ofStream_firstRead (version : String) (haccepts : Header.Accepts {} head)
    (rest : List UInt8) (htwo : 2 ≤ stride 0) : ∃ answer,
      Decoder.FirstRead (∃ front, Reader.Cuts (ofSchedule (head ++ rest) [] stride) (head ++ front) ∧
        Shows front) rest answer ∧
      (∀ piece, answer = .ok piece →
        ∃ a, ofStream version (ofSchedule (head ++ rest) [] stride) = .ok a) ∧
      ∀ f, answer = .error f →
        ofStream version (ofSchedule (head ++ rest) [] stride) = .error (.unopened version f) := by
  obtain ⟨input, hfill, hheld⟩ := fill_faultless (head ++ rest) stride
  obtain ⟨others, hothers⟩ := haccepts.magic
  have hmagic : Header.magic.isPrefixOf input.held = true := by
    rw [hheld, magic_isPrefixOf_take, hothers, List.append_assoc]
    exact ⟨List.prefix_append .., htwo⟩
  have hbegun : input.held ≠ [] := by
    intro hnil
    simp [hnil, Header.magic] at hmagic
  have hne (front : List UInt8) : head ++ front ≠ [] := by simp [hothers, Header.magic]
  have hahead : Delivery.faultless.hashed.Ahead input (head ++ rest) :=
    (Delivery.fill_brings ⟨_, rfl, holds_faultless _ stride⟩ hfill).1
  have hfirst := Decoder.read_header (D := Delivery.faultless.hashed) never_fails
    Buffered.capacity_pos (by decide) haccepts hahead
  simp only [cuts_filled hfill hbegun (hne _)] at hfirst
  rcases Buffered.fill_cases ⟨(⟨input, .header {}⟩ : Decoder (Hashed Source)), []⟩ with
      ⟨hheld, -⟩ | ⟨-, piece, inner, hread, hb⟩ | ⟨-, f, inner, hread, hb⟩
  · exact (hheld rfl).elim
  · have hanswer : (Decoder.read ⟨input, .header {}⟩ Buffered.capacity).1 = .ok piece :=
      congrArg Prod.fst hread
    rw [hanswer] at hfirst
    refine ⟨_, hfirst, fun _ _ => ⟨⟨⟨⟨inner, piece⟩, 0⟩⟩, ?_⟩, by simp⟩
    simp only [ofStream, hfill, hmagic, if_true, hb]
  · have hanswer : (Decoder.read ⟨input, .header {}⟩ Buffered.capacity).1 = .error f :=
      congrArg Prod.fst hread
    rw [hanswer] at hfirst
    refine ⟨_, hfirst, by simp, ?_⟩
    intro g hg
    obtain rfl : f = g := by simpa using hg
    simp only [ofStream, hfill, hmagic, if_true, hb]

/-- The header alone does not decide on an open. Behind one that is accepted, an archive opens when
something comes out of the first window of its body and nothing is wrong there. Unless the body is
whole and empty, it opens only when this is so of what some of its reads bring, and otherwise fails
for what is wrong with the body or for what it lacks. -/
theorem ofStream_accepted (version : String) (haccepts : Header.Accepts {} head)
    (rest : List UInt8) (htwo : 2 ≤ stride 0) :
    (Shows rest → ∃ a, ofStream version (ofSchedule (head ++ rest) [] stride) = .ok a) ∧
    (¬ EndsEmpty rest →
      ((∃ a, ofStream version (ofSchedule (head ++ rest) [] stride) = .ok a) ↔
        ∃ front, Reader.Cuts (ofSchedule (head ++ rest) [] stride) (head ++ front) ∧ Shows front)) ∧
    (¬ EndsEmpty rest → ∀ problem,
      ofStream version (ofSchedule (head ++ rest) [] stride) = .error problem →
        problem = .unopened version corrupt ∨ problem = .unopened version incomplete) := by
  obtain ⟨answer, hfirst, hopened, hfailed⟩ := ofStream_firstRead version haccepts rest htwo
  have hwhole := Delivery.cuts_whole never_fails (holds_faultless (head ++ rest) stride)
  cases hfirst with
  | brings some_bytes shown =>
    have ⟨a, ha⟩ := hopened _ rfl
    refine ⟨fun _ => ⟨a, ha⟩, fun _ => iff_of_true ⟨a, ha⟩ shown, fun _ problem hproblem => ?_⟩
    simp [ha] at hproblem
  | fails told unshown =>
    have hf := hfailed _ rfl
    refine ⟨fun hshows => (unshown ⟨rest, hwhole, hshows⟩).elim, fun _ => iff_of_false ?_ unshown,
      fun _ problem hproblem => ?_⟩
    · rintro ⟨a, ha⟩
      simp [hf] at ha
    · rw [hf, Except.error.injEq] at hproblem
      rcases told with rfl | rfl
      · exact Or.inl hproblem.symm
      · exact Or.inr hproblem.symm
  | empty ends =>
    refine ⟨fun hshows => ?_, fun hnot => (hnot ends).elim, fun hnot => (hnot ends).elim⟩
    have := hshows.2
    have := ends.2
    omega

theorem ofStream_accepted_stored : Header.Accepts {} plainHeader ∧ Shows (blocksOf [0x41]) ∧
    ∃ a, ofStream "1.18" (ofSchedule (plainHeader ++ blocksOf [0x41]) [] fun p => p + 2) = .ok a := by
  have hshows : Shows (blocksOf [0x41]) := by decide +kernel
  have hopens : Shows (blocksOf [0x41]) → ∃ a,
      ofStream "1.18" (ofSchedule (plainHeader ++ blocksOf [0x41]) [] fun p => p + 2) = .ok a :=
    (ofStream_accepted "1.18" accepts_plainHeader _ (by decide)).1
  exact ⟨accepts_plainHeader, hshows, hopens hshows⟩

/-- Data that are no deflate stream fail the open, behind a header that is accepted. -/
theorem ofStream_unopened_corrupt : Header.Accepts {} plainHeader ∧
    ofStream "1.18" (ofSchedule (plainHeader ++ [7]) [] fun _ => 8192) =
      .error (.unopened "1.18" corrupt) :=
  ⟨accepts_plainHeader, rfl⟩

end InterfaceIndex.ReleaseArchive
