import InterfaceIndex.Proofs.Stream.Hashed
import InterfaceIndex.Proofs.Stream.Schedule

/-! Hashing on the way cannot be noticed: a hashed stream answers every request as the stream itself
does, and its digest is that of the bytes in the answers. -/
namespace InterfaceIndex

namespace Reader

/-- What may be asked of a stream. -/
inductive Request where
  /-- One read of at most so many bytes. -/
  | read (size : Nat)
  /-- All that is left. Interrupted reads are made again. -/
  | toEnd
  deriving DecidableEq, Repr

variable {ρ τ : Type} [Reader ρ] [Reader τ] {P : ρ → List UInt8 → ρ → Prop} {below : ρ → τ}

/-- The answer to a request, and the stream that this leaves. A single read answers with bytes or with
a failure; of all that is left there may be some bytes and then a failure. -/
def Request.answer : Request → ρ → Gathered × ρ
  | read size, r =>
    match Reader.read r size with
    | (.ok bytes, r) => (⟨bytes, none⟩, r)
    | (.error f, r) => (⟨[], some f⟩, r)
  | toEnd, r => gather .whole none r

/-- The answers to requests made one after another. -/
def answers : List Request → ρ → List Gathered × ρ
  | [], r => ([], r)
  | request :: rest, r =>
    let (answer, r) := request.answer r
    let (more, r) := answers rest r
    (answer :: more, r)

/-- The bytes in some answers, those before a failure among them. -/
def taken (answers : List Gathered) : List UInt8 :=
  answers.flatMap (·.bytes)

theorem Tracks.answer (h : Tracks P) (request : Request) (r : ρ) :
    P r (request.answer r).1.bytes (request.answer r).2 := by
  cases request with
  | read size =>
    rw [Request.answer]
    cases ha : Reader.read r size with
    | mk answer s =>
      cases answer with
      | ok bytes => exact h.ok ha
      | error f => exact h.error ha
  | toEnd => exact h.gather .whole none r

theorem Tracks.answers (h : Tracks P) (requests : List Request) (r : ρ) :
    P r (taken (answers requests r).1) (answers requests r).2 := by
  induction requests generalizing r with
  | nil => exact h.nil r
  | cons request rest ih => exact h.append (h.answer request r) (ih _)

/-- A layer that hands on every read as it is to the stream below, and the answer to it as it is. -/
structure Mirrors (below : ρ → τ) : Prop where
  read : ∀ r n, ((Reader.read r n).1, below (Reader.read r n).2) = Reader.read (below r) n
  budget : ∀ r, Reader.budget (below r) = Reader.budget r

namespace Mirrors

theorem gatherWithin (h : Mirrors below) (m : Manner) (fuel : Nat) (limit : Option Nat) (r : ρ) :
    ((Reader.gatherWithin m fuel limit r).1, below (Reader.gatherWithin m fuel limit r).2) =
      Reader.gatherWithin m fuel limit (below r) := by
  induction fuel generalizing limit r with
  | zero => cases limit with
    | none => rfl
    | some l => cases l <;> rfl
  | succ fuel ih =>
    by_cases hl : limit = some 0
    · subst hl
      rfl
    · rw [gatherWithin.eq_3 _ _ _ _ (by simpa using hl),
        gatherWithin.eq_3 _ _ _ _ (by simpa using hl), ← h.read]
      cases Reader.read r (m.request limit) with
      | mk answer s =>
        cases answer with
        | error f =>
          dsimp only
          split
          · exact ih ..
          · rfl
        | ok piece =>
          cases piece with
          | nil => rfl
          | cons b piece =>
            dsimp only
            rw [← ih]

theorem answer (h : Mirrors below) (request : Request) (r : ρ) :
    ((request.answer r).1, below (request.answer r).2) = request.answer (below r) := by
  cases request with
  | read size =>
    rw [Request.answer, Request.answer, ← h.read]
    cases Reader.read r size with
    | mk answer s => cases answer <;> rfl
  | toEnd =>
    rw [Request.answer, Request.answer, gather, gather, h.budget]
    exact h.gatherWithin ..

theorem answers (h : Mirrors below) (requests : List Request) (r : ρ) :
    ((Reader.answers requests r).1, below (Reader.answers requests r).2) =
      Reader.answers requests (below r) := by
  induction requests generalizing r with
  | nil => rfl
  | cons request rest ih =>
    rw [Reader.answers, Reader.answers, ← h.answer]
    dsimp only
    rw [← ih]

end Mirrors

end Reader

open Reader

namespace Hashed

variable {ρ : Type} [Reader ρ]

theorem mirrors_inner : Mirrors (inner : Hashed ρ → ρ) where
  read h n := by
    cases ha : Reader.read h n with
    | mk answer k =>
      cases answer with
      | ok bytes => exact (read_ok ha).1.symm
      | error f => exact (read_error ha).1.symm
  budget h := rfl

/-- What is read is hashed, once and in order. -/
theorem tracks_sum : Tracks fun (h : Hashed ρ) bytes k => k.sum = h.sum.absorb bytes where
  nil h := rfl
  append h h' := by rw [h', h, Sha256.absorb_append]
  ok ha := (read_ok ha).2
  error ha := (read_error ha).2

end Hashed

namespace Source

variable {s t : Source} {n : Nat} {f : Failure} {bytes data : List UInt8} {faults : List Fault}

theorem position_ok (ha : Reader.read s n = (.ok bytes, t)) :
    t.position = s.position + bytes.length := by
  change s.read n = _ at ha
  unfold read at ha
  split at ha
  · split at ha
    · simp at ha
    · simp only [Prod.mk.injEq, Except.ok.injEq] at ha
      obtain ⟨rfl, rfl⟩ := ha
      rfl
  · simp at ha
  · simp only [Prod.mk.injEq, Except.ok.injEq] at ha
    obtain ⟨rfl, rfl⟩ := ha
    rfl

theorem position_error (ha : Reader.read s n = (.error f, t)) : t.position = s.position := by
  change s.read n = _ at ha
  unfold read at ha
  split at ha
  · split at ha
    · simp only [Prod.mk.injEq, Except.error.injEq] at ha
      rw [ha.2]
    · simp at ha
  · simp only [Prod.mk.injEq, Except.error.injEq] at ha
    obtain ⟨rfl, rfl⟩ := ha
    rfl
  · simp at ha

/-- What is read of a source is the front of what it has yet to bring. -/
theorem tracks_bytesOf :
    Tracks fun (s : Source) bytes t => bytesOf s.arrivals = bytes ++ bytesOf t.arrivals where
  nil s := rfl
  append h h' := by rw [h, h', List.append_assoc]
  ok {s t n bytes} ha := by
    have hr := read_spec s n
    rw [ha] at hr
    cases hr with
    | ended none_left free => rfl
    | bytes eq same size some_left progress => rw [eq, bytesOf_append, bytesOf_bytes]
  error {s t n f} ha := by
    have hr := read_spec s n
    rw [ha] at hr
    cases hr with
    | stuck none_left lasting => rfl
    | fault eq same => rw [eq]; rfl

/-- All that is left of a source are its bytes before the first failure that is no interruption, and
that failure. -/
theorem answer_toEnd (h : s.Settles) :
    (Request.toEnd.answer s).1 = outcome s.stuck s.arrivals := by
  have hholds : (Delivery.untilStop (outcome s.stuck s.arrivals).failure
      (·.isInterrupted = true)).Holds s (outcome s.stuck s.arrivals).bytes := ⟨h, rfl, fun _ _ hf => hf⟩
  have hg : Delivery.Gathers _ none _ (Reader.gather .whole none s) :=
    Delivery.gather_spec (by decide) hholds
  have hspends : Flow.source.Spends .whole none (Reader.budget s) (Reader.gather .whole none s) :=
    Flow.source.gather_spends h
  have hpatient := hspends.patient rfl
  rw [Request.answer]
  generalize Reader.gather .whole none s = x at hg hpatient
  generalize outcome s.stuck s.arrivals = out at hg
  obtain ⟨whole, stop⟩ := out
  cases hg with
  | filled eq full holds => simp at full
  | ended below holds stops =>
    rcases stops with ⟨-, hstop⟩ | ⟨f, hf, -⟩
    · rw [hstop]
    · simp at hf
  | failed eq below stops =>
    rename_i got rest f t
    rcases stops with ⟨rfl, hstop⟩ | ⟨g, hg, hi⟩
    · obtain rfl : some f = stop := hstop
      simpa using eq.symm
    · obtain rfl : f = g := by simpa using hg
      simp [hpatient f rfl] at hi

/-- Any requests of a source take the front of its data, as long as the source counts. -/
theorem taken_answers (data : List UInt8) (faults : List Fault) (stride : Nat → Nat)
    (requests : List Request) :
    taken (answers requests (ofSchedule data faults stride)).1 <+: data ∧
      (answers requests (ofSchedule data faults stride)).2.position =
        (taken (answers requests (ofSchedule data faults stride)).1).length := by
  constructor
  · have hfront := tracks_bytesOf.answers requests (ofSchedule data faults stride)
    obtain ⟨lost, hlost⟩ := reachable_prefix faults data
    rw [bytesOf_ofSchedule] at hfront
    refine ⟨bytesOf (answers requests (ofSchedule data faults stride)).2.arrivals ++ lost, ?_⟩
    rw [← List.append_assoc, ← hfront]
    exact hlost.symm
  · have hcount := (tracks_count position position_ok position_error).answers requests
      (ofSchedule data faults stride)
    rw [hcount]
    exact Nat.zero_add _

end Source

namespace Hashed

open Source

variable {ρ : Type} [Reader ρ] {faults : List Fault}

/-- The digest after requests is that of the bytes in their answers. -/
theorem digest_answers (requests : List Request) (r : ρ) :
    (answers requests (⟨r, .start⟩ : Hashed ρ)).2.digest =
      hexOfBytes (Sha256.ofMessage (taken (answers requests r).1)) := by
  have hsame := mirrors_inner.answers requests (⟨r, .start⟩ : Hashed ρ)
  have hsum := tracks_sum.answers requests (⟨r, .start⟩ : Hashed ρ)
  rw [digest, Sha256.hexDigest, hsum, Sha256.finish_absorb, ← hsame]

/-- Hashing changes no answer to any requests of a source and not what they leave of it. What they take,
that of a failing answer included, is the front of the data, and all that is left at any time comes up
to the first failure that is no interruption. The digest is that of exactly the bytes taken, so that
two runs of requests that take as many bytes of the same data have the same one, however the reads
were cut and interrupted. -/
theorem answers_transparent (hf : Bearable faults) (data : List UInt8) (stride : Nat → Nat)
    (requests : List Request) :
    let bare := answers requests (ofSchedule data faults stride)
    let hashed := answers requests (⟨ofSchedule data faults stride, .start⟩ : Hashed Source)
    hashed.1 = bare.1 ∧ hashed.2.inner = bare.2 ∧
    taken bare.1 <+: data ∧ bare.2.position = (taken bare.1).length ∧
    (Request.toEnd.answer bare.2).1 = outcome bare.2.stuck bare.2.arrivals ∧
    hashed.2.digest = hexOfBytes (Sha256.ofMessage (taken bare.1)) ∧
    ∀ (faults' : List Fault) (stride' : Nat → Nat) (requests' : List Request),
      (answers requests' (ofSchedule data faults' stride')).2.position = bare.2.position →
      (answers requests' (⟨ofSchedule data faults' stride', .start⟩ : Hashed Source)).2.digest =
        hashed.2.digest := by
  have hsame := mirrors_inner.answers requests (⟨ofSchedule data faults stride, .start⟩ : Hashed Source)
  obtain ⟨hfront, hcount⟩ := taken_answers data faults stride requests
  have hsettles : (answers requests (ofSchedule data faults stride)).2.Settles :=
    (Flow.source.reaches (tracks_reaches.answers requests _) (settles_ofSchedule hf data stride)).1
  refine ⟨congrArg Prod.fst hsame, congrArg Prod.snd hsame, hfront, hcount, answer_toEnd hsettles,
    digest_answers .., ?_⟩
  intro faults' stride' requests' hposition
  obtain ⟨hfront', hcount'⟩ := taken_answers data faults' stride' requests'
  have hlength : (taken (answers requests' (ofSchedule data faults' stride')).1).length =
      (taken (answers requests (ofSchedule data faults stride)).1).length := by
    rw [← hcount', hposition, hcount]
  have hprefix := List.prefix_of_prefix_length_le hfront' hfront (Nat.le_of_eq hlength)
  rw [digest_answers, digest_answers, hprefix.eq_of_length hlength]

/-- Requests for nothing, for all there is, for one byte and again for all there is, of a stream that is
interrupted after one byte and fails for once after two. -/
theorem answers_transparent_abc :
    let faults : List Fault := [⟨1, ⟨.interrupted, "again"⟩, false⟩, ⟨2, .other "boom", false⟩]
    let requests := [Request.read 0, .toEnd, .read 1, .toEnd]
    let hashed := answers requests
      (⟨ofSchedule [0x61, 0x62, 0x63] faults fun _ => 2, .start⟩ : Hashed Source)
    Bearable faults ∧
    hashed.1 = [⟨[], none⟩, ⟨[0x61, 0x62], some (.other "boom")⟩, ⟨[0x63], none⟩, ⟨[], none⟩] ∧
    hashed.2.digest = "ba7816bf8f01cfea414140de5dae2223b00361a396177a9cb410ff61f20015ad" ∧
    (answers [.toEnd] (⟨ofSchedule [0x61, 0x62, 0x63] [] fun _ => 1, .start⟩ : Hashed Source)).2.digest =
      hashed.2.digest := by
  have hf : Bearable [⟨1, ⟨.interrupted, "again"⟩, false⟩, ⟨2, .other "boom", false⟩] := by decide
  obtain ⟨hanswers, -, -, -, -, hdigest, hsame⟩ := answers_transparent hf [0x61, 0x62, 0x63] (fun _ => 2)
    [.read 0, .toEnd, .read 1, .toEnd]
  exact ⟨hf, hanswers.trans (by decide +kernel), hdigest.trans (by decide +kernel),
    hsame [] (fun _ => 1) [.toEnd] (by decide +kernel)⟩

end Hashed

end InterfaceIndex
