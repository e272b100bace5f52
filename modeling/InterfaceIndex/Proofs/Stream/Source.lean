import InterfaceIndex.Stream.Source
import InterfaceIndex.Proofs.Stream.Delivery

/-! What a byte source brings, from its arrivals and from its schedule of faults. -/
namespace InterfaceIndex

namespace Source

variable {s t : Source} {n : Nat} {faults : List Fault} {f : Failure} {bytes : List UInt8}

/-- No failure that lasts is an interruption, which a patient reader would never outlast. -/
def Settles (s : Source) : Prop := ∀ f, s.stuck = some f → f.isInterrupted = false

/-- The bytes among some arrivals. -/
def bytesOf : List Arrival → List UInt8
  | [] => []
  | .byte b :: rest => b :: bytesOf rest
  | .fault _ :: rest => bytesOf rest

/-- What a patient reader gets: the bytes before the first failure that is no interruption, and that
failure. -/
def outcome (stuck : Option Failure) : List Arrival → Gathered
  | [] => ⟨[], stuck⟩
  | .byte b :: rest => ⟨b :: (outcome stuck rest).bytes, (outcome stuck rest).failure⟩
  | .fault f :: rest => if f.isInterrupted then outcome stuck rest else ⟨[], some f⟩

/-- What one read of a source comes to. -/
inductive Reads (s : Source) (n : Nat) : Except Failure (List UInt8) × Source → Prop
  | ended (none_left : s.arrivals = []) (free : s.stuck = none) : Reads s n (.ok [], s)
  | stuck {f : Failure} (none_left : s.arrivals = []) (lasting : s.stuck = some f) :
      Reads s n (.error f, s)
  | fault {f : Failure} {t : Source} (eq : s.arrivals = .fault f :: t.arrivals)
      (same : t.stuck = s.stuck) : Reads s n (.error f, t)
  | bytes {piece : List UInt8} {t : Source} (eq : s.arrivals = piece.map .byte ++ t.arrivals)
      (same : t.stuck = s.stuck) (size : piece.length ≤ n) (some_left : s.arrivals ≠ [])
      (progress : 0 < n → piece ≠ []) : Reads s n (.ok piece, t)

theorem takeBytes_eq (n : Nat) (arrivals : List Arrival) :
    arrivals = (takeBytes n arrivals).1.map .byte ++ (takeBytes n arrivals).2 ∧
      (takeBytes n arrivals).1.length ≤ n := by
  fun_induction takeBytes n arrivals with
  | case1 n b rest bytes rest' h ih =>
    simp only [h] at ih
    exact ⟨by simp [← ih.1], by simpa using ih.2⟩
  | case2 n arrivals h => simp

theorem takeBytes_ne_nil {b : UInt8} {rest : List Arrival} (hn : 0 < n) :
    (takeBytes n (.byte b :: rest)).1 ≠ [] := by
  obtain ⟨n, rfl⟩ := Nat.exists_eq_add_of_lt hn
  simp [takeBytes]

theorem read_spec (s : Source) (n : Nat) : Reads s n (Reader.read s n) := by
  change Reads s n (s.read n)
  unfold read
  split
  · next hs =>
    split
    · next f hf => exact .stuck hs hf
    · next hf => exact .ended hs hf
  · next f rest hs => exact .fault hs rfl
  · next hnil hfault =>
    obtain ⟨heq, hlen⟩ := takeBytes_eq (min n (max 1 (s.stride s.position))) s.arrivals
    refine .bytes heq rfl (by omega) hnil ?_
    intro hn
    cases ha : s.arrivals with
    | nil => exact (hnil ha).elim
    | cons a rest =>
      cases a with
      | fault f => exact (hfault f rest ha).elim
      | byte b => exact takeBytes_ne_nil (by omega)

theorem budget_eq (s : Source) : Reader.budget s = s.arrivals.length := s.count_eq

@[simp] theorem bytesOf_append (a b : List Arrival) :
    bytesOf (a ++ b) = bytesOf a ++ bytesOf b := by
  induction a with
  | nil => rfl
  | cons x a ih => cases x <;> simp [bytesOf, ih]

@[simp] theorem bytesOf_bytes (bytes : List UInt8) : bytesOf (bytes.map .byte) = bytes := by
  induction bytes with
  | nil => rfl
  | cons b bytes ih => simp [bytesOf, ih]

theorem outcome_bytes (stuck : Option Failure) (bytes : List UInt8) (rest : List Arrival) :
    outcome stuck (bytes.map .byte ++ rest) =
      ⟨bytes ++ (outcome stuck rest).bytes, (outcome stuck rest).failure⟩ := by
  induction bytes with
  | nil => rfl
  | cons b bytes ih => simp [outcome, ih]

end Source

open Source

/-- A source is sound when it settles. -/
def Flow.source : Flow Source where
  Sound := Settles
  ok {s t n bytes} h ha := by
    have hr := read_spec s n
    rw [ha] at hr
    simp only [budget_eq]
    cases hr with
    | ended none_left free => exact ⟨h, by simp, by simp⟩
    | bytes eq same size some_left progress =>
      refine ⟨fun f hf => h f (same ▸ hf), size, ?_⟩
      rw [eq]
      simp only [List.length_append, List.length_map]
      omega
  error {s t n f} h ha := by
    have hr := read_spec s n
    rw [ha] at hr
    simp only [budget_eq]
    cases hr with
    | stuck none_left lasting =>
      refine ⟨h, Nat.le_refl _, ?_⟩
      intro hi
      simp [h f lasting] at hi
    | fault eq same => exact ⟨fun f hf => h f (same ▸ hf), by simp [eq], by simp [eq]⟩

/-- A patient reader of a source gets the bytes before a given end of all reading, and meets only some
interruptions on the way. -/
def Delivery.untilStop (stop : Option Failure) (passing : Failure → Prop) : Delivery Source where
  toFlow := Flow.source
  Holds s bytes := s.Settles ∧ outcome s.stuck s.arrivals = ⟨bytes, stop⟩ ∧
    ∀ f, .fault f ∈ s.arrivals → f.isInterrupted = true → passing f
  Stops left g := (left = [] ∧ g = stop) ∨ ∃ f, g = some f ∧ passing f
  whole h := by simpa using h.imp_left And.left
  sound h := h.1
  brings {s t n piece bytes} h hn ha := by
    obtain ⟨hs, ho, hp⟩ := h
    have hs' := (Flow.source.ok hs ha).1
    have hr := read_spec s n
    rw [ha] at hr
    cases hr with
    | ended none_left free => exact ⟨_, rfl, hs', ho, hp⟩
    | bytes eq same size some_left progress =>
      rw [eq, outcome_bytes, ← same] at ho
      simp only [Gathered.mk.injEq] at ho
      refine ⟨_, ho.1.symm, hs', by rw [← ho.2], fun f hf => hp f ?_⟩
      rw [eq]
      exact List.mem_append_right _ hf
  ends {s t n bytes} h hn ha := by
    obtain ⟨hs, ho, -⟩ := h
    have hr := read_spec s n
    rw [ha] at hr
    cases hr with
    | ended none_left free =>
      simp only [none_left, outcome, free, Gathered.mk.injEq] at ho
      exact Or.inl ⟨ho.1.symm, ho.2⟩
    | bytes eq same size some_left progress => exact (progress hn rfl).elim
  fails {s t n f bytes} h hn ha := by
    obtain ⟨hs, ho, hp⟩ := h
    have hs' := (Flow.source.error hs ha).1
    have hr := read_spec s n
    rw [ha] at hr
    cases hr with
    | stuck none_left lasting =>
      simp only [none_left, outcome, lasting, Gathered.mk.injEq] at ho
      exact ⟨Or.inl ⟨ho.1.symm, ho.2⟩,
        fun _ => ⟨hs', by simp [none_left, outcome, lasting, ho], by simp [none_left]⟩⟩
    | fault eq same =>
      rw [eq] at hp
      rw [eq, ← same, outcome] at ho
      split at ho
      · next hi =>
        exact ⟨Or.inr ⟨f, rfl, hp f List.mem_cons_self hi⟩,
          fun _ => ⟨hs', ho, fun g hg => hp g (List.mem_cons_of_mem _ hg)⟩⟩
      · next hi =>
        simp only [Gathered.mk.injEq] at ho
        exact ⟨Or.inl ⟨ho.1.symm, ho.2⟩, fun h => (hi h).elim⟩

end InterfaceIndex
