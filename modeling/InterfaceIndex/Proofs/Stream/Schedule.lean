import InterfaceIndex.Proofs.Stream.Source

/-! A schedule of faults, read patiently: the first fault that is no interruption ends the bytes. -/
namespace InterfaceIndex

namespace Fault

variable {faults : List Fault} {f g : Fault}

theorem earliest_eq_none_iff : earliest faults = none ↔ faults = [] := by
  cases faults with
  | nil => simp [earliest]
  | cons f rest =>
    simp only [earliest, reduceCtorEq, iff_false]
    cases earliest rest with
    | none => simp
    | some g => by_cases h : f.position ≤ g.position <;> simp [h]

/-- The earliest fault has the least position, and none before it in the list has the same. -/
theorem earliest_eq_some (h : earliest faults = some f) :
    (∀ g ∈ faults, f.position ≤ g.position) ∧ faults.find? (·.position == f.position) = some f := by
  induction faults generalizing f with
  | nil => simp [earliest] at h
  | cons x rest ih =>
    simp only [earliest] at h
    cases he : earliest rest with
    | none =>
      obtain rfl : x = f := by simpa [he] using h
      obtain rfl := earliest_eq_none_iff.mp he
      simp
    | some g =>
      obtain ⟨hmin, hfind⟩ := ih he
      simp only [he] at h
      split at h
      · next hle =>
        obtain rfl : x = f := by simpa using h
        refine ⟨?_, by simp⟩
        intro y hy
        rcases List.mem_cons.mp hy with rfl | hy
        · exact Nat.le_refl _
        · exact Nat.le_trans hle (hmin y hy)
      · next hlt =>
        obtain rfl : g = f := by simpa using h
        constructor
        · intro y hy
          rcases List.mem_cons.mp hy with rfl | hy
          · omega
          · exact hmin y hy
        · rw [List.find?_cons_of_neg (by simp; omega), hfind]

/-- Two faults that are earliest among faults are the same. -/
theorem earliest_eq_some_iff : earliest faults = some f ↔
    (∀ g ∈ faults, f.position ≤ g.position) ∧ faults.find? (·.position == f.position) = some f := by
  refine ⟨earliest_eq_some, ?_⟩
  rintro ⟨hmin, hfind⟩
  cases he : earliest faults with
  | none => simp [earliest_eq_none_iff.mp he] at hfind
  | some g =>
    obtain ⟨hmin', hfind'⟩ := earliest_eq_some he
    have hfg := hmin g (List.mem_of_find?_eq_some hfind')
    have hgf := hmin' f (List.mem_of_find?_eq_some hfind)
    rw [Nat.le_antisymm hgf hfg, hfind] at hfind'
    exact hfind'.symm

/-- Whether a fault ends the reading of a patient reader. -/
def isFatal (f : Fault) : Bool := !f.failure.isInterrupted

end Fault

namespace Source

variable {faults : List Fault} {data rest : List UInt8} {f : Fault} {p : Nat}
  {stuck : Option Failure}

/-- No lasting fault of a schedule is an interruption. -/
def Bearable (faults : List Fault) : Prop :=
  ∀ f ∈ faults, f.lasting = true → f.failure.isInterrupted = false

instance (faults : List Fault) : Decidable (Bearable faults) :=
  inferInstanceAs (Decidable (∀ f ∈ faults, _ → _))

/-- The fault at a position that ends the reading, if one does. -/
def fatalAt (faults : List Fault) (p : Nat) : Option Fault :=
  faults.find? fun f => f.isFatal && f.position == p

/-- The arrivals of a schedule from a position on. -/
def arrivalsFrom (faults : List Fault) (p : Nat) (rest : List UInt8) : List Arrival :=
  (rest.zipIdx p).flatMap (fun (b, i) => passingAt faults i ++ [.byte b]) ++
    passingAt faults (p + rest.length)

theorem arrivalsFrom_cons (b : UInt8) : arrivalsFrom faults p (b :: rest) =
    passingAt faults p ++ .byte b :: arrivalsFrom faults (p + 1) rest := by
  simp [arrivalsFrom, Nat.add_assoc, Nat.add_comm 1]

/-- Interruptions that do not last are passed over, up to the first fault that ends the reading. -/
theorem outcome_passingAt (h : Bearable faults) (more : List Arrival) :
    outcome stuck (passingAt faults p ++ more) =
      match fatalAt faults p with
      | some f => if f.lasting then outcome stuck more else ⟨[], some f.failure⟩
      | none => outcome stuck more := by
  induction faults with
  | nil => rfl
  | cons x faults ih =>
    have hx := h x List.mem_cons_self
    have ih := ih fun f hf => h f (List.mem_cons_of_mem _ hf)
    simp only [passingAt, fatalAt] at ih ⊢
    by_cases hp : x.position = p
    · cases hl : x.lasting with
      | true =>
        have hfatal : x.isFatal = true := by simp [Fault.isFatal, hx hl]
        simp [hp, hl, hfatal]
      | false =>
        cases hi : x.failure.isInterrupted with
        | true => simpa [hp, hl, hi, Fault.isFatal, outcome] using ih
        | false => simp [hp, hl, hi, Fault.isFatal, outcome]
    · simpa [hp] using ih

/-- Without a fault that ends the reading earlier, the bytes come up to what lasts at the end. -/
theorem outcome_clear (h : Bearable faults)
    (hclear : ∀ q, q < rest.length → fatalAt faults (p + q) = none)
    (hend : ∀ f, fatalAt faults (p + rest.length) = some f → f.lasting = true) :
    outcome stuck (arrivalsFrom faults p rest) = ⟨rest, stuck⟩ := by
  induction rest generalizing p with
  | nil =>
    have ho : outcome stuck (passingAt faults p ++ []) = _ := outcome_passingAt h []
    simp only [List.append_nil] at ho
    simp only [arrivalsFrom, List.zipIdx_nil, List.flatMap_nil, List.nil_append, List.length_nil,
      Nat.add_zero, ho]
    cases hf : fatalAt faults p with
    | none => rfl
    | some f => simp [hend f hf, outcome]
  | cons b rest ih =>
    have hp : fatalAt faults p = none := hclear 0 (by simp)
    rw [arrivalsFrom_cons, outcome_passingAt h, hp]
    dsimp only
    rw [outcome, ih (p := p + 1)]
    · intro q hq
      rw [Nat.add_assoc, Nat.add_comm 1]
      exact hclear (q + 1) (by simpa using hq)
    · intro f hf
      exact hend f (by simpa [Nat.add_assoc, Nat.add_comm 1] using hf)

/-- The first fault that ends the reading and does not last cuts the bytes at its position. -/
theorem outcome_cut {k : Nat} (h : Bearable faults) (hk : k ≤ rest.length)
    (hclear : ∀ q, q < k → fatalAt faults (p + q) = none) (hf : fatalAt faults (p + k) = some f)
    (hl : f.lasting = false) :
    outcome stuck (arrivalsFrom faults p rest) = ⟨rest.take k, some f.failure⟩ := by
  induction k generalizing p rest with
  | zero =>
    have hcut (more : List Arrival) : outcome stuck (passingAt faults p ++ more) =
        ⟨[], some f.failure⟩ := by
      rw [outcome_passingAt h, show fatalAt faults p = some f from hf]
      simp [hl]
    cases rest with
    | nil => simpa [arrivalsFrom] using hcut []
    | cons b rest => rw [arrivalsFrom_cons, hcut]; rfl
  | succ k ih =>
    cases rest with
    | nil => simp at hk
    | cons b rest =>
      have hp : fatalAt faults p = none := hclear 0 (by omega)
      rw [arrivalsFrom_cons, outcome_passingAt h, hp]
      dsimp only
      rw [outcome, ih (p := p + 1) (by simpa using hk)]
      · rfl
      · intro q hq
        rw [Nat.add_assoc, Nat.add_comm 1]
        exact hclear (q + 1) (by omega)
      · rw [Nat.add_assoc, Nat.add_comm 1]
        exact hf

/-- The first fault of a schedule that ends the reading of so many bytes. -/
def firstFatal (faults : List Fault) (length : Nat) : Option Fault :=
  Fault.earliest (faults.filter fun f => f.isFatal && decide (f.position ≤ length))

/-- The first fault of a schedule that lasts, within so many bytes. -/
def firstLasting (faults : List Fault) (length : Nat) : Option Fault :=
  Fault.earliest (faults.filter fun f => f.lasting && decide (f.position ≤ length))

/-- What comes of some data before the first fault of a schedule that ends the reading of them, and the
failure of that fault. -/
def untilFatal (faults : List Fault) (data : List UInt8) : Gathered :=
  match firstFatal faults data.length with
  | some f => ⟨data.take f.position, some f.failure⟩
  | none => ⟨data, none⟩

theorem untilFatal_prefix (faults : List Fault) (data : List UInt8) :
    ∃ missing, data = (untilFatal faults data).bytes ++ missing := by
  unfold untilFatal
  split
  · exact ⟨_, (List.take_append_drop _ data).symm⟩
  · exact ⟨[], (List.append_nil data).symm⟩

/-- A single failure that is no interruption lets the bytes before it come. -/
theorem untilFatal_single {front rest : List UInt8} {failure : Failure} {lasting : Bool}
    (hf : failure.isInterrupted = false) :
    untilFatal [⟨front.length, failure, lasting⟩] (front ++ rest) = ⟨front, some failure⟩ := by
  have hfirst : firstFatal [⟨front.length, failure, lasting⟩] (front ++ rest).length =
      some ⟨front.length, failure, lasting⟩ := by
    simp [firstFatal, Fault.isFatal, hf, Fault.earliest]
  simp only [untilFatal, hfirst, List.take_left']

/-- The bytes that a schedule lets through at all. -/
def reachable (faults : List Fault) (data : List UInt8) : List UInt8 :=
  match firstLasting faults data.length with
  | some f => data.take f.position
  | none => data

/-- A schedule lets a front part of the data through. -/
theorem reachable_prefix (faults : List Fault) (data : List UInt8) :
    ∃ lost, data = reachable faults data ++ lost := by
  unfold reachable
  split
  · exact ⟨_, (List.take_append_drop _ data).symm⟩
  · exact ⟨[], (List.append_nil data).symm⟩

theorem arrivals_ofSchedule (data : List UInt8) (faults : List Fault) (stride : Nat → Nat) :
    (ofSchedule data faults stride).arrivals = arrivalsFrom faults 0 (reachable faults data) := by
  simp only [arrivalsFrom, Nat.zero_add]
  rfl

theorem stuck_ofSchedule (data : List UInt8) (faults : List Fault) (stride : Nat → Nat) :
    (ofSchedule data faults stride).stuck =
      (firstLasting faults data.length).map (·.failure) := rfl

/-- Where the first fatal fault lies: there is no fatal fault before it. -/
theorem firstFatal_eq_some (h : firstFatal faults data.length = some f) :
    f.position ≤ data.length ∧ fatalAt faults f.position = some f ∧
      ∀ g ∈ faults, g.isFatal = true → g.position ≤ data.length → f.position ≤ g.position := by
  rw [firstFatal] at h
  obtain ⟨hmin, hfind⟩ := Fault.earliest_eq_some h
  have hmem := List.mem_filter.mp (List.mem_of_find?_eq_some hfind)
  have hf : f.isFatal = true ∧ f.position ≤ data.length := by simpa using hmem.2
  refine ⟨hf.2, ?_, ?_⟩
  · rw [List.find?_filter] at hfind
    rw [fatalAt, ← hfind]
    congr 1
    funext g
    by_cases hg : g.position = f.position <;> simp [hg, hf.2]
  · intro g hg hfatal hle
    exact hmin g (List.mem_filter.mpr ⟨hg, by simp [hfatal, hle]⟩)

theorem fatalAt_eq_none {k : Nat} (h : ∀ f ∈ faults, f.isFatal = true → f.position ≠ k) :
    fatalAt faults k = none := by
  simp only [fatalAt, List.find?_eq_none, Bool.and_eq_true, beq_iff_eq, not_and]
  exact h

/-- A lasting fault is fatal, so a first fatal fault that lasts is the first lasting one. -/
theorem firstLasting_eq (h : Bearable faults) (hf : firstFatal faults data.length = some f)
    (hl : f.lasting = true) : firstLasting faults data.length = some f := by
  obtain ⟨hle, hat, hmin⟩ := firstFatal_eq_some hf
  have hfatal (g : Fault) (hg : g ∈ faults) (hgl : g.lasting = true) : g.isFatal = true := by
    simp [Fault.isFatal, h g hg hgl]
  refine Fault.earliest_eq_some_iff.mpr ⟨?_, ?_⟩
  · intro g hg
    obtain ⟨hg, hp⟩ := List.mem_filter.mp hg
    simp only [Bool.and_eq_true, decide_eq_true_eq] at hp
    exact hmin g hg (hfatal g hg hp.1) hp.2
  · rw [fatalAt, List.find?_eq_some_iff_append] at hat
    rw [List.find?_filter, List.find?_eq_some_iff_append]
    obtain ⟨-, before, after, rfl, hbefore⟩ := hat
    refine ⟨by simp [hl, hle], before, after, rfl, ?_⟩
    intro g hg
    have hg' := hbefore g hg
    have hgf := hfatal g (List.mem_append_left _ hg)
    cases hgl : g.lasting with
    | false => simp
    | true =>
      have hne : (g.position == f.position) = false := by simpa [hgf hgl] using hg'
      simp [hne]

/-- Everything up to the first fatal fault can be reached. -/
theorem reachable_of_firstFatal (h : Bearable faults)
    (hf : firstFatal faults data.length = some f) :
    f.position ≤ (reachable faults data).length ∧
      (reachable faults data).take f.position = data.take f.position := by
  obtain ⟨hle, -, hmin⟩ := firstFatal_eq_some hf
  cases hs : firstLasting faults data.length with
  | none => simp [reachable, hs, hle]
  | some g =>
    rw [firstLasting] at hs
    obtain ⟨-, hfind⟩ := Fault.earliest_eq_some hs
    obtain ⟨hg, hp⟩ := List.mem_filter.mp (List.mem_of_find?_eq_some hfind)
    simp only [Bool.and_eq_true, decide_eq_true_eq] at hp
    have hfg := hmin g hg (by simp [Fault.isFatal, h g hg hp.1]) hp.2
    rw [← firstLasting] at hs
    simp only [reachable, hs, List.length_take, List.take_take]
    exact ⟨by omega, by rw [Nat.min_eq_left hfg]⟩

/-- A patient reader of a schedule gets all bytes before the first fatal fault, or else all bytes. -/
theorem outcome_ofSchedule (h : Bearable faults) (data : List UInt8) (stride : Nat → Nat) :
    outcome (ofSchedule data faults stride).stuck (ofSchedule data faults stride).arrivals =
      untilFatal faults data := by
  rw [arrivals_ofSchedule, stuck_ofSchedule, untilFatal]
  cases hf : firstFatal faults data.length with
  | none =>
    have hno (g : Fault) (hg : g ∈ faults) (hfatal : g.isFatal = true) :
        ¬ g.position ≤ data.length := by
      intro hle
      have := Fault.earliest_eq_none_iff.mp hf
      have hmem : g ∈ faults.filter fun f => f.isFatal && decide (f.position ≤ data.length) :=
        List.mem_filter.mpr ⟨hg, by simp [hfatal, hle]⟩
      simp [this] at hmem
    have hlast : firstLasting faults data.length = none := by
      refine Fault.earliest_eq_none_iff.mpr (List.filter_eq_nil_iff.mpr ?_)
      intro g hg
      simp only [Bool.and_eq_true, decide_eq_true_eq, not_and]
      intro hgl
      exact hno g hg (by simp [Fault.isFatal, h g hg hgl])
    have hnone (q : Nat) (hq : q ≤ data.length) : fatalAt faults (0 + q) = none := by
      refine fatalAt_eq_none fun g hg hfatal hgq => hno g hg hfatal ?_
      omega
    simp only [reachable, hlast]
    apply outcome_clear h (fun q hq => hnone q (by omega))
    intro f hf
    rw [hnone _ (Nat.le_refl _)] at hf
    simp at hf
  | some f =>
    obtain ⟨hle, hat, hmin⟩ := firstFatal_eq_some hf
    have hbefore (q : Nat) (hq : q < f.position) : fatalAt faults (0 + q) = none := by
      apply fatalAt_eq_none
      intro g hg hfatal hgq
      have := hmin g hg hfatal (by omega)
      omega
    cases hl : f.lasting with
    | true =>
      simp only [reachable, firstLasting_eq h hf hl, Option.map_some]
      have hlen : (data.take f.position).length = f.position := by simp [hle]
      apply outcome_clear h (fun q hq => hbefore q (by omega))
      intro g hg
      rw [hlen, Nat.zero_add, hat] at hg
      obtain rfl : f = g := by simpa using hg
      exact hl
    | false =>
      obtain ⟨hlen, htake⟩ := reachable_of_firstFatal h hf
      rw [outcome_cut h hlen hbefore (by simpa using hat) hl, htake]

theorem settles_ofSchedule (h : Bearable faults) (data : List UInt8) (stride : Nat → Nat) :
    (ofSchedule data faults stride).Settles := by
  intro f hf
  rw [stuck_ofSchedule, Option.map_eq_some_iff] at hf
  obtain ⟨g, hg, rfl⟩ := hf
  rw [firstLasting] at hg
  obtain ⟨hmem, hp⟩ := List.mem_filter.mp
    (List.mem_of_find?_eq_some (Fault.earliest_eq_some hg).2)
  simp only [Bool.and_eq_true, decide_eq_true_eq] at hp
  exact h g hmem hp.1

/-- The interruptions of a schedule. -/
def Interrupts (faults : List Fault) (f : Failure) : Prop :=
  f.isInterrupted = true ∧ ∃ g ∈ faults, g.failure = f

theorem mem_of_passingAt {f : Failure} (h : .fault f ∈ passingAt faults p) :
    ∃ g ∈ faults, g.failure = f := by
  obtain ⟨g, hg, hf⟩ := List.mem_map.mp h
  exact ⟨g, (List.mem_filter.mp ((List.takeWhile_prefix _).subset hg)).1, Arrival.fault.inj hf⟩

theorem mem_of_arrivalsFrom {f : Failure} (h : .fault f ∈ arrivalsFrom faults p rest) :
    ∃ g ∈ faults, g.failure = f := by
  induction rest generalizing p with
  | nil => exact mem_of_passingAt (by simpa [arrivalsFrom] using h)
  | cons b rest ih =>
    rw [arrivalsFrom_cons] at h
    rcases List.mem_append.mp h with h | h
    · exact mem_of_passingAt h
    · exact ih (by simpa using h)

theorem holds_ofSchedule (h : Bearable faults) (data : List UInt8) (stride : Nat → Nat) :
    (Delivery.untilStop (untilFatal faults data).failure (Interrupts faults)).Holds
      (ofSchedule data faults stride) (untilFatal faults data).bytes := by
  refine ⟨settles_ofSchedule h data stride, outcome_ofSchedule h data stride, ?_⟩
  intro f hf hi
  rw [arrivals_ofSchedule] at hf
  exact ⟨hi, mem_of_arrivalsFrom hf⟩

theorem bytesOf_passingAt (faults : List Fault) (p : Nat) : bytesOf (passingAt faults p) = [] := by
  simp only [passingAt]
  induction (faults.filter (·.position == p)).takeWhile (!·.lasting) with
  | nil => rfl
  | cons f rest ih => simpa [bytesOf] using ih

theorem bytesOf_arrivalsFrom (faults : List Fault) (p : Nat) (rest : List UInt8) :
    bytesOf (arrivalsFrom faults p rest) = rest := by
  induction rest generalizing p with
  | nil => simp [arrivalsFrom, bytesOf_passingAt]
  | cons b rest ih => simp [arrivalsFrom_cons, bytesOf_passingAt, bytesOf, ih]

theorem bytesOf_ofSchedule (data : List UInt8) (faults : List Fault) (stride : Nat → Nat) :
    bytesOf (ofSchedule data faults stride).arrivals = reachable faults data := by
  rw [arrivals_ofSchedule, bytesOf_arrivalsFrom]

end Source

end InterfaceIndex
