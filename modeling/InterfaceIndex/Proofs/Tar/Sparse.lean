import InterfaceIndex.Tar.Archive

/-! The parts of a sparse file: they cover the file and use up exactly what is stored of it. -/
namespace InterfaceIndex.Tar

/-- How many bytes of the archive a part asks for. -/
def Part.stored : Part → Nat
  | hole _ => 0
  | data size => size

def storedIn : List Part → Nat
  | [] => 0
  | part :: parts => part.stored + storedIn parts

/-- How much of a file some parts make up. -/
def coveredBy : List Part → Nat
  | [] => 0
  | part :: parts => part.stored + part.blank + coveredBy parts

@[simp] theorem blankIn_nil : blankIn [] = 0 := rfl

@[simp] theorem blankIn_cons (part : Part) (parts : List Part) :
    blankIn (part :: parts) = part.blank + blankIn parts := rfl

@[simp] theorem storedIn_nil : storedIn [] = 0 := rfl

@[simp] theorem storedIn_cons (part : Part) (parts : List Part) :
    storedIn (part :: parts) = part.stored + storedIn parts := rfl

@[simp] theorem storedIn_append (parts others : List Part) :
    storedIn (parts ++ others) = storedIn parts + storedIn others := by
  induction parts with
  | nil => simp
  | cons part parts ih => simp [ih, Nat.add_assoc]

@[simp] theorem coveredBy_nil : coveredBy [] = 0 := rfl

@[simp] theorem coveredBy_cons (part : Part) (parts : List Part) :
    coveredBy (part :: parts) = part.stored + part.blank + coveredBy parts := rfl

@[simp] theorem coveredBy_append (parts others : List Part) :
    coveredBy (parts ++ others) = coveredBy parts + coveredBy others := by
  induction parts with
  | nil => simp
  | cons part parts ih => simp [ih, Nat.add_assoc]

/-- A map in order, of a file of which so much is stored. -/
structure SparseMap.InOrder (size : Nat) (map : SparseMap) : Prop where
  claims : storedIn map.parts + map.unclaimed = size
  covers : coveredBy map.parts = map.reached

namespace SparseMap

variable {size : Nat} {map map' : SparseMap} {descriptor : List UInt8} {descriptors : List (List UInt8)}
  {h : Header} {parts : List Part}

theorem inOrder_start (size : Nat) : InOrder size ⟨[], 0, size⟩ := ⟨Nat.zero_add size, rfl⟩

/-- What a descriptor in use adds: a hole up to where its data begins, if that is further on, and the
data. -/
theorem add_ok (ha : add size map descriptor = .ok map') : map' = map ∨
    ∃ first amount hole, map.reached ≤ first ∧ amount ≤ map.unclaimed ∧
      storedIn hole = 0 ∧ coveredBy hole = first - map.reached ∧
      map' = ⟨map.parts ++ (hole ++ [.data amount]), first + amount, map.unclaimed - amount⟩ := by
  simp only [add, bind, Except.bind, pure, Except.pure] at ha
  split at ha
  · exact Or.inl (Except.ok.inj ha).symm
  · split at ha
    · simp at ha
    · next first _ =>
      split at ha
      · simp at ha
      · next amount _ =>
        split at ha
        · simp at ha
        · split at ha
          · simp at ha
          · split at ha
            · simp at ha
            · split at ha
              · simp at ha
              · refine Or.inr ⟨first, amount, _, by omega, by omega, ?_, ?_, (Except.ok.inj ha).symm⟩
                · split <;> simp [Part.stored]
                · split
                  · simp [Part.stored, Part.blank]
                  · simp
                    omega

theorem InOrder.add (hm : map.InOrder size) (ha : add size map descriptor = .ok map') :
    map'.InOrder size := by
  obtain ⟨hclaims, hcovers⟩ := hm
  rcases add_ok ha with rfl | ⟨first, amount, hole, hfirst, hamount, hstored, hcovered, rfl⟩
  · exact ⟨hclaims, hcovers⟩
  · constructor
    · simp only [storedIn_append, storedIn_cons, storedIn_nil, Part.stored, hstored]
      omega
    · simp only [coveredBy_append, coveredBy_cons, coveredBy_nil, Part.stored, Part.blank, hcovered]
      omega

theorem InOrder.addAll (hm : map.InOrder size) (ha : addAll size map descriptors = .ok map') :
    map'.InOrder size := by
  induction descriptors generalizing map with
  | nil => exact Except.ok.inj ha ▸ hm
  | cons descriptor descriptors ih =>
    rw [SparseMap.addAll, List.foldlM_cons] at ha
    cases hone : SparseMap.add size map descriptor with
    | error f => simp [hone, bind, Except.bind] at ha
    | ok next =>
      rw [hone] at ha
      exact ih (hm.add hone) ha

/-- The parts of a whole map make up the file, and ask for all that is stored of it. -/
theorem InOrder.finish (hm : map.InOrder size) (hf : map.finish h = .ok parts) :
    storedIn parts = size ∧ h.realSize = .ok (coveredBy parts) := by
  simp only [SparseMap.finish, bind, Except.bind, pure, Except.pure] at hf
  split at hf
  · simp at hf
  · next whole hwhole =>
    split at hf
    · simp at hf
    · next hreached =>
      split at hf
      · simp at hf
      · next hunclaimed =>
        obtain rfl := Except.ok.inj hf
        have hclaims := hm.claims
        rw [hm.covers, hwhole, Decidable.not_not.mp hreached]
        exact ⟨by omega, rfl⟩

end SparseMap

namespace Entries

variable {ρ : Type} [Reader ρ] {size fuel : Nat} {map map' : SparseMap} {h : Header}
  {es es' : Entries ρ} {parts : List Part}

theorem inOrder_extendWithin (hm : map.InOrder size)
    (he : extendWithin size fuel map es = (.ok map', es')) : map'.InOrder size := by
  induction fuel generalizing map es with
  | zero =>
    obtain ⟨rfl, -⟩ : map = map' ∧ es = es' := by simpa [extendWithin] using he
    exact hm
  | succ fuel ih =>
    rw [extendWithin] at he
    split at he
    · simp at he
    · simp at he
    · split at he
      · simp at he
      · next hadd =>
        split at he
        · exact ih (hm.addAll hadd) he
        · obtain ⟨hmap, -⟩ := Prod.mk.inj he
          exact Except.ok.inj hmap ▸ hm.addAll hadd

theorem inOrder_readMap (he : readMap h size es = (.ok map, es')) : map.InOrder size := by
  unfold readMap at he
  split at he
  · simp at he
  · next hadd =>
    have hm := (SparseMap.inOrder_start size).addAll hadd
    split at he
    · exact inOrder_extendWithin hm he
    · obtain ⟨hmap, -⟩ := Prod.mk.inj he
      exact Except.ok.inj hmap ▸ hm

/-- Whatever kind of entry it is, its parts ask for as much of the archive as its size says. -/
theorem storedIn_readParts (he : readParts h size es = (.ok parts, es')) :
    storedIn parts = size := by
  unfold readParts at he
  split at he
  · split at he
    · split at he
      · simp at he
      · next hmap => exact ((inOrder_readMap hmap).finish (Prod.mk.inj he).1).1
    · simp at he
  · obtain ⟨hparts, -⟩ := Prod.mk.inj he
    rw [← Except.ok.inj hparts]
    simp [Part.stored]

end Entries

end InterfaceIndex.Tar
