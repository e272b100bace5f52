import InterfaceIndex.Index
import InterfaceIndex.Proofs.Text.Utf8

/-! An index as a function from interfaces to locations: insertion, merging, and the last of many. -/
namespace InterfaceIndex

/-- The last that answers, by what stands around it. -/
theorem findSome?_reverse_eq_some_iff {α β : Type} {list : List β} {f : β → Option α} {a : α} :
    list.reverse.findSome? f = some a ↔ ∃ before b after,
      list = before ++ b :: after ∧ f b = some a ∧ ∀ c ∈ after, f c = none := by
  rw [List.findSome?_eq_some_iff]
  constructor
  · rintro ⟨after, b, before, hreverse, hb, hafter⟩
    refine ⟨before.reverse, b, after.reverse, ?_, hb, ?_⟩
    · simpa using congrArg List.reverse hreverse
    · intro c hc
      exact hafter c (List.mem_reverse.mp hc)
  · rintro ⟨before, b, after, rfl, hb, hafter⟩
    refine ⟨after.reverse, b, before.reverse, by simp, hb, ?_⟩
    intro c hc
    exact hafter c (List.mem_reverse.mp hc)

/-- The order tells interfaces apart. -/
theorem Interface.order_eq_iff {a b : Interface} : order a b = .eq ↔ a = b := by
  constructor
  · intro h
    simp only [order, compareLex_eq_eq, compareOn] at h
    obtain ⟨an, ap⟩ := a
    obtain ⟨bn, bp⟩ := b
    rw [Interface.mk.injEq]
    exact ⟨Utf8.encode_injective (Std.LawfulEqCmp.eq_of_compare h.1),
      Utf8.encode_injective (Std.LawfulEqCmp.eq_of_compare h.2)⟩
  · rintro rfl
    exact Std.ReflCmp.compare_self

namespace Declared

variable {d x : Declared} {rest : List Declared} {i : Interface}

/-- Where the last of some declarations of an interface puts it. -/
def lastOf (declarations : List Declared) (i : Interface) : Option Location :=
  ((declarations.filter (·.interface == i)).getLast?).map (·.location)

@[simp] theorem lastOf_nil (i : Interface) : lastOf [] i = none := rfl

theorem lastOf_append (a b : List Declared) (i : Interface) :
    lastOf (a ++ b) i = (lastOf b i).or (lastOf a i) := by
  simp only [lastOf, List.filter_append, List.getLast?_append]
  cases (b.filter (·.interface == i)).getLast? <;> simp

theorem lastOf_singleton (d : Declared) (i : Interface) :
    lastOf [d] i = if d.interface = i then some d.location else none := by
  by_cases h : d.interface = i <;> simp [lastOf, h]

theorem before_ne (h : d.Before x) : d.interface ≠ x.interface := by
  intro he
  rw [Before, Interface.order_eq_iff.mpr he] at h
  simp at h

/-- What a list finds for an interface after an insertion. -/
theorem find?_insertInto (h : rest.Pairwise Before) :
    ((d.insertInto rest).2.find? (·.interface == i)).map (·.location) =
      if d.interface = i then some d.location
      else (rest.find? (·.interface == i)).map (·.location) := by
  induction rest with
  | nil => by_cases hd : d.interface = i <;> simp [insertInto, hd]
  | cons x rest ih =>
    obtain ⟨hx, hrest⟩ := List.pairwise_cons.mp h
    simp only [insertInto]
    split
    · by_cases hd : d.interface = i <;> simp [hd]
    · next heq =>
      have hi := Interface.order_eq_iff.mp heq
      by_cases hd : d.interface = i
      · simp [hd]
      · have hxi : x.interface ≠ i := hi ▸ hd
        simp [hd, hxi]
    · next hgt =>
      by_cases hd : d.interface = i
      · have hxi : x.interface ≠ i := by
          rintro rfl
          rw [Interface.order_eq_iff.mpr hd] at hgt
          simp at hgt
        simpa [hd, hxi] using ih hrest
      · by_cases hxi : x.interface = i
        · simp [hd, hxi]
        · simpa [hd, hxi] using ih hrest

/-- In an ordered list the last declaration of an interface is the only one. -/
theorem lastOf_eq_find? (h : rest.Pairwise Before) (i : Interface) :
    lastOf rest i = (rest.find? (·.interface == i)).map (·.location) := by
  induction rest with
  | nil => rfl
  | cons x rest ih =>
    obtain ⟨hx, hrest⟩ := List.pairwise_cons.mp h
    by_cases hxi : x.interface = i
    · have hnone : rest.filter (·.interface == i) = [] := by
        apply List.filter_eq_nil_iff.mpr
        intro y hy
        have := before_ne (hx y hy)
        simpa [hxi] using this.symm
      simp [lastOf, hxi, hnone]
    · simpa [lastOf, hxi] using ih hrest

end Declared

namespace Index

variable {x y : Index} {i : Interface} {declarations : List Declared}

@[simp] theorem find?_empty (i : Interface) : empty.find? i = none := rfl

@[simp] theorem find?_insert (x : Index) (d : Declared) (i : Interface) :
    (x.insert d).find? i = if d.interface = i then some d.location else x.find? i :=
  Declared.find?_insertInto x.ordered

/-- After many insertions, the last declaration of an interface counts. -/
theorem find?_foldl_insert (declarations : List Declared) (x : Index) (i : Interface) :
    (declarations.foldl insert x).find? i = (Declared.lastOf declarations i).or (x.find? i) := by
  induction declarations generalizing x with
  | nil => rfl
  | cons d rest ih =>
    rw [List.foldl_cons, ih, find?_insert, ← List.singleton_append, Declared.lastOf_append,
      Declared.lastOf_singleton]
    cases Declared.lastOf rest i <;> by_cases hd : d.interface = i <;> simp [hd]

theorem find?_ofDeclarations (declarations : List Declared) (i : Interface) :
    (ofDeclarations declarations).find? i = Declared.lastOf declarations i := by
  simp [ofDeclarations, find?_foldl_insert]

theorem fst_absorb (x : Index) (declarations : List Declared) :
    (x.absorb declarations).1 = declarations.foldl insert x := by
  induction declarations generalizing x with
  | nil => rfl
  | cons d rest ih => exact ih _

/-- A merge prefers what comes in. -/
theorem find?_merge (x y : Index) (i : Interface) :
    (x.merge y).1.find? i = (y.find? i).or (x.find? i) := by
  rw [merge, fst_absorb, find?_foldl_insert, Declared.lastOf_eq_find? y.ordered]
  rfl

/-- The entries of an index are what it finds. -/
theorem mem_entries_iff {d : Declared} :
    d ∈ x.entries ↔ x.find? d.interface = some d.location := by
  constructor
  · intro hd
    rw [find?, ← Declared.lastOf_eq_find? x.ordered]
    obtain ⟨front, rest, he⟩ := List.append_of_mem hd
    have hrest : rest.filter (·.interface == d.interface) = [] := by
      apply List.filter_eq_nil_iff.mpr
      intro y hy
      have hp := List.pairwise_append.mp (he ▸ x.ordered)
      have := Declared.before_ne ((List.pairwise_cons.mp hp.2.1).1 y hy)
      simpa using this.symm
    simp [he, Declared.lastOf, hrest]
  · intro h
    obtain ⟨e, he, hloc⟩ := Option.map_eq_some_iff.mp h
    have hi := List.find?_some he
    have hmem := List.mem_of_find?_eq_some he
    obtain ⟨ei, el⟩ := e
    obtain ⟨di, dl⟩ := d
    simp only [beq_iff_eq] at hi hloc
    exact hi ▸ hloc ▸ hmem

/-- Indexes that find the same are the same. -/
theorem ext_find? (h : ∀ i, x.find? i = y.find? i) : x = y := by
  have hnodup (z : Index) : z.entries.Nodup :=
    z.ordered.imp fun hb he => Declared.before_ne hb (congrArg _ he)
  have hperm : x.entries.Perm y.entries := by
    apply (List.perm_ext_iff_of_nodup (hnodup x) (hnodup y)).mpr
    intro d
    rw [mem_entries_iff, mem_entries_iff, h]
  have heq : x.entries = y.entries := by
    refine hperm.eq_of_pairwise ?_ x.ordered y.ordered
    intro a b _ _ hab hba
    exact absurd (Std.TransCmp.lt_trans hab hba) (by simp [Std.ReflCmp.compare_self])
  cases x
  cases y
  simpa using heq

/-- Merging the indexes of two runs of declarations is indexing one run after the other. -/
theorem merge_ofDeclarations (a b : List Declared) :
    ((ofDeclarations a).merge (ofDeclarations b)).1 = ofDeclarations (a ++ b) := by
  apply ext_find?
  intro i
  simp only [find?_merge, find?_ofDeclarations, Declared.lastOf_append]

end Index

end InterfaceIndex
