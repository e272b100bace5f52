import InterfaceIndex.Proofs.Index
import Mathlib.Algebra.GroupWithZero.Nat
import Mathlib.Data.List.Chain

/-! Merges one after another: what they come to, and the trail of replacements that they leave. -/
namespace InterfaceIndex

namespace Declared

variable {d : Declared} {rest : List Declared} {i : Interface}

/-- An insertion replaces what the list has for the interface. -/
theorem fst_insertInto (h : rest.Pairwise Before) :
    (d.insertInto rest).1 = (rest.find? (·.interface == d.interface)).map (·.location) := by
  induction rest with
  | nil => rfl
  | cons x rest ih =>
    obtain ⟨hx, hrest⟩ := List.pairwise_cons.mp h
    simp only [insertInto]
    split
    · next hlt =>
      have hnone : (x :: rest).find? (·.interface == d.interface) = none := by
        apply List.find?_eq_none.mpr
        intro y hy
        have hbefore : d.Before y := by
          rcases List.mem_cons.mp hy with rfl | hy
          · exact hlt
          · exact Std.TransCmp.lt_trans hlt (hx y hy)
        simpa using (before_ne hbefore).symm
      rw [hnone]
      rfl
    · next heq => simp [Interface.order_eq_iff.mp heq]
    · next hgt =>
      have hne : x.interface ≠ d.interface := by
        intro he
        rw [Interface.order_eq_iff.mpr he.symm] at hgt
        simp at hgt
      simpa [hne] using ih hrest

/-- What is inserted takes the place of what it replaces, or a place of its own. -/
theorem length_insertInto (d : Declared) (rest : List Declared) :
    (d.insertInto rest).2.length + (d.insertInto rest).1.toList.length = rest.length + 1 := by
  induction rest with
  | nil => rfl
  | cons x rest ih =>
    simp only [insertInto]
    split
    · simp
    · simp
    · simp only [List.length_cons]
      omega

end Declared

namespace Replacement

variable {i : Interface} {places more : List Location} {rs : List Replacement}

/-- The replacements that lead an interface from each of some locations to the next. -/
def along (i : Interface) : List Location → List Replacement
  | p :: q :: rest => ⟨i, p.link, q.link⟩ :: along i (q :: rest)
  | _ => []

/-- A way goes on from where it has led to. -/
theorem along_append (i : Interface) (places more : List Location) :
    along i (places ++ more) = along i places ++ along i (places.getLast?.toList ++ more) := by
  induction places with
  | nil => rfl
  | cons p rest ih =>
    cases rest with
    | nil => rfl
    | cons q rest =>
      have hlast : (p :: q :: rest).getLast? = (q :: rest).getLast? := by simp
      rw [hlast]
      simpa [along] using ih

/-- Replacements that lead through some locations: there is one fewer of them, the first leaves the
first location, each leaves where the one before has led to, and the last leads to the last one. -/
structure Chain (places : List Location) (rs : List Replacement) : Prop where
  count : rs.length = places.length - 1
  first : ∀ r, rs.head? = some r → places.head?.map (·.link) = some r.previous
  linked : rs.IsChain fun r s => r.replacement = s.previous
  last : ∀ r, rs.getLast? = some r → places.getLast?.map (·.link) = some r.replacement

theorem chain_along (i : Interface) (places : List Location) : Chain places (along i places) := by
  induction places with
  | nil => exact ⟨rfl, by simp [along], by simp [along], by simp [along]⟩
  | cons p rest ih =>
    cases rest with
    | nil => exact ⟨rfl, by simp [along], by simp [along], by simp [along]⟩
    | cons q rest =>
      refine ⟨by simpa [along] using ih.count, by simp [along], ?_, ?_⟩
      · cases rest with
        | nil => simp [along]
        | cons s rest => exact List.isChain_cons_cons.mpr ⟨rfl, ih.linked⟩
      · intro r hr
        cases rest with
        | nil =>
          obtain rfl : (⟨i, p.link, q.link⟩ : Replacement) = r := by simpa [along] using hr
          rfl
        | cons s rest =>
          have hlast : (along i (q :: s :: rest)).getLast? = some r := by simpa [along] using hr
          simpa using ih.last r hlast

end Replacement

namespace Index

variable {x y z : Index} {sources : List Index} {source : Index} {order : List Declared}
  {i : Interface} {trail : List Replacement}

theorem replacement?_eq (x : Index) (d : Declared) : x.replacement? d =
    (x.find? d.interface).map fun previous => ⟨d.interface, previous.link, d.location.link⟩ := by
  rw [replacement?, Declared.fst_insertInto x.ordered]
  rfl

/-- An insertion makes room for one more entry or tells of one replacement. -/
theorem size_insert (x : Index) (d : Declared) :
    (x.insert d).size + (x.replacement? d).toList.length = x.size + 1 := by
  have h := Declared.length_insertInto d x.entries
  simp only [Option.length_toList] at h ⊢
  rw [replacement?, Option.isSome_map]
  exact h

theorem size_absorb (x : Index) (order : List Declared) :
    (x.absorb order).1.size + (x.absorb order).2.length = x.size + order.length := by
  induction order generalizing x with
  | nil => rfl
  | cons d rest ih =>
    have hone := x.size_insert d
    have hothers := ih (x.insert d)
    simp only [absorb, List.length_append, List.length_cons]
    omega

/-- Of the replacements that insertions make, those of one interface lead from where it is, if it is
anywhere, through all places it is put to. -/
theorem filter_absorb (x : Index) (order : List Declared) (i : Interface) :
    (x.absorb order).2.filter (·.interface == i) = Replacement.along i
      ((x.find? i).toList ++ (order.filter (·.interface == i)).map (·.location)) := by
  induction order generalizing x with
  | nil => cases x.find? i <;> simp [absorb, Replacement.along]
  | cons d rest ih =>
    rw [absorb, List.filter_append, ih, replacement?_eq, find?_insert]
    by_cases hd : d.interface = i
    · subst hd
      cases hx : x.find? d.interface <;> simp [Replacement.along]
    · cases hx : x.find? d.interface <;> simp [hd]

/-- In whatever order the entries of an index come, it has at most one for each interface. -/
theorem filter_order (h : order.Perm source.entries) (i : Interface) :
    (order.filter (·.interface == i)).map (·.location) = (source.find? i).toList := by
  have hperm := h.filter (·.interface == i)
  have hentries : source.entries.filter (·.interface == i) =
      (source.entries.find? (·.interface == i)).toList := by
    have hordered := source.ordered
    generalize source.entries = entries at hordered
    induction entries with
    | nil => rfl
    | cons d rest ih =>
      obtain ⟨hd, hrest⟩ := List.pairwise_cons.mp hordered
      by_cases hi : d.interface = i
      · have hnone : rest.filter (·.interface == i) = [] := by
          apply List.filter_eq_nil_iff.mpr
          intro e he
          have hne := Declared.before_ne (hd e he)
          simpa [← hi] using hne.symm
        simp [hi, hnone]
      · simpa [hi] using ih hrest
  rw [hentries] at hperm
  rw [find?]
  cases hfind : source.entries.find? (·.interface == i) with
  | none =>
    rw [hfind] at hperm
    simp [List.perm_nil.mp hperm]
  | some d =>
    rw [hfind] at hperm
    simp [List.perm_singleton.mp hperm]

/-- The order in which a merge takes the entries makes no difference to what it comes to. -/
theorem fst_absorb_order (h : order.Perm source.entries) (x : Index) :
    (x.absorb order).1 = (x.merge source).1 := by
  apply ext_find?
  intro i
  have hlast : Declared.lastOf order i = source.find? i := by
    rw [Declared.lastOf, ← List.getLast?_map, filter_order h]
    cases source.find? i <;> rfl
  rw [fst_absorb, find?_foldl_insert, find?_merge, hlast]

theorem merge_empty (x : Index) : (x.merge empty).1 = x := rfl

theorem empty_merge (x : Index) : (empty.merge x).1 = x := by
  apply ext_find?
  intro i
  simp [find?_merge]

theorem merge_assoc (x y z : Index) : ((x.merge y).1.merge z).1 = (x.merge (y.merge z).1).1 := by
  apply ext_find?
  intro i
  simp [find?_merge, Option.or_assoc]

theorem merge_twice (x y : Index) : ((x.merge y).1.merge y).1 = (x.merge y).1 := by
  apply ext_find?
  intro i
  cases hy : y.find? i <;> simp [find?_merge, hy]

/-- Indexes merged one after another into an empty one, what they come to, and the replacements made
on the way. Each merge takes the entries of its index in an order of its own. -/
inductive Merges : List Index → Index → List Replacement → Prop
  | start : Merges [] empty []
  | merge {sources : List Index} {x : Index} {trail : List Replacement} {source : Index}
      {order : List Declared} (before : Merges sources x trail)
      (all : order.Perm source.entries) :
      Merges (sources ++ [source]) (x.absorb order).1 (trail ++ (x.absorb order).2)

namespace Merges

/-- The last index that has an interface has the say. -/
theorem find?_eq (h : Merges sources x trail) (i : Interface) :
    x.find? i = (sources.filterMap (·.find? i)).getLast? := by
  induction h with
  | start => rfl
  | @merge sources x trail source order before all ih =>
    rw [fst_absorb_order all, find?_merge, ih, List.filterMap_append, List.getLast?_append]
    cases hs : source.find? i <;> simp [hs]

theorem find?_eq_some_iff (h : Merges sources x trail) {place : Location} :
    x.find? i = some place ↔ ∃ before source after, sources = before ++ source :: after ∧
      source.find? i = some place ∧ ∀ later ∈ after, later.find? i = none := by
  rw [h.find?_eq, List.getLast?_filterMap, findSome?_reverse_eq_some_iff]

/-- The replacements of an interface lead through all its locations, in order. -/
theorem filter_trail (h : Merges sources x trail) (i : Interface) :
    trail.filter (·.interface == i) =
      Replacement.along i (sources.filterMap (·.find? i)) := by
  induction h with
  | start => rfl
  | @merge sources x trail source order before all ih =>
    have hsource : [source].filterMap (·.find? i) = (source.find? i).toList := by
      cases hs : source.find? i <;> simp [hs]
    rw [List.filterMap_append, hsource, Replacement.along_append, ← before.find?_eq, ← ih,
      ← filter_order all, ← filter_absorb, List.filter_append]

/-- Every entry that was merged is still there or has been replaced. -/
theorem size_add_length (h : Merges sources x trail) :
    x.size + trail.length = (sources.map size).sum := by
  induction h with
  | start => rfl
  | @merge sources x trail source order before all ih =>
    have hmore := size_absorb x order
    have horder : order.length = source.size := all.length_eq
    simp only [List.length_append, List.map_append, List.sum_append, List.map_cons, List.map_nil,
      List.sum_cons, List.sum_nil]
    omega

/-- The orders in which entries were taken make no difference. -/
theorem eq (h : Merges sources x trail) {trail' : List Replacement}
    (h' : Merges sources y trail') : x = y := by
  apply ext_find?
  intro i
  rw [h.find?_eq, h'.find?_eq]

end Merges

end Index

end InterfaceIndex
