import InterfaceIndex.Proofs.Index
import InterfaceIndex.Table

/-! The order of a table: by the bytes of name and package, and the same in whatever order the entries
of an index come. -/
namespace InterfaceIndex

/-- Bytes decide at the first place where they differ. -/
theorem compare_bytes_eq_lt_iff {a b : List UInt8} : compare a b = .lt ↔ a < b := by
  induction a generalizing b with
  | nil => cases b <;> simp
  | cons m a ih =>
    cases b with
    | nil => simp
    | cons n b =>
      rw [List.cons_lt_cons_iff, ← ih, List.compare_eq_compareLex, List.compareLex_cons_cons,
        Ordering.then_eq_lt, Std.compare_eq_lt, Std.LawfulEqCmp.compare_eq_iff_eq]

namespace Declared

variable {a b : Declared} {x : Index}

/-- The name of the first has the smaller UTF-8 bytes, or else it is the same and the package of the
first has them. -/
def LessInBytes (a b : Declared) : Prop :=
  Utf8.encode a.interface.name < Utf8.encode b.interface.name ∨
    a.interface.name = b.interface.name ∧
      Utf8.encode a.interface.package < Utf8.encode b.interface.package

theorem before_iff : a.Before b ↔ a.LessInBytes b := by
  have hname : Utf8.encode a.interface.name = Utf8.encode b.interface.name ↔
      a.interface.name = b.interface.name :=
    ⟨Utf8.encode_injective, congrArg Utf8.encode⟩
  rw [Before, Interface.order, compareLex, Ordering.then_eq_lt, compareOn, compareOn,
    compare_bytes_eq_lt_iff, compare_bytes_eq_lt_iff, Std.LawfulEqCmp.compare_eq_iff_eq, hname,
    LessInBytes]

/-- An index has one entry at most for an interface, so none of its entries ties with another. -/
theorem eq_of_isLE (ha : a ∈ x.entries) (hb : b ∈ x.entries)
    (hab : (Interface.order a.interface b.interface).isLE)
    (hba : (Interface.order b.interface a.interface).isLE) : a = b := by
  have hi := Interface.order_eq_iff.mp (Std.OrientedCmp.isLE_antisymm hab hba)
  have hloc : a.location = b.location := by
    have hfound := Index.mem_entries_iff.mp ha
    rw [hi, Index.mem_entries_iff.mp hb] at hfound
    exact (Option.some.inj hfound).symm
  obtain ⟨ai, al⟩ := a
  obtain ⟨bi, bl⟩ := b
  rw [Declared.mk.injEq]
  exact ⟨hi, hloc⟩

end Declared

namespace Table

variable {x : Index} {order : List Declared}

/-- Sorting the entries of an index gives them in its own order: two lists of the same entries, both
without a descent, can differ only where entries tie. -/
theorem entries_ofDeclarations (h : order.Perm x.entries) :
    (ofDeclarations order).entries = x.entries := by
  have hperm : (ofDeclarations order).entries.Perm x.entries :=
    (List.mergeSort_perm order _).trans h
  have hsorted : (ofDeclarations order).entries.Pairwise fun a b =>
      (Interface.order a.interface b.interface).isLE := by
    apply List.pairwise_mergeSort
    · intro a b c hab hbc
      exact Std.TransCmp.isLE_trans hab hbc
    · intro a b
      have hswap : Interface.order b.interface a.interface =
          (Interface.order a.interface b.interface).swap := Std.OrientedCmp.eq_swap
      rw [hswap]
      cases Interface.order a.interface b.interface <;> rfl
  have hordered : x.entries.Pairwise fun a b =>
      (Interface.order a.interface b.interface).isLE := by
    refine x.ordered.imp ?_
    intro a b hab
    rw [Declared.Before] at hab
    simp [hab]
  refine hperm.eq_of_pairwise ?_ hsorted hordered
  intro a b ha hb
  exact Declared.eq_of_isLE (hperm.mem_iff.mp ha) hb

/-- An index is in order already. -/
theorem entries_ofIndex (x : Index) : (ofIndex x).entries = x.entries :=
  entries_ofDeclarations (List.Perm.refl _)

theorem ofDeclarations_eq_ofIndex (h : order.Perm x.entries) : ofDeclarations order = ofIndex x := by
  rw [Table.mk.injEq, entries_ofDeclarations h, entries_ofIndex]

/-- The table of an index, in whatever order its entries come, has all of them and no others, strictly
increasing by the bytes of name and package. It is the same for all indexes that find the same, so
that two runs of insertions which end with the same location for every interface are written alike,
byte by byte, to any output. -/
theorem ofDeclarations_canonical (h : order.Perm x.entries) :
    (ofDeclarations order).entries.Perm x.entries ∧
    (ofDeclarations order).size = x.size ∧
    (ofDeclarations order).entries.Pairwise Declared.LessInBytes ∧
    (∀ (y : Index) (other : List Declared), (∀ i, y.find? i = x.find? i) → other.Perm y.entries →
      (ofDeclarations other).entries = (ofDeclarations order).entries ∧
      ∀ s, (ofDeclarations other).write s = (ofDeclarations order).write s) ∧
    ∀ run run' other : List Declared, x = Index.ofDeclarations run →
      (∀ i, Declared.lastOf run' i = Declared.lastOf run i) →
      other.Perm (Index.ofDeclarations run').entries →
      ∀ s, (ofDeclarations other).write s = (ofDeclarations order).write s := by
  have hsame (y : Index) (other : List Declared) (hy : ∀ i, y.find? i = x.find? i)
      (hother : other.Perm y.entries) : ofDeclarations other = ofDeclarations order := by
    obtain rfl := Index.ext_find? hy
    rw [ofDeclarations_eq_ofIndex h, ofDeclarations_eq_ofIndex hother]
  refine ⟨by rw [entries_ofDeclarations h], ?_, ?_, ?_, ?_⟩
  · rw [size, entries_ofDeclarations h, Index.size]
  · rw [entries_ofDeclarations h]
    exact x.ordered.imp Declared.before_iff.mp
  · intro y other hy hother
    rw [hsame y other hy hother]
    exact ⟨rfl, fun s => rfl⟩
  · rintro run run' other rfl hruns hother s
    rw [hsame (.ofDeclarations run') other ?_ hother]
    intro i
    rw [Index.find?_ofDeclarations, Index.find?_ofDeclarations, hruns]

/-- Three interfaces of two names; `P` comes before `e` by its bytes. -/
def unsorted : List Declared :=
  [⟨⟨"Reader", "io"⟩, ⟨"1.4", "src/io/io.go", 80, "a"⟩⟩,
    ⟨⟨"RPC", "net/rpc"⟩, ⟨"1.4", "src/net/rpc/rpc.go", 7, "b"⟩⟩,
    ⟨⟨"Reader", "bufio"⟩, ⟨"1.4", "src/bufio/bufio.go", 12, "c"⟩⟩]

/-- The same records in another order, after one that does not last. -/
def unsortedAgain : List Declared :=
  ⟨⟨"Reader", "io"⟩, ⟨"1.3", "src/pkg/io/io.go", 83, "d"⟩⟩ :: unsorted.reverse

theorem ofDeclarations_canonical_unsorted :
    unsorted.Perm (Index.ofDeclarations unsorted).entries ∧
    (∀ i, Declared.lastOf unsortedAgain i = Declared.lastOf unsorted i) ∧
    unsorted.reverse.Perm (Index.ofDeclarations unsortedAgain).entries ∧
    (ofDeclarations unsorted).entries.map (·.interface.package) = ["net/rpc", "bufio", "io"] ∧
    (ofDeclarations unsorted).entries.Pairwise Declared.LessInBytes ∧
    (ofDeclarations unsorted.reverse).write {} = (ofDeclarations unsorted).write {} := by
  have hindex : Index.ofDeclarations unsortedAgain = Index.ofDeclarations unsorted := by
    decide +kernel
  have hruns (i : Interface) : Declared.lastOf unsortedAgain i = Declared.lastOf unsorted i := by
    rw [← Index.find?_ofDeclarations, ← Index.find?_ofDeclarations, hindex]
  have horder : unsorted.Perm (Index.ofDeclarations unsorted).entries := by decide +kernel
  have hother : unsorted.reverse.Perm (Index.ofDeclarations unsortedAgain).entries := by
    decide +kernel
  have hpackages : (ofDeclarations unsorted).entries.map (·.interface.package) =
      ["net/rpc", "bufio", "io"] := by
    rw [entries_ofDeclarations horder]
    decide +kernel
  obtain ⟨-, -, hless, -, hwrite⟩ := ofDeclarations_canonical horder
  exact ⟨horder, hruns, hother, hpackages, hless, hwrite _ _ _ rfl hruns hother {}⟩

end Table

end InterfaceIndex
