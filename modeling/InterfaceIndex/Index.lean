import InterfaceIndex.Text.Utf8
/-!
Interfaces and where they are declared: at most one place for each, in order.
-/
namespace InterfaceIndex

/-- Identity of an interface: its name within a package. -/
structure Interface where
  name : String
  package : String
  deriving DecidableEq, Repr

/-- Where an interface was declared. -/
structure Location where
  version : String
  /-- Path of the file in the source repository. -/
  sourceFile : String
  /-- Number of the line, counted from 1. -/
  line : Nat
  link : String
  deriving DecidableEq, Repr

/-- An interface with its location. -/
structure Declared where
  interface : Interface
  location : Location
  deriving DecidableEq, Repr

/-- Order by name and then by package, each by its UTF-8 bytes. -/
def Interface.order : Interface → Interface → Ordering :=
  compareLex (compareOn fun i => Utf8.encode i.name) (compareOn fun i => Utf8.encode i.package)

instance : Std.TransCmp Interface.order := by
  unfold Interface.order; infer_instance

/-- A declaration comes before another one when its interface does. -/
def Declared.Before (a b : Declared) : Prop :=
  Interface.order a.interface b.interface = .lt

instance (a b : Declared) : Decidable (a.Before b) :=
  inferInstanceAs (Decidable (_ = _))

/-- Puts a declaration where it belongs in an ordered list; gives the location that it replaces. -/
def Declared.insertInto (d : Declared) : List Declared → Option Location × List Declared
  | [] => (none, [d])
  | x :: rest =>
    match Interface.order d.interface x.interface with
    | .lt => (none, d :: x :: rest)
    | .eq => (some x.location, d :: rest)
    | .gt =>
      let (replaced, rest) := d.insertInto rest
      (replaced, x :: rest)

namespace Declared

variable {d : Declared} {rest : List Declared}

/-- Insertion adds nothing but what is inserted. -/
theorem eq_or_mem_of_mem_insertInto {y : Declared} (h : y ∈ (d.insertInto rest).2) :
    y = d ∨ y ∈ rest := by
  induction rest with
  | nil => simpa [insertInto] using h
  | cons x rest ih =>
    simp only [insertInto] at h
    split at h
    · simpa using h
    · rcases List.mem_cons.1 h with h | h
      · exact .inl h
      · exact .inr (List.mem_cons_of_mem _ h)
    · rcases List.mem_cons.1 h with h | h
      · exact .inr (h ▸ List.mem_cons_self)
      · exact (ih h).imp_right (List.mem_cons_of_mem _)

/-- Insertion keeps a list in order. -/
theorem pairwise_insertInto (h : rest.Pairwise Before) : (d.insertInto rest).2.Pairwise Before := by
  induction rest with
  | nil => simp [insertInto]
  | cons x rest ih =>
    obtain ⟨hx, hrest⟩ := List.pairwise_cons.1 h
    simp only [insertInto]
    split
    · next hlt =>
      refine List.pairwise_cons.2 ⟨fun y hy => ?_, h⟩
      rcases List.mem_cons.1 hy with rfl | hy
      · exact hlt
      · exact Std.TransCmp.lt_trans hlt (hx y hy)
    · next heq =>
      refine List.pairwise_cons.2 ⟨fun y hy => ?_, hrest⟩
      exact (Std.TransCmp.congr_left heq).trans (hx y hy)
    · next hgt =>
      refine List.pairwise_cons.2 ⟨fun y hy => ?_, ih hrest⟩
      rcases eq_or_mem_of_mem_insertInto hy with rfl | hy
      · exact Std.OrientedCmp.lt_of_gt hgt
      · exact hx y hy

end Declared

/-- A finite map from interfaces to locations, kept as the list of its entries in order, so that
two indexes with the same entries are equal. -/
structure Index where
  entries : List Declared
  ordered : entries.Pairwise Declared.Before
  deriving DecidableEq

/-- An entry of an index gave way to a later one. -/
structure Replacement where
  interface : Interface
  /-- Link to the location before. -/
  previous : String
  /-- Link to the location from now on. -/
  replacement : String
  deriving DecidableEq, Repr

namespace Index

def empty : Index := ⟨[], .nil⟩

def size (x : Index) : Nat := x.entries.length

/-- Where an interface is declared. -/
def find? (x : Index) (i : Interface) : Option Location :=
  (x.entries.find? (·.interface == i)).map (·.location)

/-- Adds a declaration. What was there for its interface is replaced. -/
def insert (x : Index) (d : Declared) : Index :=
  ⟨(d.insertInto x.entries).2, Declared.pairwise_insertInto x.ordered⟩

/-- The replacement that adding a declaration makes, if any. -/
def replacement? (x : Index) (d : Declared) : Option Replacement :=
  (d.insertInto x.entries).1.map fun previous =>
    ⟨d.interface, previous.link, d.location.link⟩

/-- Adds declarations one after another; gives the replacements that were made, in order. -/
def absorb (x : Index) : List Declared → Index × List Replacement
  | [] => (x, [])
  | d :: rest =>
    let (final, replacements) := (x.insert d).absorb rest
    (final, (x.replacement? d).toList ++ replacements)

/-- The index of some declarations; later ones win. -/
def ofDeclarations (declarations : List Declared) : Index :=
  declarations.foldl insert empty

/-- Moves all entries of the second index into the first. -/
def merge (into source : Index) : Index × List Replacement :=
  into.absorb source.entries

end Index

end InterfaceIndex
