import InterfaceIndex.CommandLine
import InterfaceIndex.Proofs.Collection
import InterfaceIndex.Proofs.Release.Provenance
import InterfaceIndex.Proofs.Table

/-! A run prints the whole table or nothing at all, whatever it tells about itself. -/
namespace InterfaceIndex

variable {ρ : Type} [Reader ρ] {endpoints : Endpoints} {versions : List String}
  {locate : String → Except Address.Defect Address}

namespace Problem

end Problem

/-- In a row for a genuine entry the first cell is the longest: the link in it leads to the file of the
package, and ends with the number of the line. -/
theorem Release.Genuine.length_le {r : Release} {d : Declared} (h : r.Genuine d) :
    ∀ cell ∈ Table.cells d,
      cell.length ≤ ("[" ++ d.interface.name ++ "](" ++ d.location.link ++ ")").length := by
  obtain ⟨below, part, -, -, hfile⟩ := h.sourceFile
  have hlink : d.location.sourceFile.length + (toString d.location.line).length ≤
      d.location.link.length := by
    rw [h.link]
    simp only [Endpoints.lineLink, String.length_append, Nat.toString_eq_repr, Nat.repr]
    omega
  have hpackage : d.interface.package.length ≤ d.location.sourceFile.length := by
    rw [hfile]
    simp only [String.length_append]
    omega
  intro cell hcell
  simp only [Table.cells, List.mem_cons, List.not_mem_nil, or_false] at hcell
  rcases hcell with rfl | rfl | rfl | rfl <;> simp only [String.length_append] <;> omega

namespace CommandLine

end CommandLine

end InterfaceIndex
