import InterfaceIndex.Endpoints
import InterfaceIndex.Proofs.Declaration
import Mathlib.Data.List.TakeWhile

/-! Addresses tell what they were made for, and slashes at the end of an endpoint make no difference. -/
namespace InterfaceIndex

/-- A line of a file as it was released. -/
structure ReleasedLine where
  version : String
  path : String
  line : Nat
  deriving DecidableEq

namespace Endpoints

variable {e : Endpoints} {version : String}

/-- A number of slashes. -/
def slashes (n : Nat) : String := String.ofList (List.replicate n '/')

/-- The line of a path with a line number behind it. The last number sign stands before the number:
there is none in the number itself. -/
def located? (version : String) (located : List Char) : Option ReleasedLine :=
  let number := (located.reverse.takeWhile (· != '#')).reverse
  (after? ['L'] number).map fun digits =>
    { version
      path := String.ofList (located.take (located.length - number.length - 1))
      line := Nat.ofDigitChars 10 digits 0 }

/-- The line that a link leads to. The version ends at the first slash after its mark. -/
def target? (e : Endpoints) (link : String) : Option ReleasedLine :=
  (after? (trimSlashes e.repositoryUrl ++ "/blob/go").toList link.toList).bind fun rest =>
    let version := rest.takeWhile (· != '/')
    located? (String.ofList version) (rest.drop (version.length + 1))

/-- The letter and the digits of a line number. -/
def place (line : Nat) : List Char := 'L' :: Nat.toDigits 10 line

theorem ne_sign_of_mem_place {line : Nat} : ∀ c ∈ place line, (c != '#') = true := by
  intro c hc
  rcases List.mem_cons.mp hc with rfl | hdigit
  · decide
  · have hc : c.isDigit = true := Nat.isDigit_of_mem_toDigits (by decide) (by decide) hdigit
    have : c ≠ '#' := by
      rintro rfl
      simp at hc
    simpa using this

/-- A path may have number signs of its own, with numbers behind them. -/
theorem located?_append (version : String) (path : List Char) (line : Nat) :
    located? version (path ++ '#' :: place line) = some ⟨version, String.ofList path, line⟩ := by
  have hsign : ∀ c ∈ (place line).reverse, (c != '#') = true := fun c hc =>
    ne_sign_of_mem_place c (List.mem_reverse.mp hc)
  have hplace : ((path ++ '#' :: place line).reverse.takeWhile (· != '#')).reverse = place line := by
    rw [List.reverse_append, List.reverse_cons, List.append_assoc, List.singleton_append,
      List.takeWhile_append_of_pos hsign]
    simp
  have hpath : (path ++ '#' :: place line).take
      ((path ++ '#' :: place line).length - (place line).length - 1) = path := by
    apply List.take_left'
    simp only [List.length_append, List.length_cons]
    omega
  rw [located?, hplace, hpath]
  simp [after?, place, Nat.ofDigitChars_ten_toDigits]

theorem target?_lineLink (h : '/' ∉ version.toList) (path : String) (line : Nat) :
    e.target? (e.lineLink version path line) = some ⟨version, path, line⟩ := by
  have hrest : after? (trimSlashes e.repositoryUrl ++ "/blob/go").toList
      (e.lineLink version path line).toList =
        some (version.toList ++ '/' :: (path.toList ++ '#' :: place line)) := by
    rw [after?_eq_some_iff]
    simp [lineLink, place]
  have hversion : (version.toList ++ '/' :: (path.toList ++ '#' :: place line)).takeWhile (· != '/') =
      version.toList := by
    rw [List.takeWhile_append_of_pos (by simpa [List.forall_mem_ne'] using h),
      List.takeWhile_cons_of_neg (by simp), List.append_nil]
  have hlocated : (version.toList ++ '/' :: (path.toList ++ '#' :: place line)).drop
      (version.toList.length + 1) = path.toList ++ '#' :: place line := by
    rw [← List.drop_drop, List.drop_left, List.drop_one, List.tail_cons]
  rw [target?, hrest, Option.bind_some]
  dsimp only
  rw [hversion, hlocated, located?_append, String.ofList_toList, String.ofList_toList]

theorem trimSlashes_append (url : String) (n : Nat) :
    trimSlashes (url ++ slashes n) = trimSlashes url := by
  have hall : ∀ c ∈ List.replicate n '/', (c == '/') = true := by simp
  rw [trimSlashes, slashes, String.toList_append, String.toList_ofList, List.reverse_append,
    List.reverse_replicate, List.dropWhile_append_of_pos hall, ← trimSlashes]

/-- Nothing but slashes is cut off. -/
theorem exists_trimSlashes (url : String) : ∃ n, url = trimSlashes url ++ slashes n := by
  refine ⟨(url.toList.reverse.takeWhile (· == '/')).length, ?_⟩
  have hslashes : List.replicate (url.toList.reverse.takeWhile (· == '/')).length '/' =
      (url.toList.reverse.takeWhile (· == '/')).reverse := by
    rw [← List.length_reverse]
    refine (List.eq_replicate_of_mem fun c hc => ?_).symm
    simpa using List.mem_takeWhile_imp (List.mem_reverse.mp hc)
  rw [← String.toList_inj, trimSlashes, slashes, hslashes, String.toList_append, String.toList_ofList,
    String.toList_ofList, ← List.reverse_append, List.takeWhile_append_dropWhile, List.reverse_reverse]

theorem getLast?_trimSlashes (url : String) : (trimSlashes url).toList.getLast? ≠ some '/' := by
  intro hlast
  rw [trimSlashes, String.toList_ofList, List.getLast?_reverse] at hlast
  have hnot := List.head?_dropWhile_not (· == '/') url.toList.reverse
  simp [hlast] at hnot

/-- Links and archive addresses tell what they were made for, whatever the endpoints are. A link to a
version without a slash gives back version, path and line, so that no two of them are alike, and no
two archives have the same address. Slashes at the end of an endpoint make no difference: an address
begins with the endpoint less the slashes at its end. -/
theorem addresses_unambiguous (e : Endpoints) :
    (∀ version path : String, ∀ line, '/' ∉ version.toList →
      e.target? (e.lineLink version path line) = some ⟨version, path, line⟩) ∧
    (∀ version version' path path' : String, ∀ line line', '/' ∉ version.toList →
      '/' ∉ version'.toList → e.lineLink version path line = e.lineLink version' path' line' →
      version = version' ∧ path = path' ∧ line = line') ∧
    (∀ version version' : String, e.archiveAddress version = e.archiveAddress version' →
      version = version') ∧
    (∀ (m n : Nat) (version path : String) (line : Nat),
      Endpoints.lineLink ⟨e.downloadUrl ++ slashes m, e.repositoryUrl ++ slashes n⟩ version path line =
        e.lineLink version path line ∧
      Endpoints.archiveAddress ⟨e.downloadUrl ++ slashes m, e.repositoryUrl ++ slashes n⟩ version =
        e.archiveAddress version) ∧
    (∃ base n, e.repositoryUrl = base ++ slashes n ∧ base.toList.getLast? ≠ some '/' ∧
      ∀ version path line, e.lineLink version path line =
        base ++ "/blob/go" ++ version ++ "/" ++ path ++ "#L" ++ toString line) ∧
    ∃ base n, e.downloadUrl = base ++ slashes n ∧ base.toList.getLast? ≠ some '/' ∧
      ∀ version, e.archiveAddress version = base ++ "/go" ++ version ++ ".src.tar.gz" := by
  refine ⟨?_, ?_, ?_, ?_, ?_, ?_⟩
  · intro version path line h
    exact target?_lineLink h path line
  · intro version version' path path' line line' h h' hlink
    have htarget := target?_lineLink (e := e) h path line
    rw [hlink, target?_lineLink h' path' line'] at htarget
    simpa [eq_comm] using htarget
  · intro version version' haddress
    simpa [archiveAddress, ← String.toList_inj] using haddress
  · intro m n version path line
    simp only [lineLink, archiveAddress, trimSlashes_append, and_self]
  · obtain ⟨n, hn⟩ := exists_trimSlashes e.repositoryUrl
    exact ⟨_, n, hn, getLast?_trimSlashes _, fun version path line => rfl⟩
  · obtain ⟨n, hn⟩ := exists_trimSlashes e.downloadUrl
    exact ⟨_, n, hn, getLast?_trimSlashes _, fun version => rfl⟩

/-- Endpoints with slashes at their ends. -/
def slashed : Endpoints := ⟨"http://mirror/", "http://server//"⟩

/-- A path that looks like the end of another link. -/
theorem addresses_unambiguous_nested :
    '/' ∉ "1.18".toList ∧ '/' ∉ "1.1".toList ∧
    slashed.target? (slashed.lineLink "1.18" "a/blob/go1.1/b#L1" 12) =
      some ⟨"1.18", "a/blob/go1.1/b#L1", 12⟩ ∧
    slashed.lineLink "1.18" "a/blob/go1.1/b#L1" 12 ≠ slashed.lineLink "1.1" "b" 1 ∧
    slashed.archiveAddress "1.18" ≠ slashed.archiveAddress "1.1" := by
  have h : '/' ∉ "1.18".toList ∧ '/' ∉ "1.1".toList := by decide
  obtain ⟨hread, hlink, harchive, -⟩ := addresses_unambiguous slashed
  refine ⟨h.1, h.2, hread _ _ _ h.1, ?_, ?_⟩
  · intro heq
    have hline := (hlink _ _ _ _ _ _ h.1 h.2 heq).2.2
    simp at hline
  · intro heq
    have hversion := harchive _ _ heq
    simp at hversion

end Endpoints

end InterfaceIndex
