import InterfaceIndex.Address
import InterfaceIndex.Endpoints
import InterfaceIndex.Proofs.Declaration
import Mathlib.Data.List.TakeWhile

/-! Addresses of files in a directory: a plain name stands in them as it is, after the directory. -/
namespace InterfaceIndex

/-- ASCII letters and digits, dots, hyphens and underscores. -/
def IsUrlSafe (text : List Char) : Prop :=
  ∀ c ∈ text, c.isAlphanum = true ∨ c = '.' ∨ c = '-' ∨ c = '_'

instance (text : List Char) : Decidable (IsUrlSafe text) :=
  decidable_of_iff (text.all (fun c => c.isAlphanum || c == '.' || c == '-' || c == '_') = true)
    (by simp [IsUrlSafe, or_assoc])

theorem isUrlSafe_append {a b : List Char} : IsUrlSafe (a ++ b) ↔ IsUrlSafe a ∧ IsUrlSafe b :=
  List.forall_mem_append

namespace Address

variable {c : Char} {name origin front more server : List Char} {directory : Address}

/-- A character that has no meaning of its own in an address. -/
structure IsPlain (c : Char) : Prop where
  kept : (c != '\t' && c != '\n' && c != '\r') = true
  no_division : (c == '/' || c == '\\') = false
  in_path : (c != '?' && c != '#') = true
  unescaped : escape specialInPath c = [c]

theorem lt_of_urlSafe (h : c.isAlphanum = true ∨ c = '.' ∨ c = '-' ∨ c = '_') : c.toNat < 128 := by
  rcases h with h | rfl | rfl | rfl
  · have hranges : ((decide (c.val ≥ 'A'.val ∧ c.val ≤ 'Z'.val) ||
        (decide (c.val ≥ 'a'.val) && decide (c.val ≤ 'z'.val))) ||
        (decide (c.val ≥ '0'.val) && decide (c.val ≤ '9'.val))) = true := h
    simp only [Bool.or_eq_true, Bool.and_eq_true, decide_eq_true_eq, UInt32.le_iff_toNat_le,
      ge_iff_le] at hranges
    have hc : c.toNat = c.val.toNat := rfl
    have hupper : 'Z'.val.toNat = 90 := rfl
    have hlower : 'z'.val.toNat = 122 := rfl
    have hdigit : '9'.val.toNat = 57 := rfl
    omega
  all_goals decide

theorem isPlain_ascii : ∀ n < 128, ((Char.ofNat n).isAlphanum = true ∨ Char.ofNat n = '.' ∨
    Char.ofNat n = '-' ∨ Char.ofNat n = '_') →
    (Char.ofNat n != '\t' && Char.ofNat n != '\n' && Char.ofNat n != '\r') = true ∧
    (Char.ofNat n == '/' || Char.ofNat n == '\\') = false ∧
    (Char.ofNat n != '?' && Char.ofNat n != '#') = true ∧
    escape specialInPath (Char.ofNat n) = [Char.ofNat n] := by
  decide +kernel

theorem isPlain_of_urlSafe (h : c.isAlphanum = true ∨ c = '.' ∨ c = '-' ∨ c = '_') : IsPlain c := by
  have hplain := isPlain_ascii c.toNat (lt_of_urlSafe h)
  rw [Char.ofNat_toNat] at hplain
  obtain ⟨hkept, hdivision, hpath, hescape⟩ := hplain h
  exact ⟨hkept, hdivision, hpath, hescape⟩

/-- A segment longer than any detour is none. -/
theorem not_detour (h : 6 < name.length) : isAbove name = false ∧ isHere name = false := by
  have hlen : (String.ofList (name.map Char.toLower)).length = name.length := by simp
  have hne (detour : String) (hd : detour.length ≤ 6) :
      String.ofList (name.map Char.toLower) ≠ detour := by
    rintro rfl
    omega
  simp only [isAbove, isHere, List.contains_eq_mem, decide_eq_false_iff_not, List.mem_cons,
    List.not_mem_nil, or_false, not_or]
  exact ⟨⟨hne _ (by decide), hne _ (by decide), hne _ (by decide), hne _ (by decide)⟩,
    hne _ (by decide), hne _ (by decide)⟩

/-- The places on the way to a last segment that is no detour do not depend on it. -/
theorem withoutDetours_concat (segments sofar : List (List Char)) :
    ∃ places, ∀ last, isAbove last = false → isHere last = false →
      withoutDetours sofar (segments ++ [last]) = places ++ [last] := by
  induction segments generalizing sofar with
  | nil => exact ⟨sofar.reverse, fun last ha hh => by simp [withoutDetours, ha, hh]⟩
  | cons segment segments ih =>
    by_cases hplain : (!isAbove segment && !isHere segment) = true
    · obtain ⟨places, hplaces⟩ :=
        ih (segment :: if isAbove segment then sofar.drop 1 else sofar)
      refine ⟨places, fun last ha hh => ?_⟩
      rw [List.cons_append, withoutDetours, if_pos hplain, hplaces last ha hh]
    · obtain ⟨places, hplaces⟩ := ih (if isAbove segment then sofar.drop 1 else sofar)
      refine ⟨places, fun last ha hh => ?_⟩
      rw [List.cons_append, withoutDetours, if_neg hplain, if_neg (by simp), hplaces last ha hh]

/-- The path of a file in a directory; the directory ends with a slash. -/
theorem pathOf_file (front : List Char) (hplain : ∀ c ∈ name, IsPlain c)
    (hlong : 6 < name.length) :
    pathOf (front ++ ['/'] ++ name) = pathOf (front ++ ['/']) ++ String.ofList name := by
  have hdivide : name.splitOnP (fun c => c == '/' || c == '\\') = [name] :=
    List.splitOnP_eq_singleton fun c hc => (hplain c hc).no_division
  -- The path of the directory itself ends with an empty segment.
  obtain ⟨segments, hsegments⟩ : ∃ segments, ∀ last : List Char,
      last.splitOnP (fun c => c == '/' || c == '\\') = [last] →
      ((front ++ ['/'] ++ last).drop 1).splitOnP (fun c => c == '/' || c == '\\') =
        segments ++ [last] := by
    cases front with
    | nil => exact ⟨[], fun last hlast => by simpa using hlast⟩
    | cons c front =>
      refine ⟨front.splitOnP fun c => c == '/' || c == '\\', fun last hlast => ?_⟩
      have hdrop : (c :: front ++ ['/'] ++ last).drop 1 = front ++ '/' :: last := by simp
      rw [hdrop, List.splitOnP_append_cons _ _ (by decide), hlast]
  obtain ⟨places, hplaces⟩ := withoutDetours_concat segments []
  have hescape : name.flatMap (escape specialInPath) = name := by
    have hsame : name.map (escape specialInPath) = name.map fun c => [c] :=
      List.map_congr_left fun c hc => (hplain c hc).unescaped
    rw [List.flatMap_def, hsame, ← List.flatMap_def]
    simp
  have hempty := hsegments [] (List.splitOnP_eq_singleton (by simp))
  rw [List.append_nil] at hempty
  unfold pathOf
  dsimp only
  rw [hsegments name hdivide, hempty, hplaces name (not_detour hlong).1 (not_detour hlong).2,
    hplaces [] (by decide) (by decide), ← String.ofList_append]
  simp [hescape]

/-- The characters of a text that count in an address. -/
def kept (text : List Char) : List Char :=
  text.filter fun c => c != '\t' && c != '\n' && c != '\r'

/-- Whether a character may stand in the name of a server. -/
def inServer (c : Char) : Bool := c != '/' && c != '\\' && c != '?' && c != '#'

/-- A text names a server with what stands behind its scheme. -/
structure Serves (front server : List Char) : Prop where
  scheme : front.drop (front.takeWhile Char.isAlphanum).length = [':', '/', '/'] ++ server
  host : ((server.takeWhile inServer).takeWhile (· != ':')).isEmpty = false
  port : isPort ((server.takeWhile inServer).drop
    (((server.takeWhile inServer).takeWhile (· != ':')).length + 1)) = true

theorem takeWhile_slash {p : Char → Bool} (hp : p '/' = false) (front more : List Char) :
    (front ++ '/' :: more).takeWhile p = front.takeWhile p := by
  rw [List.takeWhile_append]
  split
  · next hall =>
    rw [List.takeWhile_cons_of_neg (by simp [hp]), List.append_nil,
      List.IsPrefix.eq_of_length (List.takeWhile_prefix p) hall]
  · rfl

/-- The steps by which a text with a slash in it is read. -/
theorem ofText_eq {t : String} (ht : kept t.toList = front ++ '/' :: more) :
    ofText t =
      match after? [':', '/', '/'] (front.drop (front.takeWhile Char.isAlphanum).length ++
        '/' :: more) with
      | none => .error .noScheme
      | some afterScheme =>
        let server := afterScheme.takeWhile inServer
        let host := server.takeWhile (· != ':')
        if host.isEmpty then .error .noHost
        else if !isPort (server.drop (host.length + 1)) then .error .badPort
        else .ok (ofOriginAndRest (front.takeWhile Char.isAlphanum ++ "://".toList ++ server)
          (afterScheme.drop server.length)) := by
  have hle := (List.takeWhile_prefix Char.isAlphanum (l := front)).length_le
  simp only [kept] at ht
  simp only [ofText, ht, takeWhile_slash (p := Char.isAlphanum) (by decide)]
  rw [List.drop_append_of_le_length hle]
  rfl

/-- The server is what it is, whatever follows the slash behind it. -/
theorem ofText_of_serves {t : String} (ht : kept t.toList = front ++ '/' :: more)
    (h : Serves front server) :
    ofText t = .ok (ofOriginAndRest
      (front.takeWhile Char.isAlphanum ++ "://".toList ++ server.takeWhile inServer)
      (server.drop (server.takeWhile inServer).length ++ ['/'] ++ more)) := by
  have hle := (List.takeWhile_prefix inServer (l := server)).length_le
  have hafter : after? [':', '/', '/'] (front.drop (front.takeWhile Char.isAlphanum).length ++
      '/' :: more) = some (server ++ '/' :: more) := by
    rw [after?_eq_some_iff, h.scheme, List.append_assoc]
  rw [ofText_eq ht, hafter]
  dsimp only
  rw [takeWhile_slash (p := inServer) (by decide), List.drop_append_of_le_length hle]
  simp [h.host, h.port]

theorem exists_serves {t : String} (ht : kept t.toList = front ++ ['/'])
    (h : ofText t = .ok directory) : ∃ server, Serves front server := by
  rw [ofText_eq ht] at h
  split at h
  · simp at h
  · next afterScheme hscheme =>
    dsimp only at h
    rcases List.eq_nil_or_concat afterScheme with rfl | ⟨server, c, rfl⟩
    · simp at h
    · rw [after?_eq_some_iff, List.concat_eq_append, ← List.append_assoc] at hscheme
      obtain ⟨hserver, hc⟩ := List.append_inj' hscheme rfl
      obtain rfl : '/' = c := by simpa using hc
      rw [List.concat_eq_append, takeWhile_slash (p := inServer) (by decide)] at h
      split at h
      · simp at h
      · next hhost =>
        split at h
        · simp at h
        · next hport => exact ⟨server, hserver, by simpa using hhost, by simpa using hport⟩

/-- What comes after a text that ends with a slash does not change the server. -/
theorem ofText_append {base : String} (h : ofText (base ++ "/") = .ok directory) :
    ∃ origin front, directory = ofOriginAndRest origin (front ++ ['/']) ∧
      ∀ more : String, ofText (base ++ "/" ++ more) =
        .ok (ofOriginAndRest origin (front ++ ['/'] ++ kept more.toList)) := by
  have hbase : kept (base ++ "/").toList = kept base.toList ++ ['/'] := by simp [kept]
  have hmore (more : String) :
      kept (base ++ "/" ++ more).toList = kept base.toList ++ '/' :: kept more.toList := by
    simp [kept]
  obtain ⟨server, hserves⟩ := exists_serves hbase h
  rw [ofText_of_serves hbase hserves, List.append_nil] at h
  exact ⟨_, _, (Except.ok.inj h).symm, fun more => ofText_of_serves (hmore more) hserves⟩

/-- A directory without query and fragment is all path behind its server. -/
theorem in_path_of_plain {rest : List Char} (hquery : (ofOriginAndRest origin rest).query = "")
    (hfragment : (ofOriginAndRest origin rest).fragment = "") :
    ∀ c ∈ rest, (c != '?' && c != '#') = true := by
  have hnil {text : List Char} (h : text.take 1 = []) : text = [] := by
    cases text <;> simp_all
  simp only [ofOriginAndRest, String.ofList_eq_empty_iff, List.append_eq_nil_iff] at hquery hfragment
  have hafter := hnil hquery.1
  rw [hafter, List.length_nil, List.drop_zero] at hfragment
  have hlen := List.drop_eq_nil_iff.mp (hnil hfragment.1)
  exact List.takeWhile_eq_self_iff.mp
    (List.IsPrefix.eq_of_length_le (List.takeWhile_prefix _) hlen)

theorem ofOriginAndRest_path {rest : List Char} (h : ∀ c ∈ rest, (c != '?' && c != '#') = true) :
    ofOriginAndRest origin rest = ⟨String.ofList origin, pathOf rest, "", ""⟩ := by
  simp [ofOriginAndRest, List.takeWhile_eq_self_iff.mpr h]

/-- What is relied on of the way in which a client reads addresses. -/
structure Locates (locate : String → Except Defect Address) : Prop where
  /-- Behind a text that ends with a slash, if it gives an address, anything may stand: the server is
  the same, and all that follows it is read as the rest of the address. -/
  onward {base : String} {directory : Address} (h : locate (base ++ "/") = .ok directory) :
    ∃ origin front, directory = ofOriginAndRest origin (front ++ ['/']) ∧
      ∀ more : String, locate (base ++ "/" ++ more) =
        .ok (ofOriginAndRest origin (front ++ ['/'] ++ kept more.toList))

theorem locates_ofText : Locates ofText := ⟨ofText_append⟩

/-- The address of a file in a directory without query and fragment. -/
theorem Locates.file {locate : String → Except Defect Address} (hl : Locates locate) {base : String}
    (h : locate (base ++ "/") = .ok directory) (hquery : directory.query = "")
    (hfragment : directory.fragment = "") {file : String} (hsafe : IsUrlSafe file.toList) (hlong : 6 < file.length) :
    locate (base ++ "/" ++ file) = .ok { directory with path := directory.path ++ file } := by
  obtain ⟨origin, front, rfl, hmore⟩ := hl.onward h
  have hplain : ∀ c ∈ file.toList, IsPlain c := fun c hc => isPlain_of_urlSafe (hsafe c hc)
  have hkept : kept file.toList = file.toList :=
    List.filter_eq_self.mpr fun c hc => (hplain c hc).kept
  have hfront := in_path_of_plain hquery hfragment
  have hpath : ∀ c ∈ front ++ ['/'] ++ file.toList, (c != '?' && c != '#') = true := by
    intro c hc
    rcases List.mem_append.mp hc with hc | hc
    · exact hfront c hc
    · exact (hplain c hc).in_path
  rw [hmore, hkept, ofOriginAndRest_path hpath, ofOriginAndRest_path hfront,
    pathOf_file front hplain (by rwa [String.length_toList]), String.ofList_toList]

end Address

end InterfaceIndex
