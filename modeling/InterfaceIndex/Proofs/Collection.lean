import InterfaceIndex.Collection
import InterfaceIndex.Proofs.Address
import InterfaceIndex.Proofs.Index
import InterfaceIndex.Proofs.Release.BrokenOff
import InterfaceIndex.Proofs.Release.Checksum
import Mathlib.Data.List.Dedup

/-! Collecting releases one after another: the first that fails ends the run, and otherwise the last
that knows an interface has the say. -/
namespace InterfaceIndex

variable {ρ : Type} [Reader ρ] {host : Host ρ} {endpoints : Endpoints} {index final found : Index}
  {version : String} {versions : List String} {problem : Problem}

/-- Indexes merged one after another into a first one. -/
def Index.mergeAll (found : String → Index) (index : Index) (versions : List String) : Index :=
  versions.foldl (fun index version => (index.merge (found version)).1) index

/-- The last of some releases that knows an interface gives its location. -/
theorem Index.find?_mergeAll (found : String → Index) (index : Index) (versions : List String)
    (i : Interface) : (index.mergeAll found versions).find? i =
      (versions.reverse.findSome? fun version => (found version).find? i).or (index.find? i) := by
  induction versions generalizing index with
  | nil => rfl
  | cons version versions ih =>
    have hrest := ih (index.merge (found version)).1
    rw [find?_merge] at hrest
    simp only [mergeAll, List.foldl_cons, List.reverse_cons, List.findSome?_append,
      List.findSome?_singleton] at hrest ⊢
    rw [hrest, Option.or_assoc]

/-- An occurrence that another one follows does not count for the last that answers. -/
theorem findSome?_reverse_dedup {α : Type} (f : String → Option α) (versions : List String) :
    versions.dedup.reverse.findSome? f = versions.reverse.findSome? f := by
  induction versions with
  | nil => rfl
  | cons version versions ih =>
    by_cases hmem : version ∈ versions
    · rw [List.dedup_cons_of_mem hmem, ih, List.reverse_cons, List.findSome?_append]
      cases hf : versions.reverse.findSome? f with
      | some a => rfl
      | none =>
        have hnone := List.findSome?_eq_none_iff.mp hf version (List.mem_reverse.mpr hmem)
        simp [hnone]
    · rw [List.dedup_cons_of_notMem hmem, List.reverse_cons, List.reverse_cons,
        List.findSome?_append, List.findSome?_append, ih]

/-- The index that a release brings, if it does not fail. -/
def foundBy (host : Host ρ) (endpoints : Endpoints) (version : String) : Index :=
  (Release.collect ⟨version, endpoints⟩ host).result.toOption.getD .empty

theorem foundBy_eq (h : (Release.collect ⟨version, endpoints⟩ host).result = .ok found) :
    foundBy host endpoints version = found := by
  rw [foundBy, h]
  rfl

/-- One step of a run that fails. -/
theorem collectInto_cons_error
    (h : (Release.collect ⟨version, endpoints⟩ host).result = .error problem) (index : Index)
    (versions : List String) :
    (collectInto host endpoints index (version :: versions)).result = .error problem ∧
      (collectInto host endpoints index (version :: versions)).requests =
        (Release.collect ⟨version, endpoints⟩ host).requests := by
  rw [collectInto]
  generalize Release.collect ⟨version, endpoints⟩ host = one at h
  obtain ⟨result, requests, events⟩ := one
  subst h
  exact ⟨rfl, rfl⟩

/-- One step of a run that goes on. -/
theorem collectInto_cons_ok (h : (Release.collect ⟨version, endpoints⟩ host).result = .ok found)
    (index : Index) (versions : List String) :
    (collectInto host endpoints index (version :: versions)).result =
        (collectInto host endpoints (index.merge found).1 versions).result ∧
      (collectInto host endpoints index (version :: versions)).requests =
        (Release.collect ⟨version, endpoints⟩ host).requests ++
          (collectInto host endpoints (index.merge found).1 versions).requests := by
  rw [collectInto]
  generalize Release.collect ⟨version, endpoints⟩ host = one at h
  obtain ⟨result, requests, events⟩ := one
  subst h
  exact ⟨rfl, rfl⟩

/-- A run succeeds when every release does, and then merges what they bring. -/
theorem collectInto_eq_ok_iff : (collectInto host endpoints index versions).result = .ok final ↔
    (∀ version ∈ versions, (Release.collect ⟨version, endpoints⟩ host).result =
      .ok (foundBy host endpoints version)) ∧
    final = index.mergeAll (foundBy host endpoints) versions := by
  induction versions generalizing index with
  | nil => simp [collectInto, Index.mergeAll, eq_comm]
  | cons version versions ih =>
    cases hone : (Release.collect ⟨version, endpoints⟩ host).result with
    | error problem => simp [(collectInto_cons_error hone index versions).1, hone]
    | ok found =>
      rw [(collectInto_cons_ok hone index versions).1, ih]
      simp [hone, foundBy_eq hone, Index.mergeAll]

/-- A run that succeeds has asked for every release once, in order. -/
theorem requests_collectInto (index : Index) (h : ∀ version ∈ versions,
    (Release.collect ⟨version, endpoints⟩ host).result = .ok (foundBy host endpoints version)) :
    (collectInto host endpoints index versions).requests =
      versions.flatMap fun version => (Release.collect ⟨version, endpoints⟩ host).requests := by
  induction versions generalizing index with
  | nil => rfl
  | cons version versions ih =>
    have hothers := ih (index.merge (foundBy host endpoints version)).1
      fun v hv => h v (List.mem_cons_of_mem _ hv)
    rw [(collectInto_cons_ok (h version List.mem_cons_self) index versions).2, hothers,
      List.flatMap_cons]

/-- The first release that fails ends the run. -/
theorem collectInto_failed (index : Index) {before : List String} (hbefore : ∀ version ∈ before,
    (Release.collect ⟨version, endpoints⟩ host).result = .ok (foundBy host endpoints version))
    (h : (Release.collect ⟨version, endpoints⟩ host).result = .error problem)
    (after : List String) :
    (collectInto host endpoints index (before ++ version :: after)).result = .error problem ∧
      (collectInto host endpoints index (before ++ version :: after)).requests =
        (before ++ [version]).flatMap fun v =>
          (Release.collect ⟨v, endpoints⟩ host).requests := by
  induction before generalizing index with
  | nil =>
    obtain ⟨hresult, hrequests⟩ := collectInto_cons_error h index after
    exact ⟨hresult, by simpa using hrequests⟩
  | cons v before ih =>
    obtain ⟨hresult, hrequests⟩ := collectInto_cons_ok (hbefore v List.mem_cons_self) index
      (before ++ version :: after)
    obtain ⟨hothers, hmore⟩ := ih (index.merge (foundBy host endpoints v)).1
      fun w hw => hbefore w (List.mem_cons_of_mem _ hw)
    rw [List.cons_append, hresult, hrequests, hothers, hmore]
    simp

/-- The last release of a run that knows an interface has the say. -/
theorem find?_collect (h : (collect host endpoints versions).result = .ok index) (i : Interface)
    (place : Location) : index.find? i = some place ↔ ∃ before version after,
      versions = before ++ version :: after ∧
      (foundBy host endpoints version).find? i = some place ∧
      ∀ v ∈ after, (foundBy host endpoints v).find? i = none := by
  obtain ⟨-, rfl⟩ := collectInto_eq_ok_iff.mp h
  rw [Index.find?_mergeAll, Index.find?_empty, Option.or_none, findSome?_reverse_eq_some_iff]

/-- Two runs that succeed, one after the other, make a run whose index is their merge. -/
theorem collect_append {first second : List String} {a b : Index}
    (ha : (collect host endpoints first).result = .ok a)
    (hb : (collect host endpoints second).result = .ok b) :
    (collect host endpoints (first ++ second)).result = .ok (a.merge b).1 := by
  obtain ⟨hfirst, rfl⟩ := collectInto_eq_ok_iff.mp ha
  obtain ⟨hsecond, rfl⟩ := collectInto_eq_ok_iff.mp hb
  refine collectInto_eq_ok_iff.mpr ⟨?_, ?_⟩
  · intro v hv
    rcases List.mem_append.mp hv with hv | hv
    · exact hfirst v hv
    · exact hsecond v hv
  · apply Index.ext_find?
    intro i
    simp [Index.find?_merge, Index.find?_mergeAll, List.findSome?_append]

/-- Of equal releases only the last one counts. -/
theorem collect_dedup : (collect host endpoints versions.dedup).result = .ok index ↔
    (collect host endpoints versions).result = .ok index := by
  have hsame : Index.empty.mergeAll (foundBy host endpoints) versions.dedup =
      Index.empty.mergeAll (foundBy host endpoints) versions := by
    apply Index.ext_find?
    intro i
    rw [Index.find?_mergeAll, Index.find?_mergeAll, findSome?_reverse_dedup]
  unfold collect
  simp only [collectInto_eq_ok_iff, List.mem_dedup, hsame]

/-- A host that answers every request, by a table of statuses and bodies. -/
def Host.ofTable (locate : String → Except Address.Defect Address) (table : Address → Nat × ρ) :
    Host ρ where
  locate := locate
  reply address := .answered (table address).1 (table address).2

namespace Release

variable {r : Release} {locate : String → Except Address.Defect Address}
  {table : Address → Nat × ρ} {request : Address}

/-- What a release comes to by the reply to its request. -/
def answer (r : Release) (reply : Nat × ρ) : Except Problem Index :=
  if 200 ≤ reply.1 ∧ reply.1 ≤ 299 then (r.scanArchive reply.2).result
  else .error (.refused (r.endpoints.archiveAddress r.version) reply.1)

/-- A release makes one request, and its reply decides. -/
theorem collect_ofTable (h : locate (r.endpoints.archiveAddress r.version) = .ok request)
    (table : Address → Nat × ρ) :
    (r.collect (.ofTable locate table)).result = r.answer (table request) ∧
      (r.collect (.ofTable locate table)).requests = [request] := by
  have hsuccess : isSuccess (table request).1 = true ↔
      200 ≤ (table request).1 ∧ (table request).1 ≤ 299 := by
    simp only [isSuccess, Bool.and_eq_true, decide_eq_true_eq]
    omega
  simp only [collect, h, Host.ofTable, answer, hsuccess]
  split <;> exact ⟨rfl, rfl⟩

end Release

/-- The download address of endpoints leads to a directory. -/
def Endpoints.ServedFrom (endpoints : Endpoints) (locate : String → Except Address.Defect Address)
    (directory : Address) : Prop :=
  locate (Endpoints.trimSlashes endpoints.downloadUrl ++ "/") = .ok directory

/-- Every release has a request of its own in the directory. -/
theorem Endpoints.ServedFrom.exists_request {locate : String → Except Address.Defect Address}
    {directory : Address} (h : endpoints.ServedFrom locate directory) (hl : Address.Locates locate) :
    ∃ request : String → Address,
      (∀ version, locate (endpoints.archiveAddress version) = .ok (request version)) ∧
      (directory.query = "" → directory.fragment = "" → ∀ version, IsUrlSafe version.toList →
        request version =
          { directory with path := directory.path ++ "go" ++ version ++ ".src.tar.gz" }) := by
  have haddress (version : String) : endpoints.archiveAddress version =
      Endpoints.trimSlashes endpoints.downloadUrl ++ "/" ++ ("go" ++ version ++ ".src.tar.gz") := by
    rw [← String.toList_inj]
    simp [Endpoints.archiveAddress]
  obtain ⟨origin, front, -, hmore⟩ := hl.onward h
  refine ⟨_, fun version => haddress version ▸ hmore _, ?_⟩
  intro hquery hfragment version hsafe
  have hname : IsUrlSafe ("go" ++ version ++ ".src.tar.gz").toList := by
    have hstart : IsUrlSafe "go".toList := by decide
    have hend : IsUrlSafe ".src.tar.gz".toList := by decide
    rw [String.toList_append, String.toList_append]
    exact isUrlSafe_append.mpr ⟨isUrlSafe_append.mpr ⟨hstart, hsafe⟩, hend⟩
  have hlong : 6 < ("go" ++ version ++ ".src.tar.gz").length := by
    have hend : ".src.tar.gz".length = 11 := by decide
    simp only [String.length_append]
    omega
  have hfile := hl.file h hquery hfragment hname hlong
  rw [hmore] at hfile
  rw [Except.ok.inj hfile]
  simp [String.append_assoc]

/-- Collecting from a host that answers every request, however the client reads addresses. A release
fails by a status that is no success or by its archive; the first that does ends the run with its
problem, and nothing is asked for after it. Otherwise each release is asked for once, in order, and the
last of them that has an interface gives its location. So runs one after another merge, and only the
last of equal releases counts. -/
theorem collect_inOrder {locate : String → Except Address.Defect Address}
    (hl : Address.Locates locate) {directory : Address} (h : endpoints.ServedFrom locate directory)
    (table : Address → Nat × ρ) :
    ∃ request : String → Address,
      (∀ version, locate (endpoints.archiveAddress version) = .ok (request version)) ∧
      (directory.query = "" → directory.fragment = "" → ∀ version, IsUrlSafe version.toList →
        request version =
          { directory with path := directory.path ++ "go" ++ version ++ ".src.tar.gz" }) ∧
      (∀ before version after problem,
        (∀ v ∈ before, ∃ found, Release.answer ⟨v, endpoints⟩ (table (request v)) = .ok found) →
        Release.answer ⟨version, endpoints⟩ (table (request version)) = .error problem →
        (collect (.ofTable locate table) endpoints (before ++ version :: after)).result = .error problem ∧
        (collect (.ofTable locate table) endpoints (before ++ version :: after)).requests =
          (before ++ [version]).map request) ∧
      (∀ versions,
        (∀ v ∈ versions, ∃ found, Release.answer ⟨v, endpoints⟩ (table (request v)) = .ok found) →
        ∃ index, (collect (.ofTable locate table) endpoints versions).result = .ok index ∧
          (collect (.ofTable locate table) endpoints versions).requests = versions.map request ∧
          ∀ i place, index.find? i = some place ↔ ∃ before version after found,
            versions = before ++ version :: after ∧
            Release.answer ⟨version, endpoints⟩ (table (request version)) = .ok found ∧
            found.find? i = some place ∧
            ∀ v ∈ after, ∀ later, Release.answer ⟨v, endpoints⟩ (table (request v)) = .ok later →
              later.find? i = none) ∧
      (∀ first second a b, (collect (.ofTable locate table) endpoints first).result = .ok a →
        (collect (.ofTable locate table) endpoints second).result = .ok b →
        (collect (.ofTable locate table) endpoints (first ++ second)).result = .ok (a.merge b).1) ∧
      ∀ versions index, (collect (.ofTable locate table) endpoints versions.dedup).result = .ok index ↔
        (collect (.ofTable locate table) endpoints versions).result = .ok index := by
  obtain ⟨request, hrequest, hplain⟩ := h.exists_request hl
  have hone (v : String) := Release.collect_ofTable (r := ⟨v, endpoints⟩) (hrequest v) table
  have hfound {v : String} {index : Index}
      (hv : Release.answer ⟨v, endpoints⟩ (table (request v)) = .ok index) :
      foundBy (.ofTable locate table) endpoints v = index := foundBy_eq ((hone v).1.trans hv)
  have hall {versions : List String}
      (hv : ∀ v ∈ versions, ∃ found, Release.answer ⟨v, endpoints⟩ (table (request v)) = .ok found) :
      ∀ v ∈ versions, (Release.collect ⟨v, endpoints⟩ (.ofTable locate table)).result =
        .ok (foundBy (.ofTable locate table) endpoints v) := by
    intro v hmem
    obtain ⟨index, hindex⟩ := hv v hmem
    rw [(hone v).1, hindex, hfound hindex]
  have hrequests (versions : List String) : (versions.flatMap fun v =>
      (Release.collect ⟨v, endpoints⟩ (.ofTable locate table)).requests) = versions.map request := by
    simp only [(hone _).2, List.map_eq_flatMap]
  refine ⟨request, hrequest, hplain, ?_, ?_, ?_, ?_⟩
  · intro before version after problem hbefore hfail
    have hrun := collectInto_failed .empty (hall hbefore)
      ((hone version).1.trans hfail) after
    rw [hrequests] at hrun
    exact hrun
  · intro versions hv
    have hindex : (collect (.ofTable locate table) endpoints versions).result =
        .ok (Index.empty.mergeAll (foundBy (.ofTable locate table) endpoints) versions) :=
      collectInto_eq_ok_iff.mpr ⟨hall hv, rfl⟩
    refine ⟨_, hindex, (requests_collectInto .empty (hall hv)).trans (hrequests versions), ?_⟩
    intro i place
    rw [find?_collect hindex]
    constructor
    · rintro ⟨before, version, after, rfl, hplace, hafter⟩
      obtain ⟨found, hok⟩ := hv version (by simp)
      refine ⟨before, version, after, found, rfl, hok, hfound hok ▸ hplace, ?_⟩
      intro v hmem later hlater
      exact hfound hlater ▸ hafter v hmem
    · rintro ⟨before, version, after, found, rfl, hok, hplace, hafter⟩
      refine ⟨before, version, after, rfl, (hfound hok).symm ▸ hplace, ?_⟩
      intro v hmem
      obtain ⟨later, hlater⟩ := hv v (by simp [hmem])
      exact (hfound hlater).symm ▸ hafter v hmem later hlater
  · intro first second a b ha hb
    exact collect_append ha hb
  · intro versions index
    exact collect_dedup

/-- A directory on this machine. -/
def localEndpoints : Endpoints := { downloadUrl := "http://127.0.0.1:40000/golang/" }

theorem served_localEndpoints :
    localEndpoints.ServedFrom Address.ofText ⟨"http://127.0.0.1:40000", "/golang/", "", ""⟩ := by
  unfold Endpoints.ServedFrom
  rfl

/-- Every archive is empty, but one release is not there. -/
def oneMissing (address : Address) : Nat × Source :=
  if address.path = "/golang/go1.18.src.tar.gz" then (503, .ofSchedule [] [] fun _ => 1)
  else (200, .ofSchedule ReleaseArchive.emptyMember [] fun _ => 7)

/-- A file in which an interface has moved to another line, and one more is declared. -/
def movedFile : Tar.StoredFile :=
  .short "go/src/io/pipe.go" (Utf8.encode "\ntype R interface \x7b\ntype W interface \x7b\n") (by decide)
    (by decide)

/-- The archive of one release has one file, and that of any other has the other. -/
def twoReleases (address : Address) : Nat × Source :=
  let file := if address.path = "/golang/go1.18.src.tar.gz" then Release.readerFile else movedFile
  (200, .ofSchedule (Gzip.stored (Tar.archiveOf [file])) [] fun p => p + 2)

/-- What a release has if its archive consists of one file. -/
def Release.indexOfOne (r : Release) (file : Tar.StoredFile) : Index :=
  .ofDeclarations ((Tar.walk (Tar.archiveOf [file]) (packageRoot r.version)).files.flatMap
    r.declaredBySource)

theorem Release.answer_one (r : Release) (file : Tar.StoredFile) :
    r.answer (200, Source.ofSchedule (Gzip.stored (Tar.archiveOf [file])) [] fun p => p + 2) =
      .ok (r.indexOfOne file) := by
  have hm := Gzip.Members.single (Gzip.member_stored (Tar.archiveOf [file]))
  have hgz : Gzip.stored (Tar.archiveOf [file]) ≠ [] := by simp [Gzip.stored, Gzip.plainHeader]
  have hsuccess : 200 ≤ 200 ∧ 200 ≤ 299 := by decide
  rw [answer, if_pos hsuccess]
  exact (r.scanArchive_payload hm hgz (Nat.le_refl 2)).1

/-- A run in which one release fails, and one over two releases that share an interface. -/
theorem collect_inOrder_missing :
    localEndpoints.ServedFrom Address.ofText ⟨"http://127.0.0.1:40000", "/golang/", "", ""⟩ ∧
    ((collect (.ofTable Address.ofText oneMissing) localEndpoints ["1.17", "1.18", "1.19"]).result =
        .error (.refused "http://127.0.0.1:40000/golang/go1.18.src.tar.gz" 503) ∧
      (collect (.ofTable Address.ofText oneMissing) localEndpoints ["1.17", "1.18", "1.19"]).requests.map (·.path) =
        ["/golang/go1.17.src.tar.gz", "/golang/go1.18.src.tar.gz"]) ∧
    ∃ index, (collect (.ofTable Address.ofText twoReleases) localEndpoints ["1.18", "1.19"]).result = .ok index ∧
      (collect (.ofTable Address.ofText twoReleases) localEndpoints ["1.18", "1.19"]).requests.map (·.path) =
        ["/golang/go1.18.src.tar.gz", "/golang/go1.19.src.tar.gz"] ∧
      index.find? ⟨"R", "io"⟩ = some ⟨"1.19", "src/io/pipe.go", 2,
        "https://github.com/golang/go/blob/go1.19/src/io/pipe.go#L2"⟩ := by
  refine ⟨served_localEndpoints, ?_, ?_⟩
  · obtain ⟨request, -, hplain, hfail, -⟩ := collect_inOrder Address.locates_ofText served_localEndpoints oneMissing
    have hfirst := hplain rfl rfl "1.17" (by decide)
    have hsecond := hplain rfl rfl "1.18" (by decide)
    have hfound : Release.answer ⟨"1.17", localEndpoints⟩ (oneMissing (request "1.17")) =
        .ok .empty := by
      rw [hfirst]
      decide +kernel
    obtain ⟨hresult, hrequests⟩ := hfail ["1.17"] "1.18" ["1.19"]
      (.refused "http://127.0.0.1:40000/golang/go1.18.src.tar.gz" 503)
      (by simp [hfound]) (by rw [hsecond]; decide +kernel)
    refine ⟨hresult, ?_⟩
    rw [List.cons_append, List.nil_append] at hrequests
    rw [hrequests]
    simp [hfirst, hsecond]
  · obtain ⟨request, -, hplain, -, hall, -⟩ := collect_inOrder Address.locates_ofText served_localEndpoints twoReleases
    have hfirst := hplain rfl rfl "1.18" (by decide)
    have hsecond := hplain rfl rfl "1.19" (by decide)
    have hearlier : Release.answer ⟨"1.18", localEndpoints⟩ (twoReleases (request "1.18")) =
        .ok (Release.indexOfOne ⟨"1.18", localEndpoints⟩ Release.readerFile) := by
      rw [hfirst]
      exact Release.answer_one _ _
    have hlater : Release.answer ⟨"1.19", localEndpoints⟩ (twoReleases (request "1.19")) =
        .ok (Release.indexOfOne ⟨"1.19", localEndpoints⟩ movedFile) := by
      rw [hsecond]
      exact Release.answer_one _ _
    obtain ⟨index, hresult, hrequests, hfind⟩ := hall ["1.18", "1.19"] (by simp [hearlier, hlater])
    refine ⟨index, hresult, ?_, (hfind _ _).mpr ⟨["1.18"], "1.19", [], _, rfl, hlater, ?_, by simp⟩⟩
    · rw [hrequests]
      simp [hfirst, hsecond]
    · decide +kernel

end InterfaceIndex
