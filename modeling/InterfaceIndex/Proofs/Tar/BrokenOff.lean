import InterfaceIndex.Proofs.Tar.Payload
import InterfaceIndex.Proofs.Tar.Entries

/-! The walk over a payload that breaks off, in the middle of a file or at a header in disorder. -/
namespace InterfaceIndex.Tar

variable {payload ahead rest : List UInt8} {root : String} {notes : Notes} {position size q k : Nat}
  {h : Header} {file : StoredFile} {files : List StoredFile}

/-- The files at the front of an archive cut after so many bytes: those whose headers have not been
cut, each with as much of its content as there is. -/
def frontOf : List StoredFile → Nat → List (String × List UInt8)
  | [], _ => []
  | file :: files, cut =>
    if cut < file.front.length then []
    else (file.name, file.content.take (cut - file.front.length)) ::
      frontOf files (cut - file.bytes.length)

/-- Behind the last file nothing is cut. -/
theorem frontOf_whole (hle : extentOf files ≤ q) :
    frontOf files q = files.map fun file => (file.name, file.content) := by
  induction files generalizing q with
  | nil => rfl
  | cons file files ih =>
    have hbytes : file.front.length + file.content.length ≤ file.bytes.length := by
      simp only [StoredFile.bytes, List.length_append]
      omega
    rw [extentOf_cons] at hle
    rw [frontOf, if_neg (by omega), List.take_of_length_le (by omega), ih (by omega)]
    rfl

/-- A part of an archive as a source file, if its name is that of one. -/
def packed? (root : String) (part : String × List UInt8) : Option PackedFile :=
  (SourceFile.select? part.1 root).map fun file => ⟨file, part.2⟩

/-- A header that is no block of zeros, and whose sum cannot be read or is wrong. -/
structure Header.InDisorder (h : Header) : Prop where
  whole : h.block.length = blockSize
  not_zero : h.block.all (· == 0) = false
  sum : ∀ stated, h.statedSum = .ok stated → stated ≠ h.actualSum

/-- Its sum is not the one it states, if it states any. -/
theorem Header.InDisorder.checked (hh : h.InDisorder) (records : Option (List UInt8))
    (position : Nat) : ∃ f, Tar.checked h records position = .error f := by
  unfold Tar.checked
  cases hstated : h.statedSum with
  | error f => exact ⟨f, rfl⟩
  | ok stated =>
    dsimp only [bind, Except.bind]
    rw [if_neg (hh.sum stated hstated)]
    exact ⟨_, rfl⟩

theorem headerAt_eq (hwhole : h.block.length = blockSize) (hzero : h.block.all (· == 0) = false)
    (hdrop : payload.drop position = h.block ++ ahead) :
    headerAt payload position = .ok (some h) := by
  have hblock : 0 < blockSize := by decide
  have hlen := congrArg List.length hdrop
  simp only [List.length_drop, List.length_append] at hlen
  have htake : (payload.drop position).take blockSize = h.block := by
    rw [hdrop, ← hwhole, List.take_left]
  have hne : h.block.isEmpty = false := by
    cases hb : h.block with
    | nil => simp [hb, blockSize] at hwhole
    | cons => rfl
  have hat : blockAt payload position = .ok (some h.block) := by
    unfold blockAt
    dsimp only
    rw [htake, hne, if_neg (by simp), if_neg (by omega)]
  unfold headerAt
  rw [if_neg (by omega), hat]
  dsimp only [Option.bind_some]
  rw [Header.ofBlock?, hzero]
  rfl

/-- There is no header where a block is cut. -/
theorem headerAt_cut (hlen : (payload.drop position).length < blockSize) :
    headerAt payload position ≠ .ok (some h) := by
  intro hh
  have hwhole := headerAt_some hh
  rw [List.length_drop] at hlen
  omega

/-- There is none among zeros. -/
theorem headerAt_zeros (hzeros : ∀ b ∈ payload.drop position, b = 0) :
    headerAt payload position ≠ .ok (some h) := by
  intro hh
  have hall : ((payload.drop position).take blockSize).all (· == 0) = true := by
    rw [List.all_eq_true]
    intro b hb
    rw [hzeros b (List.mem_of_mem_take hb)]
    rfl
  unfold headerAt blockAt at hh
  split at hh
  · simp at hh
  · dsimp only at hh
    split at hh
    · simp at hh
    · next hat =>
      split at hat
      · obtain rfl := Except.ok.inj hat
        simp at hh
      · split at hat
        · simp at hat
        · obtain rfl := Except.ok.inj hat
          simp [Header.ofBlock?, hall] at hh

/-- Where there is no header, a walk finds no further files. -/
theorem walkWithin_none (hnone : ∀ h, headerAt payload position ≠ .ok (some h)) :
    (walkWithin payload root k notes position).files = [] := by
  cases k with
  | zero => rfl
  | succ k =>
    rw [walkWithin]
    cases hh : headerAt payload position with
    | error f => rfl
    | ok header =>
      cases header with
      | none =>
        dsimp only
        split <;> rfl
      | some header => exact (hnone header hh).elim

theorem contentAt_ahead (hwhole : h.block.length = blockSize)
    (hdrop : payload.drop position = h.block ++ ahead) (size : Nat) :
    contentAt payload (position + blockSize) size = ahead.take size := by
  rw [contentAt, ← List.drop_drop, hdrop, List.drop_left' hwhole]

theorem Enough.exists_succ (henough : Enough payload k position) : ∃ n, k = n + 1 :=
  Nat.exists_eq_succ_of_ne_zero (Nat.ne_of_gt henough.1)

/-- What a payload has behind a part of it that may be cut. -/
theorem drop_behind {front : List UInt8} (hdrop : payload.drop position = (front ++ rest).take q) :
    payload.drop (position + front.length) = rest.take (q - front.length) := by
  rw [← List.drop_drop, hdrop, List.drop_take, List.drop_left]

/-- A header that has not been cut is there whole. -/
theorem drop_header (hwhole : h.block.length = blockSize) (hle : blockSize ≤ q)
    (hdrop : payload.drop position = (h.block ++ rest).take q) :
    payload.drop position = h.block ++ rest.take (q - blockSize) := by
  rw [hdrop, List.take_append, List.take_of_length_le (hwhole ▸ hle), hwhole]

/-- Where the header is cut, a walk finds no further files. -/
theorem walkWithin_cut (hlt : q < blockSize) (hdrop : payload.drop position = rest.take q) :
    (walkWithin payload root k notes position).files = [] := by
  apply walkWithin_none
  intro h
  apply headerAt_cut
  rw [hdrop, List.length_take]
  omega

/-- A walk meets the file that a header describes, with as much of its content as there is. -/
theorem walkWithin_regular {name : String} {content : List UInt8} (root : String)
    (hs : h.States content.length) (hr : h.IsRegular) (hpath : notes.path h = Utf8.encode name)
    (hrecords : notes.records = none)
    (hdrop : payload.drop position = (h.block ++ (content ++ rest)).take q) (hle : blockSize ≤ q)
    (hfits : position + blockSize + padded content.length < UInt64.size)
    (henough : Enough payload k position) :
    ∃ n, Enough payload n (position + blockSize + padded content.length) ∧
      walkWithin payload root k notes position =
        (walkWithin payload root n {} (position + blockSize + padded content.length)).meet
          (SourceFile.select? name root) (content.take (q - blockSize)) := by
  obtain ⟨n, rfl⟩ := henough.exists_succ
  have hahead := drop_header hs.whole hle hdrop
  have hheader := headerAt_eq hs.whole hs.not_zero hahead
  have hchecked := checked_eq hs hfits
  rw [← hrecords] at hchecked
  have hcontent : (payload.drop (position + blockSize)).take content.length =
      content.take (q - blockSize) := by
    rw [← contentAt, contentAt_ahead hs.whole hahead, List.take_take, Nat.min_comm,
      ← List.take_take, List.take_left]
  refine ⟨n, henough.next hheader hchecked, ?_⟩
  simp only [walkWithin, hheader, hchecked, hr.role, if_true, partsAt_data hr.not_sparse,
    spread_data, hcontent, hpath, Utf8.decodeLossy_encode]

/-- A walk goes on behind a member that announces a name. -/
theorem walkWithin_announced {text : List UInt8} (ha : h.AnnouncesName) (hs : h.States text.length)
    (hdrop : payload.drop position = (h.block ++ (text ++ rest)).take q) (hle : blockSize ≤ q)
    (hfits : position + blockSize + padded text.length < UInt64.size)
    (henough : Enough payload k position) :
    ∃ n, Enough payload n (position + blockSize + padded text.length) ∧
      walkWithin payload root k {} position =
        walkWithin payload root n { longName := some (text.take (q - blockSize)) }
          (position + blockSize + padded text.length) := by
  obtain ⟨n, rfl⟩ := henough.exists_succ
  have hahead := drop_header hs.whole hle hdrop
  have hheader := headerAt_eq hs.whole hs.not_zero hahead
  have hchecked := checked_eq hs hfits
  have htext : contentAt payload (position + blockSize) text.length = text.take (q - blockSize) := by
    rw [contentAt_ahead hs.whole hahead, List.take_take, Nat.min_comm, ← List.take_take,
      List.take_left]
  refine ⟨n, henough.next hheader hchecked, ?_⟩
  simp only [walkWithin, hheader, hchecked, ha.role, reduceCtorEq, if_false, Notes.repeated,
    Option.map_none, Notes.add, htext]

/-- A walk stops at a file whose name is announced if its headers have been cut, and meets it
otherwise. -/
theorem walkWithin_long {l h : Header} {name : String} {text content : List UInt8} (root : String)
    (announces : l.AnnouncesName)
    (names : 0 ∉ Utf8.encode name ∧ (text = Utf8.encode name ∨ text = Utf8.encode name ++ [0]))
    (described : l.States text.length) (states : h.States content.length) (regular : h.IsRegular)
    (hdrop : payload.drop position =
      (l.block ++ (text ++ (padding text ++ (h.block ++ (content ++ rest))))).take q)
    (hfits : position + blockSize + padded text.length + blockSize + padded content.length <
      UInt64.size) (henough : Enough payload k position) :
    (q < blockSize + padded text.length + blockSize →
      (walkWithin payload root k {} position).files = []) ∧
    (blockSize + padded text.length + blockSize ≤ q → ∃ n,
      Enough payload n
        (position + blockSize + padded text.length + blockSize + padded content.length) ∧
      walkWithin payload root k {} position =
        (walkWithin payload root n {}
          (position + blockSize + padded text.length + blockSize + padded content.length)).meet
            (SourceFile.select? name root)
            (content.take (q - (blockSize + padded text.length + blockSize)))) := by
  -- The header of the file stands behind the member that announces its name.
  have hlead : (l.block ++ (text ++ padding text)).length = blockSize + padded text.length := by
    rw [List.length_append, List.length_append, described.whole, length_padded]
  have hbehind : payload.drop (position + blockSize + padded text.length) =
      (h.block ++ (content ++ rest)).take (q - (blockSize + padded text.length)) := by
    rw [Nat.add_assoc, ← hlead]
    apply drop_behind
    simpa only [List.append_assoc] using hdrop
  by_cases hcut : q < blockSize
  · refine ⟨fun _ => walkWithin_cut hcut hdrop, fun hle => ?_⟩
    omega
  obtain ⟨n, hmore, hwalk⟩ := walkWithin_announced announces described hdrop
    (Nat.le_of_not_lt hcut) (by omega) henough
  rw [hwalk]
  constructor
  · intro hlt
    have hblock : 0 < blockSize := by decide
    exact walkWithin_cut (by omega) hbehind
  · intro hle
    have htext : text.take (q - blockSize) = text := by
      apply List.take_of_length_le
      have := le_padded text.length
      omega
    have hpath : Notes.path { longName := some text } h = Utf8.encode name :=
      Notes.path_announced names
    rw [htext, ← Nat.sub_sub]
    exact walkWithin_regular root states regular hpath rfl hbehind (by omega) (by omega) hmore

theorem StoredFile.length_bytes (file : StoredFile) :
    file.bytes.length = file.front.length + padded file.content.length := by
  have := length_padded file.content
  simp only [bytes, List.length_append]
  omega

/-- A walk stops at a file whose headers have been cut, and meets any other. -/
theorem walkWithin_file (root : String)
    (hdrop : payload.drop position = (file.bytes ++ rest).take q)
    (hfits : position + file.bytes.length < UInt64.size) (henough : Enough payload k position) :
    (q < file.front.length → (walkWithin payload root k {} position).files = []) ∧
    (file.front.length ≤ q → ∃ n, Enough payload n (position + file.bytes.length) ∧
      walkWithin payload root k {} position =
        (walkWithin payload root n {} (position + file.bytes.length)).meet
          (SourceFile.select? file.name root) (file.content.take (q - file.front.length))) := by
  rw [file.length_bytes] at hfits ⊢
  obtain ⟨name, front, content, heads⟩ := file
  simp only [StoredFile.bytes, List.append_assoc] at hdrop
  cases heads with
  | short states regular names =>
    rename_i h
    have hwhole : h.block.length = blockSize := states.whole
    have hpath : Notes.path {} h = Utf8.encode name := names.name_eq
    dsimp only at hfits ⊢
    rw [hwhole, ← Nat.add_assoc] at hfits ⊢
    constructor
    · intro hlt
      exact walkWithin_cut hlt hdrop
    · intro hle
      exact walkWithin_regular root states regular hpath rfl hdrop hle hfits henough
  | long announces names described states regular =>
    rename_i l h text
    have hfront : (l.block ++ (text ++ (padding text ++ h.block))).length =
        blockSize + padded text.length + blockSize := by
      simp only [List.length_append, described.whole, states.whole, ← length_padded]
      omega
    simp only [List.append_assoc] at hdrop
    dsimp only at hfits ⊢
    rw [hfront] at hfits ⊢
    simp only [← Nat.add_assoc] at hfits ⊢
    exact walkWithin_long root announces names described states regular hdrop hfits henough

/-- A walk over files, which may be cut, meets those at the front, and then what comes behind them.
The induction is on the files; nothing is behind one that has been cut. -/
theorem walkWithin_files (root : String)
    (hdrop : payload.drop position = (files.flatMap StoredFile.bytes ++ rest).take q)
    (hfits : position + extentOf files < UInt64.size) (henough : Enough payload k position) :
    ∃ n, Enough payload n (position + extentOf files) ∧
      (walkWithin payload root k {} position).files =
        ((frontOf files q).flatMap fun part => (packed? root part).toList) ++
          (walkWithin payload root n {} (position + extentOf files)).files ∧
      (extentOf files ≤ q → (walkWithin payload root k {} position).fault =
        (walkWithin payload root n {} (position + extentOf files)).fault) := by
  induction files generalizing position q k with
  | nil => exact ⟨k, henough, by simp [frontOf], fun _ => rfl⟩
  | cons file files ih =>
    rw [extentOf_cons] at hfits ⊢
    rw [← Nat.add_assoc] at hfits ⊢
    rw [List.flatMap_cons, List.append_assoc] at hdrop
    have hbytes := file.length_bytes
    obtain ⟨hcut, hmet⟩ := walkWithin_file root hdrop (by omega) henough
    have hbehind := drop_behind hdrop
    rw [frontOf]
    by_cases hlt : q < file.front.length
    · have hnothing : payload.drop (position + file.bytes.length + extentOf files) = rest.take 0 := by
        rw [← List.drop_drop, hbehind, Nat.sub_eq_zero_of_le (by omega), List.take_zero,
          List.drop_nil, List.take_zero]
      have hlen := List.drop_eq_nil_iff.mp (hnothing.trans List.take_zero)
      refine ⟨1, ⟨Nat.one_pos, by omega⟩, ?_, fun hle => by omega⟩
      rw [hcut hlt, walkWithin_cut (by decide) hnothing, if_pos hlt]
      rfl
    · obtain ⟨n, hmore, hwalk⟩ := hmet (Nat.le_of_not_lt hlt)
      obtain ⟨n', hothers, hfiles, hfault⟩ := ih hbehind hfits hmore
      refine ⟨n', hothers, ?_, ?_⟩
      · rw [hwalk, if_neg hlt, Walk.meet, hfiles, List.flatMap_cons, List.append_assoc]
        rfl
      · intro hle
        rw [hwalk, Walk.meet, hfault (by omega)]

/-- The source files of an archive that has been cut. -/
theorem walk_cut (hfits : (archiveOf files).length < UInt64.size) (root : String) (p : Nat) :
    (walk ((archiveOf files).take p) root).files =
      (frontOf files p).flatMap fun part => (packed? root part).toList := by
  have hle : extentOf files ≤ (archiveOf files).length := by
    rw [archiveOf, List.length_append]
    exact Nat.le_add_right _ _
  have hwhole : ((archiveOf files).take p).drop 0 = (files.flatMap StoredFile.bytes ++
      List.replicate (2 * blockSize) 0).take p := rfl
  obtain ⟨n, -, hfiles, -⟩ := walkWithin_files root hwhole (by omega)
    ⟨Nat.succ_pos _, Nat.lt_succ_self _⟩
  have hzeros : ∀ b ∈ ((archiveOf files).take p).drop (0 + extentOf files), b = 0 := by
    intro b hb
    rw [extentOf, drop_behind hwhole] at hb
    exact List.eq_of_mem_replicate (List.mem_of_mem_take hb)
  rw [walk, hfiles, walkWithin_none fun h => headerAt_zeros hzeros, List.append_nil]

/-- A walk meets all files in front of a header in disorder, and ends with a fault. -/
theorem walk_disorder (hh : h.InDisorder) (hfits : extentOf files < UInt64.size) (root : String)
    (after : List UInt8) :
    (walk (files.flatMap StoredFile.bytes ++ (h.block ++ after)) root).files =
        (files.map fun file => (file.name, file.content)).flatMap (fun part =>
          (packed? root part).toList) ∧
      ∃ f, (walk (files.flatMap StoredFile.bytes ++ (h.block ++ after)) root).fault = some f := by
  generalize hpayload : files.flatMap StoredFile.bytes ++ (h.block ++ after) = payload
  have hle : extentOf files ≤ payload.length := by
    rw [← hpayload, List.length_append]
    exact Nat.le_add_right _ _
  have hwhole : payload.drop 0 =
      (files.flatMap StoredFile.bytes ++ (h.block ++ after)).take payload.length := by
    rw [hpayload, List.take_length]
    rfl
  obtain ⟨n, hmore, hfiles, hfault⟩ := walkWithin_files root hwhole (by omega)
    ⟨Nat.succ_pos _, Nat.lt_succ_self _⟩
  have hbehind : payload.drop (0 + extentOf files) = h.block ++ after := by
    rw [← hpayload, Nat.zero_add, extentOf, List.drop_left]
  have hheader := headerAt_eq hh.whole hh.not_zero hbehind
  obtain ⟨f, hchecked⟩ := hh.checked none (0 + extentOf files)
  obtain ⟨n, rfl⟩ := hmore.exists_succ
  have hend : walkWithin payload root (n + 1) {} (0 + extentOf files) = ⟨[], 0, some f⟩ := by
    simp only [walkWithin, hheader, hchecked]
  rw [hend, List.append_nil, frontOf_whole hle] at hfiles
  exact ⟨hfiles, f, by rw [walk, hfault hle, hend]⟩

end InterfaceIndex.Tar
