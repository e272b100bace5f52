import InterfaceIndex.Proofs.Layers
import InterfaceIndex.Proofs.Stream.Calm
import InterfaceIndex.Proofs.Tar.Layout
import InterfaceIndex.Proofs.Tar.Sparse
import InterfaceIndex.Proofs.Tar.Stream
import InterfaceIndex.Traversal

/-! A pass over a payload in memory, whatever the payload is, and streams that advance as it does. -/
namespace InterfaceIndex.Tar

/-- The block at a position of a payload, or what keeps it from being read. -/
def blockAt (payload : List UInt8) (position : Nat) : Except Failure (Option (List UInt8)) :=
  let block := (payload.drop position).take blockSize
  if block.isEmpty then .ok none
  else if block.length < blockSize then .error (.other "failed to read entire block")
  else .ok (some block)

/-- The header at a position of a payload, or what keeps it from being read. -/
def headerAt (payload : List UInt8) (position : Nat) : Except Failure (Option Header) :=
  if payload.length < position then .error (.other "unexpected EOF during skip")
  else
    match blockAt payload position with
    | .error f => .error f
    | .ok block => .ok (block.bind Header.ofBlock?)

/-- The content that some parts make of the bytes ahead, as far as there are any. -/
def spread : List UInt8 → List Part → List UInt8
  | _, [] => []
  | ahead, .hole size :: parts => List.replicate size 0 ++ spread ahead parts
  | ahead, .data size :: parts => ahead.take size ++ spread (ahead.drop size) parts

/-- A map of a sparse file with the further blocks that stand at a position of a payload, and where
they end. The first argument bounds their number. -/
def extendAt (payload : List UInt8) (size : Nat) :
    Nat → SparseMap → Nat → Except Failure (SparseMap × Nat)
  | 0, map, position => .ok (map, position)
  | fuel + 1, map, position =>
    match blockAt payload position with
    | .error f => .error f
    | .ok none => .error (.other "failed to read extension")
    | .ok (some block) =>
      match map.addAll size (moreDescriptors block) with
      | .error f => .error f
      | .ok map =>
        if goesOn block then extendAt payload size fuel map (position + blockSize)
        else .ok (map, position + blockSize)

def mapAt (payload : List UInt8) (h : Header) (size position : Nat) :
    Except Failure (SparseMap × Nat) :=
  match SparseMap.addAll size ⟨[], 0, size⟩ h.descriptors with
  | .error f => .error f
  | .ok map =>
    if h.isExtended then extendAt payload size (payload.length + 1) map position
    else .ok (map, position)

/-- The parts of an entry whose header ends at a position of a payload, and where its content begins. -/
def partsAt (payload : List UInt8) (h : Header) (size position : Nat) :
    Except Failure (List Part × Nat) :=
  if h.isSparse then
    if h.isGnu then
      match mapAt payload h size position with
      | .error f => .error f
      | .ok (map, start) => (map.finish h).map (·, start)
    else .error (.other "sparse entry type listed but not GNU header")
  else .ok ([.data size], position)

theorem partsAt_data {payload : List UInt8} {h : Header} (hs : h.isSparse = false)
    (size position : Nat) : partsAt payload h size position = .ok ([.data size], position) := by
  unfold partsAt
  rw [hs]
  rfl

/-- The bytes of a payload from a position on, so many or as many as there are. -/
def contentAt (payload : List UInt8) (position size : Nat) : List UInt8 :=
  (payload.drop position).take size

/-- A source file with its data in a payload. -/
structure PackedFile where
  file : SourceFile
  content : List UInt8
  deriving DecidableEq

/-- What a pass over a payload meets: its source files, how many entries there are, and the fault
that keeps others out of reach. -/
structure Walk where
  files : List PackedFile
  entries : Nat
  fault : Option Failure

/-- A walk with one more entry in front of it, which may be a source file. -/
def Walk.meet (walk : Walk) (file : Option SourceFile) (content : List UInt8) : Walk :=
  { walk with
    files := (file.map fun file => ⟨file, content⟩).toList ++ walk.files
    entries := walk.entries + 1 }

/-- Goes from header to header, collecting what members say about the entry that is to come. The
first argument bounds the number of members. -/
def walkWithin (payload : List UInt8) (root : String) : Nat → Notes → Nat → Walk
  | 0, _, _ => ⟨[], 0, none⟩
  | fuel + 1, notes, position =>
    match headerAt payload position with
    | .error f => ⟨[], 0, some f⟩
    | .ok none =>
      if notes.isEmpty then ⟨[], 0, none⟩
      else ⟨[], 0, some
        (.other "members found describing a future member but no future member found")⟩
    | .ok (some h) =>
      match checked h notes.records position with
      | .error f => ⟨[], 0, some f⟩
      | .ok (size, next) =>
        if h.role = .entry then
          match partsAt payload h size (position + blockSize) with
          | .error f => ⟨[], 0, some f⟩
          | .ok (parts, start) =>
            (walkWithin payload root fuel {} (start + padded size)).meet
              (SourceFile.select? (Utf8.decodeLossy (notes.path h)) root)
              (spread (payload.drop start) parts)
        else
          match notes.repeated h.role with
          | some f => ⟨[], 0, some f⟩
          | none =>
            let content := contentAt payload (position + blockSize) size
            walkWithin payload root fuel (notes.add content h.role) next

/-- A pass over a payload. Every member has a header in it, which bounds their number. -/
def walk (payload : List UInt8) (root : String) : Walk :=
  walkWithin payload root (payload.length + 1) {} 0

variable {ρ : Type} [Reader ρ] {D : Delivery ρ} {payload : List UInt8} {root : String}
  {a b : Archive ρ} {c e : Content ρ} {es : Entries ρ} {notes : Notes} {position stop k : Nat}

theorem blockAt_some {block : List UInt8} (hb : blockAt payload position = .ok (some block)) :
    position + blockSize ≤ payload.length := by
  unfold blockAt at hb
  dsimp only at hb
  split at hb
  · simp at hb
  · split at hb
    · simp at hb
    · next hlen =>
      have hsize : 0 < blockSize := by decide
      rw [List.length_take, List.length_drop] at hlen
      omega

theorem headerAt_some {h : Header} (hh : headerAt payload position = .ok (some h)) :
    position + blockSize ≤ payload.length := by
  unfold headerAt at hh
  split at hh
  · simp at hh
  · cases hb : blockAt payload position with
    | error f => simp [hb] at hh
    | ok block =>
      cases block with
      | none => simp [hb] at hh
      | some block => exact blockAt_some hb

/-- The header after a member is due behind its content. The place behind its own header counts to 64
bits, and so does that of the next one from there on. -/
theorem checked_ok {h : Header} {records : Option (List UInt8)} {size next : Nat}
    (hc : checked h records position = .ok (size, next)) :
    next = position + blockSize + padded size ∧
      (position + blockSize) % UInt64.size + padded size < UInt64.size := by
  simp only [checked, bind, Except.bind] at hc
  split at hc
  · simp at hc
  · split at hc
    · simp only [extent, bind, Except.bind] at hc
      split at hc
      · simp at hc
      · next stated _ =>
        generalize (if h.takesSizeRecord = true then records.bind Record.size? else none).getD
          stated = replaced at hc
        split at hc
        · next hfits =>
          obtain ⟨rfl, rfl⟩ := Prod.mk.inj (Except.ok.inj hc)
          exact ⟨rfl, hfits.2⟩
        · simp at hc
    · simp at hc

theorem checked_next {h : Header} {records : Option (List UInt8)} {size next : Nat}
    (hc : checked h records position = .ok (size, next)) :
    next = position + blockSize + padded size :=
  (checked_ok hc).1

theorem calm_archive (hD : D.Calm) (total : Nat) : (D.archive total).Calm where
  never := hD.never
  idle {a b bytes answer} h ha := by
    cases answer with
    | error f =>
      have hidle := (hD.idle h.1 (Archive.read_error ha).1).1
      simp at hidle
    | ok piece =>
      obtain ⟨hread, hpos⟩ := Archive.read_ok ha
      obtain ⟨hnil, hs⟩ := hD.idle h.1 hread
      obtain rfl := Except.ok.inj hnil
      exact ⟨rfl, hs, hpos ▸ h.2⟩

/-- An archive that has ahead the payload from where it stands. -/
def Archive.Stands (D : Delivery ρ) (payload : List UInt8) (a : Archive ρ) : Prop :=
  (D.archive payload.length).Holds a (payload.drop a.position)

/-- What an archive has ahead tells where it stands. -/
theorem Archive.stands_of_holds (h : (D.archive payload.length).Holds a (payload.drop position)) :
    a.Stands D payload ∧ a.position = min position payload.length := by
  have hpos := h.2
  rw [List.length_drop] at hpos
  have hmin : a.position = min position payload.length := by omega
  refine ⟨?_, hmin⟩
  have hdrop : payload.drop a.position = payload.drop position := by
    rcases Nat.le_total position payload.length with hle | hle
    · rw [hmin, Nat.min_eq_left hle]
    · rw [hmin, Nat.min_eq_right hle, List.drop_length, List.drop_eq_nil_of_le hle]
  rw [Stands, hdrop]
  exact h

theorem Archive.Stands.position_le (h : a.Stands D payload) : a.position ≤ payload.length := by
  have := h.2
  omega

/-- A read of an archive takes what it brings, and the archive moves on by as much. -/
theorem Archive.Stands.read (hD : D.Calm) (h : a.Stands D payload) (n : Nat) :
    ∃ piece b, Reader.read a n = (.ok piece, b) ∧ b.Stands D payload ∧
      b.position = a.position + piece.length ∧ piece.length ≤ n ∧
      contentAt payload a.position piece.length = piece := by
  obtain ⟨piece, rest, b, hread, heq, hb⟩ := (calm_archive hD payload.length).read h n
  have hpos := (Archive.read_ok hread).2
  have hrest : rest = payload.drop b.position := by
    rw [hpos, ← List.drop_drop, heq, List.drop_left]
  have hlen := ((D.archive payload.length).ok ((D.archive payload.length).sound h) hread).2.1
  refine ⟨piece, b, hread, ?_, hpos, hlen, ?_⟩
  · rw [Stands, ← hrest]
    exact hb
  · rw [contentAt, heq, List.take_left]

theorem Archive.Stands.reaches (hD : D.Calm) (h : a.Stands D payload) (hreach : Reader.Reaches a b) :
    b.Stands D payload := by
  refine hreach.preserves h ?_
  intro c n hc
  obtain ⟨piece, d, hread, hd, -⟩ := hc.read hD n
  rw [hread]
  exact hd

/-- A run of reads of an archive brings the payload from where it stands. -/
theorem Archive.Stands.gather (hD : D.Calm) (h : a.Stands D payload) (m : Manner)
    (hm : 0 < m.piece) (l : Nat) :
    ∃ b, Reader.gather m (some l) a = (⟨contentAt payload a.position l, none⟩, b) ∧
      b.Stands D payload ∧ b.position = min (a.position + l) payload.length ∧
      Reader.budget b + (contentAt payload a.position l).length ≤ Reader.budget a := by
  obtain ⟨b, hb, hholds, hcost⟩ :=
    Delivery.gather_take (calm_archive hD payload.length).never hm h l
  rw [List.drop_drop] at hholds
  obtain ⟨hstands, hpos⟩ := stands_of_holds hholds
  exact ⟨b, hb, hstands, hpos, hcost⟩

/-- What is ahead of an archive up to a position is skipped, unless the payload ends before. -/
theorem Archive.Stands.skip (hD : D.Calm) (h : a.Stands D payload) (hle : a.position ≤ position) :
    (payload.length < position ∧
      ∃ b, a.skip (position - a.position) = (some (.other "unexpected EOF during skip"), b)) ∨
    (position ≤ payload.length ∧ ∃ b, a.skip (position - a.position) = (none, b) ∧
      b.Stands D payload ∧ b.position = position ∧ Reader.budget b ≤ Reader.budget a) := by
  have hpos := h.position_le
  obtain ⟨b, hb, hstands, hmin, hcost⟩ :=
    h.gather hD ⟨32768, false⟩ (by decide) (position - a.position)
  have hlen : (contentAt payload a.position (position - a.position)).length =
      min (position - a.position) (payload.length - a.position) := by
    rw [contentAt, List.length_take, List.length_drop]
  unfold Archive.skip
  rw [hb]
  dsimp only
  rw [hlen]
  rcases Nat.lt_or_ge payload.length position with hlt | hge
  · rw [if_pos (by omega)]
    exact Or.inl ⟨hlt, b, rfl⟩
  · rw [if_neg (by omega)]
    exact Or.inr ⟨hge, b, rfl, hstands, by omega, by omega⟩

/-- A stream reads the block that stands in the payload. -/
theorem Archive.Stands.readBlock (hD : D.Calm) (h : a.Stands D payload) :
    ∃ b, a.readBlock = (blockAt payload a.position, b) ∧
      ∀ block, blockAt payload a.position = .ok (some block) → b.Stands D payload ∧
        b.position = a.position + blockSize ∧ Reader.budget b < Reader.budget a := by
  obtain ⟨b, hb, hstands, hmin, hspent⟩ := h.gather hD ⟨blockSize, false⟩ (by decide) blockSize
  refine ⟨b, ?_, ?_⟩
  · rw [Archive.readBlock, hb, blockAt]
    dsimp only [contentAt]
    split
    · rfl
    · split <;> rfl
  · intro block hblock
    have hwhole := blockAt_some hblock
    have hsize : 0 < blockSize := by decide
    rw [contentAt, List.length_take, List.length_drop] at hspent
    exact ⟨hstands, by omega, by omega⟩

/-- A stream reads the header that stands in the payload. -/
theorem Archive.Stands.readHeader (hD : D.Calm) (h : es.archive.Stands D payload)
    (hle : es.archive.position ≤ es.next) :
    ∃ b, es.readHeader = (headerAt payload es.next, b) ∧
      ∀ header, headerAt payload es.next = .ok (some header) → b.Stands D payload ∧
        b.position = es.next + blockSize ∧ Reader.budget b < Reader.budget es.archive := by
  unfold Entries.readHeader headerAt
  rcases h.skip hD hle with ⟨hlt, b, hb⟩ | ⟨hge, b, hb, hstands, hpos, hcost⟩
  · rw [hb, if_pos hlt]
    exact ⟨b, rfl, by simp⟩
  · obtain ⟨c, hc, hblock⟩ := hstands.readBlock hD
    rw [hpos] at hc hblock
    rw [hb, if_neg (by omega)]
    dsimp only
    rw [hc]
    cases hat : blockAt payload es.next with
    | error f => exact ⟨c, rfl, by simp⟩
    | ok block =>
      refine ⟨c, rfl, ?_⟩
      intro header hheader
      cases block with
      | none => simp at hheader
      | some block =>
        obtain ⟨hstands', hpos', hspent⟩ := hblock block hat
        exact ⟨hstands', hpos', by omega⟩

/-- What a content has ahead, split where a read of the archive splits the payload. -/
theorem contentAt_append {piece : List UInt8} {size : Nat} (hlen : piece.length ≤ size)
    (hfront : contentAt payload position piece.length = piece) :
    contentAt payload position size =
      piece ++ contentAt payload (position + piece.length) (size - piece.length) := by
  obtain ⟨more, rfl⟩ : ∃ more, size = piece.length + more := ⟨size - piece.length, by omega⟩
  rw [contentAt, List.take_add, List.drop_drop, ← contentAt, hfront, Nat.add_sub_cancel_left]
  rfl

/-- A read of parts takes what it brings of what they make of the payload, and brings something as long
as there are parts. -/
theorem Content.Reads.spread (hD : D.Calm) {n : Nat} {parts : List Part}
    {x : Except Failure (List UInt8) × Content ρ} (h : Reads n parts a x) (hn : 0 < n)
    (hs : a.Stands D payload) : ∃ piece, x.1 = .ok piece ∧ x.2.archive.Stands D payload ∧
      spread (payload.drop a.position) parts =
        piece ++ Tar.spread (payload.drop x.2.archive.position) x.2.parts ∧
      (piece = [] → x.2.parts = []) := by
  induction h with
  | spent => exact ⟨[], rfl, hs, rfl, fun _ => rfl⟩
  | blank hsome =>
    rename_i size parts a
    refine ⟨_, rfl, hs, ?_, ?_⟩
    · rw [Tar.spread, Tar.spread, ← List.append_assoc, List.replicate_append_replicate]
      congr 2
      omega
    · intro hnil
      rw [List.replicate_eq_nil_iff] at hnil
      omega
  | closed hnone others ih =>
    rename_i size parts a x
    obtain rfl : size = 0 := by omega
    exact ih hs
  | empty others ih => exact ih hs
  | dry hsome hread others ih =>
    rename_i size parts a b x
    obtain ⟨piece, b', hread', hb, hpos, -⟩ := hs.read hD (min n size)
    obtain ⟨rfl, rfl⟩ : [] = piece ∧ b = b' := by simpa [hread] using hread'
    have hnil : payload.drop a.position = [] :=
      D.whole (D.ends hs.1 (by omega) (Archive.read_ok hread).1)
    have hothers := ih hb
    rw [hpos, List.length_nil, Nat.add_zero, hnil] at hothers
    rw [hnil, Tar.spread, List.take_nil, List.drop_nil]
    exact hothers
  | piece hsome hread hbring =>
    rename_i size parts a b bytes
    obtain ⟨piece, b', hread', hb, hpos, hlen, hfront⟩ := hs.read hD (min n size)
    obtain ⟨rfl, rfl⟩ : bytes = piece ∧ b = b' := by simpa [hread] using hread'
    refine ⟨bytes, rfl, hb, ?_, fun hnil => (hbring hnil).elim⟩
    have hsplit : contentAt payload a.position size = bytes ++ _ :=
      contentAt_append (by omega) hfront
    simp only [contentAt] at hsplit
    have hbehind : a.position + size = b.position + (size - bytes.length) := by omega
    rw [Tar.spread, Tar.spread, hsplit, List.append_assoc, List.drop_drop, List.drop_drop, hbehind,
      hpos]
  | failed hsome hread =>
    obtain ⟨piece, b, hread', -⟩ := hs.read hD _
    exact absurd (hread.symm.trans hread') (by simp)

/-- A content delivers what its parts make of the payload. -/
def Delivery.within (D : Delivery ρ) (hD : D.Calm) (payload : List UInt8) : Delivery (Content ρ) where
  toFlow := (D.archive payload.length).toFlow.content
  Holds c bytes := c.archive.Stands D payload ∧
    bytes = spread (payload.drop c.archive.position) c.parts
  Stops bytes stop := stop = none ∧ bytes = []
  whole h := h.2
  sound h := (D.archive payload.length).sound h.1
  brings {c e n piece bytes} h hn ha := by
    obtain ⟨hstands, rfl⟩ := h
    obtain ⟨piece', hpiece, hstands', heq, -⟩ := (c.reads n).spread hD hn hstands
    rw [ha] at hpiece hstands' heq
    obtain rfl := Except.ok.inj hpiece
    exact ⟨_, heq, hstands', rfl⟩
  ends {c e n bytes} h hn ha := by
    obtain ⟨hstands, rfl⟩ := h
    obtain ⟨piece', hpiece, -, heq, hover⟩ := (c.reads n).spread hD hn hstands
    rw [ha] at hpiece heq hover
    obtain rfl := Except.ok.inj hpiece
    refine ⟨rfl, ?_⟩
    rw [heq, hover rfl]
    rfl
  fails {c e n f bytes} h hn ha := by
    obtain ⟨piece', hpiece, -⟩ := (c.reads n).spread hD hn h.1
    simp [ha] at hpiece

theorem Delivery.never_within (hD : D.Calm) {left : List UInt8} {f : Failure} :
    ¬ (Delivery.within D hD payload).Stops left (some f) := by
  rintro ⟨hstop, -⟩
  simp at hstop

theorem Archive.Stands.holds_content (hD : D.Calm) (h : a.Stands D payload) (parts : List Part) :
    (Delivery.within D hD payload).Holds ⟨a, parts⟩ (spread (payload.drop a.position) parts) :=
  ⟨h, rfl⟩

/-- Reads of a content leave the archive within the payload, no further than its parts end. -/
theorem Archive.Stands.after_reads (hD : D.Calm) (h : a.Stands D payload) {parts : List Part}
    (hreach : Reader.Reaches (⟨a, parts⟩ : Content ρ) c) :
    c.archive.Stands D payload ∧ c.archive.position ≤ a.position + storedIn parts ∧
      Reader.budget c.archive ≤ Reader.budget a := by
  have hsound : (D.archive payload.length).toFlow.Sound a := (D.archive payload.length).sound h
  have harchive := Content.reaches_archive hreach
  obtain ⟨-, hstop⟩ := Content.stop_reaches (c := ⟨a, parts⟩) hsound hreach
  exact ⟨h.reaches hD harchive, by dsimp only at hstop; omega,
    ((D.archive payload.length).toFlow.reaches harchive hsound).2⟩

@[simp] theorem spread_data (ahead : List UInt8) (size : Nat) :
    spread ahead [.data size] = ahead.take size :=
  List.append_nil _

/-- The whole content of a member that stands in the payload. -/
theorem Archive.Stands.content (hD : D.Calm) (h : a.Stands D payload) (size : Nat) :
    ∃ c, Reader.gather .whole none (⟨a, [.data size]⟩ : Content ρ) =
        (⟨contentAt payload a.position size, none⟩, c) ∧
      c.archive.Stands D payload ∧ c.archive.position ≤ a.position + size ∧
      Reader.budget c.archive ≤ Reader.budget a := by
  have hholds := h.holds_content hD [.data size]
  rw [spread_data] at hholds
  obtain ⟨c, hc⟩ := Delivery.gather_all (m := .whole) (Delivery.never_within hD) (by decide) hholds
  have hreach := Reader.reaches_gather .whole none (⟨a, [.data size]⟩ : Content ρ)
  rw [hc] at hreach
  obtain ⟨hstands, hpos, hcost⟩ := h.after_reads hD hreach
  exact ⟨c, hc, hstands, by simpa [Part.stored] using hpos, hcost⟩

/-- So many members are enough for what a payload has from a position on. -/
def Enough (payload : List UInt8) (fuel position : Nat) : Prop :=
  0 < fuel ∧ payload.length < fuel + position

/-- A member takes a header out of the payload, which leaves enough for those that are to come. -/
theorem Enough.next {h : Header} {records : Option (List UInt8)} {size next : Nat}
    (henough : Enough payload (k + 1) position) (hh : headerAt payload position = .ok (some h))
    (hc : checked h records position = .ok (size, next)) : Enough payload k next := by
  obtain ⟨-, hlt⟩ := henough
  have hwhole := headerAt_some hh
  have hnext := checked_next hc
  have hblock : 0 < blockSize := by decide
  constructor <;> omega

/-- What a stream reads of blocks behind a header, or of all there is to an entry, by what the payload
has of them: the same answer, and the next header put off as far as the content. -/
inductive Prepared {α : Type} (D : Delivery ρ) (payload : List UInt8) (position next budget : Nat) :
    Except Failure (α × Nat) → Except Failure α × Entries ρ → Prop
  | failed {f : Failure} {es : Entries ρ} :
      Prepared D payload position next budget (.error f) (.error f, es)
  | ready {answer : α} {start : Nat} {es : Entries ρ} (stands : es.archive.Stands D payload)
      (begins : es.archive.position = start) (onward : position ≤ start)
      (due : es.next + position = next + start) (cost : Reader.budget es.archive ≤ budget) :
      Prepared D payload position next budget (.ok (answer, start)) (.ok answer, es)

/-- The induction is on the number of blocks allowed: each takes bytes out of the stream and out of the
payload. -/
theorem Archive.Stands.extendWithin (hD : D.Calm) {fuel size next : Nat} {map : SparseMap}
    (h : a.Stands D payload) (hfuel : Reader.budget a < fuel)
    (henough : payload.length < k + a.position) :
    Prepared D payload a.position next (Reader.budget a) (extendAt payload size k map a.position)
      (Entries.extendWithin size fuel map ⟨a, next⟩) := by
  induction fuel generalizing a next k map with
  | zero => omega
  | succ fuel ih =>
    obtain ⟨k, rfl⟩ : ∃ n, k = n + 1 := ⟨k - 1, by have := h.position_le; omega⟩
    obtain ⟨b, hb, hblock⟩ := h.readBlock hD
    rw [Entries.extendWithin, extendAt, hb]
    cases hat : blockAt payload a.position with
    | error f => exact .failed
    | ok block =>
      cases block with
      | none => exact .failed
      | some block =>
        obtain ⟨hstands, hpos, hspent⟩ := hblock block hat
        have hsize : 0 < blockSize := by decide
        dsimp only
        cases map.addAll size (moreDescriptors block) with
        | error f => exact .failed
        | ok map =>
          dsimp only
          rw [← hpos]
          split
          · have hmore : Prepared D payload b.position (next + blockSize) (Reader.budget b)
                (extendAt payload size k map b.position)
                (Entries.extendWithin size fuel map ⟨b, next + blockSize⟩) :=
              ih hstands (by omega) (by omega)
            generalize extendAt payload size k map b.position = x at hmore ⊢
            generalize Entries.extendWithin size fuel map ⟨b, next + blockSize⟩ = y at hmore ⊢
            cases hmore with
            | failed => exact .failed
            | ready stands begins onward due cost =>
              exact .ready stands begins (by omega) (by omega) (by omega)
          · exact .ready hstands rfl (by omega) (by dsimp only; omega) (by dsimp only; omega)

theorem Archive.Stands.readMap (hD : D.Calm) (h : a.Stands D payload) (header : Header)
    (size next : Nat) :
    Prepared D payload a.position next (Reader.budget a) (mapAt payload header size a.position)
      (Entries.readMap header size ⟨a, next⟩) := by
  unfold Entries.readMap mapAt
  cases SparseMap.addAll size ⟨[], 0, size⟩ header.descriptors with
  | error f => exact .failed
  | ok map =>
    dsimp only
    split
    · exact h.extendWithin hD (Nat.lt_succ_self _) (by omega)
    · exact .ready h rfl (Nat.le_refl _) rfl (Nat.le_refl _)

theorem Archive.Stands.readParts (hD : D.Calm) (h : a.Stands D payload) (header : Header)
    (size next : Nat) :
    Prepared D payload a.position next (Reader.budget a) (partsAt payload header size a.position)
      (Entries.readParts header size ⟨a, next⟩) := by
  unfold Entries.readParts partsAt
  split
  · split
    · have hmap := h.readMap hD header size next
      generalize mapAt payload header size a.position = x at hmap ⊢
      generalize Entries.readMap header size ⟨a, next⟩ = y at hmap ⊢
      cases hmap with
      | failed => exact .failed
      | ready stands begins onward due cost =>
        rename_i map start es
        dsimp only
        cases map.finish header with
        | error f => exact .failed
        | ok parts => exact .ready stands begins onward due cost
    · exact .failed
  · exact .ready h rfl (Nat.le_refl _) rfl (Nat.le_refl _)

/-- How an advance comes out by the walk from where it begins: the walk ends there, or it goes on
behind an entry. -/
inductive Advances (D : Delivery ρ) (payload : List UInt8) (root : String) (budget : Nat)
    (walk : Walk) : Except Failure (Option Entry) × Entries ρ → Prop
  | stopped {f : Failure} {es : Entries ρ} (eq : walk = ⟨[], 0, some f⟩) :
      Advances D payload root budget walk (.error f, es)
  | ended {es : Entries ρ} (eq : walk = ⟨[], 0, none⟩) :
      Advances D payload root budget walk (.ok none, es)
  | entry {path : List UInt8} {parts : List Part} {next fuel : Nat} {b : Archive ρ}
      (stands : b.Stands D payload) (spent : Reader.budget b < budget)
      (inside : b.position + storedIn parts ≤ next) (enough : Enough payload fuel next)
      (eq : walk = (walkWithin payload root fuel {} next).meet
        (SourceFile.select? (Utf8.decodeLossy path) root)
        (spread (payload.drop b.position) parts)) :
      Advances D payload root budget walk (.ok (some ⟨path, parts⟩), ⟨b, next⟩)

theorem Advances.mono {budget budget' : Nat} {walk : Walk}
    {x : Except Failure (Option Entry) × Entries ρ}
    (h : Advances D payload root budget walk x) (hle : budget ≤ budget') :
    Advances D payload root budget' walk x := by
  cases h with
  | stopped eq => exact .stopped eq
  | ended eq => exact .ended eq
  | entry stands spent inside enough eq => exact .entry stands (by omega) inside enough eq

/-- The induction is on the number of members allowed: each takes a header out of the stream and out
of the payload. -/
theorem advanceWithin_walk (hD : D.Calm) {fuel : Nat} (h : es.archive.Stands D payload)
    (hle : es.archive.position ≤ es.next) (hfuel : Reader.budget es.archive < fuel)
    (henough : Enough payload k es.next) :
    Advances D payload root (Reader.budget es.archive) (walkWithin payload root k notes es.next)
      (es.advanceWithin fuel notes) := by
  induction fuel generalizing notes es k with
  | zero => omega
  | succ fuel ih =>
    obtain ⟨k, rfl⟩ : ∃ n, k = n + 1 := ⟨k - 1, by have := henough.1; omega⟩
    obtain ⟨b, hb, hheader⟩ := h.readHeader hD hle
    rw [Entries.advanceWithin, walkWithin, hb]
    cases hh : headerAt payload es.next with
    | error f => exact .stopped rfl
    | ok header =>
      cases header with
      | none =>
        dsimp only
        split
        · exact .ended rfl
        · exact .stopped rfl
      | some header =>
        obtain ⟨hstands, hpos, hspent⟩ := hheader header hh
        dsimp only
        cases hc : checked header notes.records es.next with
        | error f => exact .stopped rfl
        | ok extent =>
          obtain ⟨size, next⟩ := extent
          have hnext := checked_next hc
          have hpadded := le_padded size
          have henough' := henough.next hh hc
          dsimp only
          split
          · have hparts := hstands.readParts hD header size next
            have hstored {parts : List Part} {es' : Entries ρ} :
                Entries.readParts header size ⟨b, next⟩ = (.ok parts, es') → storedIn parts = size :=
              Entries.storedIn_readParts
            rw [← hpos]
            generalize partsAt payload header size b.position = x at hparts ⊢
            generalize Entries.readParts header size ⟨b, next⟩ = y at hparts hstored ⊢
            cases hparts with
            | failed => exact .stopped rfl
            | ready stands begins onward due cost =>
              rename_i parts start es'
              obtain ⟨c, place⟩ := es'
              have hsize := hstored rfl
              dsimp only at stands begins due cost
              obtain rfl : place = start + padded size := by omega
              subst begins
              have hmore : Enough payload k (c.position + padded size) := by
                obtain ⟨hpositive, hlt⟩ := henough'
                exact ⟨hpositive, by omega⟩
              exact .entry stands (by omega) (by omega) hmore rfl
          · cases notes.repeated header.role with
            | some f => exact .stopped rfl
            | none =>
              obtain ⟨c, hc, hstands', hpos', hcost⟩ := hstands.content hD size
              rw [hpos] at hc hpos'
              dsimp only
              rw [hc]
              have hbefore : c.archive.position ≤ next := by omega
              have hless : Reader.budget c.archive < fuel := by omega
              have hmore : Advances D payload root (Reader.budget c.archive)
                  (walkWithin payload root k
                    (notes.add (contentAt payload (es.next + blockSize) size) header.role) next)
                  (Entries.advanceWithin fuel
                    (notes.add (contentAt payload (es.next + blockSize) size) header.role)
                    ⟨c.archive, next⟩) :=
                @ih ⟨c.archive, next⟩ _ _ hstands' hbefore hless henough'
              exact hmore.mono (by omega)

end InterfaceIndex.Tar
