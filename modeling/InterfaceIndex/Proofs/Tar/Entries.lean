import InterfaceIndex.Proofs.Layers
import InterfaceIndex.Proofs.Tar.Layout
import InterfaceIndex.Proofs.Tar.Stream

/-! Advancing in an archive: past what is left of one file, to the content of the next. -/
namespace InterfaceIndex

/-- A run of reads for a part that is still to come brings it, or is stopped before its end. -/
theorem Delivery.Gathers.front {ρ : Type} [Reader ρ] {D : Delivery ρ} {front rest : List UInt8}
    {x : Gathered × ρ} (h : D.Gathers (some front.length) (front ++ rest) x) :
    (∃ s, x = (⟨front, none⟩, s) ∧ D.Holds s rest) ∨
    (∃ got left f s, x = (⟨got, some f⟩, s) ∧ got.length < front.length ∧
      front ++ rest = got ++ left ∧ D.Stops left (some f)) := by
  cases h with
  | filled eq full holds =>
    obtain ⟨rfl, rfl⟩ := List.append_inj eq (Option.some.inj full)
    exact Or.inl ⟨_, rfl, holds⟩
  | ended below holds stops =>
    have := below _ rfl
    simp only [List.length_append] at this
    omega
  | failed eq below stops => exact Or.inr ⟨_, _, _, _, rfl, below _ rfl, eq, stops⟩

/-- A failure stops a stream of so many bytes at a position. -/
def Delivery.StopsAt {ρ : Type} [Reader ρ] (D : Delivery ρ) (total : Nat) (f : Failure)
    (position : Nat) : Prop :=
  ∃ left, D.Stops left (some f) ∧ position + left.length = total

namespace Tar

variable {ρ : Type} [Reader ρ] {D : Delivery ρ} {total : Nat} {a : Archive ρ} {es : Entries ρ}
  {gone block bytes rest : List UInt8} {file : StoredFile}

namespace Archive

/-- A run of reads for a part of an archive counts its bytes and spends them. -/
theorem gather_front (m : Manner) (hm : 0 < m.piece)
    (h : (D.archive total).Holds a (gone ++ rest)) :
    (∃ b, Reader.gather m (some gone.length) a = (⟨gone, none⟩, b) ∧
      (D.archive total).Holds b rest ∧ Reader.budget b + gone.length ≤ Reader.budget a) ∨
    (∃ got f b, Reader.gather m (some gone.length) a = (⟨got, some f⟩, b) ∧
      b.position < a.position + gone.length ∧ D.StopsAt total f b.position) := by
  have hg : (D.archive total).Gathers (some gone.length) (gone ++ rest)
      (Reader.gather m (some gone.length) a) := Delivery.gather_spec hm h
  have hspends : (D.archive total).Spends m (some gone.length) (Reader.budget a)
      (Reader.gather m (some gone.length) a) := Flow.gather_spends _ (Delivery.sound _ h)
  have hspent := hspends.cost
  have hpos := position_gather m (some gone.length) a
  have htotal := h.2
  rcases hg.front with ⟨b, hb, hholds⟩ | ⟨got, left, f, b, hb, hlt, heq, hstop⟩
  · rw [hb] at hspent
    exact Or.inl ⟨b, hb, hholds, hspent⟩
  · rw [hb] at hpos
    rw [heq, List.length_append] at htotal
    dsimp only at hpos
    exact Or.inr ⟨got, f, b, hb, by omega, left, hstop, by omega⟩

theorem skip_spec (h : (D.archive total).Holds a (gone ++ rest)) :
    (∃ b, a.skip gone.length = (none, b) ∧ (D.archive total).Holds b rest ∧
      Reader.budget b + gone.length ≤ Reader.budget a) ∨
    (∃ f b, a.skip gone.length = (some f, b) ∧ b.position < a.position + gone.length ∧
      D.StopsAt total f b.position) := by
  unfold skip
  rcases gather_front ⟨32768, false⟩ (by decide) h with
      ⟨b, hb, hholds, hcost⟩ | ⟨got, f, b, hb, hlt, hstop⟩
  · exact Or.inl ⟨b, by simp [hb], hholds, hcost⟩
  · exact Or.inr ⟨f, b, by simp [hb], hlt, hstop⟩

theorem readBlock_spec (hlen : block.length = blockSize)
    (h : (D.archive total).Holds a (block ++ rest)) :
    (∃ b, a.readBlock = (.ok (some block), b) ∧ (D.archive total).Holds b rest ∧
      Reader.budget b + blockSize ≤ Reader.budget a) ∨
    (∃ f b, a.readBlock = (.error f, b) ∧ b.position < a.position + blockSize ∧
      D.StopsAt total f b.position) := by
  have hne : block.isEmpty = false := by
    cases block with
    | nil => simp [blockSize] at hlen
    | cons => rfl
  unfold readBlock
  rw [← hlen]
  rcases gather_front ⟨block.length, false⟩ (by rw [hlen]; decide) h with
      ⟨b, hb, hholds, hcost⟩ | ⟨got, f, b, hb, hlt, hstop⟩
  · refine Or.inl ⟨b, ?_, hholds, hcost⟩
    simp only [hb, hne, Bool.false_eq_true, if_false, Nat.lt_irrefl]
  · exact Or.inr ⟨f, b, by simp [hb], hlt, hstop⟩

end Archive

/-- A name that was announced, with or without a zero byte after it. -/
theorem Notes.path_announced {h : Header} {name text : List UInt8}
    (hn : 0 ∉ name ∧ (text = name ∨ text = name ++ [0])) :
    Notes.path { longName := some text } h = name := by
  obtain ⟨hzero, rfl | rfl⟩ := hn
  · have hlast : text.getLast? ≠ some 0 := fun h => hzero (List.mem_of_getLast? h)
    simp [Notes.path, hlast]
  · simp [Notes.path]

/-- A content read whole: the archive then has ahead what comes after it. -/
theorem Content.gather_whole {text : List UInt8} (h : (D.archive total).Holds a (text ++ rest)) :
    (∃ c, Reader.gather .whole none (⟨a, [.data text.length]⟩ : Content ρ) = (⟨text, none⟩, c) ∧
      (D.archive total).Holds c.archive rest ∧ Reader.budget c.archive ≤ Reader.budget a) ∨
    (∃ got f c, Reader.gather .whole none (⟨a, [.data text.length]⟩ : Content ρ) =
      (⟨got, some f⟩, c) ∧ c.archive.position ≤ a.position + text.length ∧
      D.StopsAt total f c.archive.position) := by
  have hstart : ((D.archive total).content rest).Holds ⟨a, [.data text.length]⟩ text :=
    ⟨h, Or.inl rfl⟩
  have hg : ((D.archive total).content rest).Gathers none text
      (Reader.gather .whole none (⟨a, [.data text.length]⟩ : Content ρ)) :=
    Delivery.gather_spec (by decide) hstart
  have hreach := Reader.reaches_gather .whole none (⟨a, [.data text.length]⟩ : Content ρ)
  have hspent := ((D.archive total).toFlow.reaches (Content.reaches_archive hreach)
    (Delivery.sound _ h)).2
  have hpos := Content.position_gather .whole none text.length a
  have htotal := h.2
  generalize Reader.gather .whole none (⟨a, [.data text.length]⟩ : Content ρ) = x at *
  cases hg with
  | filled eq full holds => simp at full
  | ended below holds stops => exact Or.inl ⟨_, rfl, holds.1, hspent⟩
  | failed eq below stops =>
    simp only [eq, List.length_append] at hpos htotal ⊢
    exact Or.inr ⟨_, _, _, rfl, by omega, _, stops.2 _ rfl, by simp only [List.length_append]; omega⟩

namespace Entries

/-- What an archive has ahead from the next header on; the rest of a file may lie before it. -/
def Ahead (D : Delivery ρ) (total : Nat) (es : Entries ρ) (bytes : List UInt8) : Prop :=
  es.next + bytes.length = total ∧ ∃ gap, (D.archive total).Holds es.archive (gap ++ bytes)

theorem readHeader_spec (hlen : block.length = blockSize) (h : es.Ahead D total (block ++ rest)) :
    (∃ b, es.readHeader = (.ok (if block.all (· == 0) then none else some ⟨block⟩), b) ∧
      (D.archive total).Holds b rest ∧ Reader.budget b < Reader.budget es.archive) ∨
    (∃ f b, es.readHeader = (.error f, b) ∧ b.position < es.next + blockSize ∧
      D.StopsAt total f b.position) := by
  obtain ⟨hnext, gap, hholds⟩ := h
  have hgap := hholds.2
  simp only [List.length_append] at hnext hgap
  have hskip : es.next - es.archive.position = gap.length := by omega
  unfold readHeader
  rw [hskip]
  rcases Archive.skip_spec hholds with ⟨b, hb, hb', hcost⟩ | ⟨f, b, hb, hlt, hstop⟩
  · rw [hb]
    dsimp only
    have hbpos := hb'.2
    simp only [List.length_append] at hbpos
    rcases Archive.readBlock_spec hlen hb' with ⟨c, hc, hc', hcost'⟩ | ⟨f, c, hc, hlt, hstop⟩
    · rw [hc]
      exact Or.inl ⟨c, rfl, hc', by unfold blockSize at hcost'; omega⟩
    · rw [hc]
      exact Or.inr ⟨f, c, rfl, by omega, hstop⟩
  · rw [hb]
    exact Or.inr ⟨f, b, rfl, by omega, hstop⟩

/-- How an advance comes out that should lead to a content which begins at a given position: it
gets there, or is stopped before. -/
inductive Arrives (D : Delivery ρ) (total budget : Nat) (name content rest : List UInt8)
    (start : Nat) : Except Failure (Option Entry) × Entries ρ → Prop
  | there {b : Archive ρ} (holds : (D.archive total).Holds b (content ++ rest))
      (spent : Reader.budget b < budget) :
      Arrives D total budget name content rest start
        (.ok (some ⟨name, [.data content.length]⟩), ⟨b, start + padded content.length⟩)
  | stopped {f : Failure} {es : Entries ρ} (before : es.archive.position < start)
      (stops : D.StopsAt total f es.archive.position) :
      Arrives D total budget name content rest start (.error f, es)

theorem Arrives.mono {k k' start : Nat} {name content : List UInt8}
    {x : Except Failure (Option Entry) × Entries ρ} (h : Arrives D total k name content rest start x)
    (hk : k ≤ k') : Arrives D total k' name content rest start x := by
  cases h with
  | there holds spent => exact .there holds (by omega)
  | stopped before stops => exact .stopped before stops

/-- The header of a file, once its name is known. -/
theorem advanceWithin_header {h : Header} {notes : Notes} {name content : List UInt8} {fuel : Nat}
    (hs : h.States content.length) (hr : h.IsRegular) (hname : notes.path h = name)
    (hnotes : notes.records = none) (hahead : es.Ahead D total (h.block ++ (content ++ rest)))
    (hfits : es.next + blockSize + padded content.length < UInt64.size) :
    Arrives D total (Reader.budget es.archive) name content rest (es.next + blockSize)
      (advanceWithin (fuel + 1) notes es) := by
  rw [advanceWithin]
  rcases readHeader_spec hs.whole hahead with ⟨b, hb, hb', hcost⟩ | ⟨f, b, hb, hlt, hstop⟩
  · simp only [hb, hs.not_zero, Bool.false_eq_true, if_false, hnotes, checked_eq hs hfits, hr.role,
      if_true, hname, readParts, hr.not_sparse]
    exact .there hb' hcost
  · simp only [hb]
    exact .stopped hlt hstop

/-- The content of a member that announces a name, and then the header of the file. -/
theorem advanceWithin_announced {l h : Header} {name text content : List UInt8} {fuel : Nat}
    (ha : l.AnnouncesName) (hn : 0 ∉ name ∧ (text = name ∨ text = name ++ [0]))
    (hl : l.States text.length) (hs : h.States content.length) (hr : h.IsRegular)
    (hahead : es.Ahead D total
      (l.block ++ (text ++ (padding text ++ (h.block ++ (content ++ (padding content ++ rest)))))))
    (hfits : total < UInt64.size) (hfuel : Reader.budget es.archive ≤ fuel) :
    Arrives D total (Reader.budget es.archive) name content (padding content ++ rest)
      (es.next + (l.block ++ (text ++ (padding text ++ h.block))).length)
      (advanceWithin (fuel + 1) {} es) := by
  have hnext := hahead.1
  have hwhole := hl.whole
  have hwhole' := hs.whole
  have hpos : 0 < blockSize := by decide
  have htext := length_padded text
  have hcontent := length_padded content
  simp only [List.length_append] at hnext ⊢
  have hchecked := checked_eq hl (show es.next + blockSize + padded text.length < _ by omega)
  rw [advanceWithin]
  rcases readHeader_spec hl.whole hahead with ⟨b, hb, hb', hcost⟩ | ⟨f, b, hb, hlt, hstop⟩
  · simp only [hb, hl.not_zero, Bool.false_eq_true, if_false, hchecked, ha.role, reduceCtorEq,
      Notes.repeated, Option.map_none]
    obtain ⟨fuel, rfl⟩ : ∃ k, fuel = k + 1 := ⟨fuel - 1, by omega⟩
    have hbpos := hb'.2
    simp only [List.length_append] at hbpos
    rcases Content.gather_whole hb' with ⟨c, hc, hc', hspent⟩ | ⟨got, f, c, hc, hle, hstop⟩
    · have hafter : Entries.Ahead D total ⟨c.archive, es.next + blockSize + padded text.length⟩
          (h.block ++ (content ++ (padding content ++ rest))) :=
        ⟨by simp only [List.length_append]; omega, padding text, hc'⟩
      have hheader : Arrives D total (Reader.budget c.archive) name content
          (padding content ++ rest) (es.next + blockSize + padded text.length + blockSize)
          (advanceWithin (fuel + 1) { longName := some text }
            ⟨c.archive, es.next + blockSize + padded text.length⟩) :=
        advanceWithin_header hs hr (Notes.path_announced hn) rfl hafter (by dsimp only; omega)
      simp only [hc]
      have hstart : es.next + blockSize + padded text.length + blockSize =
          es.next + (l.block.length + (text.length + ((padding text).length + h.block.length))) := by
        omega
      rw [hstart] at hheader
      exact hheader.mono (by omega)
    · simp only [hc]
      exact .stopped (by dsimp only; omega) hstop
  · simp only [hb]
    exact .stopped (by dsimp only; omega) hstop

/-- An advance gets to the content of the next file, or fails before it. -/
theorem advance_file (hahead : es.Ahead D total (file.bytes ++ rest)) (hfits : total < UInt64.size) :
    Arrives D total (Reader.budget es.archive) (Utf8.encode file.name) file.content
      (padding file.content ++ rest) (es.next + file.front.length) es.advance := by
  obtain ⟨name, front, content, heads⟩ := file
  dsimp only [StoredFile.bytes] at hahead ⊢
  have hnext := hahead.1
  have hcontent := length_padded content
  simp only [List.length_append] at hnext
  unfold advance
  cases heads with
  | short states regular names =>
    rename_i h
    have hname : Notes.path {} h = Utf8.encode name := names.name_eq
    have hwhole := states.whole
    rw [hwhole]
    simp only [List.append_assoc] at hahead
    exact advanceWithin_header states regular hname rfl hahead (by omega)
  | long announces names described states regular =>
    simp only [List.append_assoc] at hahead
    exact advanceWithin_announced announces names described states regular hahead hfits
      (Nat.le_refl _)

/-- Two blocks of zeros end the archive. -/
theorem advance_end (hahead : es.Ahead D total (List.replicate (2 * blockSize) 0)) :
    (∃ es' rest, es.advance = (.ok none, es') ∧ (D.archive total).Holds es'.archive rest) ∨
    (∃ f es', es.advance = (.error f, es') ∧ D.StopsAt total f es'.archive.position) := by
  have htwo : List.replicate (2 * blockSize) (0 : UInt8) =
      List.replicate blockSize 0 ++ List.replicate blockSize 0 := by
    rw [List.replicate_append_replicate]
    rfl
  have hzero : (List.replicate blockSize (0 : UInt8)).all (· == 0) = true := by simp
  rw [htwo] at hahead
  rw [advance, advanceWithin]
  rcases readHeader_spec List.length_replicate hahead with ⟨b, hb, hholds, -⟩ | ⟨f, b, hb, -, hstop⟩
  · refine Or.inl ⟨⟨b, es.next⟩, _, ?_, hholds⟩
    simp only [hb, hzero, if_true]
    rfl
  · refine Or.inr ⟨f, ⟨b, es.next⟩, ?_, hstop⟩
    simp only [hb]

end Entries

end Tar

end InterfaceIndex
