import InterfaceIndex.Proofs.Layers

/-! What the blocks of an archive take out of a stream, whatever the stream brings: headers, and the
further blocks behind the header of a sparse file. -/
namespace InterfaceIndex.Tar

variable {ρ : Type} [Reader ρ] {F : Flow (Archive ρ)} {a b : Archive ρ} {es es' : Entries ρ}
  {header : Header} {block : List UInt8} {map : SparseMap} {f : Failure} {parts : List Part}
  {amount size count fuel : Nat} {x : Except Failure SparseMap × Entries ρ}

/-- What a run of reads takes out of the stream. -/
theorem Archive.gather_limited {m : Manner} {gathered : Gathered} (hs : F.Sound a)
    (h : Reader.gather m (some amount) a = (gathered, b)) :
    F.Sound b ∧ gathered.bytes.length ≤ amount ∧
      b.position = a.position + gathered.bytes.length ∧
      Reader.budget b + gathered.bytes.length ≤ Reader.budget a := by
  have hspends : F.Spends m (some amount) _ _ := F.gather_spends hs
  have hpos := a.position_gather m (some amount)
  rw [h] at hspends hpos
  exact ⟨hspends.sound, hspends.within amount rfl, hpos, hspends.cost⟩

/-- What has been skipped has been read. -/
theorem Archive.skip_none (hs : F.Sound a) (h : a.skip amount = (none, b)) :
    F.Sound b ∧ b.position = a.position + amount ∧ Reader.budget b + amount ≤ Reader.budget a := by
  unfold skip at h
  rcases hg : Reader.gather ⟨32768, false⟩ (some amount) a with ⟨⟨bytes, _ | f⟩, d⟩
  · obtain ⟨hsound, hwithin, hpos, hcost⟩ := gather_limited hs hg
    rw [hg] at h
    dsimp only at *
    split at h
    · simp at h
    · obtain rfl : d = b := by simpa using h
      exact ⟨hsound, by omega, by omega⟩
  · simp [hg] at h

/-- A block is taken whole. -/
theorem Archive.readBlock_some (hs : F.Sound a) (h : a.readBlock = (.ok (some block), b)) :
    F.Sound b ∧ b.position = a.position + blockSize ∧
      Reader.budget b + blockSize ≤ Reader.budget a := by
  unfold readBlock at h
  rcases hg : Reader.gather ⟨blockSize, false⟩ (some blockSize) a with ⟨⟨bytes, _ | f⟩, d⟩
  · obtain ⟨hsound, hwithin, hpos, hcost⟩ := gather_limited hs hg
    rw [hg] at h
    dsimp only at *
    split at h
    · simp at h
    · split at h
      · simp at h
      · obtain rfl : d = b := (Prod.mk.inj h).2
        exact ⟨hsound, by omega, by omega⟩
  · simp [hg] at h

theorem Archive.reaches_block {answer : Except Failure (Option (List UInt8))}
    (h : a.readBlock = (answer, b)) : Reader.Reaches a b := by
  have hreach := a.reaches_readBlock
  rwa [h] at hreach

namespace Entries

/-- A header is read where it is due, unless the archive has gone past that place. -/
theorem readHeader_some (hs : F.Sound es.archive) (hle : es.archive.position ≤ es.next)
    (h : es.readHeader = (.ok (some header), a)) :
    F.Sound a ∧ a.position = es.next + blockSize ∧
      Reader.budget a + blockSize ≤ Reader.budget es.archive := by
  unfold readHeader at h
  cases hskip : es.archive.skip (es.next - es.archive.position) with
  | mk failure b =>
    cases failure with
    | some f => simp [hskip] at h
    | none =>
      obtain ⟨hb, hpos, hcost⟩ := Archive.skip_none hs hskip
      rw [hskip] at h
      dsimp only at h
      split at h
      · simp at h
      · next answer c hblock =>
        obtain ⟨hanswer, rfl⟩ := Prod.mk.inj h
        obtain ⟨block, rfl⟩ : ∃ block, answer = some block := by
          cases answer with
          | none => simp at hanswer
          | some block => exact ⟨block, rfl⟩
        obtain ⟨hc, hpos', hcost'⟩ := Archive.readBlock_some hb hblock
        exact ⟨hc, by omega, by omega⟩

/-- Blocks with descriptors one behind another, with nothing to bound their number: how many are read,
and what they come to. Each puts off the next header by its own size. -/
inductive Extends (size : Nat) :
    SparseMap → Entries ρ → Nat → Except Failure SparseMap × Entries ρ → Prop
  | unread {map : SparseMap} {es : Entries ρ} {f : Failure} {a : Archive ρ}
      (block : es.archive.readBlock = (.error f, a)) :
      Extends size map es 0 (.error f, { es with archive := a })
  | missing {map : SparseMap} {es : Entries ρ} {a : Archive ρ}
      (block : es.archive.readBlock = (.ok none, a)) :
      Extends size map es 0 (.error (.other "failed to read extension"), { es with archive := a })
  | refused {map : SparseMap} {es : Entries ρ} {f : Failure} {a : Archive ρ} {bytes : List UInt8}
      (block : es.archive.readBlock = (.ok (some bytes), a))
      (add : map.addAll size (moreDescriptors bytes) = .error f) :
      Extends size map es 1 (.error f, ⟨a, es.next + blockSize⟩)
  | last {map map' : SparseMap} {es : Entries ρ} {a : Archive ρ} {bytes : List UInt8}
      (block : es.archive.readBlock = (.ok (some bytes), a))
      (add : map.addAll size (moreDescriptors bytes) = .ok map') (ends : ¬ goesOn bytes = true) :
      Extends size map es 1 (.ok map', ⟨a, es.next + blockSize⟩)
  | onward {map map' : SparseMap} {es : Entries ρ} {a : Archive ρ} {bytes : List UInt8} {count : Nat}
      {x : Except Failure SparseMap × Entries ρ}
      (block : es.archive.readBlock = (.ok (some bytes), a))
      (add : map.addAll size (moreDescriptors bytes) = .ok map') (more : goesOn bytes = true)
      (others : Extends size map' ⟨a, es.next + blockSize⟩ count x) :
      Extends size map es (count + 1) x

/-- What some further blocks take out of the stream, by their number. -/
structure Extended (F : Flow (Archive ρ)) (es : Entries ρ) (count : Nat) (whole : Prop)
    (es' : Entries ρ) : Prop where
  sound : F.Sound es'.archive
  next : es'.next = es.next + blockSize * count
  taken : es.archive.position + blockSize * count ≤ es'.archive.position
  exact : whole → es'.archive.position = es.archive.position + blockSize * count
  cost : Reader.budget es'.archive + blockSize * count ≤ Reader.budget es.archive

theorem Extended.none {whole : Prop} (hs : F.Sound es.archive) : Extended F es 0 whole es :=
  ⟨hs, rfl, Nat.le_refl _, fun _ => rfl, Nat.le_refl _⟩

/-- A stretch that cannot be read to its end takes what has come of it. -/
theorem Extended.unread (hs : F.Sound es.archive) (hreach : Reader.Reaches es.archive a) :
    Extended F es 0 False { es with archive := a } := by
  obtain ⟨hsound, hcost⟩ := F.reaches hreach hs
  exact ⟨hsound, rfl, Archive.position_le hreach, False.elim, hcost⟩

theorem Extended.single {whole : Prop} (hs : F.Sound es.archive)
    (hblock : es.archive.readBlock = (.ok (some block), a)) :
    Extended F es 1 whole ⟨a, es.next + blockSize⟩ := by
  obtain ⟨hsound, hpos, hcost⟩ := Archive.readBlock_some hs hblock
  exact ⟨hsound, by simp, by simp [hpos], fun _ => by simpa using hpos, by simpa using hcost⟩

theorem Extended.onward {whole : Prop} (hs : F.Sound es.archive)
    (hblock : es.archive.readBlock = (.ok (some block), a))
    (h : Extended F ⟨a, es.next + blockSize⟩ count whole es') :
    Extended F es (count + 1) whole es' := by
  obtain ⟨-, hpos, hcost⟩ := Archive.readBlock_some hs hblock
  have hmul : blockSize * (count + 1) = blockSize + blockSize * count := by
    rw [Nat.mul_succ, Nat.add_comm]
  have hnext := h.next
  have htaken := h.taken
  have hmore := h.cost
  have hexact := h.exact
  dsimp only at hnext htaken hmore hexact
  constructor
  · exact h.sound
  · omega
  · omega
  · intro hw
    have := hexact hw
    omega
  · omega

/-- The induction is on the blocks. -/
theorem Extends.extended (h : Extends size map es count x) (hs : F.Sound es.archive) :
    Extended F es count (∃ map', x.1 = .ok map') x.2 := by
  induction h with
  | unread block =>
    exact { Extended.unread hs (Archive.reaches_block block) with exact := by simp }
  | missing block =>
    exact { Extended.unread hs (Archive.reaches_block block) with exact := by simp }
  | refused block add => exact .single hs block
  | last block add ends => exact .single hs block
  | onward block add more others ih =>
    exact .onward hs block (ih (Archive.readBlock_some hs block).1)

/-- Further blocks are read one behind another. The induction is on the number of them allowed: each
takes bytes out of the stream, which leaves enough for the others. -/
theorem extends_extendWithin (hs : F.Sound es.archive) (hfuel : Reader.budget es.archive < fuel) :
    ∃ count, Extends size map es count (extendWithin size fuel map es) := by
  induction fuel generalizing es map with
  | zero => omega
  | succ fuel ih =>
    rw [extendWithin]
    rcases hblock : es.archive.readBlock with ⟨f | _ | block, a⟩
    · exact ⟨0, .unread hblock⟩
    · exact ⟨0, .missing hblock⟩
    · dsimp only
      cases hadd : map.addAll size (moreDescriptors block) with
      | error f => exact ⟨1, .refused hblock hadd⟩
      | ok map' =>
        dsimp only
        split
        · next hmore =>
          obtain ⟨hsound, -, hcost⟩ := Archive.readBlock_some hs hblock
          have hsize : 0 < blockSize := by decide
          obtain ⟨count, hothers⟩ :=
            @ih ⟨a, es.next + blockSize⟩ map' hsound (by dsimp only; omega)
          exact ⟨count + 1, .onward hblock hadd hmore hothers⟩
        · next hover => exact ⟨1, .last hblock hadd hover⟩

/-- What further blocks come to does not depend on how many more are allowed than there are. -/
theorem Extends.extendWithin_eq (h : Extends size map es count x) (more : Nat) :
    extendWithin size (more + count + 1) map es = x := by
  induction h with
  | unread block => simp only [extendWithin, block]
  | missing block => simp only [extendWithin, block]
  | refused block add => simp only [extendWithin, block, add]
  | last block add ends => simp only [extendWithin, block, add, if_neg ends]
  | onward block add goes others ih =>
    simp only [extendWithin, block, add, if_pos goes]
    exact ih

/-- What is read behind the header of an entry, block by block, and the parts that it comes to. -/
inductive Prepares (h : Header) (size : Nat) :
    Entries ρ → Nat → Except Failure (List Part) × Entries ρ → Prop
  | plain {es : Entries ρ} (sparse : h.isSparse = false) :
      Prepares h size es 0 (.ok [.data size], es)
  | foreign {es : Entries ρ} (sparse : h.isSparse = true) (gnu : h.isGnu = false) :
      Prepares h size es 0 (.error (.other "sparse entry type listed but not GNU header"), es)
  | refused {es : Entries ρ} {f : Failure} (sparse : h.isSparse = true) (gnu : h.isGnu = true)
      (own : SparseMap.addAll size ⟨[], 0, size⟩ h.descriptors = .error f) :
      Prepares h size es 0 (.error f, es)
  | short {es : Entries ρ} {map : SparseMap} (sparse : h.isSparse = true) (gnu : h.isGnu = true)
      (own : SparseMap.addAll size ⟨[], 0, size⟩ h.descriptors = .ok map)
      (extended : h.isExtended = false) : Prepares h size es 0 (map.finish h, es)
  | broken {es es' : Entries ρ} {map : SparseMap} {count : Nat} {f : Failure}
      (sparse : h.isSparse = true) (gnu : h.isGnu = true)
      (own : SparseMap.addAll size ⟨[], 0, size⟩ h.descriptors = .ok map)
      (extended : h.isExtended = true) (others : Extends size map es count (.error f, es')) :
      Prepares h size es count (.error f, es')
  | long {es es' : Entries ρ} {map map' : SparseMap} {count : Nat}
      (sparse : h.isSparse = true) (gnu : h.isGnu = true)
      (own : SparseMap.addAll size ⟨[], 0, size⟩ h.descriptors = .ok map)
      (extended : h.isExtended = true) (others : Extends size map es count (.ok map', es')) :
      Prepares h size es count (map'.finish h, es')

variable {y : Except Failure (List Part) × Entries ρ}

theorem Prepares.extended (h : Prepares header size es count y) (hs : F.Sound es.archive) :
    Extended F es count (∃ parts, y.1 = .ok parts) y.2 := by
  cases h with
  | plain sparse => exact .none hs
  | foreign sparse gnu => exact .none hs
  | refused sparse gnu own => exact .none hs
  | short sparse gnu own extended => exact .none hs
  | broken sparse gnu own extended others =>
    exact { others.extended hs with exact := by simp }
  | long sparse gnu own extended others =>
    exact { others.extended hs with exact := fun _ => (others.extended hs).exact ⟨_, rfl⟩ }

theorem prepares_readParts (header : Header) (size : Nat) (hs : F.Sound es.archive) :
    ∃ count, Prepares header size es count (readParts header size es) := by
  cases hsparse : header.isSparse with
  | false => exact ⟨0, by simpa [readParts, hsparse] using .plain hsparse⟩
  | true =>
    cases hgnu : header.isGnu with
    | false => exact ⟨0, by simpa [readParts, hsparse, hgnu] using .foreign hsparse hgnu⟩
    | true =>
      simp only [readParts, hsparse, hgnu, if_true, readMap]
      cases hown : SparseMap.addAll size ⟨[], 0, size⟩ header.descriptors with
      | error f => exact ⟨0, .refused hsparse hgnu hown⟩
      | ok map =>
        cases hextended : header.isExtended with
        | false => exact ⟨0, .short hsparse hgnu hown hextended⟩
        | true =>
          obtain ⟨count, hothers⟩ : ∃ count, Extends size map es count
              (extendWithin size (Reader.budget es.archive + 1) map es) :=
            extends_extendWithin hs (Nat.lt_succ_self _)
          dsimp only
          rw [if_pos rfl]
          generalize extendWithin size (Reader.budget es.archive + 1) map es = x at hothers
          rcases x with ⟨f | map', es'⟩
          · exact ⟨count, .broken hsparse hgnu hown hextended hothers⟩
          · exact ⟨count, .long hsparse hgnu hown hextended hothers⟩

/-- The blocks that there are decide what is read, not the number of them allowed. -/
theorem Prepares.readParts_eq (h : Prepares header size es count y) (hs : F.Sound es.archive) :
    readParts header size es = y := by
  have on {map : SparseMap} {count : Nat} {x : Except Failure SparseMap × Entries ρ}
      (hothers : Extends size map es count x) :
      extendWithin size (Reader.budget es.archive + 1) map es = x := by
    have hcost := (hothers.extended hs).cost
    have hblock : 0 < blockSize := by decide
    have hcount : count ≤ blockSize * count := Nat.le_mul_of_pos_left _ hblock
    obtain ⟨more, hmore⟩ : ∃ more, Reader.budget es.archive = more + count :=
      ⟨Reader.budget es.archive - count, by omega⟩
    rw [hmore]
    exact hothers.extendWithin_eq more
  cases h with
  | plain sparse => simp [readParts, sparse]
  | foreign sparse gnu => simp [readParts, sparse, gnu]
  | refused sparse gnu own => simp [readParts, readMap, sparse, gnu, own]
  | short sparse gnu own extended => simp [readParts, readMap, sparse, gnu, own, extended]
  | broken sparse gnu own extended others =>
    simp [readParts, readMap, sparse, gnu, own, extended, on others]
  | long sparse gnu own extended others =>
    simp [readParts, readMap, sparse, gnu, own, extended, on others]

end Entries

end InterfaceIndex.Tar
