import InterfaceIndex.Proofs.Tar.Blocks
import InterfaceIndex.Proofs.Tar.Payload

/-! What an advance takes out of a stream, member by member, whatever the stream brings: every header
takes a block of its own, and no member sends the archive back. -/
namespace InterfaceIndex.Tar

/-- A member that has been met: where the archive stood when it was advanced to the header, where the
header was due, where the archive stood with the header read, the size of what is stored of its
content, and how many further blocks with descriptors were read behind the header. -/
structure Met where
  stood : Nat
  due : Nat
  behind : Nat
  size : Nat
  extensions : Nat
  deriving DecidableEq

/-- Where the header after a member is due. -/
def Met.next (m : Met) : Nat := m.due + blockSize + padded m.size + blockSize * m.extensions

/-- How many blocks some members take with their headers. -/
def blocksOf : List Met → Nat
  | [] => 0
  | m :: mets => m.extensions + 1 + blocksOf mets

/-- Members that lie one behind another, from where the first header is due to where the one after the
last is. Each header is the block at the place where it is due, ahead of the archive by less than 64
bits can tell. What is counted to 64 bits is the place behind the header; from there on, the place
behind the content has to fit, but further blocks are added to it without a check. -/
inductive Laid : Nat → List Met → Nat → Prop
  | nil {position : Nat} : Laid position [] position
  | cons {m : Met} {mets : List Met} {stop : Nat} (onward : m.stood ≤ m.due)
      (near : m.due < m.stood + UInt64.size) (whole : m.behind = m.due + blockSize)
      (fits : m.behind % UInt64.size + padded m.size < UInt64.size)
      (others : Laid m.next mets stop) : Laid m.due (m :: mets) stop

variable {ρ : Type} [Reader ρ] {F : Flow (Archive ρ)} {a b : Archive ρ} {c e : Content ρ}
  {es es' es'' : Entries ρ} {notes : Notes} {header : Header} {m : Met} {mets others : List Met}
  {f : Failure} {size next start middle stop fuel count : Nat}
  {x : Except Failure (Option Entry) × Entries ρ}

@[simp] theorem blocksOf_nil : blocksOf [] = 0 := rfl

@[simp] theorem blocksOf_cons (m : Met) (mets : List Met) :
    blocksOf (m :: mets) = m.extensions + 1 + blocksOf mets := rfl

@[simp] theorem blocksOf_append (mets others : List Met) :
    blocksOf (mets ++ others) = blocksOf mets + blocksOf others := by
  induction mets with
  | nil => simp
  | cons m mets ih => simp [ih, Nat.add_assoc]

theorem length_le_blocksOf (mets : List Met) : mets.length ≤ blocksOf mets := by
  induction mets with
  | nil => exact Nat.le_refl _
  | cons m mets ih =>
    rw [blocksOf_cons, List.length_cons]
    omega

theorem Laid.append (h : Laid start mets middle) (h' : Laid middle others stop) :
    Laid start (mets ++ others) stop := by
  induction h with
  | nil => exact h'
  | cons onward near whole fits _ ih => exact .cons onward near whole fits (ih h')

/-- Places that lie in order and are counted to 64 bits tell their distance, if that fits. -/
theorem sub_of_near {stood due : Nat} (onward : stood ≤ due) (near : due < stood + UInt64.size) :
    (UInt64.ofNat due - UInt64.ofNat stood).toNat = due - stood := by
  obtain ⟨gap, rfl⟩ := Nat.exists_eq_add_of_le onward
  rw [UInt64.ofNat_add, UInt64.add_comm, UInt64.add_sub_cancel, UInt64.toNat_ofNat_of_lt' (by omega)]
  omega

/-- To skip to the next header it does not matter that places are counted to 64 bits. -/
theorem Laid.skipped (h : Laid start mets stop) (hm : m ∈ mets) :
    (UInt64.ofNat m.due - UInt64.ofNat m.stood).toNat = m.due - m.stood := by
  induction h with
  | nil => simp at hm
  | cons onward near whole fits others ih =>
    rcases List.mem_cons.mp hm with rfl | hm
    · exact sub_of_near onward near
    · exact ih hm

/-- Without further blocks no place runs over, as long as the archive itself has fewer bytes than 64
bits count. -/
theorem Laid.fits (h : Laid start mets stop) (hstart : start < UInt64.size)
    (hplain : ∀ m ∈ mets, m.extensions = 0) (hshort : ∀ m ∈ mets, m.behind < UInt64.size) :
    (∀ m ∈ mets, m.next < UInt64.size) ∧ stop < UInt64.size := by
  induction h with
  | nil => exact ⟨by simp, hstart⟩
  | cons onward near whole fits others ih =>
    rename_i m mets stop
    have hbehind := hshort m List.mem_cons_self
    have hnone := hplain m List.mem_cons_self
    rw [Nat.mod_eq_of_lt hbehind] at fits
    have hnext : m.next < UInt64.size := by
      rw [Met.next, hnone]
      omega
    obtain ⟨hothers, hstop⟩ := ih hnext (fun m hm => hplain m (List.mem_cons_of_mem _ hm))
      fun m hm => hshort m (List.mem_cons_of_mem _ hm)
    exact ⟨List.forall_mem_cons.mpr ⟨hnext, hothers⟩, hstop⟩

namespace Entries

/-- A member that an advance meets, as it stands in the archive. -/
def met (es : Entries ρ) (a : Archive ρ) (size extensions : Nat) : Met :=
  ⟨es.archive.position, es.next, a.position, size, extensions⟩

/-- An advance from member to member, with nothing to bound their number: those that it meets, and
what it comes to. -/
inductive Meets : Notes → Entries ρ → List Met → Except Failure (Option Entry) × Entries ρ → Prop
  /-- The next header cannot be read. -/
  | unread {notes : Notes} {es : Entries ρ} {f : Failure} {a : Archive ρ}
      (header : es.readHeader = (.error f, a)) : Meets notes es [] (.error f, { es with archive := a })
  /-- There is no further header. -/
  | exhausted {notes : Notes} {es : Entries ρ} {a : Archive ρ} (header : es.readHeader = (.ok none, a)) :
      Meets notes es []
        (if notes.isEmpty then .ok none
          else .error (.other "members found describing a future member but no future member found"),
        { es with archive := a })
  | refused {notes : Notes} {es : Entries ρ} {h : Header} {f : Failure} {a : Archive ρ}
      (header : es.readHeader = (.ok (some h), a))
      (check : checked h notes.records es.next = .error f) :
      Meets notes es [] (.error f, { es with archive := a })
  | entry {notes : Notes} {es es' : Entries ρ} {h : Header} {size next count : Nat}
      {parts : List Part} {a : Archive ρ}
      (header : es.readHeader = (.ok (some h), a))
      (check : checked h notes.records es.next = .ok (size, next)) (role : h.role = .entry)
      (prepare : Prepares h size ⟨a, next⟩ count (.ok parts, es')) :
      Meets notes es [es.met a size count] (.ok (some ⟨notes.path h, parts⟩), es')
  /-- The parts of the entry cannot be told. -/
  | unmapped {notes : Notes} {es es' : Entries ρ} {h : Header} {size next count : Nat} {f : Failure}
      {a : Archive ρ} (header : es.readHeader = (.ok (some h), a))
      (check : checked h notes.records es.next = .ok (size, next)) (role : h.role = .entry)
      (prepare : Prepares h size ⟨a, next⟩ count (.error f, es')) :
      Meets notes es [es.met a size count] (.error f, es')
  /-- The member says what another one has said. -/
  | repeated {notes : Notes} {es : Entries ρ} {h : Header} {size next : Nat} {f : Failure}
      {a : Archive ρ} (header : es.readHeader = (.ok (some h), a))
      (check : checked h notes.records es.next = .ok (size, next)) (role : h.role ≠ .entry)
      (again : notes.repeated h.role = some f) :
      Meets notes es [es.met a size 0] (.error f, ⟨a, next⟩)
  /-- What the member says cannot be read. -/
  | broken {notes : Notes} {es : Entries ρ} {h : Header} {size next : Nat} {f : Failure}
      {bytes : List UInt8} {a : Archive ρ} {c : Content ρ}
      (header : es.readHeader = (.ok (some h), a))
      (check : checked h notes.records es.next = .ok (size, next)) (role : h.role ≠ .entry)
      (first : notes.repeated h.role = none)
      (content : Reader.gather .whole none (⟨a, [.data size]⟩ : Content ρ) = (⟨bytes, some f⟩, c)) :
      Meets notes es [es.met a size 0] (.error f, ⟨c.archive, next⟩)
  | onward {notes : Notes} {es : Entries ρ} {h : Header} {size next : Nat} {bytes : List UInt8}
      {a : Archive ρ} {c : Content ρ} {mets : List Met}
      {x : Except Failure (Option Entry) × Entries ρ}
      (header : es.readHeader = (.ok (some h), a))
      (check : checked h notes.records es.next = .ok (size, next)) (role : h.role ≠ .entry)
      (first : notes.repeated h.role = none)
      (content : Reader.gather .whole none (⟨a, [.data size]⟩ : Content ρ) = (⟨bytes, none⟩, c))
      (more : Meets (notes.add bytes h.role) ⟨c.archive, next⟩ mets x) :
      Meets notes es (es.met a size 0 :: mets) x

end Entries

/-- What has been taken out of a stream between two places of an archive, with some members met on the
way: they lie one behind another, and each of them has taken blocks that the archive has passed. -/
structure Trail (F : Flow (Archive ρ)) (es : Entries ρ) (mets : List Met) (es' : Entries ρ) : Prop where
  sound : F.Sound es'.archive
  near : es'.next < es'.archive.position + UInt64.size
  laid : Laid es.next mets es'.next
  behind : ∀ m ∈ mets, m.behind + blockSize * m.extensions ≤ es'.archive.position
  taken : es.archive.position + blockSize * blocksOf mets ≤ es'.archive.position
  cost : Reader.budget es'.archive + blockSize * blocksOf mets ≤ Reader.budget es.archive

theorem Trail.read (hs : F.Sound es.archive) (hnear : es.next < es.archive.position + UInt64.size)
    (hread : Reader.Reaches es.archive a) : Trail F es [] ⟨a, es.next⟩ := by
  obtain ⟨hsound, hcost⟩ := F.reaches hread hs
  have hgrown := Archive.position_le hread
  exact ⟨hsound, by dsimp only; omega, .nil, by simp, hgrown, by simpa using hcost⟩

theorem Trail.trans (h : Trail F es mets es') (h' : Trail F es' others es'') :
    Trail F es (mets ++ others) es'' := by
  have htaken := h.taken
  have htaken' := h'.taken
  have hcost := h.cost
  have hcost' := h'.cost
  refine ⟨h'.sound, h'.near, h.laid.append h'.laid, ?_, ?_, ?_⟩
  · intro m hm
    rcases List.mem_append.mp hm with hm | hm
    · have := h.behind m hm
      omega
    · exact h'.behind m hm
  · rw [blocksOf_append, Nat.mul_add]
    omega
  · rw [blocksOf_append, Nat.mul_add]
    omega

theorem Trail.blocksOf_le (h : Trail F es mets es') :
    blocksOf mets ≤ (es'.archive.position - es.archive.position) / blockSize := by
  have htaken := h.taken
  rw [Nat.le_div_iff_mul_le (by decide), Nat.mul_comm]
  omega

/-- A member takes blocks out of the stream with its headers, and then no more than its content. -/
theorem Trail.member {records : Option (List UInt8)} {whole : Prop} (hs : F.Sound es.archive)
    (hle : es.archive.position ≤ es.next) (hnear : es.next < es.archive.position + UInt64.size)
    (hheader : es.readHeader = (.ok (some header), a))
    (hcheck : checked header records es.next = .ok (size, next))
    (hextended : Entries.Extended F ⟨a, next⟩ count whole es') :
    Trail F es [es.met a size count] es' ∧
      (whole → es'.archive.position + size ≤ es'.next) := by
  obtain ⟨ha, hpos, hcost⟩ := Entries.readHeader_some hs hle hheader
  obtain ⟨rfl, hfits⟩ := checked_ok hcheck
  have hnext := hextended.next
  have htaken := hextended.taken
  have hspent := hextended.cost
  have hexact := hextended.exact
  have hpadded := le_padded size
  have hone : blockSize * blocksOf [es.met a size count] = blockSize * count + blockSize := by
    rw [blocksOf_cons, blocksOf_nil]
    rfl
  dsimp only at hnext htaken hspent hexact
  refine ⟨⟨hextended.sound, by omega, ?_, ?_, by omega, by omega⟩, ?_⟩
  · have hlaid : Laid es.next [es.met a size count] (es.met a size count).next :=
      .cons (m := es.met a size count) hle hnear hpos (by rw [← hpos] at hfits; exact hfits) .nil
    rwa [show (es.met a size count).next = es'.next from hnext.symm] at hlaid
  · simpa [Entries.met] using htaken
  · intro hwhole
    have := hexact hwhole
    omega

/-- A member about other members, whose content is read. -/
theorem Trail.note {records : Option (List UInt8)} (hs : F.Sound es.archive)
    (hle : es.archive.position ≤ es.next) (hnear : es.next < es.archive.position + UInt64.size)
    (hheader : es.readHeader = (.ok (some header), a))
    (hcheck : checked header records es.next = .ok (size, next))
    (hread : Reader.Reaches (⟨a, [.data size]⟩ : Content ρ) c) :
    Trail F es [es.met a size 0] ⟨c.archive, next⟩ ∧ c.archive.position ≤ next := by
  have ha := (Entries.readHeader_some hs hle hheader).1
  have hnone : Entries.Extended F ⟨a, next⟩ 0 True ⟨a, next⟩ := .none ha
  obtain ⟨hheaded, hstop⟩ := Trail.member hs hle hnear hheader hcheck hnone
  have hcontent := (Content.stop_reaches (c := ⟨a, [.data size]⟩) ha hread).2
  have hinside := hstop trivial
  simp only [storedIn_cons, storedIn_nil, Part.stored] at hcontent
  dsimp only at hinside
  have hbehind : Trail F ⟨a, next⟩ [] ⟨c.archive, next⟩ :=
    .read ha hheaded.near (Content.reaches_archive hread)
  exact ⟨by simpa using hheaded.trans hbehind, by omega⟩

namespace Entries

theorem reaches_header {answer : Except Failure (Option Header)} (h : es.readHeader = (answer, a)) :
    Reader.Reaches es.archive a := by
  have hreach := es.reaches_readHeader
  rwa [h] at hreach

theorem reaches_content {gathered : Gathered}
    (h : Reader.gather .whole none (⟨a, [.data size]⟩ : Content ρ) = (gathered, c)) :
    Reader.Reaches (⟨a, [.data size]⟩ : Content ρ) c := by
  have hreach := Reader.reaches_gather .whole none (⟨a, [.data size]⟩ : Content ρ)
  rwa [h] at hreach

/-- The induction is on the members: each of them leaves the archive before the place where the next
header is due. -/
theorem Meets.trail (h : Meets notes es mets x) (hs : F.Sound es.archive)
    (hle : es.archive.position ≤ es.next) (hnear : es.next < es.archive.position + UInt64.size) :
    Trail F es mets x.2 ∧ ∀ entry, x.1 = .ok (some entry) →
      x.2.archive.position + storedIn entry.parts ≤ x.2.next := by
  induction h with
  | unread header => exact ⟨.read hs hnear (reaches_header header), by simp⟩
  | exhausted header =>
    refine ⟨.read hs hnear (reaches_header header), ?_⟩
    intro entry hentry
    split at hentry <;> simp at hentry
  | refused header check => exact ⟨.read hs hnear (reaches_header header), by simp⟩
  | entry header check role prepare =>
    have ha := (readHeader_some hs hle header).1
    obtain ⟨htrail, hstop⟩ := Trail.member hs hle hnear header check (prepare.extended ha)
    refine ⟨htrail, ?_⟩
    intro entry hentry
    simp only [Except.ok.injEq, Option.some.injEq] at hentry
    rw [← hentry, storedIn_readParts (prepare.readParts_eq ha)]
    exact hstop ⟨_, rfl⟩
  | unmapped header check role prepare =>
    have ha := (readHeader_some hs hle header).1
    exact ⟨(Trail.member hs hle hnear header check (prepare.extended ha)).1, by simp⟩
  | repeated header check role again =>
    exact ⟨(Trail.note hs hle hnear header check .refl).1, by simp⟩
  | broken header check role first content =>
    exact ⟨(Trail.note hs hle hnear header check (reaches_content content)).1, by simp⟩
  | onward header check role first content more ih =>
    obtain ⟨htrail, hstop⟩ := Trail.note hs hle hnear header check (reaches_content content)
    obtain ⟨hmore, hentry⟩ := ih htrail.sound hstop htrail.near
    exact ⟨htrail.trans hmore, hentry⟩

/-- An entry is a member that has been met. -/
theorem Meets.ne_nil {entry : Entry} (h : Meets notes es mets (.ok (some entry), es')) :
    mets ≠ [] := by
  generalize hx : ((.ok (some entry), es') : Except Failure (Option Entry) × Entries ρ) = x at h
  cases h with
  | exhausted header =>
    have hanswer := congrArg Prod.fst hx
    dsimp only at hanswer
    split at hanswer <;> simp at hanswer
  | _ => simp at hx ⊢

/-- An advance meets members. The induction is on the number of them allowed: each takes a block out of
the stream, which leaves enough for the others. -/
theorem meets_advanceWithin (hs : F.Sound es.archive) (hle : es.archive.position ≤ es.next)
    (hnear : es.next < es.archive.position + UInt64.size) (hfuel : Reader.budget es.archive < fuel) :
    ∃ mets, Meets notes es mets (es.advanceWithin fuel notes) := by
  induction fuel generalizing es notes with
  | zero => omega
  | succ fuel ih =>
    rw [advanceWithin]
    rcases hheader : es.readHeader with ⟨f | _ | header, a⟩
    · exact ⟨[], .unread hheader⟩
    · exact ⟨[], .exhausted hheader⟩
    · dsimp only
      cases hcheck : checked header notes.records es.next with
      | error f => exact ⟨[], .refused hheader hcheck⟩
      | ok extent =>
        obtain ⟨size, next⟩ := extent
        dsimp only
        split
        · next hrole =>
          have ha : F.Sound (⟨a, next⟩ : Entries ρ).archive := (readHeader_some hs hle hheader).1
          obtain ⟨count, hprepare⟩ := prepares_readParts header size ha
          rcases hx : readParts header size ⟨a, next⟩ with ⟨f | parts, es'⟩
          · exact ⟨_, .unmapped hheader hcheck hrole (hx ▸ hprepare)⟩
          · exact ⟨_, .entry hheader hcheck hrole (hx ▸ hprepare)⟩
        · next hrole =>
          cases hfirst : notes.repeated header.role with
          | some f => exact ⟨_, .repeated hheader hcheck hrole hfirst⟩
          | none =>
            dsimp only
            rcases hcontent : Reader.gather .whole none (⟨a, [.data size]⟩ : Content ρ) with
              ⟨⟨bytes, failure⟩, c⟩
            cases failure with
            | some f => exact ⟨_, .broken hheader hcheck hrole hfirst hcontent⟩
            | none =>
              obtain ⟨htrail, hstop⟩ :=
                Trail.note hs hle hnear hheader hcheck (reaches_content hcontent)
              have hcost := htrail.cost
              have hblock : 0 < blockSize := by decide
              simp only [blocksOf_cons, blocksOf_nil, met, Nat.zero_add, Nat.add_zero, Nat.mul_one]
                at hcost
              have hless : Reader.budget c.archive < fuel := by omega
              obtain ⟨mets, hmore⟩ := @ih ⟨c.archive, next⟩ (notes.add bytes header.role)
                htrail.sound hstop htrail.near hless
              exact ⟨_, .onward hheader hcheck hrole hfirst hcontent hmore⟩

/-- What an advance comes to does not depend on how many more members are allowed than it meets. -/
theorem Meets.advanceWithin_eq (h : Meets notes es mets x) (hs : F.Sound es.archive)
    (hle : es.archive.position ≤ es.next) (hnear : es.next < es.archive.position + UInt64.size)
    (more : Nat) : es.advanceWithin (more + mets.length + 1) notes = x := by
  induction h with
  | unread header => simp only [advanceWithin, header]
  | exhausted header => simp only [advanceWithin, header]
  | refused header check => simp only [advanceWithin, header, check]
  | entry header check role prepare =>
    have hparts := prepare.readParts_eq (readHeader_some hs hle header).1
    simp only [advanceWithin, header, check, if_pos role, hparts]
  | unmapped header check role prepare =>
    have hparts := prepare.readParts_eq (readHeader_some hs hle header).1
    simp only [advanceWithin, header, check, if_pos role, hparts]
  | repeated header check role again =>
    simp only [advanceWithin, header, check, if_neg role, again]
  | broken header check role first content =>
    simp only [advanceWithin, header, check, if_neg role, first, content]
  | onward header check role first content _ ih =>
    obtain ⟨htrail, hstop⟩ := Trail.note hs hle hnear header check (reaches_content content)
    simp only [advanceWithin, header, check, if_neg role, first, content]
    exact ih htrail.sound hstop htrail.near

theorem Meets.advance_eq (h : Meets {} es mets x) (hs : F.Sound es.archive)
    (hle : es.archive.position ≤ es.next) (hnear : es.next < es.archive.position + UInt64.size) :
    es.advance = x := by
  have hcost := (h.trail hs hle hnear).1.cost
  have hblock : 0 < blockSize := by decide
  have hblocks := length_le_blocksOf mets
  have hmets : blocksOf mets ≤ blockSize * blocksOf mets := Nat.le_mul_of_pos_left _ hblock
  obtain ⟨more, hmore⟩ : ∃ more, Reader.budget es.archive = more + mets.length :=
    ⟨Reader.budget es.archive - mets.length, by omega⟩
  rw [advance, hmore]
  exact h.advanceWithin_eq hs hle hnear more

theorem meets_advance (hs : F.Sound es.archive) (hle : es.archive.position ≤ es.next)
    (hnear : es.next < es.archive.position + UInt64.size) :
    ∃ mets, Meets {} es mets es.advance :=
  meets_advanceWithin hs hle hnear (Nat.lt_succ_self _)

end Entries

end InterfaceIndex.Tar
