import InterfaceIndex.Proofs.Stream.Reach
import InterfaceIndex.Proofs.Tar.Sparse

/-! A tar archive and the contents in it deliver the bytes of the stream, and keep count of them. -/
namespace InterfaceIndex

namespace Tar

variable {ρ : Type} [Reader ρ] {a b : Archive ρ} {n : Nat} {bytes : List UInt8} {f : Failure}
  {parts : List Part}

theorem Archive.read_ok (ha : Reader.read a n = (.ok bytes, b)) :
    Reader.read a.inner n = (.ok bytes, b.inner) ∧ b.position = a.position + bytes.length := by
  change a.read n = _ at ha
  unfold read at ha
  split at ha
  · next piece inner hi =>
    simp only [Prod.mk.injEq, Except.ok.injEq] at ha
    obtain ⟨rfl, rfl⟩ := ha
    exact ⟨hi, rfl⟩
  · simp at ha

theorem Archive.read_error (ha : Reader.read a n = (.error f, b)) :
    Reader.read a.inner n = (.error f, b.inner) ∧ b.position = a.position := by
  change a.read n = _ at ha
  unfold read at ha
  split at ha
  · simp at ha
  · next g inner hi =>
    simp only [Prod.mk.injEq, Except.error.injEq] at ha
    obtain ⟨rfl, rfl⟩ := ha
    exact ⟨hi, rfl⟩

theorem Archive.position_read (a : Archive ρ) (n : Nat) :
    a.position ≤ (Reader.read a n).2.position := by
  cases ha : Reader.read a n with
  | mk answer b =>
    cases answer with
    | ok bytes =>
      have := (read_ok ha).2
      dsimp only
      omega
    | error f => exact Nat.le_of_eq (read_error ha).2.symm

/-- The count only grows. -/
theorem Archive.position_le (h : Reader.Reaches a b) : a.position ≤ b.position :=
  h.preserves (P := fun b => a.position ≤ b.position) (Nat.le_refl _) fun b n hb =>
    Nat.le_trans hb (b.position_read n)

/-- A run of reads counts what it brings, however it ends. -/
theorem Archive.position_gather (m : Manner) (limit : Option Nat) (a : Archive ρ) :
    (Reader.gather m limit a).2.position =
      a.position + (Reader.gather m limit a).1.bytes.length :=
  (Reader.tracks_count position (fun ha => (read_ok ha).2)
    fun ha => (read_error ha).2).gather m limit a

namespace Content

/-- What a read comes to: parts that bring nothing are done with, and the first one that brings
something or fails ends it. -/
inductive Reads (n : Nat) :
    List Part → Archive ρ → Except Failure (List UInt8) × Content ρ → Prop
  | spent {a : Archive ρ} : Reads n [] a (.ok [], ⟨a, []⟩)
  | blank {size : Nat} {parts : List Part} {a : Archive ρ} (some : 0 < min n size) :
      Reads n (.hole size :: parts) a
        (.ok (List.replicate (min n size) 0), ⟨a, .hole (size - min n size) :: parts⟩)
  | closed {size : Nat} {parts : List Part} {a : Archive ρ}
      {x : Except Failure (List UInt8) × Content ρ} (none : min n size = 0)
      (others : Reads n parts a x) : Reads n (.hole size :: parts) a x
  | empty {parts : List Part} {a : Archive ρ} {x : Except Failure (List UInt8) × Content ρ}
      (others : Reads n parts a x) : Reads n (.data 0 :: parts) a x
  | dry {size : Nat} {parts : List Part} {a b : Archive ρ}
      {x : Except Failure (List UInt8) × Content ρ} (some : 0 < size)
      (read : Reader.read a (min n size) = (.ok [], b)) (others : Reads n parts b x) :
      Reads n (.data size :: parts) a x
  | piece {size : Nat} {parts : List Part} {a b : Archive ρ} {bytes : List UInt8} (some : 0 < size)
      (read : Reader.read a (min n size) = (.ok bytes, b)) (bring : bytes ≠ []) :
      Reads n (.data size :: parts) a (.ok bytes, ⟨b, .data (size - bytes.length) :: parts⟩)
  | failed {size : Nat} {parts : List Part} {a b : Archive ρ} {f : Failure} (some : 0 < size)
      (read : Reader.read a (min n size) = (.error f, b)) :
      Reads n (.data size :: parts) a (.error f, ⟨b, .data size :: parts⟩)

theorem reads_readParts (n : Nat) (parts : List Part) (a : Archive ρ) :
    Reads n parts a (readParts n parts a) := by
  induction parts generalizing a with
  | nil => exact .spent
  | cons part parts ih =>
    cases part with
    | hole size =>
      rw [readParts]
      split
      · next hnone => exact .closed hnone (ih a)
      · next hsome => exact .blank (Nat.pos_of_ne_zero hsome)
    | data size =>
      rw [readParts]
      split
      · next hnone =>
        subst hnone
        exact .empty (ih a)
      · next hsome =>
        have hpos := Nat.pos_of_ne_zero hsome
        split
        · next b hb => exact .dry hpos hb (ih b)
        · next hbring hb => exact .piece hpos hb hbring
        · next hb => exact .failed hpos hb

theorem reads (c : Content ρ) (n : Nat) : Reads n c.parts c.archive (Reader.read c n) :=
  reads_readParts n c.parts c.archive

/-- What a read of parts costs, however it ends. -/
theorem Reads.cost {F : Flow (Archive ρ)} {x : Except Failure (List UInt8) × Content ρ}
    (h : Reads n parts a x) (hs : F.Sound a) :
    F.Sound x.2.archive ∧
    (∀ bytes, x.1 = .ok bytes → bytes.length ≤ n ∧
      Reader.budget x.2 + bytes.length ≤ Reader.budget (⟨a, parts⟩ : Content ρ)) ∧
    ∀ f, x.1 = .error f → Reader.budget x.2 ≤ Reader.budget (⟨a, parts⟩ : Content ρ) ∧
      (f.isInterrupted = true → Reader.budget x.2 < Reader.budget (⟨a, parts⟩ : Content ρ)) := by
  induction h with
  | spent => simp [hs]
  | blank hsome =>
    refine ⟨hs, ?_, by simp⟩
    intro bytes hbytes
    obtain rfl := Except.ok.inj hbytes
    simp only [List.length_replicate, Reader.budget, blankIn_cons, Part.blank]
    omega
  | closed hnone others ih =>
    obtain ⟨hsound, hok, herror⟩ := ih hs
    simp only [Reader.budget, blankIn_cons, Part.blank] at hok herror ⊢
    refine ⟨hsound, ?_, ?_⟩
    · intro bytes hbytes
      have := hok bytes hbytes
      omega
    · intro f hf
      obtain ⟨hle, hless⟩ := herror f hf
      exact ⟨by omega, fun hi => Nat.lt_of_lt_of_le (hless hi) (by omega)⟩
  | empty others ih => simpa [Reader.budget, Part.blank] using ih hs
  | dry hsome hread others ih =>
    obtain ⟨hb, -, hcost⟩ := F.ok hs hread
    obtain ⟨hsound, hok, herror⟩ := ih hb
    simp only [Reader.budget, blankIn_cons, Part.blank, List.length_nil]
      at hok herror hcost ⊢
    refine ⟨hsound, ?_, ?_⟩
    · intro bytes hbytes
      have := hok bytes hbytes
      omega
    · intro f hf
      obtain ⟨hle, hless⟩ := herror f hf
      exact ⟨by omega, fun hi => Nat.lt_of_lt_of_le (hless hi) (by omega)⟩
  | piece hsome hread hbring =>
    obtain ⟨hb, hlen, hcost⟩ := F.ok hs hread
    refine ⟨hb, ?_, by simp⟩
    intro bytes hbytes
    obtain rfl := Except.ok.inj hbytes
    simp only [Reader.budget, blankIn_cons, Part.blank] at hcost ⊢
    omega
  | failed hsome hread =>
    obtain ⟨hb, hcost, hless⟩ := F.error hs hread
    refine ⟨hb, by simp, ?_⟩
    intro f hf
    obtain rfl := Except.error.inj hf
    simp only [Reader.budget, blankIn_cons, Part.blank] at hcost hless ⊢
    refine ⟨by omega, fun hi => ?_⟩
    have := hless hi
    omega

/-- However a read ends, it leaves the archive no further than where the parts end. -/
theorem Reads.stop {F : Flow (Archive ρ)} {x : Except Failure (List UInt8) × Content ρ}
    (h : Reads n parts a x) (hs : F.Sound a) :
    x.2.archive.position + storedIn x.2.parts ≤ a.position + storedIn parts := by
  induction h with
  | spent => exact Nat.le_refl _
  | blank hsome => simp [Part.stored]
  | closed hnone others ih => simpa [Part.stored] using ih hs
  | empty others ih => simpa [Part.stored] using ih hs
  | dry hsome hread others ih =>
    have hpos := (Archive.read_ok hread).2
    have hothers := ih (F.ok hs hread).1
    simp only [storedIn_cons, List.length_nil] at hpos ⊢
    omega
  | piece hsome hread hbring =>
    have hpos := (Archive.read_ok hread).2
    have hlen := (F.ok hs hread).2.1
    simp only [storedIn_cons, Part.stored]
    omega
  | failed hsome hread => simp only [(Archive.read_error hread).2, Nat.le_refl]

/-- Parts that the archive has whole. -/
def Solid (parts : List Part) : Prop := ∀ part ∈ parts, part.blank = 0

theorem solid_data (size : Nat) : Solid [.data size] := by simp [Solid, Part.blank]

/-- Without holes the archive counts what is brought. -/
theorem Reads.position {x : Except Failure (List UInt8) × Content ρ} (h : Reads n parts a x)
    (hs : Solid parts) : Solid x.2.parts ∧
      (∀ bytes, x.1 = .ok bytes → x.2.archive.position = a.position + bytes.length) ∧
      ∀ f, x.1 = .error f → x.2.archive.position = a.position := by
  induction h with
  | spent => simp [Solid]
  | blank hsome =>
    have := hs _ List.mem_cons_self
    simp only [Part.blank] at this
    omega
  | closed hnone others ih => exact ih fun part hp => hs part (List.mem_cons_of_mem _ hp)
  | empty others ih => exact ih fun part hp => hs part (List.mem_cons_of_mem _ hp)
  | dry hsome hread others ih =>
    have hpos := (Archive.read_ok hread).2
    simp only [List.length_nil, Nat.add_zero] at hpos
    rw [← hpos]
    exact ih fun part hp => hs part (List.mem_cons_of_mem _ hp)
  | piece hsome hread hbring =>
    refine ⟨?_, ?_, by simp⟩
    · intro part hp
      rcases List.mem_cons.mp hp with rfl | hp
      · rfl
      · exact hs part (List.mem_cons_of_mem _ hp)
    · intro bytes hbytes
      obtain rfl := Except.ok.inj hbytes
      exact (Archive.read_ok hread).2
  | failed hsome hread => exact ⟨hs, by simp, fun f hf => (Archive.read_error hread).2⟩

/-- However a content is read, the archive is left no further than where its parts end. -/
theorem stop_reaches {F : Flow (Archive ρ)} {c e : Content ρ} (hs : F.Sound c.archive)
    (h : Reader.Reaches c e) : F.Sound e.archive ∧
      e.archive.position + storedIn e.parts ≤ c.archive.position + storedIn c.parts := by
  refine h.preserves (P := fun e => F.Sound e.archive ∧
    e.archive.position + storedIn e.parts ≤ c.archive.position + storedIn c.parts)
    ⟨hs, Nat.le_refl _⟩ ?_
  rintro d n ⟨hd, hstop⟩
  exact ⟨((d.reads n).cost hd).1, Nat.le_trans ((d.reads n).stop hd) hstop⟩

theorem tracks_position : Reader.Tracks fun (c : Content ρ) bytes e => Solid c.parts →
    Solid e.parts ∧ e.archive.position = c.archive.position + bytes.length where
  nil c hs := ⟨hs, rfl⟩
  append h h' hs := by
    obtain ⟨hs', hpos⟩ := h hs
    obtain ⟨hs'', hpos'⟩ := h' hs'
    exact ⟨hs'', by rw [hpos', hpos, List.length_append, Nat.add_assoc]⟩
  ok {c e n bytes} ha hs := by
    obtain ⟨hsolid, hok, -⟩ := (c.reads n).position hs
    rw [ha] at hsolid hok
    exact ⟨hsolid, hok bytes rfl⟩
  error {c e n f} ha hs := by
    obtain ⟨hsolid, -, herror⟩ := (c.reads n).position hs
    rw [ha] at hsolid herror
    exact ⟨hsolid, herror f rfl⟩

theorem position_gather (m : Manner) (limit : Option Nat) (size : Nat) (a : Archive ρ) :
    (Reader.gather m limit (⟨a, [.data size]⟩ : Content ρ)).2.archive.position =
      a.position + (Reader.gather m limit (⟨a, [.data size]⟩ : Content ρ)).1.bytes.length :=
  (tracks_position.gather m limit _ (solid_data size)).2

/-- A read of one stretch of an archive. -/
theorem read_data (a : Archive ρ) (size n : Nat) :
    (Reader.read (⟨a, [.data size]⟩ : Content ρ) n = (.ok [], ⟨a, []⟩) ∧ size = 0) ∨
    0 < size ∧
      ((∃ b, Reader.read a (min n size) = (.ok [], b) ∧
        Reader.read (⟨a, [.data size]⟩ : Content ρ) n = (.ok [], ⟨b, []⟩)) ∨
      (∃ bytes b, Reader.read a (min n size) = (.ok bytes, b) ∧ bytes ≠ [] ∧
        Reader.read (⟨a, [.data size]⟩ : Content ρ) n =
          (.ok bytes, ⟨b, [.data (size - bytes.length)]⟩)) ∨
      ∃ f b, Reader.read a (min n size) = (.error f, b) ∧
        Reader.read (⟨a, [.data size]⟩ : Content ρ) n = (.error f, ⟨b, [.data size]⟩)) := by
  have h := (⟨a, [.data size]⟩ : Content ρ).reads n
  generalize Reader.read (⟨a, [.data size]⟩ : Content ρ) n = x at h
  cases h with
  | empty others =>
    cases others
    exact Or.inl ⟨rfl, rfl⟩
  | dry hsome hread others =>
    cases others
    exact Or.inr ⟨hsome, Or.inl ⟨_, hread, rfl⟩⟩
  | piece hsome hread hbring => exact Or.inr ⟨hsome, Or.inr (Or.inl ⟨_, _, hread, hbring, rfl⟩)⟩
  | failed hsome hread => exact Or.inr ⟨hsome, Or.inr (Or.inr ⟨_, _, hread, rfl⟩)⟩

end Content

end Tar

open Tar

variable {ρ : Type} [Reader ρ]

/-- An archive is sound when its stream is. -/
def Flow.archive (F : Flow ρ) : Flow (Archive ρ) where
  Sound a := F.Sound a.inner
  ok h ha := F.ok h (Archive.read_ok ha).1
  error h ha := F.error h (Archive.read_error ha).1

/-- A content is sound when its archive is. -/
def Flow.content (F : Flow (Archive ρ)) : Flow (Content ρ) where
  Sound c := F.Sound c.archive
  ok {c e n bytes} h ha := by
    obtain ⟨hs, hok, -⟩ := (c.reads n).cost h
    rw [ha] at hs hok
    exact ⟨hs, hok bytes rfl⟩
  error {c e n f} h ha := by
    obtain ⟨hs, -, herror⟩ := (c.reads n).cost h
    rw [ha] at hs herror
    exact ⟨hs, herror f rfl⟩

/-- An archive delivers what its stream does, and stands so many bytes before a given position. -/
def Delivery.archive (D : Delivery ρ) (total : Nat) : Delivery (Archive ρ) where
  toFlow := D.toFlow.archive
  Holds a bytes := D.Holds a.inner bytes ∧ a.position + bytes.length = total
  Stops := D.Stops
  whole := D.whole
  sound h := D.sound h.1
  brings {a b n piece bytes} h hn ha := by
    obtain ⟨hread, hpos⟩ := Archive.read_ok ha
    obtain ⟨rest, rfl, hrest⟩ := D.brings h.1 hn hread
    have htotal := h.2
    simp only [List.length_append] at htotal
    exact ⟨rest, rfl, hrest, by omega⟩
  ends h hn ha := D.ends h.1 hn (Archive.read_ok ha).1
  fails h hn ha := by
    obtain ⟨hread, hpos⟩ := Archive.read_error ha
    obtain ⟨hstops, hagain⟩ := D.fails h.1 hn hread
    exact ⟨hstops, fun hi => ⟨hagain hi, by rw [hpos]; exact h.2⟩⟩

/-- One stretch of an archive delivers the bytes of the archive up to others that come after it. -/
def Delivery.content (D : Delivery (Archive ρ)) (after : List UInt8) : Delivery (Content ρ) where
  toFlow := D.toFlow.content
  Holds c bytes := D.Holds c.archive (bytes ++ after) ∧
    (c.parts = [.data bytes.length] ∨ c.parts = [] ∧ bytes = [])
  Stops bytes stop := (stop = none → bytes = []) ∧
    ∀ f, stop = some f → D.Stops (bytes ++ after) (some f)
  whole h := h.1 rfl
  sound h := D.sound h.1
  brings {c e n piece bytes} h hn ha := by
    obtain ⟨a, parts⟩ := c
    obtain ⟨hholds, rfl | ⟨rfl, rfl⟩⟩ := h
    · rcases Content.read_data a bytes.length n with ⟨hr, hz⟩ |
          ⟨hpos, ⟨b, hb, hr⟩ | ⟨got, b, hb, hbring, hr⟩ | ⟨f, b, hb, hr⟩⟩
      · rw [hr] at ha
        obtain rfl := List.eq_nil_of_length_eq_zero hz
        obtain ⟨rfl, rfl⟩ : [] = piece ∧ ⟨a, []⟩ = e := by simpa using ha
        exact ⟨[], rfl, hholds, Or.inr ⟨rfl, rfl⟩⟩
      · have hnil := (List.append_eq_nil_iff.mp (D.whole (D.ends hholds (by omega) hb))).1
        simp [hnil] at hpos
      · obtain ⟨rfl, rfl⟩ : got = piece ∧ ⟨b, [.data (bytes.length - got.length)]⟩ = e := by
          simpa [hr] using ha
        obtain ⟨rest, heq, hrest⟩ := D.brings hholds (by omega) hb
        have hlen := (D.ok (D.sound hholds) hb).2.1
        obtain ⟨more, rfl⟩ : ∃ more, bytes = got ++ more := by
          have hpre : got <+: bytes ++ after := ⟨rest, heq.symm⟩
          obtain ⟨more, hmore⟩ :=
            List.prefix_of_prefix_length_le hpre (List.prefix_append bytes after) (by omega)
          exact ⟨more, hmore.symm⟩
        rw [List.append_assoc] at heq
        obtain rfl := List.append_cancel_left heq
        exact ⟨more, rfl, hrest, Or.inl (by simp)⟩
      · simp [hr] at ha
    · obtain ⟨rfl, rfl⟩ : [] = piece ∧ ⟨a, []⟩ = e := by
        simpa [Reader.read, Content.read, Content.readParts] using ha
      exact ⟨[], rfl, hholds, Or.inr ⟨rfl, rfl⟩⟩
  ends {c e n bytes} h hn ha := by
    obtain ⟨a, parts⟩ := c
    refine ⟨fun _ => ?_, by simp⟩
    obtain ⟨hholds, rfl | ⟨rfl, rfl⟩⟩ := h
    · rcases Content.read_data a bytes.length n with ⟨hr, hz⟩ |
          ⟨hpos, ⟨b, hb, hr⟩ | ⟨got, b, hb, hbring, hr⟩ | ⟨f, b, hb, hr⟩⟩
      · exact List.eq_nil_of_length_eq_zero hz
      · exact (List.append_eq_nil_iff.mp (D.whole (D.ends hholds (by omega) hb))).1
      · simp [hr, hbring] at ha
      · simp [hr] at ha
    · rfl
  fails {c e n f bytes} h hn ha := by
    obtain ⟨a, parts⟩ := c
    obtain ⟨hholds, rfl | ⟨rfl, rfl⟩⟩ := h
    · rcases Content.read_data a bytes.length n with ⟨hr, hz⟩ |
          ⟨hpos, ⟨b, hb, hr⟩ | ⟨got, b, hb, hbring, hr⟩ | ⟨g, b, hb, hr⟩⟩
      · simp [hr] at ha
      · simp [hr] at ha
      · simp [hr] at ha
      · obtain ⟨rfl, rfl⟩ : g = f ∧ ⟨b, [.data bytes.length]⟩ = e := by simpa [hr] using ha
        obtain ⟨hstops, hagain⟩ := D.fails hholds (by omega) hb
        refine ⟨⟨by simp, ?_⟩, fun hi => ⟨hagain hi, Or.inl rfl⟩⟩
        intro f hf
        obtain rfl : g = f := by simpa using hf
        exact hstops
    · simp [Reader.read, Content.read, Content.readParts] at ha

end InterfaceIndex
