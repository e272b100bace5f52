import InterfaceIndex.Proofs.Gzip.Decoder
import InterfaceIndex.Proofs.Gzip.Stored
import InterfaceIndex.Proofs.Release.Pass
import InterfaceIndex.Proofs.Stream.Buffered
import InterfaceIndex.Proofs.Stream.Hashed
import InterfaceIndex.Proofs.Stream.Schedule
import InterfaceIndex.Proofs.Tar.Written

/-! Opening an archive and scanning it: what may come of it, and the index of all files if the archive is
whole. -/
namespace InterfaceIndex

open Source Tar

/-- A source without faults brings its bytes and ends. -/
def Delivery.faultless : Delivery Source := .untilStop none fun _ => False

namespace Source

variable {stride : Nat → Nat} {data : List UInt8} {faults : List Fault}

theorem arrivals_faultless (data : List UInt8) (stride : Nat → Nat) :
    (ofSchedule data [] stride).arrivals = data.map .byte := by
  rw [arrivals_ofSchedule]
  change arrivalsFrom [] 0 data = _
  generalize 0 = p
  induction data generalizing p with
  | nil => rfl
  | cons b data ih => rw [arrivalsFrom_cons, ih]; rfl

theorem holds_faultless (data : List UInt8) (stride : Nat → Nat) :
    Delivery.faultless.Holds (ofSchedule data [] stride) data := by
  have hbearable : Bearable [] := by simp [Bearable]
  obtain ⟨hs, ho, -⟩ := holds_ofSchedule hbearable data stride
  refine ⟨hs, ho, ?_⟩
  simp [arrivals_faultless]

theorem takeBytes_bytes (n : Nat) (bytes : List UInt8) :
    (takeBytes n (bytes.map .byte)).1 = bytes.take n := by
  induction bytes generalizing n with
  | nil => cases n <;> rfl
  | cons b bytes ih =>
    cases n with
    | zero => rfl
    | succ n => exact congrArg (b :: ·) (ih n)

/-- The first read of a source without faults is as large as the stride says. -/
theorem read_faultless (data : List UInt8) (stride : Nat → Nat) (n : Nat) :
    (Reader.read (ofSchedule data [] stride) n).1 = .ok (data.take (min n (max 1 (stride 0)))) := by
  change (Source.read _ n).1 = _
  have harrivals := arrivals_faultless data stride
  unfold Source.read
  split
  · next hs =>
    have hnil : data = [] := by simpa [harrivals] using hs
    subst hnil
    rw [List.take_nil]
    rfl
  · next f rest hs => cases data <;> simp [harrivals] at hs
  · dsimp only
    rw [harrivals, takeBytes_bytes]
    rfl

/-- So is what a buffer holds after its first fill. -/
theorem fill_faultless (data : List UInt8) (stride : Nat → Nat) :
    ∃ input : Buffered (Hashed Source),
      Buffered.fill ⟨⟨ofSchedule data [] stride, .start⟩, []⟩ = (none, input) ∧
      input.held = data.take (min Buffered.capacity (max 1 (stride 0))) := by
  rcases Buffered.fill_cases ⟨(⟨ofSchedule data [] stride, .start⟩ : Hashed Source), []⟩ with
      ⟨hheld, -⟩ | ⟨-, piece, inner, hread, hb⟩ | ⟨-, f, inner, hread, hb⟩
  · exact (hheld rfl).elim
  · have hpiece := congrArg Prod.fst (Hashed.read_ok hread).1
    rw [read_faultless, Except.ok.injEq] at hpiece
    exact ⟨_, hb, hpiece.symm⟩
  · have hanswer := congrArg Prod.fst (Hashed.read_error hread).1
    simp [read_faultless] at hanswer

end Source

namespace Gzip.Decoder

variable {stop : Option Failure} {passing : Failure → Prop} {calm : Prop}

/-- A source that is read patiently fails in passing or at the end of its bytes. -/
theorem fails_untilStop (hcalm : calm → stop = none ∧ ∀ f, ¬ passing f)
    (hpassing : ∀ f, passing f → f.isInterrupted = true) :
    Fails (Delivery.untilStop stop passing).hashed calm passing (lostBy stop) where
  rough {left f} hstop hc := by
    obtain ⟨rfl, hnever⟩ := hcalm hc
    rcases hstop with ⟨-, hnone⟩ | ⟨g, -, hpass⟩
    · simp at hnone
    · exact hnever g hpass
  last {left f} hstop := by
    rcases hstop with ⟨hend, rfl⟩ | ⟨g, hg, hpass⟩
    · exact Or.inr ⟨hend, Nat.le_refl _⟩
    · exact Or.inl (Option.some.inj hg ▸ hpass)
  interrupted hpass := hpassing _ hpass

theorem fails_faultless : Fails Delivery.faultless.hashed True (fun _ => False) 0 :=
  fails_untilStop (fun _ => ⟨rfl, fun _ => id⟩) fun _ => False.elim

end Gzip.Decoder

/-- What comes out of a source by way of the layers between it and the archive format. -/
def Delivery.unpacked (D : Delivery Source) (calm : Prop) {passing : Failure → Prop} {slack : Nat}
    (short : Nat) (hD : Gzip.Decoder.Fails D.hashed calm passing slack) :
    Delivery (Buffered (Gzip.Decoder (Hashed Source))) :=
  (D.hashed.decoded calm short hD).buffered

/-- What comes out of a source without faults: whole members, and no failure. -/
def Delivery.contents : Delivery (Buffered (Gzip.Decoder (Hashed Source))) :=
  Delivery.faultless.unpacked True 0 Gzip.Decoder.fails_faultless

namespace ReleaseArchive

variable {D : Delivery Source} {calm : Prop} {passing : Failure → Prop} {slack short : Nat}
  {s : Source} {cut payload : List UInt8} {version : String} {a : ReleaseArchive Source}

/-- The start of a member, or of several when all is calm, is ahead of a decoder. When it is not, the
input may be cut short, so that all but so many bytes of the payload come out. -/
structure Begins (calm : Prop) (short : Nat) (cut payload : List UInt8) : Prop where
  ahead : ∃ missing, Gzip.Stage.Ahead (¬ calm) (.header {}) (cut ++ missing) payload ∧
    (calm → missing = [])
  yields : ¬ calm → ∃ count, Gzip.Stage.Yields (.header {}) cut count ∧ count + short = payload.length

/-- A decoder at the start of its input, which may have been read into a buffer. -/
theorem holds_decoder (hD : Gzip.Decoder.Fails D.hashed calm passing slack)
    {input : Buffered (Hashed Source)} (hcut : D.hashed.Ahead input cut)
    (hb : Begins calm short cut payload) :
    (D.unpacked calm short hD).Holds ⟨⟨input, .header {}⟩, []⟩ payload := by
  have hproper : (Gzip.Stage.header {}).Proper :=
    Gzip.Header.proper_of_part (p := .fixed []) (by simp) rfl
  obtain ⟨rest, hrest, hinner⟩ := id hcut
  obtain ⟨⟨missing, hahead, hcalm⟩, hyields⟩ := hb
  obtain ⟨count, hcount⟩ : ∃ count, ¬ calm → Gzip.Stage.Yields (.header {}) cut count ∧
      count + short = payload.length := by
    by_cases hc : calm
    · exact ⟨0, fun h => (h hc).elim⟩
    · obtain ⟨count, hcount⟩ := hyields hc
      exact ⟨count, fun _ => hcount⟩
  exact ⟨payload, rfl, ⟨D.hashed.sound hinner, hproper⟩, count,
    ⟨hproper, trivial, cut, missing, hcut, hahead, hcalm, fun h => (hcount h).1⟩,
    fun h => (hcount h).2⟩

/-- An archive that could be opened has the whole payload ahead. -/
theorem holds_ofStream (hD : Gzip.Decoder.Fails D.hashed calm passing slack) (hs : D.Holds s cut)
    (hb : Begins calm short cut payload) (ho : ofStream version s = .ok a) :
    ((D.unpacked calm short hD).archive payload.length).Holds a.tar payload ∧
      a.tar.position = 0 := by
  have hcut : D.hashed.Ahead ⟨⟨s, .start⟩, []⟩ cut := ⟨cut, rfl, hs⟩
  obtain ⟨input, payload, hinput, hpayload, rfl⟩ := ofStream_eq_ok ho
  have hbegun := holds_decoder hD (Delivery.fill_brings hcut hinput).1 hb
  exact ⟨⟨(Delivery.fill_brings hbegun hpayload).1, by simp⟩, rfl⟩

/-- Whole members are begun whole. -/
theorem begins_members {gz : List UInt8} (hm : Gzip.Members gz payload) (hgz : gz ≠ []) :
    Begins True 0 gz payload := by
  refine ⟨⟨[], ?_, fun _ => rfl⟩, fun h => (h trivial).elim⟩
  rw [List.append_nil]
  exact hm.ahead hgz fun h => (h trivial).elim

/-- Whole members that come without faults are opened with their contents ahead. -/
theorem holds_members {gz : List UInt8} {stride : Nat → Nat} (hm : Gzip.Members gz payload)
    (hgz : gz ≠ []) (ho : ofStream version (ofSchedule gz [] stride) = .ok a) :
    (Delivery.contents.archive payload.length).Holds a.tar payload ∧ a.tar.position = 0 :=
  holds_ofStream Gzip.Decoder.fails_faultless (holds_faultless gz stride) (begins_members hm hgz) ho

/-- The bytes that an archive has to begin with are held if the first read is large enough. -/
theorem magic_isPrefixOf_take (data : List UInt8) (first : Nat) :
    Gzip.Header.magic.isPrefixOf (data.take (min Buffered.capacity (max 1 first))) = true ↔
      Gzip.Header.magic <+: data ∧ 2 ≤ first := by
  rw [List.isPrefixOf_iff_prefix, List.prefix_take_iff]
  have hlen : Gzip.Header.magic.length = 2 := rfl
  unfold Buffered.capacity
  exact and_congr_right fun _ => by omega

/-- A source without faults whose first read may bring two bytes opens. -/
theorem ofStream_faultless (version : String) {gz : List UInt8} {stride : Nat → Nat}
    (hm : Gzip.Members gz payload) (hgz : gz ≠ []) (htwo : 2 ≤ stride 0) :
    ∃ a, ofStream version (ofSchedule gz [] stride) = .ok a := by
  have hcut : Delivery.faultless.hashed.Ahead ⟨⟨ofSchedule gz [] stride, .start⟩, []⟩ gz :=
    ⟨gz, rfl, holds_faultless gz stride⟩
  obtain ⟨input, hfill, hheld⟩ := fill_faultless gz stride
  have hinput := (Delivery.fill_brings hcut hfill).1
  have hmagic : Gzip.Header.magic.isPrefixOf input.held = true := by
    obtain ⟨rest, hrest⟩ := hm.magic hgz
    rw [hheld, magic_isPrefixOf_take]
    exact ⟨⟨rest, hrest.symm⟩, htwo⟩
  have hpayload := holds_decoder Gzip.Decoder.fails_faultless hinput (begins_members hm hgz)
  simp only [ofStream, hfill, hmagic, if_true]
  split
  · next f tar htar =>
    have hstop := (Delivery.fill_fails hpayload htar).1
    exact ((hstop.2 f rfl).1 trivial).elim
  · exact ⟨_, rfl⟩

end ReleaseArchive

namespace Release

open ReleaseArchive

variable {D : Delivery Source} {calm : Prop} {passing : Failure → Prop} {slack short : Nat}
  {r : Release} {files : List StoredFile} {a : ReleaseArchive Source} {s : Source} {cut : List UInt8}

/-- Where the pass over an archive leaves it. -/
def endOf (r : Release) (a : ReleaseArchive Source) : Nat :=
  (a.visitSources (packageRoot r.version) r.scanner {}).2.2.tar.position

theorem passes_visitSources {D : Delivery (Buffered (Gzip.Decoder (Hashed Source)))}
    (h : (D.archive (archiveOf files).length).Holds a.tar (archiveOf files))
    (hstart : a.tar.position = 0) (hfits : (archiveOf files).length < UInt64.size) :
    Passes D (archiveOf files).length r [] 0 files
      (a.tar.visitSources (packageRoot r.version) r.scanner {}) := by
  rw [Archive.visitSources, if_pos hstart]
  have hahead : Entries.Ahead D (archiveOf files).length ⟨a.tar, 0⟩ (archiveOf files) :=
    ⟨Nat.zero_add _, [], h⟩
  exact visitWithin_spec hahead hfits (Nat.lt_succ_self _) found_start

/-- What comes of an archive that could be opened: the index of some files at its front, each left
whole, or a problem. When not all is calm, a pass gets no further than the bytes that come out, and to
the last of them but for a few, unless a failure in passing has stopped it. -/
inductive Outcome (calm : Prop) (passing : Failure → Prop) (slack short : Nat) (r : Release)
    (files : List StoredFile) (position : Nat) : ArchiveScan → Prop
  | found {k : Nat} {events : List Event} (count : k ≤ files.length)
      (whole : r.LeavesWhole 0 files k position)
      (all : calm → k = files.length ∧ ∀ e ∈ events, ∀ version fault, e ≠ .endedEarly version fault)
      (before : ¬ calm → position + short ≤ (archiveOf files).length)
      (reach : k = files.length ∨ (∃ f, passing f ∧ .endedEarly r.version f ∈ events) ∨
        (archiveOf files).length ≤ position + short + slack) :
      Outcome calm passing slack short r files position ⟨.ok (r.indexOf (files.take k)), events⟩
  | failed {problem : Problem} {events : List Event} (rough : ¬ calm) :
      Outcome calm passing slack short r files position ⟨.error problem, events⟩

theorem scanArchive_outcome (hD : Gzip.Decoder.Fails D.hashed calm passing slack) (hs : D.Holds s cut)
    (hb : Begins calm short cut (archiveOf files)) (hfits : (archiveOf files).length < UInt64.size)
    (ho : ofStream r.version s = .ok a) :
    Outcome calm passing slack short r files (r.endOf a) (r.scanArchive s) := by
  obtain ⟨hholds, hstart⟩ := holds_ofStream hD hs hb ho
  have hp := passes_visitSources (r := r) hholds hstart hfits
  unfold endOf
  rw [scanArchive, ho]
  dsimp only [ReleaseArchive.visitSources]
  generalize a.tar.visitSources (packageRoot r.version) r.scanner {} = x at hp
  cases hp with
  | complete count found all stops whole =>
    rename_i k fault tally p b
    have hindex : p.index = r.indexOf (files.take k) := found.index
    dsimp only
    rw [hindex]
    cases fault with
    | none =>
      obtain ⟨hk, rest, ⟨tail, hrest, -, came, -, hcame⟩, hpos⟩ := all rfl
      have hlen := congrArg List.length hrest
      rw [List.length_append] at hlen
      refine .found count whole (fun _ => ⟨hk, ?_⟩) ?_ (Or.inl hk)
      · intro e he v f hearly
        subst hearly
        rcases List.mem_append.mp he with he | he
        · exact absurd (found.events _ he) (by simp [Event.isReplacement])
        · simpa [PassEnd.fault?] using (endedEarly_mem_closing.mp he).2
      · intro hrough
        have := hcame hrough
        omega
    | some f =>
      obtain ⟨left, hstop, hpos⟩ := stops f rfl
      obtain ⟨hrough, hshort, hlate⟩ := hstop.2 f rfl
      have htold : .endedEarly r.version f ∈
          p.events ++ r.closing (.complete (some f) tally) ⟨b⟩ (r.indexOf (files.take k)) :=
        List.mem_append_right _ (endedEarly_mem_closing.mpr ⟨rfl, rfl⟩)
      refine .found count whole (fun hc => (hrough hc).elim) (fun _ => by omega) ?_
      · rcases hlate with hpass | hle
        · exact Or.inr (Or.inl ⟨f, hpass, htold⟩)
        · exact Or.inr (Or.inr (by omega))
  | aborted stops =>
    obtain ⟨left, hstop⟩ := stops
    exact .failed (hstop.2 _ rfl).1

/-- A complete archive, packed into members in any way and handed out without faults in pieces of any
sizes, the first of two bytes at least: the index is that of all files, the last declaration of each
interface winning, and no fault is told of. Positions in an archive are checked to fit in 64 bits. -/
theorem scanArchive_complete (r : Release) (files : List StoredFile) {gz : List UInt8}
    (hm : Gzip.Members gz (archiveOf files)) (hfits : (archiveOf files).length < UInt64.size)
    {stride : Nat → Nat} (htwo : 2 ≤ stride 0) :
    (r.scanArchive (ofSchedule gz [] stride)).result = .ok (r.indexOf files) ∧
      ∀ e ∈ (r.scanArchive (ofSchedule gz [] stride)).events, ∀ version fault,
        e ≠ .endedEarly version fault := by
  have hgz : gz ≠ [] := by
    rintro rfl
    exact archiveOf_ne_nil files hm.content_nil
  obtain ⟨a, ho⟩ := ofStream_faultless r.version hm hgz htwo
  have houtcome := scanArchive_outcome Gzip.Decoder.fails_faultless (holds_faultless gz stride)
    (begins_members hm hgz) hfits ho
  generalize r.scanArchive (ofSchedule gz [] stride) = scan at houtcome
  cases houtcome with
  | found count whole all =>
    obtain ⟨rfl, hevents⟩ := all trivial
    rw [List.take_length]
    exact ⟨rfl, hevents⟩
  | failed rough => exact (rough trivial).elim

/-- A file that declares an interface. -/
def readerFile : StoredFile :=
  .short "go/src/io/io.go" (Utf8.encode "type R interface \x7b\n") (by decide) (by decide)

theorem scanArchive_complete_stored :
    Gzip.Members (Gzip.stored (archiveOf [readerFile])) (archiveOf [readerFile]) ∧
    ∃ index, (scanArchive ⟨"1.4", {}⟩
        (ofSchedule (Gzip.stored (archiveOf [readerFile])) [] fun p => p + 2)).result = .ok index ∧
      (index.find? ⟨"R", "io"⟩).isSome = true := by
  have hm := Gzip.Members.single (Gzip.member_stored (archiveOf [readerFile]))
  have hfits : (archiveOf [readerFile]).length < UInt64.size := by decide +kernel
  have htwo : 2 ≤ (fun p : Nat => p + 2) 0 := by decide
  obtain ⟨hresult, -⟩ := @scanArchive_complete ⟨"1.4", {}⟩ [readerFile] _ hm hfits (· + 2) htwo
  exact ⟨hm, _, hresult, by decide +kernel⟩

end Release

end InterfaceIndex
