import InterfaceIndex.Proofs.Gzip.Body
import InterfaceIndex.Proofs.Gzip.Member

/-! What a decoder has ahead of it, and how much of that comes out when its input is cut short. -/
namespace InterfaceIndex.Gzip

open Deflate

variable {alone : Prop} {m k : Body} {content : Array UInt8} {bytes later payload sofar : List UInt8}

/-- The trailer of a member is ahead, then other members. A member may have to be the last one. -/
def TrailerAhead (alone : Prop) (content : Array UInt8) (sofar bytes payload : List UInt8) : Prop :=
  ∃ more rest, bytes = more ++ rest ∧ sofar.length + more.length = 8 ∧
    trailerMatches content (sofar.reverse ++ more) = true ∧ Members rest payload ∧
    (alone → rest = [])

/-- The rest of a body is ahead, then its trailer. -/
def BodyAhead (alone : Prop) (m : Body) (bytes payload : List UInt8) : Prop :=
  ∃ f tail later, m.Ahead bytes f tail ∧ TrailerAhead alone f.output [] tail later ∧
    payload = f.output.toList.drop m.given ++ later

/-- What a stage has ahead of it, and the contents that are due. -/
def Stage.Ahead (alone : Prop) : Stage → List UInt8 → List UInt8 → Prop
  | .header h, bytes, payload =>
    ∃ head rest, bytes = head ++ rest ∧ h.Accepts head ∧ BodyAhead alone {} rest payload
  | .body m, bytes, payload => BodyAhead alone m bytes payload
  | .trailer content sofar, bytes, payload => TrailerAhead alone content sofar bytes payload
  | .ended, _, payload => payload = []

/-- How many bytes of a body still come out when its input ends after given bytes. -/
def Body.Yields (m : Body) (cut : List UInt8) (count : Nat) : Prop :=
  ∃ f pad, m.Runs cut f pad ∧ f.output.size = m.given + count

/-- How many bytes of a member still come out when its input ends after given bytes: those that they
decode to, and none while they do not get past the header. -/
def Stage.Yields : Stage → List UInt8 → Nat → Prop
  | .header h, cut, count =>
    (∃ head rest, cut = head ++ rest ∧ h.Accepts head ∧ Body.Yields {} rest count) ∨
    (count = 0 ∧ ∀ head rest, cut = head ++ rest → ¬ h.Accepts head)
  | .body m, cut, count => m.Yields cut count
  | _, _, count => count = 0

theorem Member.ahead {rest content : List UInt8} (h : Member bytes content)
    (hrest : Members rest later) (halone : alone → rest = []) :
    Stage.Ahead alone (.header {}) (bytes ++ rest) (content ++ later) := by
  obtain ⟨header, body, ended, short, eight, sums⟩ := h
  rename_i head packed trailer pad f
  refine ⟨head, packed ++ (trailer ++ rest), by simp, header, f, trailer ++ rest, later, ?_, ?_, rfl⟩
  · refine ⟨rfl, Or.inl (by simp), ⟨pad, short, ?_⟩, ended⟩
    rw [List.nil_append, bitsOfBytes_append]
    exact body.append (by simp)
  · exact ⟨trailer, rest, rfl, by simp [eight], by simpa using sums, hrest, halone⟩

theorem Members.ahead (h : Members bytes payload) (hne : bytes ≠ []) (halone : ¬ alone) :
    Stage.Ahead alone (.header {}) bytes payload := by
  cases h with
  | nil => exact (hne rfl).elim
  | cons first others => exact first.ahead others fun ha => (halone ha).elim

/-- A body that is over has its trailer ahead. -/
theorem BodyAhead.trailer (h : BodyAhead alone m bytes payload)
    (hover : m.inflate.phase.isFinished = true) (hgiven : m.given = m.inflate.output.size) :
    TrailerAhead alone m.inflate.output [] bytes payload := by
  obtain ⟨f, tail, later, ⟨-, hcarry, ⟨pad, hpad, hruns⟩, -⟩, htrailer, rfl⟩ := h
  obtain ⟨rfl, hbits⟩ := hruns.eq_of_isFinished hover
  rcases hcarry with hfew | ⟨hopen, -⟩
  · obtain ⟨-, rfl⟩ := append_bitsOfBytes_inj hfew hpad hbits
    rw [hgiven, ← Array.length_toList, List.drop_length]
    exact htrailer
  · simp [hopen] at hover

/-- A body that has used all bits ahead is not short of any. -/
theorem BodyAhead.not_starved (h : BodyAhead alone m [] payload)
    (hopen : m.inflate.phase.isFinished = false) : m.inflate.next m.carry ≠ .starved := by
  obtain ⟨f, tail, later, ⟨-, -, ⟨pad, -, hruns⟩, hover⟩, -, -⟩ := h
  intro hstarved
  rw [show m.carry ++ bitsOfBytes [] = m.carry from List.append_nil _] at hruns
  generalize pad ++ bitsOfBytes tail = rest at hruns
  cases hruns with
  | refl => simp [hopen] at hover
  | step _ first _ => simp [hstarved] at first

theorem Header.Accepts.eq_nil {h : Header} (ha : h.Accepts bytes) (hover : h.part = .complete) :
    bytes = [] := by
  cases ha with
  | complete => rfl
  | push under_way => exact (under_way hover).elim

/-- A header ends where it ends. -/
theorem Header.Accepts.inj {h : Header} {other rest more : List UInt8} (ha : h.Accepts bytes)
    (hb : h.Accepts other) (heq : bytes ++ rest = other ++ more) : bytes = other ∧ rest = more := by
  induction ha generalizing other with
  | complete ended =>
    obtain rfl := hb.eq_nil ended
    exact ⟨rfl, heq⟩
  | push under_way _ next _ ih =>
    cases hb with
    | complete ended => exact (under_way ended).elim
    | push _ _ next' others =>
      obtain ⟨rfl, htail⟩ := List.cons.inj heq
      rw [next, Prod.mk.injEq] at next'
      obtain ⟨rfl, -⟩ := next'
      obtain ⟨rfl, rfl⟩ := ih others htail
      exact ⟨rfl, rfl⟩

/-- The bits of a body are those on both sides of any cut. -/
theorem leads_cut {packed cut lost trailer : List UInt8} {f : Inflate} {pad : List Bool}
    (hbody : Inflate.Leads {} (bitsOfBytes packed) f pad) (heq : packed ++ trailer = cut ++ lost) :
    Inflate.Leads {} (bitsOfBytes cut ++ bitsOfBytes lost) f (pad ++ bitsOfBytes trailer) := by
  rw [← bitsOfBytes_append, ← heq, bitsOfBytes_append]
  exact hbody.append (by simp)

/-- Part of a body decodes to some point, and never to an error. -/
theorem Body.exists_yields {packed cut lost trailer : List UInt8} {f : Inflate} {pad : List Bool}
    (hbody : Inflate.Leads {} (bitsOfBytes packed) f pad) (hover : f.phase.isFinished = true)
    (heq : packed ++ trailer = cut ++ lost) : ∃ count, Body.Yields {} cut count := by
  have hrests {e : Inflate} {rest : List Bool}
      (hleads : Inflate.Leads {} (bitsOfBytes cut) e rest) (he : e.Rests rest) :
      ∃ count, Body.Yields {} cut count :=
    ⟨e.output.size, e, rest, ⟨rfl, hleads, he⟩, (Nat.zero_add _).symm⟩
  have hstops := Inflate.run_spec (258 * (bitsOfBytes cut).length + 1) (bitsOfBytes cut)
    (d := {}) trivial
  generalize Inflate.run _ _ _ = x at hstops
  cases hstops with
  | full leads unfinished room =>
    have hworth := leads.worth trivial
    have hstart : ({} : Inflate).phase.begun = 0 ∧ ({} : Inflate).output.size = 0 := ⟨rfl, rfl⟩
    omega
  | starved leads unfinished short => exact hrests leads (Or.inr short)
  | finished leads ended => exact hrests leads (Or.inl ended)
  | corrupt leads unfinished bad =>
    exact (Body.not_corrupt_of_leads (by simp) leads unfinished bad (leads_cut hbody heq)
      (Or.inl hover)).elim

/-- Part of a body yields no more than all of it. -/
theorem Body.Yields.le {packed cut lost trailer : List UInt8} {f : Inflate} {pad : List Bool}
    {count : Nat} (hy : Body.Yields {} cut count)
    (hbody : Inflate.Leads {} (bitsOfBytes packed) f pad) (hover : f.phase.isFinished = true)
    (heq : packed ++ trailer = cut ++ lost) : count ≤ f.output.size := by
  obtain ⟨e, rest, ⟨-, hleads, -⟩, hsize⟩ := hy
  change Inflate.Leads {} (bitsOfBytes cut) e rest at hleads
  change e.output.size = 0 + count at hsize
  have honward := (hleads.append (by simp)).onward (leads_cut hbody heq) (Or.inl hover)
  obtain ⟨out, hout⟩ := honward.output (hleads.proper trivial)
  have hlen := congrArg List.length hout
  simp only [List.length_append, Array.length_toList] at hlen
  omega

/-- The front of a member decodes to some bytes. -/
theorem Member.exists_yields {cut lost content : List UInt8} (h : Member (cut ++ lost) content) :
    ∃ count, Stage.Yields (.header {}) cut count := by
  generalize hgz : cut ++ lost = gz at h
  obtain ⟨header, body, ended, -, -, -⟩ := h
  by_cases hmet : ∃ front rest, cut = front ++ rest ∧ Header.Accepts {} front
  · obtain ⟨front, rest, rfl, haccepts⟩ := hmet
    rw [List.append_assoc] at hgz
    obtain ⟨rfl, hrest⟩ := header.inj haccepts hgz.symm
    obtain ⟨count, hcount⟩ := Body.exists_yields body ended hrest
    exact ⟨count, Or.inl ⟨_, rest, rfl, haccepts, hcount⟩⟩
  · refine ⟨0, Or.inr ⟨rfl, ?_⟩⟩
    intro front rest heq haccepts
    exact hmet ⟨front, rest, heq, haccepts⟩

/-- The front of a member decodes to bytes of its content. -/
theorem Member.yields_le {cut lost content : List UInt8} {count : Nat}
    (h : Member (cut ++ lost) content) (hy : Stage.Yields (.header {}) cut count) :
    count ≤ content.length := by
  generalize hgz : cut ++ lost = gz at h
  obtain ⟨header, body, ended, -, -, -⟩ := h
  rw [Array.length_toList]
  rcases hy with ⟨front, rest, rfl, haccepts, hbody⟩ | ⟨rfl, -⟩
  · rw [List.append_assoc] at hgz
    obtain ⟨rfl, hrest⟩ := header.inj haccepts hgz.symm
    exact hbody.le body ended hrest
  · exact Nat.zero_le _

/-- The bytes that come out do so behind the header. -/
theorem Stage.Yields.ended {h : Header} {cut : List UInt8} {count : Nat}
    (hy : Stage.Yields (.header h) cut count) (hover : h.part = .complete) :
    Stage.Yields (.body {}) cut count := by
  rcases hy with ⟨head, rest, rfl, haccepts, hbody⟩ | ⟨-, hnone⟩
  · obtain rfl := haccepts.eq_nil hover
    exact hbody
  · exact (hnone [] cut rfl (.complete hover)).elim

/-- Nothing comes out of an input that ends in the header. -/
theorem Stage.Yields.unmet {h : Header} {count : Nat} (hy : Stage.Yields (.header h) [] count)
    (hopen : h.part ≠ .complete) : count = 0 := by
  rcases hy with ⟨head, rest, hnil, haccepts, -⟩ | ⟨hzero, -⟩
  · obtain ⟨rfl, -⟩ := List.append_eq_nil_iff.mp hnil.symm
    cases haccepts with
    | complete ended => exact (hopen ended).elim
  · exact hzero

theorem Stage.Yields.pushed {h k : Header} {b : UInt8} {cut : List UInt8} {count : Nat}
    (hy : Stage.Yields (.header h) (b :: cut) count) (hopen : h.part ≠ .complete)
    (hsound : ∀ f, h.part ≠ .refused f) (hpush : h.push b = (k, none)) :
    Stage.Yields (.header k) cut count := by
  rcases hy with ⟨head, rest, heq, haccepts, hbody⟩ | ⟨hzero, hnone⟩
  · cases haccepts with
    | complete ended => exact (hopen ended).elim
    | push under_way sound next others =>
      obtain ⟨rfl, hrest⟩ := List.cons.inj heq
      rw [hpush, Prod.mk.injEq] at next
      obtain ⟨rfl, -⟩ := next
      exact Or.inl ⟨_, rest, hrest, others, hbody⟩
  · refine Or.inr ⟨hzero, ?_⟩
    intro head rest heq haccepts
    exact hnone (b :: head) rest (by rw [heq]; rfl) (.push hopen hsound hpush haccepts)

theorem Body.Yields.decodes {held left future : List UInt8} {count : Nat}
    (hy : m.Yields (held ++ future) count) (hd : m.Decodes held k left) :
    k.Yields (left ++ future) count := by
  obtain ⟨f, pad, hruns, hsize⟩ := hy
  exact ⟨f, pad, hd.runs hruns, by rw [hd.given, hsize]⟩

/-- What has been handed out does not come out again. -/
theorem Body.Yields.take {cut piece : List UInt8} {count : Nat} (hy : m.Yields cut count)
    (hm : m.Proper) (n : Nat) (hpiece : piece = (m.inflate.output.toList.drop m.given).take n) :
    piece.length ≤ count ∧
      Body.Yields { m with given := min (m.given + n) m.inflate.output.size } cut
        (count - piece.length) := by
  obtain ⟨f, pad, ⟨hclean, hleads, hrests⟩, hsize⟩ := hy
  obtain ⟨out, hout⟩ := hleads.output hm.phase
  have hlen := congrArg List.length hout
  have hgiven := hm.given
  simp only [List.length_append, Array.length_toList] at hlen
  have hlength : piece.length = min n (m.inflate.output.size - m.given) := by
    simp [hpiece]
  exact ⟨by omega, f, pad, ⟨hclean, hleads, hrests⟩, by dsimp only; omega⟩

/-- A body at rest that has nothing to hand out yields nothing. -/
theorem Body.Yields.rests {cut : List UInt8} {count : Nat} (hy : m.Yields cut count)
    (hrests : m.inflate.Rests (m.carry ++ bitsOfBytes cut))
    (hgiven : m.given = m.inflate.output.size) : count = 0 := by
  obtain ⟨f, pad, ⟨-, hleads, -⟩, hsize⟩ := hy
  have hf : f = m.inflate := by
    cases hleads with
    | refl => rfl
    | step unfinished first => simp [Inflate.Rests, unfinished, first] at hrests
  rw [hf] at hsize
  omega

/-- What still comes out of a body when its input has ended is less than two windows: it has been decoded
or begun, or there are a few bits left for it. -/
theorem Body.Yields.lt_windows {count : Nat} (hy : m.Yields [] count) (hm : m.Proper) (hnear : m.Near)
    (hcarry : m.carry.length < 8 ∨
      (m.inflate.phase.isFinished = false ∧ m.inflate.next m.carry = .starved)) :
    count < 2 * window := by
  obtain ⟨f, pad, ⟨-, hleads, -⟩, hsize⟩ := hy
  rw [show m.carry ++ bitsOfBytes [] = m.carry from List.append_nil _] at hleads
  have hworth := hleads.worth hm.phase
  have hbegun := hm.phase.begun_le
  simp only [Body.Near, window] at hnear ⊢
  rcases hcarry with hfew | ⟨-, hshort⟩
  · omega
  · cases hleads with
    | refl => omega
    | step _ first _ => simp [hshort] at first

/-- What has been handed out is no longer due. -/
theorem BodyAhead.take (h : BodyAhead alone m bytes payload) (hm : m.Proper) (n : Nat) :
    ∃ rest, payload = (m.inflate.output.toList.drop m.given).take n ++ rest ∧
      BodyAhead alone { m with given := min (m.given + n) m.inflate.output.size } bytes rest := by
  obtain ⟨f, tail, later, ⟨hclean, hcarry, hruns, hover⟩, htrailer, rfl⟩ := h
  obtain ⟨pad, -, hleads⟩ := id hruns
  obtain ⟨out, hout⟩ := hleads.output hm.phase
  have hgiven := hm.given
  have hdrop : m.inflate.output.toList.drop (min (m.given + n) m.inflate.output.size) =
      m.inflate.output.toList.drop (m.given + n) := by
    by_cases hle : m.given + n ≤ m.inflate.output.size
    · rw [Nat.min_eq_left hle]
    · rw [Nat.min_eq_right (by omega), List.drop_of_length_le (by simp),
        List.drop_of_length_le (by rw [Array.length_toList]; omega)]
  refine ⟨f.output.toList.drop (min (m.given + n) m.inflate.output.size) ++ later, ?_,
    f, tail, later, ⟨hclean, hcarry, hruns, hover⟩, htrailer, rfl⟩
  rw [hout, List.drop_append_of_le_length (by simpa using hgiven),
    List.drop_append_of_le_length (by rw [Array.length_toList]; omega), hdrop, ← List.drop_drop]
  simp only [← List.append_assoc, List.take_append_drop]

end InterfaceIndex.Gzip
