import InterfaceIndex.Proofs.Gzip.Ahead

/-! Every content has a member that stores its bytes as they are, and its front yields theirs. -/
namespace InterfaceIndex.Gzip

open Deflate

variable {d : Inflate} {rest content : List UInt8} {n : Nat}

/-- The front of a block that stores one byte. -/
def blockOfOne : List UInt8 := [0, 1, 0, 0xfe, 0xff]

/-- A last block that stores nothing. -/
def lastBlock : List UInt8 := [1, 0, 0, 0xff, 0xff]

/-- The bytes of a content, each in a block of its own. -/
def blocksOf (content : List UInt8) : List UInt8 := content.flatMap fun b => blockOfOne ++ [b]

/-- A number in four bytes, least significant first. -/
def inFourBytes (n : Nat) : List UInt8 :=
  [UInt8.ofNat n, UInt8.ofNat (n / 256), UInt8.ofNat (n / 65536), UInt8.ofNat (n / 16777216)]

/-- A header without optional parts. -/
def plainHeader : List UInt8 := [0x1f, 0x8b, 8, 0, 0, 0, 0, 0, 0, 255]

/-- A member that stores a content. -/
def stored (content : List UInt8) : List UInt8 :=
  plainHeader ++ (blocksOf content ++ lastBlock ++
    (inFourBytes (Crc32.ofBytes content).toNat ++ inFourBytes (content.length % UInt32.size)))

theorem accepts_plainHeader : Header.Accepts {} plainHeader := by
  have hpart (sofar : List UInt8) : HeaderPart.fixed sofar ≠ .complete ∧
      ∀ f, HeaderPart.fixed sofar ≠ .refused f := by simp
  iterate 10 refine .push (hpart _).1 (hpart _).2 rfl ?_
  exact .complete rfl

theorem littleEndian_inFourBytes (h : n < UInt32.size) : littleEndian (inFourBytes n) = n := by
  simp only [littleEndian, inFourBytes, List.foldr_cons, List.foldr_nil, UInt8.toNat_ofNat']
  unfold UInt32.size at h
  omega

theorem number_bitsOfByte (b : UInt8) (bits : List Bool) :
    BitReader.number 8 (bitsOfByte b ++ bits) = .ok b.toNat bits := by
  have hall : ∀ n : Fin 256, (bitsOfByte (UInt8.ofFin n)).foldr (fun b n => b.toNat + 2 * n) 0 =
      (UInt8.ofFin n).toNat := by decide +kernel
  exact congrArg (Parsed.ok · bits) (hall b.toFin)

/-- The header of a block, read where whole bytes come after it. -/
theorem readBlock_front {front : List UInt8} {found : Bool × Block} (bytes : List UInt8)
    (h : readBlock (bitsOfBytes front) = .ok found []) :
    readBlock (bitsOfBytes (front ++ bytes)) = .ok found (bitsOfBytes bytes) := by
  have hwhole : (bitsOfBytes bytes).length % 8 = 0 := by simp
  have happ := local_readBlock.append (Parsed.ok_eq_tell .. ▸ h) hwhole
  rwa [← bitsOfBytes_append, List.nil_append] at happ

/-- The bytes of a block are put out one by one. The induction is on them. -/
theorem leads_bytes (last : Bool) (rest : List UInt8) {content : List UInt8} (hne : content ≠ [])
    (output : Array UInt8) :
    Inflate.Leads ⟨.stored content.length, last, output⟩ (bitsOfBytes (content ++ rest))
      ⟨if last then .finished else .header, last, output ++ content⟩ (bitsOfBytes rest) := by
  induction content generalizing output with
  | nil => exact (hne rfl).elim
  | cons b content ih =>
    have hbyte : BitReader.number 8 (bitsOfBytes (b :: (content ++ rest))) =
        .ok b.toNat (bitsOfBytes (content ++ rest)) := number_bitsOfByte b _
    have hpush : output ++ (b :: content) = output.push b ++ content := by simp
    have hnext : Inflate.next ⟨.stored (content.length + 1), last, output⟩
        (bitsOfBytes (b :: (content ++ rest))) =
          .ok ⟨if content.length + 1 ≤ 1 then if last then .finished else .header
            else .stored content.length, last, output.push b⟩ (bitsOfBytes (content ++ rest)) := by
      simp only [Inflate.next, BitReader.bind_eq, hbyte, UInt8.ofNat_toNat]
      rfl
    rw [hpush]
    cases content with
    | nil => exact .step rfl hnext (by simpa using .refl ..)
    | cons c content => exact .step rfl hnext (by simpa using ih (by simp) (output.push b))

/-- A block whose header is given brings its content. -/
theorem leads_block {front : List UInt8} {last : Bool} (rest : List UInt8) {content : List UInt8}
    (hfront : readBlock (bitsOfBytes front) = .ok (last, .stored content.length) [])
    (hne : content ≠ []) (output : Array UInt8) :
    Inflate.Leads ⟨.header, false, output⟩ (bitsOfBytes (front ++ (content ++ rest)))
      ⟨if last then .finished else .header, last, output ++ content⟩ (bitsOfBytes rest) := by
  have hblock := readBlock_front (content ++ rest) hfront
  have hlength : content.length ≠ 0 := by simpa using hne
  have hnext : Inflate.next ⟨.header, false, output⟩ (bitsOfBytes (front ++ (content ++ rest))) =
      .ok ⟨.stored content.length, last, output⟩ (bitsOfBytes (content ++ rest)) := by
    simp only [Inflate.next, BitReader.bind_eq, hblock, if_neg hlength]
    rfl
  exact .step rfl hnext (leads_bytes last rest hne output)

/-- The induction is on the content: each byte brings a block. -/
theorem leads_blocksOf (content rest : List UInt8) (output : Array UInt8) :
    Inflate.Leads ⟨.header, false, output⟩ (bitsOfBytes (blocksOf content ++ rest))
      ⟨.header, false, output ++ content⟩ (bitsOfBytes rest) := by
  induction content generalizing output with
  | nil => simpa [blocksOf] using .refl ..
  | cons b content ih =>
    have hsplit : blocksOf (b :: content) ++ rest =
        blockOfOne ++ ([b] ++ (blocksOf content ++ rest)) := by
      simp [blocksOf]
    have hoffer : output ++ (b :: content) = output ++ [b] ++ content := by simp
    have hone : readBlock (bitsOfBytes blockOfOne) = .ok (false, .stored [b].length) [] := rfl
    rw [hsplit, hoffer]
    exact (leads_block _ hone (by simp) output).trans (ih _)

/-- The sums of a content match it. -/
theorem trailerMatches_inFourBytes {output : Array UInt8} (houtput : output.toList = content) :
    trailerMatches output (inFourBytes (Crc32.ofBytes content).toNat ++
      inFourBytes (content.length % UInt32.size)) = true := by
  have hsize : output.size = content.length := by rw [← houtput, Array.length_toList]
  have hcrc := littleEndian_inFourBytes (Crc32.ofBytes content).toNat_lt
  have hlength := littleEndian_inFourBytes
    (Nat.mod_lt content.length (show 0 < UInt32.size by decide))
  have htake (a b : List UInt8) (ha : a.length = 4) : (a ++ b).take 4 = a := List.take_left' ha
  have hdrop (a b : List UInt8) (ha : a.length = 4) : (a ++ b).drop 4 = b := List.drop_left' ha
  rw [trailerMatches, htake _ _ rfl, hdrop _ _ rfl, hcrc, hlength, houtput, hsize]
  simp

/-- What leads to the whole of a content makes a member with its sums. -/
theorem member_of_leads {packed : List UInt8} {f : Inflate}
    (hleads : Inflate.Leads {} (bitsOfBytes packed) f []) (hover : f.phase.isFinished = true)
    (houtput : f.output.toList = content) :
    Member (plainHeader ++ (packed ++ (inFourBytes (Crc32.ofBytes content).toNat ++
      inFourBytes (content.length % UInt32.size)))) content := by
  have hsums := trailerMatches_inFourBytes houtput
  have hmember := Member.intro accepts_plainHeader hleads hover (Nat.zero_lt_succ 7) rfl hsums
  rwa [houtput] at hmember

/-- A content has a member. -/
theorem member_stored (content : List UInt8) : Member (stored content) content := by
  have hlast (output : Array UInt8) :
      Inflate.next ⟨.header, false, output⟩ (bitsOfBytes lastBlock) =
        .ok ⟨.finished, true, output⟩ [] := rfl
  exact member_of_leads ((leads_blocksOf content lastBlock #[]).trans (.step rfl (hlast _) (.refl ..)))
    rfl (by simp)

/-- A content in one block whose header is given. -/
def inOneBlock (front content : List UInt8) : List UInt8 :=
  plainHeader ++ (front ++ content ++ (inFourBytes (Crc32.ofBytes content).toNat ++
    inFourBytes (content.length % UInt32.size)))

theorem member_inOneBlock {front : List UInt8}
    (hfront : readBlock (bitsOfBytes front) = .ok (true, .stored content.length) [])
    (hne : content ≠ []) : Member (inOneBlock front content) content := by
  have hleads := leads_block [] hfront hne #[]
  rw [List.append_nil] at hleads
  exact member_of_leads hleads rfl (by simp)

theorem length_blocksOf (content : List UInt8) :
    (blocksOf content).length = 6 * content.length := by
  induction content with
  | nil => rfl
  | cons b content ih =>
    have hcons : blocksOf (b :: content) = (blockOfOne ++ [b]) ++ blocksOf content := rfl
    have hblock : (blockOfOne ++ [b]).length = 6 := rfl
    rw [hcons, List.length_append, ih, hblock, List.length_cons]
    omega

/-- A stored content cut off behind some of its bytes yields these. -/
theorem yields_blocksOf (front : List UInt8) :
    Stage.Yields (.header {}) (plainHeader ++ blocksOf front) front.length := by
  have hleads := leads_blocksOf front [] #[]
  rw [List.append_nil] at hleads
  exact Or.inl ⟨plainHeader, blocksOf front, rfl, accepts_plainHeader, _, _,
    ⟨rfl, hleads, Or.inr rfl⟩, by simp⟩

theorem stored_append (front back : List UInt8) :
    ∃ lost, stored (front ++ back) = (plainHeader ++ blocksOf front) ++ lost := by
  rw [stored, blocksOf, List.flatMap_append, ← blocksOf]
  simp only [List.append_assoc]
  exact ⟨_, rfl⟩

end InterfaceIndex.Gzip
