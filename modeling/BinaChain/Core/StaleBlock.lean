import BinaChain.Core.Block

/-!
# Stale Bitcoin blocks and the proofs of their work

A stale header is told by the double SHA-256 of its 80 bytes. A proof of stale
work carries the header with everything that is derived from it; building one
and verifying one check different parts of that.
-/

set_option autoImplicit false

namespace BinaChain.StaleBlock
open BinaChain.Word BinaChain.Text BinaChain.Crypto BinaChain.Block

def minLeadingZeros : ℕ := 32

def maxStaleAgeSecs : ℕ := 7*24*3600

def blockHeaderSize : ℕ := 80

def maxReorgDepth : ℕ := 100

inductive StaleBlockError where
  | invalidHeader (msg : String)
  | insufficientWork (leadingZeros required : ℕ)
  | notStale (hash : Str)
  | tooOld (ageSecs maxSecs : ℕ)
  | alreadyHarvested (hash : Str)
  | reorgTooDeep (depth maxDepth : ℕ)
  | fetchError (msg : String)
  deriving DecidableEq

structure StaleBlockHeader where
  version : Int32
  prevBlockHash : Hash
  merkleRoot : Hash
  timestamp : UInt32
  bits : UInt32
  nonce : UInt32
  blockHash : Hash
  height : UInt64
  deriving DecidableEq

def hashAt (raw : Bytes) (offset : ℕ) : Hash := Vector.ofFn fun i => raw.getD (offset+i.val) 0

def wordAt (raw : Bytes) (offset : ℕ) : UInt32 :=
  UInt32.ofNat (leValue ((raw.drop offset).take 4))

/-- The last byte is the most significant one. -/
def countLeadingZeroBitsBe (hash : Hash) : ℕ := leadingZeroBitsFrom hash.toList.reverse

def xor32 (a b : Hash) : Hash := Vector.zipWith (· ^^^ ·) a b

/-- Bitcoin's spelling of a block hash. -/
def hashHex (hash : Hash) : Str := Hex.encode hash.toList.reverse

def entropyTag : Bytes := utf8 "TGBT-STALE-ENTROPY-v1"

def proofTag : Bytes := utf8 "TGBT-STALE-PROOF-v1"

namespace StaleBlockHeader

def serializeHeader (version : Int32) (prevBlockHash merkleRoot : Hash)
    (timestamp bits nonce : UInt32) : Bytes :=
  leBytes 4 version.toUInt32.toNat++prevBlockHash.toList++merkleRoot.toList++
    leBytes 4 timestamp.toNat++leBytes 4 bits.toNat++leBytes 4 nonce.toNat

def toRaw (h : StaleBlockHeader) : Bytes :=
  serializeHeader h.version h.prevBlockHash h.merkleRoot h.timestamp h.bits h.nonce

def leadingZeroBits (h : StaleBlockHeader) : ℕ := countLeadingZeroBitsBe h.blockHash

def blockHashHex (h : StaleBlockHeader) : Str := hashHex h.blockHash

end StaleBlockHeader

/-- The readings of the clock in one call: for the age, for the score and for the proof. -/
structure Clock where
  age : ℕ
  score : ℕ
  created : ℕ

structure ScoreBreakdown where
  powDifficultyScore : ℕ
  reorgDepthScore : ℕ
  divergenceScore : ℕ
  freshnessScore : ℕ

def countOnes (n : UInt32) : ℕ := (List.range 32).countP n.toNat.testBit

def computeScoreBreakdown (clock : Clock) (h : StaleBlockHeader) (reorgDepth : UInt32) :
    ScoreBreakdown :=
  let leadingZeros := h.leadingZeroBits
  let cappedDepth := min reorgDepth.toNat 6
  let nonceEntropy := min (countOnes h.nonce) 16
  let timestampEntropy := min (h.timestamp.toNat%600) 300
  let ageSecs := clock.score-h.timestamp.toNat
  { powDifficultyScore :=
      if 72 ≤ leadingZeros then 30
      else if 56 ≤ leadingZeros then 25
      else if 40 ≤ leadingZeros then 20
      else if 32 ≤ leadingZeros then 15
      else min (leadingZeros/3) 14
    reorgDepthScore :=
      if cappedDepth = 0 then 0
      else if cappedDepth = 1 then 10
      else if cappedDepth = 2 then 15
      else if cappedDepth ≤ 5 then 20
      else 25
    divergenceScore := min (nonceEntropy*10/16+timestampEntropy*15/300) 25
    freshnessScore :=
      if ageSecs < 600 then 20
      else if ageSecs < 3600 then 15
      else if ageSecs < 86400 then 10
      else 5 }

def computeQualityScore (clock : Clock) (reorgDepth : UInt32) (h : StaleBlockHeader) : ℕ :=
  let breakdown := computeScoreBreakdown clock h reorgDepth
  min (breakdown.powDifficultyScore+breakdown.reorgDepthScore+breakdown.divergenceScore+
    breakdown.freshnessScore) 100

structure StaleWorkProof where
  proofId : Str
  rawHeader : Bytes
  blockHash : Hash
  height : UInt64
  canonicalHash : Hash
  leadingZeros : ℕ
  reorgDepth : UInt32
  entropy : Hash
  qualityScore : ℕ
  submitter : Str
  createdAt : ℕ
  deriving DecidableEq

def proofPreimage (blockHash canonicalHash : Hash) (height : UInt64) (reorgDepth : UInt32)
    (submitter : Str) : Bytes :=
  proofTag++blockHash.toList++canonicalHash.toList++leBytes 8 height.toNat++
    leBytes 4 reorgDepth.toNat++strBytes submitter

section
variable (sha256 : Bytes → Hash)

def doubleSha256 (data : Bytes) : Hash := sha256 (sha256 data).toList

def computeProofId (blockHash canonicalHash : Hash) (height : UInt64) (reorgDepth : UInt32)
    (submitter : Str) : Str :=
  Hex.encode (sha256 (proofPreimage blockHash canonicalHash height reorgDepth submitter)).toList

namespace StaleBlockHeader

def fromRaw (raw : Bytes) (height : UInt64) : Except StaleBlockError StaleBlockHeader :=
  if raw.length ≠ blockHeaderSize then
    .error (.invalidHeader s!"expected {blockHeaderSize} bytes, got {raw.length}")
  else .ok
    { version := (wordAt raw 0).toInt32
      prevBlockHash := hashAt raw 4
      merkleRoot := hashAt raw 36
      timestamp := wordAt raw 68
      bits := wordAt raw 72
      nonce := wordAt raw 76
      blockHash := doubleSha256 sha256 raw
      height }

def fromFields (version : Int32) (prevBlockHash merkleRoot : Hash)
    (timestamp bits nonce : UInt32) (height : UInt64) : StaleBlockHeader :=
  let raw := serializeHeader version prevBlockHash merkleRoot timestamp bits nonce
  { version, prevBlockHash, merkleRoot, timestamp, bits, nonce
    blockHash := doubleSha256 sha256 raw
    height }

def extractEntropy (h : StaleBlockHeader) : Hash :=
  sha256 (entropyTag++h.blockHash.toList++h.merkleRoot.toList++leBytes 4 h.nonce.toNat++
    leBytes 4 h.timestamp.toNat++leBytes 4 h.bits.toNat++leBytes 4 h.version.toUInt32.toNat++
    h.prevBlockHash.toList++leBytes 8 h.height.toNat)

end StaleBlockHeader

namespace StaleWorkProof

def build (clock : Clock) (header : StaleBlockHeader) (canonicalHash : Hash)
    (reorgDepth : UInt32) (submitter : Str) : Except StaleBlockError StaleWorkProof :=
  let leadingZeros := header.leadingZeroBits
  if leadingZeros < minLeadingZeros then .error (.insufficientWork leadingZeros minLeadingZeros)
  else if maxReorgDepth < reorgDepth.toNat then
    .error (.reorgTooDeep reorgDepth.toNat maxReorgDepth)
  else .ok
    { proofId := computeProofId sha256 header.blockHash canonicalHash header.height reorgDepth
        submitter
      rawHeader := header.toRaw
      blockHash := header.blockHash
      height := header.height
      canonicalHash
      leadingZeros
      reorgDepth
      entropy := header.extractEntropy sha256
      qualityScore := computeQualityScore clock reorgDepth header
      submitter
      createdAt := clock.created }

def verifySelf (p : StaleWorkProof) : Except StaleBlockError Unit :=
  if p.rawHeader.length ≠ blockHeaderSize then
    .error (.invalidHeader s!"raw_header is {p.rawHeader.length} bytes")
  else
    let computedHash := doubleSha256 sha256 p.rawHeader
    if computedHash ≠ p.blockHash then
      .error (.invalidHeader "block_hash does not match raw_header")
    else
      let computedZeros := countLeadingZeroBitsBe computedHash
      if computedZeros ≠ p.leadingZeros then
        .error (.invalidHeader
          s!"leading zeros mismatch: stated {p.leadingZeros}, actual {computedZeros}")
      else if p.blockHash = p.canonicalHash then
        .error (.notStale (Hex.encode p.blockHash.toList))
      else .ok ()

end StaleWorkProof

theorem hashAt_append (pre rest : Bytes) (v : Hash) :
    hashAt (pre++(v.toList++rest)) pre.length = v := by
  ext i hi
  simp only [hashAt, Vector.getElem_ofFn, List.getD_eq_getElem?_getD]
  rw [List.getElem?_append_right (by omega), Nat.add_sub_cancel_left,
    List.getElem?_append_left (by simpa using hi)]
  simp [hi]

theorem wordAt_append (pre rest : Bytes) (x : UInt32) :
    wordAt (pre++(leBytes 4 x.toNat++rest)) pre.length = x := by
  rw [wordAt, List.drop_left, List.take_append_of_le_length (by simp),
    List.take_of_length_le (by simp), leValue_leBytes]
  simp

namespace StaleBlockHeader

theorem toRaw_length (h : StaleBlockHeader) : h.toRaw.length = blockHeaderSize := by
  simp [toRaw, serializeHeader, blockHeaderSize]

theorem fromRaw_toRaw (h : StaleBlockHeader) (height : UInt64) :
    fromRaw sha256 h.toRaw height =
      .ok { h with blockHash := doubleSha256 sha256 h.toRaw, height } := by
  have hversion : wordAt h.toRaw 0 = h.version.toUInt32 := by
    simpa [toRaw, serializeHeader] using wordAt_append []
      (h.prevBlockHash.toList++h.merkleRoot.toList++leBytes 4 h.timestamp.toNat++
        leBytes 4 h.bits.toNat++leBytes 4 h.nonce.toNat) h.version.toUInt32
  have hprev : hashAt h.toRaw 4 = h.prevBlockHash := by
    simpa [toRaw, serializeHeader] using hashAt_append (leBytes 4 h.version.toUInt32.toNat)
      (h.merkleRoot.toList++leBytes 4 h.timestamp.toNat++leBytes 4 h.bits.toNat++
        leBytes 4 h.nonce.toNat) h.prevBlockHash
  have hmerkle : hashAt h.toRaw 36 = h.merkleRoot := by
    simpa [toRaw, serializeHeader] using hashAt_append
      (leBytes 4 h.version.toUInt32.toNat++h.prevBlockHash.toList)
      (leBytes 4 h.timestamp.toNat++leBytes 4 h.bits.toNat++leBytes 4 h.nonce.toNat) h.merkleRoot
  have htimestamp : wordAt h.toRaw 68 = h.timestamp := by
    simpa [toRaw, serializeHeader] using wordAt_append
      (leBytes 4 h.version.toUInt32.toNat++h.prevBlockHash.toList++h.merkleRoot.toList)
      (leBytes 4 h.bits.toNat++leBytes 4 h.nonce.toNat) h.timestamp
  have hbits : wordAt h.toRaw 72 = h.bits := by
    simpa [toRaw, serializeHeader] using wordAt_append
      (leBytes 4 h.version.toUInt32.toNat++h.prevBlockHash.toList++h.merkleRoot.toList++
        leBytes 4 h.timestamp.toNat) (leBytes 4 h.nonce.toNat) h.bits
  have hnonce : wordAt h.toRaw 76 = h.nonce := by
    simpa [toRaw, serializeHeader] using wordAt_append
      (leBytes 4 h.version.toUInt32.toNat++h.prevBlockHash.toList++h.merkleRoot.toList++
        leBytes 4 h.timestamp.toNat++leBytes 4 h.bits.toNat) [] h.nonce
  rw [fromRaw, if_neg (not_not.mpr h.toRaw_length), hversion, hprev, hmerkle, htimestamp, hbits,
    hnonce, Int32.toInt32_toUInt32]

theorem fromFields_hashed (version : Int32) (prevBlockHash merkleRoot : Hash)
    (timestamp bits nonce : UInt32) (height : UInt64) :
    let h := fromFields sha256 version prevBlockHash merkleRoot timestamp bits nonce height
    h.blockHash = doubleSha256 sha256 h.toRaw := rfl

theorem fromRaw_blockHash {raw : Bytes} {height : UInt64} {header : StaleBlockHeader}
    (h : fromRaw sha256 raw height = .ok header) :
    raw.length = blockHeaderSize ∧ header.blockHash = doubleSha256 sha256 raw := by
  unfold fromRaw at h
  split at h
  · simp at h
  · rename_i hlen
    obtain rfl := Except.ok.inj h
    exact ⟨not_not.mp hlen, rfl⟩

theorem fromRaw_total {raw : Bytes} (height : UInt64) (h : raw.length = blockHeaderSize) :
    ∃ header, fromRaw sha256 raw height = .ok header := by
  rw [fromRaw, if_neg (not_not.mpr h)]
  exact ⟨_, rfl⟩

end StaleBlockHeader

namespace StaleWorkProof

/-- Everything that follows from the header, the fork and the submitter is as it
should be, within the limits of `build`. -/
structure Consistent (p : StaleWorkProof) : Prop where
  parsed : ∃ header, StaleBlockHeader.fromRaw sha256 p.rawHeader p.height = .ok header ∧
    p.blockHash = header.blockHash ∧ p.leadingZeros = header.leadingZeroBits ∧
    p.entropy = header.extractEntropy sha256
  proofId : p.proofId =
    computeProofId sha256 p.blockHash p.canonicalHash p.height p.reorgDepth p.submitter
  leadingZeros : minLeadingZeros ≤ p.leadingZeros
  reorgDepth : p.reorgDepth.toNat ≤ maxReorgDepth
  stale : p.blockHash ≠ p.canonicalHash

def Checked (p : StaleWorkProof) : Prop :=
  p.rawHeader.length = blockHeaderSize ∧ p.blockHash = doubleSha256 sha256 p.rawHeader ∧
    p.leadingZeros = countLeadingZeroBitsBe p.blockHash ∧ p.blockHash ≠ p.canonicalHash

/-- The fields and limits it does not look at. -/
def Unread (p : StaleWorkProof) : Prop :=
  (∀ header, StaleBlockHeader.fromRaw sha256 p.rawHeader p.height = .ok header →
      p.entropy = header.extractEntropy sha256) ∧
    p.proofId =
      computeProofId sha256 p.blockHash p.canonicalHash p.height p.reorgDepth p.submitter ∧
    minLeadingZeros ≤ p.leadingZeros ∧ p.reorgDepth.toNat ≤ maxReorgDepth

theorem verifySelf_iff (p : StaleWorkProof) :
    p.verifySelf sha256 = .ok () ↔ p.Checked sha256 := by
  unfold verifySelf Checked
  split
  · rename_i hlen
    simp [hlen]
  · rename_i hlen
    dsimp only
    split
    · rename_i hhash
      simp [Ne.symm hhash]
    · rename_i hhash
      rw [not_not] at hlen hhash
      rw [hhash]
      split
      · rename_i hzeros
        simp [Ne.symm hzeros]
      · rename_i hzeros
        split
        · rename_i hstale
          simp [hstale]
        · rename_i hstale
          rw [not_not] at hzeros
          simp [hlen, hzeros, hstale]

theorem consistent_iff (p : StaleWorkProof) :
    p.Consistent sha256 ↔ p.Checked sha256 ∧ p.Unread sha256 := by
  constructor
  · intro h
    obtain ⟨header, hparse, hhash, hzeros, hentropy⟩ := h.parsed
    obtain ⟨hlen, hdouble⟩ := StaleBlockHeader.fromRaw_blockHash sha256 hparse
    refine ⟨⟨hlen, hhash.trans hdouble, ?_, h.stale⟩, ?_, h.proofId, h.leadingZeros,
      h.reorgDepth⟩
    · rw [hzeros, hhash]
      rfl
    · intro other hother
      obtain rfl := Except.ok.inj (hparse.symm.trans hother)
      exact hentropy
  · rintro ⟨⟨hlen, hhash, hzeros, hstale⟩, hentropy, hid, hmin, hmax⟩
    obtain ⟨header, hparse⟩ := StaleBlockHeader.fromRaw_total sha256 p.height hlen
    have hheader : p.blockHash = header.blockHash :=
      hhash.trans (StaleBlockHeader.fromRaw_blockHash sha256 hparse).2.symm
    refine ⟨⟨header, hparse, hheader, ?_, hentropy header hparse⟩, hid, hmin, hmax, hstale⟩
    rw [hzeros, hheader]
    rfl

/-- A proof that verifies is consistent exactly if what is not read is right. -/
theorem verified_consistent_iff (p : StaleWorkProof) :
    (p.verifySelf sha256 = .ok () → p.Consistent sha256) ↔
      (p.Checked sha256 → p.Unread sha256) := by
  rw [verifySelf_iff, consistent_iff]
  tauto

theorem tampered_entropy_verifies {p : StaleWorkProof} (h : p.Consistent sha256) {entropy : Hash}
    (hne : entropy ≠ p.entropy) : verifySelf sha256 { p with entropy } = .ok () ∧
      ¬ Consistent sha256 { p with entropy } := by
  obtain ⟨hchecked, hunread⟩ := (consistent_iff sha256 p).mp h
  obtain ⟨header, hparse⟩ := StaleBlockHeader.fromRaw_total sha256 p.height hchecked.1
  constructor
  · exact (verifySelf_iff sha256 _).mpr hchecked
  · intro hforged
    have hright := ((consistent_iff sha256 _).mp hforged).2.1 header hparse
    exact hne (hright.trans (hunread.1 header hparse).symm)

theorem build_eq_ok {clock : Clock} {header : StaleBlockHeader} {canonicalHash : Hash}
    {reorgDepth : UInt32} {submitter : Str} {p : StaleWorkProof} :
    build sha256 clock header canonicalHash reorgDepth submitter = .ok p ↔
      minLeadingZeros ≤ header.leadingZeroBits ∧ reorgDepth.toNat ≤ maxReorgDepth ∧
        p = { proofId := computeProofId sha256 header.blockHash canonicalHash header.height
                reorgDepth submitter
              rawHeader := header.toRaw
              blockHash := header.blockHash
              height := header.height
              canonicalHash
              leadingZeros := header.leadingZeroBits
              reorgDepth
              entropy := header.extractEntropy sha256
              qualityScore := computeQualityScore clock reorgDepth header
              submitter
              createdAt := clock.created } := by
  unfold build
  dsimp only
  split
  · simp
    omega
  · split
    · simp
      omega
    · rw [Except.ok.injEq, eq_comm]
      exact ⟨fun he => ⟨by omega, by omega, he⟩, fun he => he.2.2⟩

theorem build_consistent {clock : Clock} {header : StaleBlockHeader} {canonicalHash : Hash}
    {reorgDepth : UInt32} {submitter : Str} {p : StaleWorkProof}
    (h : build sha256 clock header canonicalHash reorgDepth submitter = .ok p)
    (hv : p.verifySelf sha256 = .ok ()) : p.Consistent sha256 := by
  have hchecked := (verifySelf_iff sha256 p).mp hv
  obtain ⟨hmin, hmax, rfl⟩ := (build_eq_ok sha256).mp h
  refine (consistent_iff sha256 _).mpr ⟨hchecked, ?_, rfl, hmin, hmax⟩
  intro other hother
  dsimp only at hother
  rw [StaleBlockHeader.fromRaw_toRaw] at hother
  obtain rfl := Except.ok.inj hother
  have hhash : header.blockHash = doubleSha256 sha256 header.toRaw := hchecked.2.1
  simp only [StaleBlockHeader.extractEntropy, hhash]

end StaleWorkProof

end

def toyForged : StaleWorkProof where
  proofId := hashHex zeroHash
  rawHeader := List.replicate blockHeaderSize 0
  blockHash := zeroHash
  height := 1
  canonicalHash := Vector.replicate 32 255
  leadingZeros := 256
  reorgDepth := 1
  entropy := Vector.replicate 32 1
  qualityScore := 50
  submitter := []
  createdAt := 0

theorem forged_entropy_verifies : ¬ ∀ (sha256 : Bytes → Hash) (p : StaleWorkProof),
    p.verifySelf sha256 = .ok () → p.Consistent sha256 := by
  intro h
  have hverified : toyForged.verifySelf (fun _ => zeroHash) = .ok () := by decide +kernel
  obtain ⟨header, -, -, -, hentropy⟩ := (h (fun _ => zeroHash) toyForged hverified).parsed
  have hforged : toyForged.entropy ≠ zeroHash := by decide
  exact hforged hentropy

end BinaChain.StaleBlock
