import BinaChain.Core.Crypto
import BinaChain.Support.Abi
import BinaChain.Support.Machine
import Mathlib.Logic.Function.Basic

/-!
# The oracle contract: ingestion of outputs

Authorised publishers attest an output; with the quorum it is stored for good
and moves the seeds of its purposes. The registry is the part of the contract's
storage that these calls read and write.
-/

set_option autoImplicit false

namespace BinaChain.Oracle
open BinaChain.Word BinaChain.Text BinaChain.Crypto BinaChain.Abi BinaChain.Machine

abbrev Bytes32 := EvmWord

abbrev Bytes20 := BitVec 160

abbrev Address := BitVec 160

def minWorkBits : BitVec 8 := 22
def maxWorkBits : BitVec 8 := 64
def maxTimestampDrift : ℕ := 3600
def maxTimestampAge : ℕ := 7*24*3600

structure BinaOutput where
  height : BitVec 64
  blockHash : Bytes32
  randomnessOutput : Bytes32
  nullifier : Bytes32
  binaMiner : Bytes20
  btcHeight : BitVec 64
  btcSeed : Bytes32
  minedTimestamp : BitVec 64
  workBits : BitVec 8
  claimDigest : Bytes32
  electionScore : Bytes32
  falconVerified : Bool
  deriving DecidableEq

structure StoredOutput where
  randomnessOutput : Bytes32
  nullifier : Bytes32
  binaMiner : Bytes20
  height : BitVec 64
  btcHeight : BitVec 64
  minedTimestamp : BitVec 64
  workBits : BitVec 8
  falconVerified : Bool
  proofHash : Bytes32
  attestationCount : BitVec 32
  publisher : Address
  deriving DecidableEq

def StoredOutput.zero : StoredOutput :=
  { randomnessOutput := 0, nullifier := 0, binaMiner := 0, height := 0, btcHeight := 0,
    minedTimestamp := 0, workBits := 0, falconVerified := false, proofHash := 0,
    attestationCount := 0, publisher := 0 }

structure PendingAttestation where
  fingerprint : Bytes32
  count : BitVec 32
  deriving DecidableEq

inductive OracleError where
  | notOwner
  | notPublisher
  | zeroAddress
  | zeroValue
  | invalidTimestamp
  | invalidWorkBits
  | alreadySubmitted
  | nullifierAlreadyUsed
  | outputNotFound
  | falconNotVerified
  | staleHeight
  | attestationMismatch
  | alreadyAttested
  | overflow
  deriving DecidableEq

structure Registry where
  owner : Address
  publishers : Address → Bool
  requireFalconVerification : Bool
  quorumThreshold : BitVec 32
  attestations : Bytes32 → PendingAttestation
  hasAttested : Bytes32 → Address → Bool
  outputsByBlockHash : Bytes32 → StoredOutput
  proofURIByBlockHash : Bytes32 → Str
  usedNullifiers : Bytes32 → Bool
  latestSeedByPurpose : Bytes32 → Bytes32
  latestBlockByPurpose : Bytes32 → Bytes32
  latestHeightByPurpose : Bytes32 → BitVec 64
  latestBTCHeightByPurpose : Bytes32 → BitVec 64
  blockHashes : List Bytes32

def deploy (sender initialPublisher : Address) : Registry where
  owner := sender
  publishers a := a == sender || (a == initialPublisher && initialPublisher != 0)
  requireFalconVerification := false
  quorumThreshold := 1
  attestations _ := { fingerprint := 0, count := 0 }
  hasAttested _ _ := false
  outputsByBlockHash _ := .zero
  proofURIByBlockHash _ := []
  usedNullifiers _ := false
  latestSeedByPurpose _ := 0
  latestBlockByPurpose _ := 0
  latestHeightByPurpose _ := 0
  latestBTCHeightByPurpose _ := 0
  blockHashes := []

structure Msg where
  sender : Address
  timestamp : ℕ
  deriving DecidableEq

def wordOf (h : Hash) : EvmWord :=
  BitVec.ofNat 256 (h.toList.foldl (fun acc b => acc*256+b.toNat) 0)

def keccak (K : Primitives) (b : Bytes) : EvmWord := wordOf (K.keccak256 b)

def wordBytes (w : EvmWord) : Bytes :=
  (List.range 32).map fun i => UInt8.ofNat (w.toNat >>> (8*(31-i)))

def StoredOutput.fields : StoredOutput ≃ Bytes32 × Bytes32 × Bytes20 × BitVec 64 × BitVec 64 ×
    BitVec 64 × BitVec 8 × Bool × Bytes32 × BitVec 32 × Address where
  toFun o := (o.randomnessOutput, o.nullifier, o.binaMiner, o.height, o.btcHeight,
    o.minedTimestamp, o.workBits, o.falconVerified, o.proofHash, o.attestationCount, o.publisher)
  invFun p :=
    { randomnessOutput := p.1, nullifier := p.2.1, binaMiner := p.2.2.1, height := p.2.2.2.1,
      btcHeight := p.2.2.2.2.1, minedTimestamp := p.2.2.2.2.2.1, workBits := p.2.2.2.2.2.2.1,
      falconVerified := p.2.2.2.2.2.2.2.1, proofHash := p.2.2.2.2.2.2.2.2.1,
      attestationCount := p.2.2.2.2.2.2.2.2.2.1, publisher := p.2.2.2.2.2.2.2.2.2.2 }
  left_inv _ := rfl
  right_inv _ := rfl

def uint64 : Codec (BitVec 64) := .uint 64 (by decide)

def uint32 : Codec (BitVec 32) := .uint 32 (by decide)

def uint8 : Codec (BitVec 8) := .uint 8 (by decide)

def address : Codec Address := .uint 160 (by decide)

def StoredOutput.codec : Codec StoredOutput :=
  (Codec.bytes32.pair <| Codec.bytes32.pair <| Codec.bytes20.pair <| uint64.pair <| uint64.pair <|
    uint64.pair <| uint8.pair <| Codec.bool.pair <| Codec.bytes32.pair <| uint32.pair
      address).via StoredOutput.fields

theorem StoredOutput.codec_words (o : StoredOutput) : StoredOutput.codec.encode o =
    [o.randomnessOutput, o.nullifier, o.binaMiner.setWidth 256 <<< 96, o.height.setWidth 256,
      o.btcHeight.setWidth 256, o.minedTimestamp.setWidth 256, o.workBits.setWidth 256,
      if o.falconVerified then 1 else 0, o.proofHash, o.attestationCount.setWidth 256,
      o.publisher.setWidth 256] := rfl

/-- `abi.encode(output, purposes)`: twelve static words, the offset of the
array, its length and its elements. -/
def fingerprintWords (o : BinaOutput) (purposes : List Bytes32) : List EvmWord :=
  uint64.encode o.height++[o.blockHash, o.randomnessOutput, o.nullifier]++
    Codec.bytes20.encode o.binaMiner++uint64.encode o.btcHeight++[o.btcSeed]++
    uint64.encode o.minedTimestamp++uint8.encode o.workBits++[o.claimDigest, o.electionScore]++
    Codec.bool.encode o.falconVerified++[BitVec.ofNat 256 (13*32),
      BitVec.ofNat 256 purposes.length]++purposes

def fingerprint (K : Primitives) (o : BinaOutput) (purposes : List Bytes32) : Bytes32 :=
  keccak K ((fingerprintWords o purposes).flatMap wordBytes)

def purposeGeneric (K : Primitives) : Bytes32 := keccak K (utf8 "BINA_GENERIC_UTILITY")

def effectivePurpose (K : Primitives) (purpose : Bytes32) : Bytes32 :=
  if purpose = 0 then purposeGeneric K else purpose

def validateOutput (m : Msg) (s : Registry) (o : BinaOutput) : Except OracleError Unit :=
  if o.height = 0 then .error .zeroValue
  else if o.blockHash = 0 then .error .zeroValue
  else if o.randomnessOutput = 0 then .error .zeroValue
  else if o.nullifier = 0 then .error .zeroValue
  else if o.binaMiner = 0 then .error .zeroValue
  else if o.btcSeed = 0 then .error .zeroValue
  else if o.claimDigest = 0 then .error .zeroValue
  else if s.requireFalconVerification && !o.falconVerified then .error .falconNotVerified
  else if o.workBits < minWorkBits ∨ maxWorkBits < o.workBits then .error .invalidWorkBits
  else if m.timestamp+maxTimestampDrift < o.minedTimestamp.toNat then .error .invalidTimestamp
  else if o.minedTimestamp.toNat+maxTimestampAge < m.timestamp then .error .invalidTimestamp
  else .ok ()

def updatePurposeSeed (K : Primitives) (o : BinaOutput) (s : Registry) (purpose : Bytes32) :
    Registry :=
  let p := effectivePurpose K purpose
  { s with
    latestSeedByPurpose := Function.update s.latestSeedByPurpose p o.randomnessOutput
    latestHeightByPurpose := Function.update s.latestHeightByPurpose p o.height
    latestBTCHeightByPurpose := Function.update s.latestBTCHeightByPurpose p o.btcHeight
    latestBlockByPurpose := Function.update s.latestBlockByPurpose p o.blockHash }

def storedOutput (K : Primitives) (m : Msg) (o : BinaOutput) (proofBundle : Bytes)
    (count : BitVec 32) : StoredOutput where
  randomnessOutput := o.randomnessOutput
  nullifier := o.nullifier
  binaMiner := o.binaMiner
  height := o.height
  btcHeight := o.btcHeight
  minedTimestamp := o.minedTimestamp
  workBits := o.workBits
  falconVerified := o.falconVerified
  proofHash := keccak K proofBundle
  attestationCount := count
  publisher := m.sender

/-- What a call hands to `_attestAndMaybeFinalize`. -/
structure Submission where
  output : BinaOutput
  purposes : List Bytes32
  proofBundle : Bytes
  proofURI : Str

def finalize (K : Primitives) (m : Msg) (x : Submission) (count : BitVec 32) (s : Registry) :
    Registry :=
  let o := x.output
  x.purposes.foldl (updatePurposeSeed K o)
    { s with
      outputsByBlockHash := Function.update s.outputsByBlockHash o.blockHash
        (storedOutput K m o x.proofBundle count)
      proofURIByBlockHash := Function.update s.proofURIByBlockHash o.blockHash x.proofURI
      usedNullifiers := Function.update s.usedNullifiers o.nullifier true
      blockHashes := s.blockHashes++[o.blockHash] }

def attestAndMaybeFinalize (K : Primitives) (m : Msg) (s : Registry) (x : Submission) :
    Except OracleError Registry :=
  let o := x.output
  match validateOutput m s o with
  | .error e => .error e
  | .ok () =>
    let fp := fingerprint K o x.purposes
    let att := s.attestations o.blockHash
    if (s.outputsByBlockHash o.blockHash).randomnessOutput ≠ 0 then .error .alreadySubmitted
    else if s.usedNullifiers o.nullifier then .error .nullifierAlreadyUsed
    else if att.count ≠ 0 ∧ att.fingerprint ≠ fp then .error .attestationMismatch
    else if s.hasAttested o.blockHash m.sender then .error .alreadyAttested
    else if att.count = BitVec.allOnes 32 then .error .overflow
    else
      let count := att.count+1
      let s :=
        { s with
          hasAttested := Function.update s.hasAttested o.blockHash
            (Function.update (s.hasAttested o.blockHash) m.sender true)
          attestations := Function.update s.attestations o.blockHash { fingerprint := fp, count } }
      if count < s.quorumThreshold then .ok s
      else if x.purposes.any fun p =>
          o.height < s.latestHeightByPurpose (effectivePurpose K p) then .error .staleHeight
      else .ok (finalize K m x count s)

inductive Call where
  | transferOwnership (newOwner : Address)
  | setPublisher (publisher : Address) (authorized : Bool)
  | setRequireFalcon (required : Bool)
  | setQuorumThreshold (threshold : BitVec 32)
  | submitOutput (output : BinaOutput) (purpose : Bytes32) (proofBundle : Bytes) (proofURI : Str)
  | submitOutputForPurposes (x : Submission)

def call (K : Primitives) (m : Msg) (s : Registry) : Call → Except OracleError Registry
  | .transferOwnership newOwner =>
    if m.sender ≠ s.owner then .error .notOwner
    else if newOwner = 0 then .error .zeroAddress
    else .ok { s with owner := newOwner }
  | .setPublisher publisher authorized =>
    if m.sender ≠ s.owner then .error .notOwner
    else if publisher = 0 then .error .zeroAddress
    else .ok { s with publishers := Function.update s.publishers publisher authorized }
  | .setRequireFalcon required =>
    if m.sender ≠ s.owner then .error .notOwner
    else .ok { s with requireFalconVerification := required }
  | .setQuorumThreshold threshold =>
    if m.sender ≠ s.owner then .error .notOwner
    else if threshold = 0 then .error .zeroValue
    else .ok { s with quorumThreshold := threshold }
  | .submitOutput output purpose proofBundle proofURI =>
    if s.publishers m.sender = false then .error .notPublisher
    else attestAndMaybeFinalize K m s { output, purposes := [purpose], proofBundle, proofURI }
  | .submitOutputForPurposes x =>
    if s.publishers m.sender = false then .error .notPublisher
    else if x.purposes = [] then .error .zeroValue
    else attestAndMaybeFinalize K m s x

def getOutput (s : Registry) (blockHash : Bytes32) : Except OracleError StoredOutput :=
  let output := s.outputsByBlockHash blockHash
  if output.randomnessOutput = 0 then .error .outputNotFound else .ok output

/-- A call that reverts changes nothing. -/
def step (K : Primitives) (s : Registry) (e : Msg × Call) : Option Registry :=
  (call K e.1 s e.2).toOption

def Finalised (s : Registry) (blockHash : Bytes32) : Prop :=
  (s.outputsByBlockHash blockHash).randomnessOutput ≠ 0

instance (s : Registry) (blockHash : Bytes32) : Decidable (Finalised s blockHash) :=
  inferInstanceAs (Decidable (_ ≠ _))

def Call.submission : Call → Option Submission
  | .submitOutput output purpose proofBundle proofURI =>
    some { output, purposes := [purpose], proofBundle, proofURI }
  | .submitOutputForPurposes x => some x
  | _ => none

theorem updatePurposeSeeds_outputs (K : Primitives) (o : BinaOutput) (purposes : List Bytes32)
    (s : Registry) :
    (purposes.foldl (updatePurposeSeed K o) s).outputsByBlockHash = s.outputsByBlockHash := by
  induction purposes generalizing s with
  | nil => rfl
  | cons p rest ih => exact ih _

theorem attest_outputs {K : Primitives} {m : Msg} {s s' : Registry} {x : Submission}
    (h : attestAndMaybeFinalize K m s x = .ok s') :
    s'.outputsByBlockHash = s.outputsByBlockHash ∨
      (¬ Finalised s x.output.blockHash ∧ ∃ count, s'.outputsByBlockHash =
        Function.update s.outputsByBlockHash x.output.blockHash
          (storedOutput K m x.output x.proofBundle count)) := by
  unfold attestAndMaybeFinalize at h
  dsimp only at h
  split at h
  · simp at h
  split at h
  · simp at h
  rename_i hfresh
  split at h
  · simp at h
  split at h
  · simp at h
  split at h
  · simp at h
  split at h
  · simp at h
  split at h
  · obtain rfl := Except.ok.inj h
    exact Or.inl rfl
  split at h
  · simp at h
  · obtain rfl := Except.ok.inj h
    refine Or.inr ⟨hfresh, (s.attestations x.output.blockHash).count+1, ?_⟩
    exact updatePurposeSeeds_outputs K x.output x.purposes _

/-- The call submits the output of a block, which is stored as submitted. -/
def Stores (K : Primitives) (m : Msg) (c : Call) (blockHash : Bytes32) (stored : StoredOutput) :
    Prop :=
  ∃ x count, c.submission = some x ∧ x.output.blockHash = blockHash ∧
    stored = storedOutput K m x.output x.proofBundle count

theorem step_outputs {K : Primitives} {m : Msg} {s s' : Registry} {c : Call}
    (h : step K s (m, c) = some s') (blockHash : Bytes32) :
    s'.outputsByBlockHash blockHash = s.outputsByBlockHash blockHash ∨
      (¬ Finalised s blockHash ∧ Stores K m c blockHash (s'.outputsByBlockHash blockHash)) := by
  have hcall : call K m s c = .ok s' := by
    unfold step at h
    cases hr : call K m s c with
    | error e => simp [hr, Except.toOption] at h
    | ok t => simpa [hr, Except.toOption] using h
  have hattest : ∀ x, c.submission = some x → attestAndMaybeFinalize K m s x = .ok s' →
      s'.outputsByBlockHash blockHash = s.outputsByBlockHash blockHash ∨
        (¬ Finalised s blockHash ∧ Stores K m c blockHash (s'.outputsByBlockHash blockHash)) := by
    intro x hx ha
    rcases attest_outputs ha with hsame | ⟨hfresh, count, hnew⟩
    · exact Or.inl (by rw [hsame])
    · by_cases hb : blockHash = x.output.blockHash
      · subst hb
        refine Or.inr ⟨hfresh, x, count, hx, rfl, ?_⟩
        rw [hnew, Function.update_self]
      · exact Or.inl (by rw [hnew, Function.update_of_ne hb])
  cases c with
  | transferOwnership | setPublisher | setQuorumThreshold =>
    simp only [call] at hcall
    split at hcall
    · simp at hcall
    split at hcall
    · simp at hcall
    · obtain rfl := Except.ok.inj hcall
      exact Or.inl rfl
  | setRequireFalcon required =>
    simp only [call] at hcall
    split at hcall
    · simp at hcall
    · obtain rfl := Except.ok.inj hcall
      exact Or.inl rfl
  | submitOutput output purpose proofBundle proofURI =>
    simp only [call] at hcall
    split at hcall
    · simp at hcall
    · exact hattest _ rfl hcall
  | submitOutputForPurposes x =>
    simp only [call] at hcall
    split at hcall
    · simp at hcall
    split at hcall
    · simp at hcall
    · exact hattest _ rfl hcall

theorem finalised_persists {K : Primitives} {s t : Registry} {blockHash : Bytes32}
    (h : Reach (step K) s t) (hf : Finalised s blockHash) :
    t.outputsByBlockHash blockHash = s.outputsByBlockHash blockHash := by
  refine h.invariant
    (P := fun t => t.outputsByBlockHash blockHash = s.outputsByBlockHash blockHash) rfl ?_
  rintro u ⟨m, c⟩ v hu - hs
  rcases step_outputs hs blockHash with hsame | ⟨hfresh, -⟩
  · exact hsame.trans hu
  · unfold Finalised at hf hfresh
    rw [hu] at hfresh
    exact absurd hf hfresh

end BinaChain.Oracle
