import BinaChain.Node.Sync

/-!
# The stored encoding of a claim

A record keeps every header field but the version and the binding of the
parent, which decoding supplies itself.
-/

set_option autoImplicit false

namespace BinaChain.Encoding
open BinaChain.Word BinaChain.Text BinaChain.Crypto BinaChain.Block BinaChain.Claims
open BinaChain.Transaction BinaChain.BitcoinEntropy BinaChain.Rewards BinaChain.State
open BinaChain.Store BinaChain.Admission BinaChain.Mining BinaChain.Sync

/-- On top of `prevHash` the record gives back the claim, and the claim passes
the hash and the signature checks of a synchronising node. -/
structure Rebuilds (K : Primitives) (r : BlockRecord) (prevHash : Hash)
    (claim : SignedBlockClaim) : Prop where
  header : headerFromRecord r prevHash = .ok claim.header
  decoded : claimFromRecord r prevHash = .ok claim
  verified : claim.verify K = .ok ()
  hash : claim.blockHashHex K = r.blockHash

theorem headerFromRecord_recordOf (K : Primitives) (f : Finalising) (prevHash : Hash) :
    headerFromRecord (recordOf K f) prevHash =
      .ok { f.winning.claim.header with version := 1, height := f.height, prevHash } := by
  have hm : parseAddressHex (recordOf K f).minerAddress =
      .ok f.winning.claim.header.minerAddress := parseAddressHex_encode _
  have hs : hexTo32 (recordOf K f).btcSeed = .ok f.winning.claim.header.bitcoinSeedHash :=
    hexTo32_encode _
  have hr : hexTo32 (recordOf K f).merkleRoot = .ok f.winning.claim.header.merkleRoot :=
    hexTo32_encode _
  have ht : hexTo32 (recordOf K f).stateRoot = .ok f.winning.claim.header.stateRoot :=
    hexTo32_encode _
  unfold headerFromRecord
  rw [hm, hs, hr, ht]
  rfl

theorem claimFromRecord_recordOf (K : Primitives) (f : Finalising) (prevHash : Hash) :
    claimFromRecord (recordOf K f) prevHash =
      .ok { f.winning.claim with
        header := { f.winning.claim.header with version := 1, height := f.height, prevHash } } := by
  have hp : Hex.decode (recordOf K f).minerPublicKey = .ok f.winning.claim.publicKey :=
    Hex.decode_encode _
  have hs : Hex.decode (recordOf K f).minerSignature = .ok f.winning.claim.signature :=
    Hex.decode_encode _
  unfold claimFromRecord
  rw [headerFromRecord_recordOf, hp, hs]
  rfl

theorem same_header_iff (h : L1BlockHeader) (prevHash : Hash) :
    { h with version := 1, prevHash } = h ↔ h.version = 1 ∧ h.prevHash = prevHash := by
  constructor
  · intro he
    exact ⟨(congrArg L1BlockHeader.version he).symm, (congrArg L1BlockHeader.prevHash he).symm⟩
  · rintro ⟨hv, rfl⟩
    rw [← hv]

/-- The record of an accepted claim that was finalised rebuilds the claim on a
parent exactly when the claim was signed for version 1 and for that parent. -/
theorem record_rebuilds_iff (K : Primitives) (s : NodeState) (l : RewardLedger) (now : ℕ)
    (p : PendingClaim) (a : AcceptedClaim) (hacc : (acceptSignedClaim K s l now p).1 = .ok a)
    (f : Finalising) (hw : f.winning = p) (hh : f.height = p.height) (prevHash : Hash) :
    Rebuilds K (recordOf K f) prevHash p.claim ↔
      p.claim.header.version = 1 ∧ p.claim.header.prevHash = prevHash := by
  subst hw
  have hsame : { f.winning.claim.header with version := 1, height := f.height, prevHash } =
      { f.winning.claim.header with version := 1, prevHash } := by
    rw [hh]
    rfl
  have hhead := headerFromRecord_recordOf K f prevHash
  have hclaim := claimFromRecord_recordOf K f prevHash
  rw [hsame] at hhead hclaim
  constructor
  · intro h
    exact (same_header_iff _ _).mp (Except.ok.inj (hhead.symm.trans h.header))
  · intro h
    rw [(same_header_iff _ _).mpr h] at hhead hclaim
    have hscreen := (accepted_acceptable hacc).1.screened
    exact ⟨hhead, hclaim, hscreen.verified, rfl⟩

def toyVersioned (version : ℕ) : PendingClaim :=
  let t := (prepare toyPrimitives (toyWallet 1) toyGenesis.state toyGenesis.ledger
    toyGenesis.cursor .mock (toyGenesis.cursor.lastBlockTimestampMs+1) []).2
  toyPending 1 0 { t with header := { t.header with version } }

def toyFinalised (version : ℕ) : Finalising :=
  toyFinalising toyGenesis.state toyGenesis.cursor (toyVersioned version) 50

def toyAcceptance (version : ℕ) : Except ClaimReject AcceptedClaim :=
  (acceptSignedClaim toyPrimitives toyGenesis.state toyGenesis.ledger (toyEnv.now 1)
    (toyVersioned version)).1

set_option maxRecDepth 100000 in
theorem toyAcceptance_ok : ∀ version ∈ [1, 2], (toyAcceptance version).isOk := by
  decide +kernel

theorem record_rebuilds_iff_sample :
    Rebuilds toyPrimitives (recordOf toyPrimitives (toyFinalised 1)) (genesisHash toyPrimitives)
      (toyVersioned 1).claim := by
  obtain ⟨a, ha⟩ := Checked.isOk_iff.mp (toyAcceptance_ok 1 (by simp))
  exact (record_rebuilds_iff toyPrimitives toyGenesis.state toyGenesis.ledger (toyEnv.now 1)
    (toyVersioned 1) a ha (toyFinalised 1) rfl rfl (genesisHash toyPrimitives)).mpr ⟨rfl, rfl⟩

set_option maxRecDepth 100000 in
theorem version_two_not_rebuilt :
    (toyAcceptance 2).isOk ∧
    (headerFromRecord (recordOf toyPrimitives (toyFinalised 2))
      (genesisHash toyPrimitives)).toOption ≠ some (toyVersioned 2).claim.header ∧
    checkRecord toyPrimitives toyGenesis.cursor toyGenesis.ledger (toyEnv.now 1)
      (recordOf toyPrimitives (toyFinalised 2)) = none := by
  decide +kernel

end BinaChain.Encoding
