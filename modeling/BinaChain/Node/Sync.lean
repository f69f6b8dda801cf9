import BinaChain.Node.Mining
import BinaChain.Support.Checked

/-!
# Adopting a peer's records

A record is checked against the loop's own variables and re-executed on a copy
of the ledger before it is applied. The checks come in the order of the source;
the first that fails ends the synchronisation.
-/

set_option autoImplicit false

namespace BinaChain.Sync
open BinaChain.Word BinaChain.Text BinaChain.Crypto BinaChain.Block BinaChain.Claims
open BinaChain.Transaction BinaChain.Randomness BinaChain.BitcoinEntropy BinaChain.Rewards
open BinaChain.Execution BinaChain.State BinaChain.Store BinaChain.Mining

/-- The version is not part of a record. -/
def headerFromRecord (r : BlockRecord) (prevHash : Hash) : Except Failure L1BlockHeader := do
  let minerAddress ← (parseAddressHex r.minerAddress).mapError .error
  let bitcoinSeedHash ← hexTo32 r.btcSeed
  let merkleRoot ← hexTo32 r.merkleRoot
  let stateRoot ← hexTo32 r.stateRoot
  pure
    { version := 1
      height := r.height
      prevHash
      merkleRoot
      stateRoot
      timestamp := r.timestamp
      nonce := r.nonce
      minerAddress
      difficultyBits := r.difficultyBits
      bitcoinSeedHash }

def claimFromRecord (r : BlockRecord) (prevHash : Hash) : Except Failure SignedBlockClaim := do
  let header ← headerFromRecord r prevHash
  let publicKey ← (Hex.decode r.minerPublicKey).mapError .error
  let signature ← (Hex.decode r.minerSignature).mapError .error
  pure { header, publicKey, signature }

/-- The claim of a record that extends the cursor; `none` is a stop, or a panic,
after which the loop takes no further step. -/
def checkRecord (K : Primitives) (c : Cursor) (l : RewardLedger) (now : ℕ) (r : BlockRecord) :
    Option SignedBlockClaim := do
  guard (r.height = c.height+1)
  guard (r.prevHash = Hex.encode c.tipHash.toList)
  let header ← (headerFromRecord r c.tipHash).toOption
  guard (timestampIsValid header.timestamp c.lastBlockTimestampMs now maxFutureMs)
  guard (header.difficultyBits = c.adjuster.currentBits)
  guard (isCheckpointHeight r.height ∨ r.btcSeed = Hex.encode c.btcSeedHash.toList)
  let claim ← (claimFromRecord r c.tipHash).toOption
  guard ((claim.verify K).toOption = some ())
  guard (claim.blockHashHex K = r.blockHash)
  guard (merkleRoot K r.transactions = header.merkleRoot)
  guard (r.transactions.length ≤ maxTxsPerBlock)
  let (applied, computedStateRoot) :=
    simulateBlockExecution K l r.transactions r.minerAddress r.rewardBina
  guard (applied.length = r.transactions.length ∧ computedStateRoot = header.stateRoot)
  pure claim

structure Parts where
  state : NodeState
  ledger : RewardLedger
  store : BlockStore
  cursor : Cursor

def advanceSynced (K : Primitives) (c : Cursor) (r : BlockRecord) (claim : SignedBlockClaim) :
    Cursor :=
  let header := claim.header
  let isCkpt := isCheckpointHeight r.height
  { height := r.height
    tipHash := claim.blockHash K
    lastBlockTimestampMs := header.timestamp
    btcSeedHash := if isCkpt then header.bitcoinSeedHash else c.btcSeedHash
    btcCheckpointTipHeight := if isCkpt then r.btcHeight else c.btcCheckpointTipHeight
    chainWork := satAdd128 c.chainWork (blockWork header.difficultyBits)
    adjuster := c.adjuster.recordBlock K r.height header.timestamp }

/-- The ledger and the store move first, together with the loop's variables. A
failed insert is only logged. -/
def applyRecord (K : Primitives) (stored : Bool) (x : Parts) (r : BlockRecord)
    (claim : SignedBlockClaim) : Parts :=
  { state := x.state
    ledger := executeBlock K r.height r.minerAddress r.rewardBina (r.timestamp/1000) x.ledger
      r.transactions
    store := if stored then x.store.insertBlock r else x.store
    cursor := advanceSynced K x.cursor r claim }

def markAdopted (spent : NullifierSet) (nullifier : Str) : NullifierSet :=
  match Hex.decode nullifier with
  | .error _ => spent
  | .ok bytes =>
    match Hex.fixed 32 bytes with
    | none => spent
    | some n => NullifierSet.markSpent spent n

/-- The shared state follows. -/
def publishSynced (K : Primitives) (x : Parts) (r : BlockRecord) : Parts :=
  let c := x.cursor
  let s := dropConfirmed K x.state r.transactions
  let s :=
    { s with
      chainHeight := c.height
      tipHash := c.tipHash
      difficultyBits := c.adjuster.currentBits
      btcSeedHash := c.btcSeedHash
      btcCheckpointTipHeight := c.btcCheckpointTipHeight
      lastBlockTimestampMs := c.lastBlockTimestampMs
      chainWork := c.chainWork
      totalMinedBina := x.ledger.totalMined
      nullifiers := markAdopted s.nullifiers r.nullifier }
  { x with
    state := s.retainAbove c.height
    store := r.transactions.foldl (BlockStore.mempoolRemove K) x.store }

/-- The clock and the outcome of the insert, for each height. -/
structure SyncEnv where
  now : ℕ → ℕ
  stored : ℕ → Bool

def syncRecord (K : Primitives) (env : SyncEnv) (x : Parts) (r : BlockRecord) : Option Parts :=
  (checkRecord K x.cursor x.ledger (env.now r.height) r).map fun claim =>
    publishSynced K (applyRecord K (env.stored r.height) x r claim) r

def syncPage (K : Primitives) (env : SyncEnv) : Parts → List BlockRecord → Parts × Bool
  | x, [] => (x, false)
  | x, r :: rest =>
    match syncRecord K env x r with
    | none => (x, true)
    | some x' => syncPage K env x' rest

/-- The replies of the peer, one page for each request; a missing reply ends
the synchronisation and so does an empty page. -/
def syncForwardFromPeer (K : Primitives) (env : SyncEnv) (targetHeight : ℕ) :
    Parts → List (Option (List BlockRecord)) → Parts
  | x, [] => x
  | x, reply :: replies =>
    if x.cursor.height ≥ targetHeight then x
    else
      match reply with
      | none => x
      | some [] => x
      | some page =>
        let (x', stop) := syncPage K env x page
        if stop then x' else syncForwardFromPeer K env targetHeight x' replies

structure Checked (K : Primitives) (c : Cursor) (l : RewardLedger) (now : ℕ) (r : BlockRecord)
    (claim : SignedBlockClaim) : Prop where
  height : r.height = c.height+1
  parent : r.prevHash = Hex.encode c.tipHash.toList
  rebuilt : claimFromRecord r c.tipHash = .ok claim
  header : headerFromRecord r c.tipHash = .ok claim.header
  later : c.lastBlockTimestampMs < claim.header.timestamp
  notFuture : claim.header.timestamp ≤ satAdd now maxFutureMs
  difficulty : claim.header.difficultyBits = c.adjuster.currentBits
  seed : isCheckpointHeight r.height ∨ r.btcSeed = Hex.encode c.btcSeedHash.toList
  verified : claim.verify K = .ok ()
  hash : claim.blockHashHex K = r.blockHash
  merkle : merkleRoot K r.transactions = claim.header.merkleRoot
  size : r.transactions.length ≤ maxTxsPerBlock
  applied : (simulateBlockExecution K l r.transactions r.minerAddress r.rewardBina).1.length =
    r.transactions.length
  root : (simulateBlockExecution K l r.transactions r.minerAddress r.rewardBina).2 =
    claim.header.stateRoot

theorem guard_eq_some {p : Prop} [Decidable p] {u : Unit} :
    (guard p : Option Unit) = some u ↔ p := by
  by_cases h : p <;> simp [guard, h]

theorem claimFromRecord_header {r : BlockRecord} {prevHash : Hash} {claim : SignedBlockClaim}
    (h : claimFromRecord r prevHash = .ok claim) :
    headerFromRecord r prevHash = .ok claim.header := by
  unfold claimFromRecord at h
  cases hh : headerFromRecord r prevHash with
  | error e => simp [hh, bind, Except.bind] at h
  | ok header =>
    cases hp : Hex.decode r.minerPublicKey with
    | error e => simp [hh, hp, Except.mapError, bind, Except.bind] at h
    | ok publicKey =>
      cases hs : Hex.decode r.minerSignature with
      | error e => simp [hh, hp, hs, Except.mapError, bind, Except.bind] at h
      | ok signature =>
        simp [hh, hp, hs, Except.mapError, bind, Except.bind, pure, Except.pure] at h
        rw [← h]

/-- The chain of checks passes exactly when every condition holds. -/
theorem checkRecord_iff {K : Primitives} {c : Cursor} {l : RewardLedger} {now : ℕ}
    {r : BlockRecord} {claim : SignedBlockClaim} :
    checkRecord K c l now r = some claim ↔ Checked K c l now r claim := by
  unfold checkRecord
  simp only [Option.bind_eq_bind, Option.bind_eq_some_iff, guard_eq_some,
    Checked.toOption_eq_some,
    timestampIsValid_iff, exists_const]
  constructor
  · rintro ⟨hh, hp, header, hhead, hts, hd, hs, claim', hc, hv, hb, hm, hl, hsim, hpure⟩
    obtain rfl := Option.some.inj hpure
    have he : header = claim'.header :=
      Except.ok.inj (hhead.symm.trans (claimFromRecord_header hc))
    subst he
    exact ⟨hh, hp, hc, hhead, hts.1, hts.2, hd, hs, hv, hb, hm, hl, hsim.1, hsim.2⟩
  · intro h
    exact ⟨h.height, h.parent, claim.header, h.header, ⟨h.later, h.notFuture⟩, h.difficulty,
      h.seed, claim, h.rebuilt, h.verified, h.hash, h.merkle, h.size, ⟨h.applied, h.root⟩, rfl⟩

theorem headerFromRecord_ok {r : BlockRecord} {prevHash : Hash} {header : L1BlockHeader}
    (h : headerFromRecord r prevHash = .ok header) :
    header.version = 1 ∧ header.height = r.height ∧ header.prevHash = prevHash ∧
      header.timestamp = r.timestamp ∧ header.nonce = r.nonce ∧
      header.difficultyBits = r.difficultyBits ∧
      parseAddressHex r.minerAddress = .ok header.minerAddress ∧
      hexTo32 r.btcSeed = .ok header.bitcoinSeedHash ∧
      hexTo32 r.merkleRoot = .ok header.merkleRoot ∧ hexTo32 r.stateRoot = .ok header.stateRoot := by
  unfold headerFromRecord at h
  cases hm : parseAddressHex r.minerAddress with
  | error e => simp [hm, Except.mapError, bind, Except.bind] at h
  | ok miner =>
    cases hs : hexTo32 r.btcSeed with
    | error e => simp [hm, hs, Except.mapError, bind, Except.bind] at h
    | ok seed =>
      cases hr : hexTo32 r.merkleRoot with
      | error e => simp [hm, hs, hr, Except.mapError, bind, Except.bind] at h
      | ok merkle =>
        cases hst : hexTo32 r.stateRoot with
        | error e => simp [hm, hs, hr, hst, Except.mapError, bind, Except.bind] at h
        | ok state =>
          simp [hm, hs, hr, hst, Except.mapError, bind, Except.bind, pure, Except.pure] at h
          subst h
          simp

def toyGenesis : Parts where
  state := genesisState toyPrimitives .mock
  ledger := .create []
  store := .empty
  cursor := genesisCursor toyPrimitives

def toyRecord (key : UInt8) (nonce : ℕ) (x : Parts) (txs : List SignedTransaction) : BlockRecord :=
  recordOf toyPrimitives (toyFinalising x.state x.cursor
    (toyCandidate key nonce x.state x.ledger x.cursor txs)
    (blockReward (x.cursor.height+1) x.state.totalMinedBina))

def toyEnv : SyncEnv where
  now _ := 1751241600000+60000
  stored _ := true

def toyExtend (key : UInt8) (nonce : ℕ) (x : Parts) : Parts :=
  (syncRecord toyPrimitives toyEnv x (toyRecord key nonce x [])).getD x

def toyFirst : Parts := toyExtend 1 0 toyGenesis

end BinaChain.Sync
