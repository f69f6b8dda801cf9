import BinaChain.Ledger.Execution
import BinaChain.Node.Admission
import BinaChain.Node.Store

/-!
# One iteration of the mining loop

A candidate is proposed on the tip, a winner is elected among the candidates of
the height, executed against the ledger, recorded, saved and published.
-/

set_option autoImplicit false

namespace BinaChain.Mining
open BinaChain.Word BinaChain.Text BinaChain.Crypto BinaChain.Block BinaChain.Claims
open BinaChain.Transaction BinaChain.Randomness BinaChain.BitcoinEntropy BinaChain.Difficulty
open BinaChain.Rewards BinaChain.Execution BinaChain.State BinaChain.Store

def showHex (n : ℕ) : Str := Nat.toDigits 16 n

/-- What the local miner works on: a header up to its nonce, the proof of a
checkpoint and the transactions the header commits to. -/
structure Template where
  header : L1BlockHeader
  btcCheckpoint : Option BtcCheckpointProof
  transactions : List SignedTransaction
  reward : ℕ

/-- The part of an iteration before the nonce search. The Bitcoin observation
is used at checkpoint heights only. -/
def prepare (K : Primitives) (miner : WalletAddress) (s : NodeState) (l : RewardLedger)
    (c : Cursor) (fresh : BtcEntropyState) (now : ℕ) (candidateTxs : List SignedTransaction) :
    NodeState × Template :=
  let height := c.height+1
  let isCkpt := isCheckpointHeight height
  let (btcSeed, checkpointProof) :=
    if isCkpt then (fresh.bitcoinSeedHash K, some (BtcCheckpointProof.fromState fresh))
    else (c.btcSeedHash, none)
  let reward := blockReward height s.totalMinedBina
  let (appliedTxs, candidateStateRoot) :=
    simulateBlockExecution K l candidateTxs (Hex.encode miner.toList) reward
  let header : L1BlockHeader :=
    { version := 1
      height
      prevHash := c.tipHash
      merkleRoot := merkleRoot K appliedTxs
      stateRoot := candidateStateRoot
      timestamp := max now (satAdd c.lastBlockTimestampMs 1)
      nonce := 0
      minerAddress := miner
      difficultyBits := c.adjuster.currentBits
      bitcoinSeedHash := btcSeed }
  ({ s with
      lastObservedBtc := if isCkpt then fresh else s.lastObservedBtc
      difficultyBits := c.adjuster.currentBits },
    { header, btcCheckpoint := checkpointProof, transactions := appliedTxs, reward })

def Template.sign (t : Template) (nonce : ℕ) (publicKey signature : Bytes) : PendingClaim where
  claim := { header := { t.header with nonce }, publicKey, signature }
  btcCheckpoint := t.btcCheckpoint
  transactions := t.transactions

/-- `or_insert_with`: a claim already entered for the miner stays. -/
def enterLocal (s : NodeState) (p : PendingClaim) : NodeState :=
  if p.minerHex ∈ s.poolAt p.height then s else s.register p

theorem enterLocal_eq (s : NodeState) (p : PendingClaim) :
    enterLocal s p = { s with pendingClaims := (enterLocal s p).pendingClaims } := by
  unfold enterLocal
  split <;> rfl

/-- The candidates of the height leave the shared state with all older ones. -/
def closeElection (s : NodeState) (height : ℕ) : NodeState := s.retainAbove height

def checkpointTip (s : NodeState) (w : PendingClaim) (height : ℕ) : ℕ :=
  if isCheckpointHeight height then
    match w.btcCheckpoint with
    | some proof => proof.tipHeight
    | none => s.btcCheckpointTipHeight
  else s.btcCheckpointTipHeight

/-- The loop's own variables after the election. The variable that holds the
checkpoint's tip height is not among those assigned. -/
def advance (K : Primitives) (c : Cursor) (w : PendingClaim) (height : ℕ) : Cursor :=
  let header := w.claim.header
  { height
    tipHash := w.claim.blockHash K
    lastBlockTimestampMs := header.timestamp
    btcSeedHash :=
      if isCheckpointHeight height ∧ w.btcCheckpoint.isSome then header.bitcoinSeedHash
      else c.btcSeedHash
    btcCheckpointTipHeight := c.btcCheckpointTipHeight
    chainWork := satAdd128 c.chainWork (blockWork header.difficultyBits)
    adjuster := c.adjuster.recordBlock K height header.timestamp }

def randomnessOf (K : Primitives) (w : PendingClaim) (height : ℕ) : RandomnessOutput :=
  .fromBlock K height (w.claim.blockHash K) w.claim.header.bitcoinSeedHash

/-- A winner between its election and its publication. -/
structure Finalising where
  height : ℕ
  reward : ℕ
  winning : PendingClaim
  localHash : Hash
  hashesTried : ℕ
  elapsedMs : ℕ
  cursor : Cursor
  checkpointTipNow : ℕ

def recordOf (K : Primitives) (f : Finalising) : BlockRecord :=
  let w := f.winning
  let header := w.claim.header
  let blockHash := w.claim.blockHash K
  let localWon := blockHash = f.localHash
  let randOut := randomnessOf K w f.height
  { height := f.height
    blockHash := Hex.encode blockHash.toList
    prevHash := Hex.encode header.prevHash.toList
    nonce := header.nonce
    timestamp := header.timestamp
    minedTimestampSecs := header.timestamp/1000
    zeroBits := leadingZeroBits blockHash
    difficultyBits := header.difficultyBits
    hashesTried := if localWon then f.hashesTried else 0
    elapsedMs := if localWon then f.elapsedMs else 0
    minerAddress := w.minerHex
    minerPublicKey := Hex.encode w.claim.publicKey
    minerSignature := Hex.encode w.claim.signature
    claimDigest := Hex.encode (claimMessage K header).toList
    electionScore := Hex.encode (w.claim.score K).toList
    source := if localWon then "local".toList else "submitted".toList
    rewardBina := f.reward
    randomnessOutput := randOut.outputHex
    nullifier := randOut.nullifierHex
    btcSeed := Hex.encode header.bitcoinSeedHash.toList
    btcHeight := f.checkpointTipNow
    merkleRoot := Hex.encode header.merkleRoot.toList
    stateRoot := Hex.encode header.stateRoot.toList
    chainWorkHex := showHex f.cursor.chainWork
    transactions := w.transactions }

def executeWinner (K : Primitives) (f : Finalising) (l : RewardLedger) : RewardLedger :=
  executeBlock K f.height f.winning.minerHex f.reward (f.winning.claim.header.timestamp/1000) l
    f.winning.transactions

def dropConfirmed (K : Primitives) (s : NodeState) (txs : List SignedTransaction) : NodeState :=
  { s with mempool := txs.foldl (fun m tx => m.erase (tx.txId K)) s.mempool }

/-- The resume pointer, written after the block itself. -/
structure ChainStateFile where
  genesisHash : Str
  tipHash : Str
  height : ℕ
  difficultyBits : ℕ
  epochStartMs : ℕ
  epochStartHeight : ℕ
  btcSeedHash : Str
  btcCheckpointTipHeight : ℕ
  lastBlockTimestampMs : ℕ
  chainWorkHex : Str

def chainStateFile (genesisHash tipHash : Hash) (height btcCheckpointTipHeight : ℕ)
    (c : Cursor) : ChainStateFile where
  genesisHash := Hex.encode genesisHash.toList
  tipHash := Hex.encode tipHash.toList
  height
  difficultyBits := c.adjuster.currentBits
  epochStartMs := c.adjuster.epochStartMs
  epochStartHeight := c.adjuster.epochStartHeight
  btcSeedHash := Hex.encode c.btcSeedHash.toList
  btcCheckpointTipHeight
  lastBlockTimestampMs := c.lastBlockTimestampMs
  chainWorkHex := showHex c.chainWork

/-- The last step of an iteration; `none` is the panic on a spent nullifier. -/
def publish (K : Primitives) (f : Finalising) (l : RewardLedger) (s : NodeState) :
    Option NodeState :=
  match NullifierSet.consume s.nullifiers (randomnessOf K f.winning f.height) with
  | (.error _, _) => none
  | (.ok _, nullifiers) => some
    { s with
      nullifiers
      chainHeight := f.height
      totalMinedBina := l.totalMined
      difficultyBits := f.cursor.adjuster.currentBits
      tipHash := f.winning.claim.blockHash K
      btcSeedHash := f.cursor.btcSeedHash
      btcCheckpointTipHeight := f.checkpointTipNow
      lastBlockTimestampMs := f.cursor.lastBlockTimestampMs
      chainWork := f.cursor.chainWork }

def toyPublicKey (key : UInt8) : Bytes := List.replicate (32+falconPkBytes) key

def toyWallet (key : UInt8) : WalletAddress :=
  WalletPublicKey.address toyPrimitives
    { ed25519 := (toyPublicKey key).take 32, falcon := (toyPublicKey key).drop 32 }

def toySignature (key : UInt8) (header : L1BlockHeader) : Bytes :=
  let msg := (claimMessage toyPrimitives header).toList
  [32, 0]++(msg++(toyPublicKey key).take 32)++msg

def toyPending (key : UInt8) (nonce : ℕ) (t : Template) : PendingClaim :=
  t.sign nonce (toyPublicKey key) (toySignature key { t.header with nonce })

def toyCandidate (key : UInt8) (nonce : ℕ) (s : NodeState) (l : RewardLedger) (c : Cursor)
    (txs : List SignedTransaction) : PendingClaim :=
  toyPending key nonce
    (prepare toyPrimitives (toyWallet key) s l c .mock (c.lastBlockTimestampMs+1) txs).2

def toyFinalising (s : NodeState) (c : Cursor) (w : PendingClaim) (reward : ℕ) : Finalising where
  height := w.height
  reward
  winning := w
  localHash := w.claim.blockHash toyPrimitives
  hashesTried := 1
  elapsedMs := 1
  cursor := advance toyPrimitives c w w.height
  checkpointTipNow := checkpointTip s w w.height

end BinaChain.Mining
