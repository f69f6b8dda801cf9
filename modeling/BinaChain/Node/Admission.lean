import BinaChain.Node.State

/-!
# Admission of claims and transactions

A claim passes three phases under three locks: the shared state is read, the
ledger is consulted, and the claim is entered among the candidates of its
height. A transaction is checked under one lock and queued under another.
-/

set_option autoImplicit false

namespace BinaChain.Admission
open BinaChain.Word BinaChain.Text BinaChain.Crypto BinaChain.Block BinaChain.Claims
open BinaChain.Transaction BinaChain.BitcoinEntropy BinaChain.Rewards BinaChain.State Std

inductive StatusCode where
  | badRequest
  | conflict
  | serviceUnavailable
  deriving DecidableEq

structure ClaimReject where
  status : StatusCode
  message : String
  deriving DecidableEq

structure AcceptedClaim where
  height : ℕ
  minerHex : Str
  blockHash : Str
  electionScore : Str
  workBits : ℕ
  deriving DecidableEq

/-- The checks that need neither lock. -/
def screen (K : Primitives) (p : PendingClaim) : Except ClaimReject Unit :=
  match p.claim.verify K with
  | .error e => .error ⟨.badRequest, s!"invalid signed claim: {e}"⟩
  | .ok () =>
    if p.transactions.length > maxTxsPerBlock then
      .error ⟨.badRequest, s!"claim carries {p.transactions.length} transactions, over the " ++
        s!"{maxTxsPerBlock} limit"⟩
    else if merkleRoot K p.transactions ≠ p.claim.header.merkleRoot then
      .error ⟨.badRequest, "claim transaction list does not match its header merkle_root"⟩
    else .ok ()

def checkSeed (K : Primitives) (s : NodeState) (p : PendingClaim) : Except ClaimReject Unit :=
  if isCheckpointHeight p.height then
    match p.btcCheckpoint with
    | none => .error ⟨.badRequest, "height requires a Bitcoin checkpoint proof"⟩
    | some proof =>
      if proof.seedHash K ≠ p.claim.header.bitcoinSeedHash then
        .error ⟨.badRequest, "checkpoint proof does not match the claim's bitcoin_seed_hash"⟩
      else if proof.isPlausible s.btcCheckpointTipHeight s.lastObservedBtc.tipHeight
          btcHeightTolerance = false then
        .error ⟨.conflict,
          s!"checkpoint proof not plausible: claimed btc height {proof.tipHeight}, " ++
          s!"last checkpoint {s.btcCheckpointTipHeight}, " ++
          s!"locally observed {s.lastObservedBtc.tipHeight}"⟩
      else .ok ()
  else if p.claim.header.bitcoinSeedHash ≠ s.btcSeedHash then
    .error ⟨.conflict, "claim Bitcoin seed does not match the seed pinned at the last checkpoint"⟩
  else .ok ()

/-- Phase 1: the claim extends the tip. Returns the reward of its height. -/
def checkTip (K : Primitives) (s : NodeState) (now : ℕ) (p : PendingClaim) :
    Except ClaimReject ℕ :=
  let header := p.claim.header
  let nextHeight := s.chainHeight+1
  if s.genesisHash = zeroHash then
    .error ⟨.serviceUnavailable, "genesis not initialized"⟩
  else if p.height ≠ nextHeight then
    .error ⟨.conflict, s!"claim height {p.height} does not match next height {nextHeight}"⟩
  else if header.prevHash ≠ s.tipHash then
    .error ⟨.conflict, "claim prev_hash does not match chain tip"⟩
  else if header.difficultyBits ≠ s.difficultyBits then
    .error ⟨.conflict,
      "claim difficulty does not match the deterministic difficulty for this height"⟩
  else if timestampIsValid header.timestamp s.lastBlockTimestampMs now maxFutureMs = false then
    .error ⟨.badRequest,
      "claim timestamp must be after the previous block and not too far in the future"⟩
  else
    match checkSeed K s p with
    | .error e => .error e
    | .ok () => .ok (blockReward p.height s.totalMinedBina)

/-- Phase 2: the transactions execute and lead to the claimed state root. -/
def checkExecution (K : Primitives) (l : RewardLedger) (p : PendingClaim) (reward : ℕ) :
    Except ClaimReject Unit :=
  let (applied, computedStateRoot) :=
    simulateBlockExecution K l p.transactions p.minerHex reward
  if applied.length ≠ p.transactions.length then
    .error ⟨.badRequest,
      "claim includes a transaction that does not validate against the parent state"⟩
  else if computedStateRoot ≠ p.claim.header.stateRoot then
    .error ⟨.badRequest, "claim state_root does not match re-executing its transactions " ++
      "against the parent state"⟩
  else .ok ()

/-- Phase 3: one claim for each miner and height, the first one. -/
def enterCandidate (s : NodeState) (p : PendingClaim) : Except ClaimReject Unit × NodeState :=
  if p.minerHex ∈ s.poolAt p.height then
    (.error ⟨.conflict,
      "miner already submitted a claim for this height; first valid claim is kept"⟩, s)
  else (.ok (), s.register p)

theorem enterCandidate_eq (s : NodeState) (p : PendingClaim) : (enterCandidate s p).2 =
    { s with pendingClaims := (enterCandidate s p).2.pendingClaims } := by
  unfold enterCandidate
  split <;> rfl

def acceptedClaim (K : Primitives) (p : PendingClaim) : AcceptedClaim where
  height := p.height
  minerHex := p.minerHex
  blockHash := p.claim.blockHashHex K
  electionScore := Hex.encode (p.claim.score K).toList
  workBits := p.claim.workBits K

def acceptSignedClaim (K : Primitives) (s : NodeState) (l : RewardLedger) (now : ℕ)
    (p : PendingClaim) : Except ClaimReject AcceptedClaim × NodeState :=
  match (do screen K p; let reward ← checkTip K s now p; checkExecution K l p reward) with
  | .error e => (.error e, s)
  | .ok () =>
    match enterCandidate s p with
    | (.error e, s') => (.error e, s')
    | (.ok (), s') => (.ok (acceptedClaim K p), s')

def checkSpend (K : Primitives) (l : RewardLedger) (signed : SignedTransaction) :
    Except String Unit :=
  match signed.verify K with
  | .error e => .error s!"transaction rejected: {e}"
  | .ok () =>
    let expectedNonce := l.nonce signed.fromHex
    if signed.tx.nonce ≠ expectedNonce then
      .error s!"bad transaction nonce: expected {expectedNonce}, got {signed.tx.nonce}"
    else
      match checkedAdd signed.tx.amount signed.tx.fee with
      | none => .error "transaction amount + fee overflow"
      | some debitTotal =>
        let balance := l.balance signed.fromHex
        if balance < debitTotal then
          .error s!"insufficient balance: have {balance}, need {debitTotal}"
        else .ok ()

def queueTransaction (K : Primitives) (s : NodeState) (signed : SignedTransaction) :
    Except String NodeState :=
  if s.mempool.size ≥ maxMempoolSize ∧ signed.txId K ∉ s.mempool then
    .error "mempool is full, try again shortly"
  else .ok { s with mempool := s.mempool.insert (signed.txId K) signed }

structure Screened (K : Primitives) (p : PendingClaim) : Prop where
  verified : p.claim.verify K = .ok ()
  size : p.transactions.length ≤ maxTxsPerBlock
  merkle : merkleRoot K p.transactions = p.claim.header.merkleRoot

/-- The seed is the pinned one, or the proof of a checkpoint pins it. -/
def SeedHolds (K : Primitives) (s : NodeState) (p : PendingClaim) : Prop :=
  if isCheckpointHeight p.height then
    ∃ proof, p.btcCheckpoint = some proof ∧
      proof.seedHash K = p.claim.header.bitcoinSeedHash ∧
      proof.isPlausible s.btcCheckpointTipHeight s.lastObservedBtc.tipHeight
        btcHeightTolerance = true
  else p.claim.header.bitcoinSeedHash = s.btcSeedHash

structure ExtendsTip (s : NodeState) (p : PendingClaim) : Prop where
  height : p.height = s.chainHeight+1
  parent : p.claim.header.prevHash = s.tipHash
  difficulty : p.claim.header.difficultyBits = s.difficultyBits
  later : s.lastBlockTimestampMs < p.claim.header.timestamp

structure Executes (K : Primitives) (l : RewardLedger) (p : PendingClaim) (reward : ℕ) :
    Prop where
  applied : (simulateBlockExecution K l p.transactions p.minerHex reward).1.length =
    p.transactions.length
  root : (simulateBlockExecution K l p.transactions p.minerHex reward).2 =
    p.claim.header.stateRoot

theorem screen_ok {K : Primitives} {p : PendingClaim} :
    screen K p = .ok () ↔ Screened K p := by
  unfold screen
  cases hv : p.claim.verify K with
  | error e => exact ⟨fun h => by simp at h, fun h => by simp [h.verified] at hv⟩
  | ok u =>
    simp only
    split
    · exact ⟨fun h => by simp at h, fun h => absurd h.size (by omega)⟩
    · split
      · rename_i hm
        exact ⟨fun h => by simp at h, fun h => absurd h.merkle hm⟩
      · rename_i hl hm
        exact ⟨fun _ => ⟨hv, by omega, by simpa using hm⟩, fun _ => rfl⟩

theorem checkSeed_ok {K : Primitives} {s : NodeState} {p : PendingClaim} :
    checkSeed K s p = .ok () ↔ SeedHolds K s p := by
  unfold checkSeed SeedHolds
  split
  · cases p.btcCheckpoint with
    | none => simp
    | some proof =>
      by_cases hs : proof.seedHash K = p.claim.header.bitcoinSeedHash <;> simp [hs]
  · simp

theorem checkTip_ok {K : Primitives} {s : NodeState} {now : ℕ} {p : PendingClaim} {reward : ℕ} :
    checkTip K s now p = .ok reward ↔ s.genesisHash ≠ zeroHash ∧ ExtendsTip s p ∧
      p.claim.header.timestamp ≤ satAdd now maxFutureMs ∧ SeedHolds K s p ∧
      reward = blockReward p.height s.totalMinedBina := by
  have hts : timestampIsValid p.claim.header.timestamp s.lastBlockTimestampMs now maxFutureMs =
      false ↔ ¬ (s.lastBlockTimestampMs < p.claim.header.timestamp ∧
        p.claim.header.timestamp ≤ satAdd now maxFutureMs) := by
    rw [← timestampIsValid_iff, Bool.not_eq_true]
  unfold checkTip
  simp only [hts]
  split
  · simp_all
  split
  · rename_i hh
    exact ⟨fun h => by simp at h, fun h => absurd h.2.1.height hh⟩
  split
  · rename_i hp
    exact ⟨fun h => by simp at h, fun h => absurd h.2.1.parent hp⟩
  split
  · rename_i hd
    exact ⟨fun h => by simp at h, fun h => absurd h.2.1.difficulty hd⟩
  split
  · rename_i ht
    exact ⟨fun h => by simp at h, fun h => absurd ⟨h.2.1.later, h.2.2.1⟩ ht⟩
  rename_i hg hh hp hd ht
  simp only [ne_eq, not_not] at hh hp hd ht
  cases hs : checkSeed K s p with
  | error e =>
    refine ⟨fun h => by simp at h, fun h => ?_⟩
    rw [checkSeed_ok.mpr h.2.2.2.1] at hs
    simp at hs
  | ok u =>
    have hseed := checkSeed_ok.mp hs
    simp only [Except.ok.injEq]
    exact ⟨fun h => ⟨hg, ⟨hh, hp, hd, ht.1⟩, ht.2, hseed, h.symm⟩, fun h => h.2.2.2.2.symm⟩

theorem checkExecution_ok {K : Primitives} {l : RewardLedger} {p : PendingClaim} {reward : ℕ} :
    checkExecution K l p reward = .ok () ↔ Executes K l p reward := by
  unfold checkExecution
  simp only
  split
  · rename_i ha
    exact ⟨fun h => by simp at h, fun h => absurd h.applied ha⟩
  split
  · rename_i hr
    exact ⟨fun h => by simp at h, fun h => absurd h.root hr⟩
  · rename_i ha hr
    exact ⟨fun _ => ⟨not_not.mp ha, not_not.mp hr⟩, fun _ => rfl⟩

structure Acceptable (K : Primitives) (s : NodeState) (l : RewardLedger) (now : ℕ)
    (p : PendingClaim) : Prop where
  screened : Screened K p
  genesis : s.genesisHash ≠ zeroHash
  extends_tip : ExtendsTip s p
  notFuture : p.claim.header.timestamp ≤ satAdd now maxFutureMs
  seed : SeedHolds K s p
  executes : Executes K l p (blockReward p.height s.totalMinedBina)

theorem checks_ok {K : Primitives} {s : NodeState} {l : RewardLedger} {now : ℕ}
    {p : PendingClaim} :
    (do screen K p; let reward ← checkTip K s now p; checkExecution K l p reward) = .ok () ↔
      Acceptable K s l now p := by
  constructor
  · intro h
    cases hs : screen K p with
    | error e => simp [hs, bind, Except.bind] at h
    | ok u =>
      cases ht : checkTip K s now p with
      | error e => simp [hs, ht, bind, Except.bind] at h
      | ok reward =>
        obtain ⟨hg, he, hf, hseed, rfl⟩ := checkTip_ok.mp ht
        simp only [hs, ht, bind, Except.bind] at h
        exact ⟨screen_ok.mp hs, hg, he, hf, hseed, checkExecution_ok.mp h⟩
  · intro h
    rw [screen_ok.mpr h.screened,
      checkTip_ok.mpr ⟨h.genesis, h.extends_tip, h.notFuture, h.seed, rfl⟩]
    exact checkExecution_ok.mpr h.executes

theorem acceptSignedClaim_accepted {K : Primitives} {s : NodeState} {l : RewardLedger} {now : ℕ}
    {p : PendingClaim} (ha : Acceptable K s l now p) (hm : p.minerHex ∉ s.poolAt p.height) :
    acceptSignedClaim K s l now p = (.ok (acceptedClaim K p), s.register p) := by
  unfold acceptSignedClaim
  rw [checks_ok.mpr ha]
  simp [enterCandidate, hm]

theorem acceptSignedClaim_refused {K : Primitives} {s : NodeState} {l : RewardLedger} {now : ℕ}
    {p : PendingClaim} (h : ¬ (Acceptable K s l now p ∧ p.minerHex ∉ s.poolAt p.height)) :
    ∃ e, acceptSignedClaim K s l now p = (.error e, s) := by
  unfold acceptSignedClaim
  split
  · exact ⟨_, rfl⟩
  · rename_i hok
    have hm : p.minerHex ∈ s.poolAt p.height := by
      by_contra hm
      exact h ⟨checks_ok.mp hok, hm⟩
    simp [enterCandidate, hm]

theorem accepted_acceptable {K : Primitives} {s : NodeState} {l : RewardLedger} {now : ℕ}
    {p : PendingClaim} {a : AcceptedClaim} (h : (acceptSignedClaim K s l now p).1 = .ok a) :
    Acceptable K s l now p ∧ p.minerHex ∉ s.poolAt p.height := by
  by_contra hn
  obtain ⟨e, he⟩ := acceptSignedClaim_refused hn
  simp [he] at h

end BinaChain.Admission
