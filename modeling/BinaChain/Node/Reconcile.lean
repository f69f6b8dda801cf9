import BinaChain.Node.Sync

/-!
# Reorganisation onto a heavier peer

The common ancestor is probed backwards within a bounded depth, the node rolls
back to it, and whatever the peer then serves is adopted. The rollback is
complete before the first replacement block has been seen.
-/

set_option autoImplicit false

namespace BinaChain.Reconcile
open BinaChain.Word BinaChain.Text BinaChain.Crypto BinaChain.Transaction
open BinaChain.BitcoinEntropy BinaChain.Difficulty BinaChain.Rewards BinaChain.State
open BinaChain.Store BinaChain.Sync

def maxAutoReorgDepth : ℕ := epochSize-1

structure PeerStatus where
  height : ℕ
  genesisHash : Hash
  chainWork : ℕ
  deriving DecidableEq

/-- `max_by_key` returns the last of several maxima. -/
def selectBestPeer (statuses : List PeerStatus) (localGenesis : Hash) (localWork : ℕ) :
    Option PeerStatus :=
  (statuses.filter fun p => p.genesisHash = localGenesis ∧ p.chainWork > localWork).foldl
    (fun best p => match best with
      | some b => if p.chainWork < b.chainWork then some b else some p
      | none => some p) none

/-- Everything one call meets outside the node: the peers' replies and the
outcomes of the reads and writes of files and tables. -/
structure ReorgEnv where
  client : Bool
  statuses : List PeerStatus
  /-- Reply to a request for the one header of a height. -/
  probe : ℕ → Option (List BlockRecord)
  pages : List (Option (List BlockRecord))
  sync : SyncEnv
  hashReadable : ℕ → Bool
  blockReadable : ℕ → Bool
  rangeReadable : Bool
  ledgerReadable : Bool
  rollbackWritten : Bool

def localHashAt (env : ReorgEnv) (store : BlockStore) (height : ℕ) : Option Hash :=
  if env.hashReadable height then
    (store.blockHashAt height).bind fun s => (hexTo32 s).toOption
  else none

def peerHashAt (env : ReorgEnv) (height : ℕ) : Option Hash :=
  (env.probe height).bind fun records =>
    (records.find? fun r => r.height = height).bind fun r => (hexTo32 r.blockHash).toOption

/-- The probing loop, `steps` heights above the floor; `none` is an early return. -/
def findForkPoint (env : ReorgEnv) (store : BlockStore) : ℕ → ℕ → Option ℕ
  | 0, forkPoint => some forkPoint
  | steps+1, forkPoint =>
    match peerHashAt env forkPoint, localHashAt env store forkPoint with
    | none, _ => none
    | some _, none => none
    | some peerHash, some localHash =>
      if localHash = peerHash then some forkPoint
      else if forkPoint = 0 then none
      else findForkPoint env store steps (forkPoint-1)

structure Rollback where
  forkPoint : ℕ
  rolledBack : List BlockRecord
  newTip : Hash
  newTs : ℕ
  newSeed : Hash
  newSeedTipHeight : ℕ

inductive Plan where
  | stay
  | extend (target : ℕ)
  | rollback (target : ℕ) (r : Rollback)

def Plan.takenBack : Plan → Option Rollback
  | .rollback _ r => some r
  | _ => none

def blockAt (env : ReorgEnv) (store : BlockStore) (height : ℕ) : Option BlockRecord :=
  if env.blockReadable height then store.get height else none

/-- What a rollback to `forkPoint` would restore; `none` is an early return. -/
def planRollback (env : ReorgEnv) (x : Parts) (forkPoint : ℕ) : Option Rollback := do
  let c := x.cursor
  let rolledBack := if env.rangeReadable then
    x.store.getRange (forkPoint+1) c.height (c.height-forkPoint+1) else []
  let (newTip, newTs) ←
    if forkPoint = 0 then some (x.state.genesisHash, c.adjuster.epochStartMs)
    else do
      let b ← blockAt env x.store forkPoint
      let hash ← (hexTo32 b.blockHash).toOption
      pure (hash, b.timestamp)
  let governing := governingCheckpointHeight forkPoint
  let (newSeed, newSeedTipHeight) ←
    if governing = 0 then some (c.btcSeedHash, c.btcCheckpointTipHeight)
    else do
      let b ← blockAt env x.store governing
      let seed ← (hexTo32 b.btcSeed).toOption
      pure (seed, b.btcHeight)
  guard env.ledgerReadable
  guard env.rollbackWritten
  pure { forkPoint, rolledBack, newTip, newTs, newSeed, newSeedTipHeight }

def plan (env : ReorgEnv) (x : Parts) : Plan :=
  let c := x.cursor
  let best := if env.client then
    selectBestPeer env.statuses x.state.genesisHash c.chainWork else none
  match best with
  | none => .stay
  | some best =>
    if best.height < c.height then .stay
    else
      let probeFloor := c.height-maxAutoReorgDepth
      match findForkPoint env x.store (c.height-probeFloor) c.height with
      | none => .stay
      | some forkPoint =>
        if forkPoint = c.height then .extend best.height
        else if forkPoint ≤ probeFloor then .stay
        else if forkPoint < c.adjuster.epochStartHeight then .stay
        else
          match planRollback env x forkPoint with
          | none => .stay
          | some r => .rollback best.height r

def workOf (records : List BlockRecord) : ℕ :=
  records.foldl (fun acc b => satAdd128 acc (blockWork b.difficultyBits)) 0

/-- The store, the ledger and the loop's variables move back first. The
difficulty adjuster stays. -/
def rewind (x : Parts) (r : Rollback) : Parts :=
  { state := x.state
    ledger := .openScoped x.ledger.csv r.forkPoint
    store := x.store.rollbackAbove r.forkPoint
    cursor :=
      { height := r.forkPoint
        tipHash := r.newTip
        lastBlockTimestampMs := r.newTs
        btcSeedHash := r.newSeed
        btcCheckpointTipHeight := r.newSeedTipHeight
        chainWork := x.cursor.chainWork-workOf r.rolledBack
        adjuster := x.cursor.adjuster } }

def requeue (K : Primitives) (rolledBack : List BlockRecord) (s : NodeState) : NodeState :=
  { s with
    mempool := (rolledBack.flatMap BlockRecord.transactions).foldl
      (fun m tx => m.insert (tx.txId K) tx) s.mempool }

/-- The shared state follows. Candidates above the fork point are kept, and
the set of spent nullifiers is not touched. -/
def publishRewound (K : Primitives) (x : Parts) (rolledBack : List BlockRecord) : Parts :=
  let c := x.cursor
  let s := x.state.retainAbove c.height
  let s :=
    { s with
      chainHeight := c.height
      tipHash := c.tipHash
      lastBlockTimestampMs := c.lastBlockTimestampMs
      btcSeedHash := c.btcSeedHash
      btcCheckpointTipHeight := c.btcCheckpointTipHeight
      chainWork := c.chainWork
      totalMinedBina := x.ledger.totalMined }
  { x with
    state := requeue K rolledBack s
    store := (rolledBack.flatMap BlockRecord.transactions).foldl
      (BlockStore.mempoolInsert K) x.store }

def reconcileFork (K : Primitives) (env : ReorgEnv) (x : Parts) : Parts :=
  match plan env x with
  | .stay => x
  | .extend target => syncForwardFromPeer K env.sync target x env.pages
  | .rollback target r =>
    syncForwardFromPeer K env.sync target (publishRewound K (rewind x r) r.rolledBack) env.pages

theorem findForkPoint_le {env : ReorgEnv} {store : BlockStore} {steps start fork : ℕ}
    (h : findForkPoint env store steps start = some fork) : fork ≤ start := by
  induction steps generalizing start with
  | zero =>
    obtain rfl := Option.some.inj h
    exact Nat.le_refl _
  | succ steps ih =>
    unfold findForkPoint at h
    split at h
    · simp at h
    · simp at h
    · split at h
      · obtain rfl := Option.some.inj h
        exact Nat.le_refl _
      · split at h
        · simp at h
        · exact Nat.le_trans (ih h) (Nat.sub_le _ _)

structure Restores (x : Parts) (r : Rollback) : Prop where
  positive : 0 < r.forkPoint
  below : r.forkPoint < x.cursor.height
  epoch : x.cursor.adjuster.epochStartHeight ≤ r.forkPoint
  block : ∃ b, x.store.get r.forkPoint = some b ∧ hexTo32 b.blockHash = .ok r.newTip ∧
    b.timestamp = r.newTs

theorem planRollback_iff {env : ReorgEnv} {x : Parts} {fork : ℕ} {r : Rollback} (hf : 0 < fork) :
    planRollback env x fork = some r ↔
      (∃ b, blockAt env x.store fork = some b ∧ hexTo32 b.blockHash = .ok r.newTip ∧
        b.timestamp = r.newTs) ∧
      (∃ b, blockAt env x.store (governingCheckpointHeight fork) = some b ∧
        hexTo32 b.btcSeed = .ok r.newSeed ∧ b.btcHeight = r.newSeedTipHeight) ∧
      env.ledgerReadable = true ∧ env.rollbackWritten = true ∧ r.forkPoint = fork ∧
      r.rolledBack = if env.rangeReadable then
        x.store.getRange (fork+1) x.cursor.height (x.cursor.height-fork+1) else [] := by
  have hg : governingCheckpointHeight fork ≠ 0 := by
    have := governing_bounds hf
    omega
  unfold planRollback
  simp only [Option.bind_eq_bind, Option.bind_eq_some_iff, if_neg (Nat.ne_of_gt hf), if_neg hg,
    Checked.toOption_eq_some, guard_eq_some]
  constructor
  · rintro ⟨b, hb, hash, hhash, _, htip, g, hg, seed, hseed, _, hpin, _, hl, _, hw, hr⟩
    obtain rfl := Option.some.inj htip
    obtain rfl := Option.some.inj hpin
    obtain rfl := Option.some.inj hr
    exact ⟨⟨b, hb, hhash, rfl⟩, ⟨g, hg, hseed, rfl⟩, hl, hw, rfl, rfl⟩
  · rintro ⟨⟨b, hb, hhash, hts⟩, ⟨g, hg, hseed, hheight⟩, hl, hw, hpoint, hrolled⟩
    refine ⟨b, hb, r.newTip, hhash, _, rfl, g, hg, r.newSeed, hseed, _, rfl, (), hl, (), hw, ?_⟩
    subst hpoint
    simp only [hts, hheight, pure]
    rw [← hrolled]

theorem blockAt_get {env : ReorgEnv} {store : BlockStore} {height : ℕ} {b : BlockRecord}
    (h : blockAt env store height = some b) : store.get height = some b := by
  unfold blockAt at h
  split at h
  · exact h
  · simp at h

theorem planRollback_block {env : ReorgEnv} {x : Parts} {fork : ℕ} {r : Rollback}
    (h : planRollback env x fork = some r) (hf : 0 < fork) : r.forkPoint = fork ∧
      ∃ b, x.store.get fork = some b ∧ hexTo32 b.blockHash = .ok r.newTip ∧
        b.timestamp = r.newTs := by
  obtain ⟨⟨b, hb, hrow⟩, -, -, -, hpoint, -⟩ := (planRollback_iff hf).mp h
  exact ⟨hpoint, b, blockAt_get hb, hrow⟩

theorem planRollback_seed {env : ReorgEnv} {x : Parts} {fork : ℕ} {r : Rollback}
    (h : planRollback env x fork = some r) (hf : 0 < fork) :
    ∃ b, x.store.get (governingCheckpointHeight fork) = some b ∧
      hexTo32 b.btcSeed = .ok r.newSeed ∧ b.btcHeight = r.newSeedTipHeight := by
  obtain ⟨-, ⟨b, hb, hrow⟩, -⟩ := (planRollback_iff hf).mp h
  exact ⟨b, blockAt_get hb, hrow⟩

/-- A call rolls back exactly when the heaviest peer is as high as the node and
the fork is deep enough, not too deep and within the epoch. -/
theorem plan_rollback_iff {env : ReorgEnv} {x : Parts} {target : ℕ} {r : Rollback} :
    plan env x = .rollback target r ↔ ∃ best fork, env.client = true ∧
      selectBestPeer env.statuses x.state.genesisHash x.cursor.chainWork = some best ∧
      x.cursor.height ≤ best.height ∧ target = best.height ∧
      findForkPoint env x.store (x.cursor.height-(x.cursor.height-maxAutoReorgDepth))
        x.cursor.height = some fork ∧
      fork ≠ x.cursor.height ∧ x.cursor.height-maxAutoReorgDepth < fork ∧
      x.cursor.adjuster.epochStartHeight ≤ fork ∧ planRollback env x fork = some r := by
  unfold plan
  simp only
  constructor
  · intro h
    split at h
    · simp at h
    rename_i best hbest
    split at hbest
    · rename_i hclient
      split at h
      · simp at h
      split at h
      · simp at h
      rename_i fork hfork
      split at h
      · simp at h
      split at h
      · simp at h
      split at h
      · simp at h
      rename_i hlow hne hfloor hepoch
      split at h
      · simp at h
      rename_i r' hr'
      obtain ⟨rfl, rfl⟩ := Plan.rollback.inj h
      exact ⟨best, fork, hclient, hbest, by omega, rfl, hfork, hne, by omega, by omega, hr'⟩
    · cases hbest
  · rintro ⟨best, fork, hclient, hbest, hhigh, rfl, hfork, hne, hfloor, hepoch, hr⟩
    simp only [hclient, hbest, if_true, if_neg (Nat.not_lt.mpr hhigh), hfork, if_neg hne,
      if_neg (Nat.not_le.mpr hfloor), if_neg (Nat.not_lt.mpr hepoch), hr]

theorem plan_rollback {env : ReorgEnv} {x : Parts} {target : ℕ} {r : Rollback}
    (h : plan env x = .rollback target r) : ∃ fork, 0 < fork ∧ fork < x.cursor.height ∧
      x.cursor.adjuster.epochStartHeight ≤ fork ∧ planRollback env x fork = some r := by
  obtain ⟨best, fork, -, -, -, -, hfork, hne, hfloor, hepoch, hr⟩ := plan_rollback_iff.mp h
  have hle := findForkPoint_le hfork
  exact ⟨fork, by omega, by omega, hepoch, hr⟩

theorem plan_restores {env : ReorgEnv} {x : Parts} {target : ℕ} {r : Rollback}
    (h : plan env x = .rollback target r) : Restores x r := by
  obtain ⟨fork, hpos, hlt, hepoch, hr⟩ := plan_rollback h
  obtain ⟨rfl, hblock⟩ := planRollback_block hr hpos
  exact ⟨hpos, hlt, hepoch, hblock⟩

theorem plan_seed {env : ReorgEnv} {x : Parts} {target : ℕ} {r : Rollback}
    (h : plan env x = .rollback target r) :
    ∃ b, x.store.get (governingCheckpointHeight r.forkPoint) = some b ∧
      hexTo32 b.btcSeed = .ok r.newSeed ∧ b.btcHeight = r.newSeedTipHeight := by
  obtain ⟨fork, hpos, -, -, hr⟩ := plan_rollback h
  obtain ⟨rfl, -⟩ := planRollback_block hr hpos
  exact planRollback_seed hr hpos

end BinaChain.Reconcile
