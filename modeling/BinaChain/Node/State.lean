import BinaChain.Core.Claims
import BinaChain.Core.Randomness
import BinaChain.Core.BitcoinEntropy
import BinaChain.Core.Difficulty
import BinaChain.Core.Rewards

/-!
# The shared state of a node

What the HTTP handlers and the mining loop share behind one lock, and what the
mining loop keeps to itself between two iterations.
-/

set_option autoImplicit false

namespace BinaChain.State
open BinaChain.Word BinaChain.Text BinaChain.Crypto BinaChain.Block BinaChain.Claims
open BinaChain.Transaction BinaChain.Randomness BinaChain.BitcoinEntropy BinaChain.Difficulty
open BinaChain.Rewards BinaChain.Maps Std

def maxFutureMs : ℕ := 30000
def btcHeightTolerance : ℕ := 2
def maxMempoolSize : ℕ := 50000

/-- A claim not yet finalised, with the proof and the transactions it carried. -/
structure PendingClaim where
  claim : SignedBlockClaim
  btcCheckpoint : Option BtcCheckpointProof
  transactions : List SignedTransaction
  deriving DecidableEq

namespace PendingClaim

def height (p : PendingClaim) : ℕ := p.claim.header.height

def minerHex (p : PendingClaim) : Str := p.claim.minerAddressHex

end PendingClaim

abbrev Pool := ExtTreeMap Str PendingClaim

structure NodeState where
  genesisHash : Hash
  tipHash : Hash
  chainHeight : ℕ
  pendingClaims : ExtTreeMap ℕ Pool
  mempool : ExtTreeMap Hash SignedTransaction
  nullifiers : NullifierSet
  lastObservedBtc : BtcEntropyState
  btcSeedHash : Hash
  btcCheckpointTipHeight : ℕ
  difficultyBits : ℕ
  lastBlockTimestampMs : ℕ
  chainWork : ℕ
  totalMinedBina : ℕ

namespace NodeState

def poolAt (s : NodeState) (height : ℕ) : Pool := s.pendingClaims[height]?.getD ∅

def register (s : NodeState) (p : PendingClaim) : NodeState :=
  { s with pendingClaims :=
      s.pendingClaims.insert p.height ((s.poolAt p.height).insert p.minerHex p) }

def retainAbove (s : NodeState) (height : ℕ) : NodeState :=
  { s with pendingClaims := s.pendingClaims.filter fun h _ => height < h }

theorem poolAt_register (s : NodeState) (p : PendingClaim) (h : ℕ) :
    (s.register p).poolAt h =
      if p.height = h then (s.poolAt h).insert p.minerHex p else s.poolAt h := by
  unfold poolAt register
  rw [getElem?_insert_eq]
  split
  · rename_i he
    subst he
    rfl
  · rfl

theorem poolAt_retainAbove (s : NodeState) (height h : ℕ) :
    (s.retainAbove height).poolAt h = if height < h then s.poolAt h else ∅ := by
  unfold poolAt retainAbove
  rw [ExtTreeMap.getElem?_filter']
  cases s.pendingClaims[h]? with
  | none => simp
  | some pool => by_cases hlt : height < h <;> simp [Option.filter, hlt]

end NodeState

def candidates (s : NodeState) (height : ℕ) : List PendingClaim :=
  (s.poolAt height).toList.map Prod.snd

theorem mem_candidates {s : NodeState} {height : ℕ} {p : PendingClaim} :
    p ∈ candidates s height ↔ ∃ miner : Str, (s.poolAt height)[miner]? = some p := by
  unfold candidates
  rw [List.mem_map]
  constructor
  · rintro ⟨⟨miner, q⟩, hq, rfl⟩
    exact ⟨miner, ExtTreeMap.mem_toList_iff_getElem?_eq_some.mp hq⟩
  · rintro ⟨miner, hp⟩
    exact ⟨(miner, p), ExtTreeMap.mem_toList_iff_getElem?_eq_some.mpr hp, rfl⟩

/-- The candidate no other candidate beats, whatever order they come in. -/
def selectWinningPending (K : Primitives) (claims : List PendingClaim) : Option PendingClaim :=
  Ranking.elect (fun a b => claimIsBetter K a.claim b.claim) claims

/-- The consensus variables of the mining loop. -/
structure Cursor where
  height : ℕ
  tipHash : Hash
  lastBlockTimestampMs : ℕ
  btcSeedHash : Hash
  btcCheckpointTipHeight : ℕ
  chainWork : ℕ
  adjuster : DifficultyAdjuster

def blockWork (difficultyBits : ℕ) : ℕ := 2^min difficultyBits 127

def genesisHeader (K : Primitives) : L1BlockHeader where
  version := 1
  height := 0
  prevHash := genesisPrevHash
  merkleRoot := zeroHash
  stateRoot := emptyStateRoot K
  timestamp := 1751241600000
  nonce := 0
  minerAddress := genesisMinerAddress
  difficultyBits := 0
  bitcoinSeedHash := zeroHash

def genesisHash (K : Primitives) : Hash := (genesisHeader K).hash K

/-- The resume state of a data directory that does not exist yet. -/
def genesisCursor (K : Primitives) : Cursor where
  height := 0
  tipHash := genesisHash K
  lastBlockTimestampMs := (genesisHeader K).timestamp
  btcSeedHash := zeroHash
  btcCheckpointTipHeight := 0
  chainWork := 0
  adjuster := .restore minBits (genesisHeader K).timestamp 0

def genesisState (K : Primitives) (observed : BtcEntropyState) : NodeState where
  genesisHash := genesisHash K
  tipHash := genesisHash K
  chainHeight := 0
  pendingClaims := ∅
  mempool := ∅
  nullifiers := ∅
  lastObservedBtc := observed
  btcSeedHash := zeroHash
  btcCheckpointTipHeight := 0
  difficultyBits := minBits
  lastBlockTimestampMs := (genesisHeader K).timestamp
  chainWork := 0
  totalMinedBina := 0

end BinaChain.State
