import BinaChain.Core.Crypto
import Mathlib.Data.Int.Order.Basic

/-!
# The difficulty adjuster

A fold over the heights and timestamps of the chain that moves the required
difficulty at epoch boundaries only.
-/

set_option autoImplicit false

namespace BinaChain.Difficulty
open BinaChain.Crypto

def minBits : ℕ := 25
def maxBits : ℕ := 45
def targetBlockMs : ℕ := 40
def epochSize : ℕ := 20
def maxDeltaBits : ℤ := 3

structure DifficultyAdjuster where
  currentBits : ℕ
  epochStartMs : ℕ
  epochStartHeight : ℕ
  deriving DecidableEq

namespace DifficultyAdjuster

/-- An adjuster for a brand-new chain, anchored at genesis. -/
def new (initialBits genesisTimestampMs : ℕ) : DifficultyAdjuster :=
  { currentBits := min (max initialBits minBits) maxBits
    epochStartMs := genesisTimestampMs
    epochStartHeight := 0 }

def restore (currentBits epochStartMs epochStartHeight : ℕ) : DifficultyAdjuster :=
  { currentBits := min (max currentBits minBits) maxBits, epochStartMs, epochStartHeight }

def rawDelta (K : Primitives) (actualMs : ℕ) : ℤ :=
  if actualMs = 0 then maxDeltaBits
  else min (max (K.negLog2Round actualMs (epochSize*targetBlockMs)) (-maxDeltaBits)) maxDeltaBits

def recordBlock (K : Primitives) (adj : DifficultyAdjuster) (height blockTsMs : ℕ) :
    DifficultyAdjuster :=
  if height = 0 ∨ height%epochSize ≠ 0 then adj
  else
    let delta := rawDelta K (blockTsMs-adj.epochStartMs)
    { currentBits := (min (max ((adj.currentBits : ℤ)+delta) minBits) maxBits).toNat
      epochStartMs := blockTsMs
      epochStartHeight := height }

def InRange (adj : DifficultyAdjuster) : Prop :=
  minBits ≤ adj.currentBits ∧ adj.currentBits ≤ maxBits

theorem rawDelta_bounds (K : Primitives) (actualMs : ℕ) :
    -maxDeltaBits ≤ rawDelta K actualMs ∧ rawDelta K actualMs ≤ maxDeltaBits := by
  unfold rawDelta maxDeltaBits
  split <;> omega

theorem recordBlock_within (K : Primitives) (adj : DifficultyAdjuster) (h ts : ℕ)
    (hr : adj.InRange) : (adj.recordBlock K h ts).InRange := by
  unfold recordBlock
  split
  · exact hr
  · unfold InRange minBits maxBits
    dsimp only
    omega

theorem recordBlock_delta (K : Primitives) (adj : DifficultyAdjuster) (h ts : ℕ)
    (hr : adj.InRange) :
    (((adj.recordBlock K h ts).currentBits : ℤ)-adj.currentBits).natAbs ≤ maxDeltaBits := by
  have hd := rawDelta_bounds K (ts-adj.epochStartMs)
  unfold InRange minBits maxBits at hr
  unfold recordBlock minBits maxBits maxDeltaBits at *
  split
  · omega
  · dsimp only
    omega

theorem recordBlock_inside (K : Primitives) (adj : DifficultyAdjuster) (h ts : ℕ)
    (hh : h%epochSize ≠ 0) : adj.recordBlock K h ts = adj := by
  unfold recordBlock
  rw [if_pos (Or.inr hh)]

end DifficultyAdjuster

end BinaChain.Difficulty
