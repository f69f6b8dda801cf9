import BinaChain.Core.Crypto
import Mathlib.Order.Bounds.Defs

/-!
# Bitcoin checkpoints

The seed is refreshed at checkpoint heights only. A checkpoint claim carries
the components of its seed, which a validator hashes again and compares with
its own observation of Bitcoin.
-/

set_option autoImplicit false

namespace BinaChain.BitcoinEntropy
open BinaChain.Word BinaChain.Text BinaChain.Crypto

def btcCheckpointInterval : ℕ := 20

def isCheckpointHeight (height : ℕ) : Bool :=
  height == 1 || (height-1)%btcCheckpointInterval == 0

def governingCheckpointHeight (height : ℕ) : ℕ :=
  if height = 0 then 0
  else (height-1)/btcCheckpointInterval*btcCheckpointInterval+1

theorem governing_bounds {height : ℕ} (h : 1 ≤ height) :
    1 ≤ governingCheckpointHeight height ∧ governingCheckpointHeight height ≤ height := by
  unfold governingCheckpointHeight btcCheckpointInterval
  rw [if_neg (by omega)]
  omega

theorem governing_isCheckpoint {height : ℕ} (h : 1 ≤ height) :
    isCheckpointHeight (governingCheckpointHeight height) = true := by
  unfold isCheckpointHeight governingCheckpointHeight btcCheckpointInterval
  rw [if_neg (by omega)]
  simp

theorem governing_of_checkpoint {height : ℕ} (h : 1 ≤ height)
    (hc : isCheckpointHeight height = true) : governingCheckpointHeight height = height := by
  simp only [isCheckpointHeight, btcCheckpointInterval, Bool.or_eq_true, beq_iff_eq] at hc
  unfold governingCheckpointHeight btcCheckpointInterval
  rw [if_neg (by omega)]
  omega

theorem governing_succ {height : ℕ} (hc : isCheckpointHeight (height+1) = false) :
    1 ≤ height ∧ governingCheckpointHeight (height+1) = governingCheckpointHeight height := by
  simp only [isCheckpointHeight, btcCheckpointInterval, Bool.or_eq_false_iff,
    beq_eq_false_iff_ne] at hc
  unfold governingCheckpointHeight btcCheckpointInterval
  rw [if_neg (by omega), if_neg (by omega)]
  omega

/-- `none` where a step of it would overflow. -/
def checkedGoverningHeight (height : ℕ) : Option ℕ :=
  if height = 0 then some 0
  else (checkedMul ((height-1)/btcCheckpointInterval) btcCheckpointInterval).bind (checkedAdd · 1)

theorem checkedGoverningHeight_eq {height : ℕ} (h : height ≤ u64Max) :
    checkedGoverningHeight height = some (governingCheckpointHeight height) := by
  unfold checkedGoverningHeight governingCheckpointHeight
  split
  · rfl
  · have hscaled : (height-1)/btcCheckpointInterval*btcCheckpointInterval ≤ height-1 :=
      Nat.div_mul_le_self _ _
    rw [checkedMul_eq_some.mpr ⟨by omega, rfl⟩, Option.bind_some]
    exact checkedAdd_eq_some.mpr ⟨by omega, rfl⟩

theorem governing_mono {low high : ℕ} (h : low ≤ high) :
    governingCheckpointHeight low ≤ governingCheckpointHeight high := by
  unfold governingCheckpointHeight
  split
  · exact Nat.zero_le _
  · have hdiv : (low-1)/btcCheckpointInterval ≤ (high-1)/btcCheckpointInterval :=
      Nat.div_le_div_right (Nat.sub_le_sub_right h 1)
    rw [if_neg (by omega)]
    exact Nat.add_le_add_right (Nat.mul_le_mul_right _ hdiv) 1

/-- The governing checkpoint is the last one up to the height, found without overflow. -/
theorem governing_greatest (height : ℕ) (h : 1 ≤ height) (hmax : height ≤ u64Max) :
    checkedGoverningHeight height = some (governingCheckpointHeight height) ∧
      IsGreatest {g | 1 ≤ g ∧ g ≤ height ∧ isCheckpointHeight g = true}
        (governingCheckpointHeight height) ∧
      (isCheckpointHeight height = true ↔ governingCheckpointHeight height = height) := by
  refine ⟨checkedGoverningHeight_eq hmax, ⟨?_, ?_⟩, governing_of_checkpoint h, ?_⟩
  · obtain ⟨hpos, hle⟩ := governing_bounds h
    exact ⟨hpos, hle, governing_isCheckpoint h⟩
  · intro g hg
    calc
      g = governingCheckpointHeight g := (governing_of_checkpoint hg.1 hg.2.2).symm
      _ ≤ governingCheckpointHeight height := governing_mono hg.2.1
  · intro hself
    have hckpt := governing_isCheckpoint h
    rwa [hself] at hckpt

theorem governing_greatest_last :
    checkedGoverningHeight u64Max = some (governingCheckpointHeight u64Max) ∧
      IsGreatest {g | 1 ≤ g ∧ g ≤ u64Max ∧ isCheckpointHeight g = true}
        (governingCheckpointHeight u64Max) ∧
      (isCheckpointHeight u64Max = true ↔ governingCheckpointHeight u64Max = u64Max) :=
  governing_greatest u64Max (by decide) (Nat.le_refl _)

def btcSeedTag : Bytes := utf8 "BINA-BTC-v1"

structure BtcEntropyState where
  tipHash : Hash
  utxoEntropy : Hash
  staleXorPool : Hash
  tipHeight : ℕ
  deriving DecidableEq

def BtcEntropyState.bitcoinSeedHash (K : Primitives) (s : BtcEntropyState) : Hash :=
  K.blake3 (btcSeedTag++s.tipHash.toList++s.utxoEntropy.toList++s.staleXorPool.toList)

/-- The observation of a node that has not reached any provider. -/
def BtcEntropyState.mock : BtcEntropyState where
  tipHash := Vector.ofFn fun i => [0xde, 0xad, 0xbe, 0xef].getD i.val 0
  utxoEntropy := Vector.ofFn fun i => [0xca, 0xfe, 0xba, 0xbe].getD i.val 0
  staleXorPool := zeroHash
  tipHeight := 0

structure BtcCheckpointProof where
  tipHash : Hash
  tipHeight : ℕ
  utxoEntropy : Hash
  staleXorPool : Hash
  deriving DecidableEq

namespace BtcCheckpointProof

def fromState (s : BtcEntropyState) : BtcCheckpointProof :=
  { tipHash := s.tipHash, tipHeight := s.tipHeight,
    utxoEntropy := s.utxoEntropy, staleXorPool := s.staleXorPool }

def seedHash (K : Primitives) (p : BtcCheckpointProof) : Hash :=
  K.blake3 (btcSeedTag++p.tipHash.toList++p.utxoEntropy.toList++p.staleXorPool.toList)

def isPlausible (p : BtcCheckpointProof) (previousTipHeight observedTipHeight tolerance : ℕ) :
    Bool :=
  if p.tipHeight < previousTipHeight then false
  else (p.tipHeight-observedTipHeight)+(observedTipHeight-p.tipHeight) ≤ tolerance

end BtcCheckpointProof

/-- An error, or a panic that ends the caller's task as well. -/
inductive Failure where
  | error (message : String)
  | panic
  deriving DecidableEq

/-- Surrounding whitespace and either digit case are accepted. The message for a
wrong length quotes the first 16 bytes, which may end inside a character. -/
def hexTo32 (s : Str) : Except Failure Hash :=
  let t := trim s
  if utf8Length t ≠ 64 then
    match cutAt (min (utf8Length t) 16) t with
    | none => .error .panic
    | some start => .error <| .error
        s!"expected 64 hex chars, got {utf8Length t}: {(String.ofList start).quote}"
  else
    match Hex.decode t with
    | .error e => .error (.error e)
    | .ok bytes =>
      match Hex.fixed 32 bytes with
      | none => .error .panic
      | some out => .ok out

@[simp] theorem hexTo32_encode (h : Hash) : hexTo32 (Hex.encode h.toList) = .ok h := by
  have hlen : utf8Length (Hex.encode h.toList) = 64 := by
    rw [utf8Length_ascii fun _ => Hex.encode_ascii]
    simp [Hex.encode_length]
  unfold hexTo32
  rw [trim_plain (Hex.encode_plain _)]
  simp [hlen]

end BinaChain.BitcoinEntropy
