import BinaChain.Evm.BinaOracle
import BinaChain.Support.Hex
import BinaChain.Support.Shuffle

/-!
# Shuffles and committees

The contract and the client shuffle a list with draws hashed from a seed and the
position. A committee is the first part of a shuffled list of candidates.
-/

set_option autoImplicit false

namespace BinaChain.Committee
open BinaChain.Word BinaChain.Text BinaChain.Abi BinaChain.Crypto BinaChain.Checked
open BinaChain.Oracle BinaChain.BinaOracle BinaChain.Shuffle

def shuffleDraw (K : Primitives) (seed : Bytes32) (i : ℕ) : ℕ :=
  (keccak K (utf8 "BINA_SHUFFLE"++wordBytes seed++wordBytes (BitVec.ofNat 256 i))).toNat%(i+1)

def exchange (shuffled : List Address) (i j : ℕ) : Except Revert (List Address) := do
  let b ← read shuffled j
  let a ← read shuffled i
  let shuffled ← assign shuffled j a
  assign shuffled i b

def shuffleLoop (K : Primitives) (seed : Bytes32) : ℕ → List Address → Except Revert (List Address)
  | 0, shuffled => return shuffled
  | i+1, shuffled => do
    let shuffled ← exchange shuffled (i+1) (shuffleDraw K seed (i+1))
    shuffleLoop K seed i shuffled

def copy (n : ℕ) (xs : List Address) : Except Revert (List Address) :=
  (List.range n).mapM (read xs)

def shuffleValidators (K : Primitives) (seed : Bytes32) (validators : List Address) :
    Except Revert (List Address) := do
  let n := validators.length
  let shuffled ← copy n validators
  if n < 2 then return shuffled else shuffleLoop K seed (n-1) shuffled

def generateValidatorSetId (K : Primitives) (seed : Bytes32) (validatorCount : ℕ) : Bytes32 :=
  keccak K (utf8 "BINA_VALIDATOR_SET"++wordBytes seed++
    wordBytes (BitVec.ofNat 256 validatorCount))

structure LatestSeed where
  seed : Bytes32
  height : BitVec 64
  btcHeight : BitVec 64
  blockHash : Bytes32

def getLatestSeed (K : Primitives) (s : Storage) (purpose : Bytes32) :
    Except Revert LatestSeed := do
  let p := effectivePurpose K purpose
  let seed := s.registry.latestSeedByPurpose p
  require (seed ≠ 0) .purposeNotReady
  return { seed
           height := s.registry.latestHeightByPurpose p
           btcHeight := s.registry.latestBTCHeightByPurpose p
           blockHash := s.registry.latestBlockByPurpose p }

def purposeValidatorSelection (K : Primitives) : Bytes32 :=
  keccak K (utf8 "BINA_VALIDATOR_SELECTION")

def selectorPurpose (K : Primitives) (purpose : Bytes32) : Bytes32 :=
  if purpose = 0 then purposeValidatorSelection K else purpose

/-- What `selectCommittee` returns and puts into its event. -/
structure Selection where
  committeeId : Bytes32
  height : BitVec 64
  committee : List Address

def selectCommittee (K : Primitives) (s : Storage) (purpose : Bytes32)
    (candidates : List Address) (committeeSize : ℕ) : Except Revert Selection := do
  let latest ← getLatestSeed K s (selectorPurpose K purpose)
  let shuffled ← shuffleValidators K latest.seed candidates
  let size := if committeeSize < shuffled.length then committeeSize else shuffled.length
  let committee ← copy size shuffled
  return { committeeId := generateValidatorSetId K latest.seed size
           height := latest.height
           committee }

/-- A `bytes32` argument: 64 hex digits after the `0x`. -/
def bytes32Of : Str → Option Bytes
  | '0' :: 'x' :: digits => (Hex.decode digits).toOption.filter fun bs => bs.length = 32
  | _ => none

def saltHash (K : Primitives) (salt : Str) : Bytes32 := keccak K (strBytes salt)

def shuffleItems {α : Type} (K : Primitives) (seed salt : Str) : ℕ → List α → Option (List α)
  | 0, shuffled => some shuffled
  | i+1, shuffled => do
    let seedBytes ← bytes32Of seed
    let iBytes := wordBytes (BitVec.ofNat 256 (i+1))
    let hash := keccak K (seedBytes++wordBytes (saltHash K salt)++iBytes)
    shuffleItems K seed salt i (swapped shuffled (i+1) (hash.toNat%(i+2)))

/-- `none` stands for the exception of a seed that is no `bytes32`. -/
def deterministicShuffle {α : Type} (K : Primitives) (items : List α) (seed salt : Str) :
    Option (List α) :=
  shuffleItems K seed salt (items.length-1) items

theorem copy_eq {n : ℕ} {xs : List Address} (h : n ≤ xs.length) :
    copy n xs = .ok (xs.take n) := by
  unfold copy
  induction n with
  | zero => rfl
  | succ n ih =>
    have hread : read xs n = (.ok xs[n] : Except Revert Address) :=
      read_eq_ok.mpr (List.getElem?_eq_getElem (by omega))
    rw [List.range_succ, List.mapM_append, ih (by omega), List.take_succ_eq_append_getElem (by omega)]
    simp [hread, bind, Except.bind, pure, Except.pure]

theorem exchange_eq {xs : List Address} {i j : ℕ} (hi : i < xs.length) (hj : j < xs.length) :
    exchange xs i j = .ok (swapped xs i j) := by
  have hri : read xs i = (.ok xs[i] : Except Revert Address) :=
    read_eq_ok.mpr (List.getElem?_eq_getElem hi)
  have hrj : read xs j = (.ok xs[j] : Except Revert Address) :=
    read_eq_ok.mpr (List.getElem?_eq_getElem hj)
  have haj : assign xs j xs[i] = (.ok (xs.set j xs[i]) : Except Revert (List Address)) :=
    assign_eq_ok.mpr ⟨hj, rfl⟩
  have hai : assign (xs.set j xs[i]) i xs[j] =
      (.ok ((xs.set j xs[i]).set i xs[j]) : Except Revert (List Address)) :=
    assign_eq_ok.mpr ⟨by simpa using hi, rfl⟩
  simp only [exchange, hri, hrj, haj, hai, bind, Except.bind, swapped,
    List.getElem?_eq_getElem hi, List.getElem?_eq_getElem hj]

theorem shuffleLoop_eq (K : Primitives) (seed : Bytes32) (i : ℕ) {xs : List Address}
    (hi : i < xs.length ∨ i = 0) :
    shuffleLoop K seed i xs = .ok (descend (shuffleDraw K seed) i xs) := by
  induction i generalizing xs with
  | zero => rfl
  | succ i ih =>
    have hlen : i+1 < xs.length := by omega
    have hdraw : shuffleDraw K seed (i+1) < xs.length := by
      have : shuffleDraw K seed (i+1) < i+2 := Nat.mod_lt _ (by omega)
      omega
    rw [shuffleLoop, exchange_eq hlen hdraw]
    have hkeep := (swapped_perm xs (i+1) (shuffleDraw K seed (i+1))).length_eq
    exact ih (.inl (by omega))

theorem shuffleValidators_eq (K : Primitives) (seed : Bytes32) (validators : List Address) :
    shuffleValidators K seed validators =
      .ok (descend (shuffleDraw K seed) (validators.length-1) validators) := by
  rw [shuffleValidators, copy_eq le_rfl, List.take_length]
  by_cases hn : validators.length < 2
  · have hzero : validators.length-1 = 0 := by omega
    simp only [bind, Except.bind, if_pos hn, hzero, descend]
    rfl
  · simp only [bind, Except.bind, if_neg hn]
    exact shuffleLoop_eq K seed _ (.inl (by omega))

theorem shuffleItems_eq {α : Type} (K : Primitives) {seed : Str} (salt : Str) {bs : Bytes}
    (h : bytes32Of seed = some bs) (i : ℕ) (xs : List α) :
    shuffleItems K seed salt i xs = some (descend (fun k =>
      (keccak K (bs++wordBytes (saltHash K salt)++wordBytes (BitVec.ofNat 256 k))).toNat%(k+1))
      i xs) := by
  induction i generalizing xs with
  | zero => rfl
  | succ i ih =>
    rw [shuffleItems, h]
    exact ih _

theorem shuffleValidators_rearranged (K : Primitives) (seed : Bytes32)
    (validators : List Address) :
    ∃ shuffled, shuffleValidators K seed validators = .ok shuffled ∧
      Rearranged validators shuffled :=
  ⟨_, shuffleValidators_eq K seed validators, descend_rearranged _ _ _⟩

theorem deterministicShuffle_rearranged {α : Type} (K : Primitives) (items : List α)
    (seed salt : Str) :
    (∃ shuffled, deterministicShuffle K items seed salt = some shuffled ∧
      Rearranged items shuffled) ∨
    (bytes32Of seed = none ∧ 2 ≤ items.length ∧ deterministicShuffle K items seed salt = none) := by
  rcases h : bytes32Of seed with _ | bs
  · by_cases hn : items.length < 2
    · left
      have hzero : items.length-1 = 0 := by omega
      exact ⟨items, by rw [deterministicShuffle, hzero]; rfl, rearranged_refl items⟩
    · right
      obtain ⟨n, hn'⟩ : ∃ n, items.length-1 = n+1 := ⟨items.length-2, by omega⟩
      refine ⟨rfl, by omega, ?_⟩
      rw [deterministicShuffle, hn', shuffleItems, h]
      rfl
  · exact .inl ⟨_, shuffleItems_eq K salt h _ items, descend_rearranged _ _ _⟩

theorem selectCommittee_drawn (K : Primitives) (s : Storage) (purpose : Bytes32)
    (candidates : List Address) (committeeSize : ℕ) :
    ∃ committee, Drawn candidates committee ∧
      committee.length = min committeeSize candidates.length ∧
      selectCommittee K s purpose candidates committeeSize =
        (getLatestSeed K s (selectorPurpose K purpose)).map fun latest =>
          { committeeId := generateValidatorSetId K latest.seed committee.length
            height := latest.height
            committee } := by
  rcases hseed : getLatestSeed K s (selectorPurpose K purpose) with e | latest
  · refine ⟨candidates.take committeeSize, (rearranged_refl candidates).take _,
      List.length_take, ?_⟩
    rw [selectCommittee, hseed]
    rfl
  · obtain ⟨shuffled, hshuffled, hre⟩ := shuffleValidators_rearranged K latest.seed candidates
    have hlen := hre.perm.length_eq
    have hsize : (if committeeSize < shuffled.length then committeeSize else shuffled.length) =
        min committeeSize candidates.length := by
      rw [hlen]
      split <;> omega
    have htake : (shuffled.take (min committeeSize candidates.length)).length =
        min committeeSize candidates.length := by
      rw [List.length_take, hlen]
      omega
    have hcopy : copy (min committeeSize candidates.length) shuffled =
        .ok (shuffled.take (min committeeSize candidates.length)) := copy_eq (by omega)
    refine ⟨shuffled.take (min committeeSize candidates.length), hre.take _, htake, ?_⟩
    simp only [selectCommittee, hseed, hshuffled, bind, Except.bind, hsize, hcopy, htake]
    rfl

/-- Both shuffles rearrange positions, and a committee takes its members from distinct ones. -/
theorem shuffles_permute (K : Primitives) :
    (∀ seed validators, ∃ shuffled, shuffleValidators K seed validators = .ok shuffled ∧
      Rearranged validators shuffled) ∧
    (∀ (α : Type) (items : List α) (seed salt : Str),
      (∃ shuffled, deterministicShuffle K items seed salt = some shuffled ∧
        Rearranged items shuffled) ∨
      (bytes32Of seed = none ∧ 2 ≤ items.length ∧
        deterministicShuffle K items seed salt = none)) ∧
    (∀ (s : Storage) (purpose : Bytes32) (candidates : List Address) (committeeSize : ℕ),
      ∃ committee, Drawn candidates committee ∧
        committee.length = min committeeSize candidates.length ∧
        selectCommittee K s purpose candidates committeeSize =
          (getLatestSeed K s (selectorPurpose K purpose)).map fun latest =>
            { committeeId := generateValidatorSetId K latest.seed committee.length
              height := latest.height
              committee }) :=
  ⟨shuffleValidators_rearranged K, fun _ => deterministicShuffle_rearranged K,
    selectCommittee_drawn K⟩

example : shuffleValidators toyPrimitives 7 [] = .ok [] := rfl

end BinaChain.Committee
