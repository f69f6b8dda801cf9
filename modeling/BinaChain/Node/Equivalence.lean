import BinaChain.Ledger.Payee
import BinaChain.Node.Coherence
import Mathlib.Algebra.Order.BigOperators.Group.List
import Mathlib.Algebra.Order.Group.Nat

/-!
# Live acceptance and synchronisation compared

Synchronisation executes a block for the miner as the record spells it, live
acceptance for the canonical spelling of the header's address. The two agree
when the spellings do, or when the block pays its miner nothing.
-/

set_option autoImplicit false

namespace BinaChain.Equivalence
open BinaChain.Word BinaChain.Text BinaChain.Crypto BinaChain.Transaction BinaChain.Claims
open BinaChain.BitcoinEntropy BinaChain.Rewards BinaChain.Execution BinaChain.Replay
open BinaChain.Payee BinaChain.State BinaChain.Machine BinaChain.Store BinaChain.Admission
open BinaChain.Mining BinaChain.Sync BinaChain.System BinaChain.Coherence Std

/-- What a peer would have submitted instead of the record. -/
def liveClaim (r : BlockRecord) (claim : SignedBlockClaim) : PendingClaim where
  claim
  btcCheckpoint := none
  transactions := r.transactions

/-- The claim is accepted, and finalising it as the only candidate leaves the
accounts and the supply that applying the record leaves. -/
def LiveAgrees (K : Primitives) (n : Node) (now : ℕ) (r : BlockRecord)
    (claim : SignedBlockClaim) : Prop :=
  (acceptSignedClaim K n.state n.ledger now (liveClaim r claim)).1 =
      .ok (acceptedClaim K (liveClaim r claim)) ∧
    ∀ (f : Finalising) (stored : Bool), f.height = n.state.chainHeight+1 →
      f.reward = blockReward f.height n.state.totalMinedBina → f.winning = liveClaim r claim →
      totalsOf (executeWinner K f n.ledger) = totalsOf (applyRecord K stored n.parts r claim).ledger

/-- The record spells its miner as `hex::encode` does. -/
def Canonical (r : BlockRecord) : Prop :=
  ∃ address : WalletAddress, r.minerAddress = Hex.encode address.toList

theorem canonical_iff {r : BlockRecord} {prevHash : Hash} {claim : SignedBlockClaim}
    (h : headerFromRecord r prevHash = .ok claim.header) :
    Canonical r ↔ r.minerAddress = claim.minerAddressHex := by
  have hp := (headerFromRecord_ok h).2.2.2.2.2.2.1
  constructor
  · rintro ⟨address, ha⟩
    rw [ha, parseAddressHex_encode] at hp
    rw [ha, Except.ok.inj hp]
    rfl
  · exact fun he => ⟨claim.header.minerAddress, he⟩

theorem foreign_of_parsed {s : Str} {address : WalletAddress}
    (hp : parseAddressHex s = .ok address) (hne : s ≠ Hex.encode address.toList) : Foreign s := by
  rintro bs rfl
  exact hne (by rw [parseAddressHex_bytes.mp hp])

theorem liveClaim_acceptable {K : Primitives} {n : Node} {now : ℕ} {r : BlockRecord}
    {claim : SignedBlockClaim} (hs : Settled n) (hg : n.state.genesisHash ≠ zeroHash)
    (hck : isCheckpointHeight r.height = false) (hc : Checked K n.cursor n.ledger now r claim)
    (hex : Executes K n.ledger (liveClaim r claim)
      (blockReward r.height n.state.totalMinedBina)) :
    Acceptable K n.state n.ledger now (liveClaim r claim) := by
  obtain ⟨-, hh, hp, -, -, -, -, hseed, -, -⟩ := headerFromRecord_ok hc.header
  have hheight : (liveClaim r claim).height = r.height := hh
  refine ⟨⟨hc.verified, hc.size, hc.merkle⟩, hg, ⟨?_, ?_, ?_, ?_⟩, hc.notFuture, ?_, ?_⟩
  · rw [hheight, hs.agreed.height]
    exact hc.height
  · exact hp.trans hs.agreed.tip.symm
  · exact hc.difficulty.trans hs.agreed.difficulty.symm
  · rw [hs.agreed.timestamp]
    exact hc.later
  · unfold SeedHolds
    rw [hheight, if_neg (by simp [hck])]
    have hpin := hc.seed.resolve_left (by simp [hck])
    rw [hpin, hexTo32_encode] at hseed
    rw [hs.agreed.seed]
    exact (Except.ok.inj hseed).symm
  · rwa [hheight]

theorem liveAgrees_of_same {K : Primitives} {n : Node} {now : ℕ} {r : BlockRecord}
    {claim : SignedBlockClaim} (hs : Settled n) (hg : n.state.genesisHash ≠ zeroHash)
    (hpool : ∀ height, n.state.poolAt height = ∅) (hck : isCheckpointHeight r.height = false)
    (hrew : r.rewardBina = blockReward r.height n.ledger.totalMined)
    (hc : Checked K n.cursor n.ledger now r claim)
    (hsim : simulateBlockExecution K n.ledger r.transactions claim.minerAddressHex r.rewardBina =
      simulateBlockExecution K n.ledger r.transactions r.minerAddress r.rewardBina)
    (hexec : totalsOf (executeBlock K r.height claim.minerAddressHex r.rewardBina
        (r.timestamp/1000) n.ledger r.transactions) =
      totalsOf (executeBlock K r.height r.minerAddress r.rewardBina (r.timestamp/1000) n.ledger
        r.transactions)) : LiveAgrees K n now r claim := by
  have hpay : blockReward r.height n.state.totalMinedBina = r.rewardBina := by
    rw [hs.paid, hrew]
  constructor
  · have hex : Executes K n.ledger (liveClaim r claim)
        (blockReward r.height n.state.totalMinedBina) := by
      rw [hpay]
      exact ⟨(congrArg (fun sim => sim.1.length) hsim).trans hc.applied,
        (congrArg Prod.snd hsim).trans hc.root⟩
    rw [acceptSignedClaim_accepted (liveClaim_acceptable hs hg hck hc hex) (by simp [hpool])]
  · intro f stored hfh hfr hfw
    have hheight : f.height = r.height := by
      rw [hfh, hs.agreed.height, hc.height]
    have hts : claim.header.timestamp = r.timestamp := (headerFromRecord_ok hc.header).2.2.2.1
    rw [hheight] at hfr
    unfold executeWinner
    rw [hfr, hpay, hheight, hfw]
    simp only [liveClaim, hts]
    exact hexec

def liveWinner (K : Primitives) (n : Node) (r : BlockRecord) (claim : SignedBlockClaim) :
    Finalising where
  height := n.state.chainHeight+1
  reward := blockReward (n.state.chainHeight+1) n.state.totalMinedBina
  winning := liveClaim r claim
  localHash := zeroHash
  hashesTried := 0
  elapsedMs := 0
  cursor := advance K n.cursor (liveClaim r claim) (n.state.chainHeight+1)
  checkpointTipNow := checkpointTip n.state (liveClaim r claim) (n.state.chainHeight+1)

theorem unpaid_of_liveAgrees {K : Primitives} {n : Node} {now : ℕ} {r : BlockRecord}
    {claim : SignedBlockClaim} (hc : Checked K n.cursor n.ledger now r claim)
    (hne : ¬ Canonical r) (hroom : Roomy n.ledger r.transactions.length r.rewardBina)
    (h : LiveAgrees K n now r claim) : Unpaid r.rewardBina r.transactions := by
  have hp := (headerFromRecord_ok hc.header).2.2.2.2.2.2.1
  have hother : claim.minerAddressHex ≠ r.minerAddress := fun he =>
    hne ((canonical_iff hc.header).mpr he.symm)
  have hforeign : Foreign r.minerAddress := foreign_of_parsed hp (Ne.symm hother)
  have hlive := execute_untouched K hforeign hother (liveWinner K n r claim).height
    (liveWinner K n r claim).reward (claim.header.timestamp/1000) n.ledger r.transactions
  have hsync := execute_paid hforeign hroom hc.applied r.height (r.timestamp/1000)
  have htot := h.2 (liveWinner K n r claim) true rfl rfl rfl
  have hbal : (executeWinner K (liveWinner K n r claim) n.ledger).balances =
      (applyRecord K true n.parts r claim).ledger.balances := (totalsOf_eq.mp htot).1
  have hsame : (executeWinner K (liveWinner K n r claim) n.ledger).balance r.minerAddress =
      (applyRecord K true n.parts r claim).ledger.balance r.minerAddress := by
    unfold RewardLedger.balance
    rw [hbal]
  have heq := hlive.symm.trans (hsame.trans hsync)
  refine ⟨by omega, fun tx htx => ?_⟩
  have hfee : tx.tx.fee ≤ (r.transactions.map fun tx => tx.tx.fee).sum :=
    List.single_le_sum (by simp) _ (List.mem_map.mpr ⟨tx, htx, rfl⟩)
  omega

/-- The block pays the canonical account of its miner, or nobody. -/
def PaysCanonically (r : BlockRecord) : Prop :=
  Canonical r ∨ Unpaid r.rewardBina r.transactions

/-- In a reachable node between two blocks and without candidates, a record that
synchronisation applies agrees with its live acceptance when it pays the
canonical account; otherwise it does not, as long as no number overflows. -/
theorem live_agrees_iff {K : Primitives} {wallet : WalletPublicKey}
    {outcomes : List AppendOutcome} {observed : BtcEntropyState} {n : Node}
    (h : Reach (step K wallet) (boot K outcomes observed) n) (hidle : n.phase = .idle)
    (hpool : ∀ height, n.state.poolAt height = ∅) (hg : genesisHash K ≠ zeroHash) (now : ℕ)
    (r : BlockRecord) (hck : isCheckpointHeight r.height = false)
    (hrew : r.rewardBina = blockReward r.height n.ledger.totalMined) (claim : SignedBlockClaim)
    (hc : checkRecord K n.cursor n.ledger now r = some claim) :
    (PaysCanonically r → LiveAgrees K n now r claim) ∧
      (Roomy n.ledger r.transactions.length r.rewardBina →
        (LiveAgrees K n now r claim ↔ PaysCanonically r)) := by
  have hcoh := reachable_coherent h
  have hphase := hcoh.phase
  simp only [PhaseOk, hidle] at hphase
  have hgen : n.state.genesisHash ≠ zeroHash := by
    rw [hcoh.genesis]
    exact hg
  have hck' := checkRecord_iff.mp hc
  have hif : PaysCanonically r → LiveAgrees K n now r claim := by
    rintro (hcan | hun)
    · have he := (canonical_iff hck'.header).mp hcan
      exact liveAgrees_of_same hphase hgen hpool hck hrew hck' (by rw [he]) (by rw [he])
    · exact liveAgrees_of_same hphase hgen hpool hck hrew hck' (simulate_unpaid hun _ _)
        (execute_unpaid hun _ _ _ _)
  refine ⟨hif, fun hroom => ⟨fun hl => ?_, hif⟩⟩
  by_cases hcan : Canonical r
  · exact Or.inl hcan
  · exact Or.inr (unpaid_of_liveAgrees hck' hcan hroom hl)

def toyOneBlock : Node :=
  (exec (step toyPrimitives (toyWalletKey 1)) toyBoot
    (toyAdoption (toyRecord 1 0 toyGenesis []))).getD toyBoot

def toySpelled (spelling : Str → Str) : BlockRecord :=
  let n := toyOneBlock
  let reward := blockReward (n.cursor.height+1) n.state.totalMinedBina
  let miner := spelling (Hex.encode (toyWallet 2).toList)
  let t := (prepare toyPrimitives (toyWallet 2) n.state n.ledger n.cursor .mock
    (n.cursor.lastBlockTimestampMs+1) []).2
  let stateRoot := (simulateBlockExecution toyPrimitives n.ledger [] miner reward).2
  let p := toyPending 2 0 { t with header := { t.header with stateRoot } }
  { recordOf toyPrimitives (toyFinalising n.state n.cursor p reward) with minerAddress := miner }

def toySpelledClaim (spelling : Str → Str) : Option SignedBlockClaim :=
  checkRecord toyPrimitives toyOneBlock.cursor toyOneBlock.ledger (toyEnv.now 2)
    (toySpelled spelling)

def toySpelledReady (spelling : Str → Str) : Bool :=
  (match toyOneBlock.phase with
    | .idle => true
    | _ => false) &&
  toyOneBlock.state.pendingClaims.isEmpty &&
  decide (genesisHash toyPrimitives ≠ zeroHash) &&
  !isCheckpointHeight (toySpelled spelling).height &&
  (toySpelled spelling).rewardBina ==
    blockReward (toySpelled spelling).height toyOneBlock.ledger.totalMined

theorem toyOneBlock_reach :
    Reach (step toyPrimitives (toyWalletKey 1)) toyBoot toyOneBlock := by
  unfold toyOneBlock
  cases h : exec (step toyPrimitives (toyWalletKey 1)) toyBoot
      (toyAdoption (toyRecord 1 0 toyGenesis [])) with
  | none => exact .refl _
  | some n => exact exec_reach h

theorem toySpelled_ready {spelling : Str → Str} (h : toySpelledReady spelling) :
    toyOneBlock.phase = .idle ∧ (∀ height, toyOneBlock.state.poolAt height = ∅) ∧
      genesisHash toyPrimitives ≠ zeroHash ∧
      isCheckpointHeight (toySpelled spelling).height = false ∧
      (toySpelled spelling).rewardBina =
        blockReward (toySpelled spelling).height toyOneBlock.ledger.totalMined := by
  simp only [toySpelledReady, Bool.and_eq_true, decide_eq_true_eq, Bool.not_eq_true',
    beq_iff_eq] at h
  obtain ⟨⟨⟨⟨hp, hc⟩, hg⟩, hck⟩, hr⟩ := h
  refine ⟨?_, fun height => ?_, hg, hck, hr⟩
  · split at hp
    · rename_i he
      exact he
    · simp at hp
  · simp [NodeState.poolAt, ExtTreeMap.isEmpty_iff.mp hc]

set_option maxRecDepth 100000 in
theorem live_agrees_iff_sample : ∃ claim, toySpelledClaim id = some claim ∧
    LiveAgrees toyPrimitives toyOneBlock (toyEnv.now 2) (toySpelled id) claim := by
  obtain ⟨hready, hsome⟩ : toySpelledReady id ∧ (toySpelledClaim id).isSome := by
    decide +kernel
  obtain ⟨hp, hpool, hg, hck, hr⟩ := toySpelled_ready hready
  obtain ⟨claim, hc⟩ := Option.isSome_iff_exists.mp hsome
  exact ⟨claim, hc, (live_agrees_iff toyOneBlock_reach hp hpool hg (toyEnv.now 2) (toySpelled id)
    hck hr claim hc).1 (Or.inl ⟨toyWallet 2, rfl⟩)⟩

set_option maxRecDepth 100000 in
theorem prefixed_miner_refused :
    let r := toySpelled fun s => "0x".toList++s
    Reach (step toyPrimitives (toyWalletKey 1)) toyBoot toyOneBlock ∧
    toySpelledReady (fun s => "0x".toList++s) ∧
    ∃ claim, toySpelledClaim (fun s => "0x".toList++s) = some claim ∧
      (acceptSignedClaim toyPrimitives toyOneBlock.state toyOneBlock.ledger (toyEnv.now 2)
        (liveClaim r claim)).1.isOk = false := by
  obtain ⟨hready, hrun⟩ : toySpelledReady (fun s => "0x".toList++s) ∧
      (toySpelledClaim fun s => "0x".toList++s).any fun claim =>
        !(acceptSignedClaim toyPrimitives toyOneBlock.state toyOneBlock.ledger (toyEnv.now 2)
          (liveClaim (toySpelled fun s => "0x".toList++s) claim)).1.isOk := by decide +kernel
  obtain ⟨claim, hc, hs⟩ := (Option.any_eq_true _ _).mp hrun
  exact ⟨toyOneBlock_reach, hready, claim, hc, by simpa using hs⟩

end BinaChain.Equivalence
