import BinaChain.Node.System

/-!
# The shared state follows the mining loop

Between two blocks the shared state repeats the loop's own variables and the
ledger's total; while a block is in flight it lags behind by that block.
-/

set_option autoImplicit false

namespace BinaChain.Coherence
open BinaChain.Word BinaChain.Text BinaChain.Crypto BinaChain.Rewards BinaChain.State
open BinaChain.BitcoinEntropy BinaChain.Machine BinaChain.Mining BinaChain.Sync
open BinaChain.Reconcile BinaChain.System BinaChain.Difficulty

/-- The consensus fields of the shared state are the loop's variables. -/
structure Agreed (s : NodeState) (c : Cursor) : Prop where
  height : s.chainHeight = c.height
  tip : s.tipHash = c.tipHash
  timestamp : s.lastBlockTimestampMs = c.lastBlockTimestampMs
  seed : s.btcSeedHash = c.btcSeedHash
  difficulty : s.difficultyBits = c.adjuster.currentBits
  work : s.chainWork = c.chainWork

structure Settled (n : Node) : Prop where
  agreed : Agreed n.state n.cursor
  paid : n.state.totalMinedBina = n.ledger.totalMined

structure Extends (K : Primitives) (n : Node) (f : Finalising) : Prop where
  height : f.height = n.cursor.height+1
  cursor : f.cursor = advance K n.cursor f.winning f.height

def nextReward (n : Node) : ℕ := blockReward (n.cursor.height+1) n.ledger.totalMined

/-- What holds of the node where the loop stands. -/
def PhaseOk (K : Primitives) (n : Node) : Prop :=
  match n.phase with
  | .idle => Settled n
  | .searching t => Settled n ∧ t.header.height = n.cursor.height+1 ∧ t.reward = nextReward n
  | .waiting height reward _ _ _ =>
    Settled n ∧ height = n.cursor.height+1 ∧ reward = nextReward n
  | .elected f => Settled n ∧ Extends K n f ∧ f.reward = nextReward n
  | .executed f | .recorded f | .saved f => Agreed n.state n.cursor ∧ Extends K n f
  | .adopting _ => n.cursor.height = n.state.chainHeight+1
  | .rewound _ => n.state.difficultyBits = n.cursor.adjuster.currentBits
  | .crashed => True

structure Coherent (K : Primitives) (n : Node) : Prop where
  genesis : n.state.genesisHash = genesisHash K
  phase : PhaseOk K n

theorem coherent_boot (K : Primitives) (outcomes : List AppendOutcome)
    (observed : BtcEntropyState) : Coherent K (boot K outcomes observed) where
  genesis := rfl
  phase := ⟨⟨rfl, rfl, rfl, rfl, rfl, rfl⟩, rfl⟩

theorem Agreed.framed {n n' : Node} (hf : Framed n n') (h : Agreed n.state n.cursor) :
    Agreed n'.state n'.cursor := by
  constructor <;> simp [hf.cursor, hf.chainHeight, hf.tipHash, hf.lastBlockTimestampMs,
    hf.btcSeedHash, hf.difficultyBits, hf.chainWork, h.height, h.tip, h.timestamp, h.seed,
    h.difficulty, h.work]

theorem Settled.framed {n n' : Node} (hf : Framed n n') (h : Settled n) : Settled n' :=
  ⟨h.agreed.framed hf, by rw [hf.totalMinedBina, hf.ledger, h.paid]⟩

theorem Coherent.framed {K : Primitives} {n n' : Node} (hf : Framed n n') (h : Coherent K n) :
    Coherent K n' := by
  refine ⟨by rw [hf.genesisHash, h.genesis], ?_⟩
  have hp := h.phase
  unfold PhaseOk nextReward at *
  rw [hf.phase]
  cases hph : n.phase with
  | idle => simp only [hph] at hp; exact hp.framed hf
  | searching t =>
    simp only [hph] at hp
    rw [hf.cursor, hf.ledger]
    exact ⟨hp.1.framed hf, hp.2⟩
  | waiting height reward localHash hashesTried elapsedMs =>
    simp only [hph] at hp
    rw [hf.cursor, hf.ledger]
    exact ⟨hp.1.framed hf, hp.2⟩
  | elected f =>
    simp only [hph] at hp
    rw [hf.cursor, hf.ledger]
    exact ⟨hp.1.framed hf, ⟨by rw [hf.cursor]; exact hp.2.1.height,
      by rw [hf.cursor]; exact hp.2.1.cursor⟩, hp.2.2⟩
  | executed f | recorded f | saved f =>
    simp only [hph] at hp
    exact ⟨hp.1.framed hf, ⟨by rw [hf.cursor]; exact hp.2.height,
      by rw [hf.cursor]; exact hp.2.cursor⟩⟩
  | adopting r =>
    simp only [hph] at hp
    rw [hf.cursor, hf.chainHeight]
    exact hp
  | rewound rolledBack =>
    simp only [hph] at hp
    rw [hf.cursor, hf.difficultyBits]
    exact hp
  | crashed => trivial

theorem enterLocal_framed (n : Node) (p : PendingClaim) :
    Agreed n.state n.cursor → Agreed (enterLocal n.state p) n.cursor := by
  intro h
  rw [enterLocal_eq]
  exact ⟨h.height, h.tip, h.timestamp, h.seed, h.difficulty, h.work⟩

theorem publish_agreed {K : Primitives} {n : Node} {f : Finalising} {state : NodeState}
    (hf : Extends K n f) (hs : publish K f n.ledger n.state = some state) :
    Agreed state f.cursor ∧ state.totalMinedBina = n.ledger.totalMined ∧
      state.genesisHash = n.state.genesisHash := by
  unfold publish at hs
  split at hs
  · simp at hs
  · obtain rfl := Option.some.inj hs
    refine ⟨⟨?_, ?_, rfl, rfl, rfl, rfl⟩, rfl, rfl⟩
    · rw [hf.cursor]
      rfl
    · rw [hf.cursor]
      rfl

theorem Coherent.transition {K : Primitives} {wallet : WalletPublicKey} {n n' : Node}
    {e : LoopEvent} (ht : Transition K wallet n e n') (h : Coherent K n) : Coherent K n' := by
  have hp := h.phase
  unfold PhaseOk at hp
  cases ht with
  | prepare hph hh ho hm =>
    simp only [hph] at hp
    refine ⟨h.genesis, ⟨⟨hp.agreed.height, hp.agreed.tip, hp.agreed.timestamp, hp.agreed.seed,
      rfl, hp.agreed.work⟩, hp.paid⟩, rfl, ?_⟩
    unfold nextReward
    rw [← hp.paid]
    rfl
  | mined hph hsign hv =>
    simp only [hph] at hp
    obtain ⟨hset, hheight, hrew⟩ := hp
    have hpaid : ∀ p, (enterLocal n.state p).totalMinedBina = n.state.totalMinedBina ∧
        (enterLocal n.state p).genesisHash = n.state.genesisHash := by
      intro p
      rw [enterLocal_eq]
      exact ⟨rfl, rfl⟩
    refine ⟨(hpaid _).2.trans h.genesis, ⟨enterLocal_framed n _ hset.agreed,
      (hpaid _).1.trans hset.paid⟩, ?_, hrew⟩
    rw [hsign]
    exact hheight
  | elect hph ho hw =>
    simp only [hph] at hp
    obtain ⟨hset, hheight, hrew⟩ := hp
    exact ⟨h.genesis, ⟨⟨hset.agreed.height, hset.agreed.tip, hset.agreed.timestamp,
      hset.agreed.seed, hset.agreed.difficulty, hset.agreed.work⟩, hset.paid⟩,
      ⟨hheight, rfl⟩, hrew⟩
  | electNobody hph ho hw => exact ⟨h.genesis, trivial⟩
  | execute hph =>
    simp only [hph] at hp
    obtain ⟨hset, hext, -⟩ := hp
    exact ⟨h.genesis, ⟨hset.agreed.height, hset.agreed.tip, hset.agreed.timestamp,
      hset.agreed.seed, hset.agreed.difficulty, hset.agreed.work⟩, hext.height, hext.cursor⟩
  | record hph =>
    simp only [hph] at hp
    exact ⟨h.genesis, hp.1, hp.2.height, hp.2.cursor⟩
  | save hph =>
    simp only [hph] at hp
    exact ⟨h.genesis, hp.1, hp.2.height, hp.2.cursor⟩
  | publish hph hs =>
    simp only [hph] at hp
    obtain ⟨hag, hpaid, hgen⟩ := publish_agreed hp.2 hs
    exact ⟨hgen.trans h.genesis, hag, hpaid⟩
  | publishSpent hph hs => exact ⟨h.genesis, trivial⟩
  | adopt hph hh hc =>
    simp only [hph] at hp
    refine ⟨h.genesis, ?_⟩
    simp only [PhaseOk, applyRecord, advanceSynced]
    rw [hp.agreed.height]
    exact hc.height
  | publishAdopted hph => exact ⟨h.genesis, ⟨⟨rfl, rfl, rfl, rfl, rfl, rfl⟩, rfl⟩⟩
  | rewind hph hr =>
    simp only [hph] at hp
    exact ⟨h.genesis, hp.agreed.difficulty⟩
  | publishRewound hph =>
    simp only [hph] at hp
    exact ⟨h.genesis, ⟨⟨rfl, rfl, rfl, rfl, hp, rfl⟩, rfl⟩⟩

theorem Coherent.step {K : Primitives} {wallet : WalletPublicKey} {n n' : Node} {e : Event}
    (h : Coherent K n) (hs : System.step K wallet n e = some n') : Coherent K n' := by
  cases e with
  | client e =>
    simp only [System.step] at hs
    split at hs
    · simp at hs
    · exact h.framed (clientStep_framed hs)
  | loop e => exact h.transition (loopStep_transition hs)

/-- Every reachable node is coherent. -/
theorem reachable_coherent {K : Primitives} {wallet : WalletPublicKey}
    {outcomes : List AppendOutcome} {observed : BtcEntropyState} {n : Node}
    (h : Reach (System.step K wallet) (boot K outcomes observed) n) : Coherent K n :=
  h.invariant (coherent_boot K outcomes observed) fun _ _ _ hc _ hs => hc.step hs

theorem work_step {K : Primitives} {wallet : WalletPublicKey} {n n' : Node} {e : Event}
    (hc : Coherent K n) (h : n.cursor.chainWork ≤ u128Max)
    (hs : System.step K wallet n e = some n') : n'.cursor.chainWork ≤ u128Max := by
  have hp := hc.phase
  unfold PhaseOk at hp
  cases e with
  | client e =>
    simp only [System.step] at hs
    split at hs
    · simp at hs
    · rw [(clientStep_framed hs).cursor]
      exact h
  | loop e =>
    have ht : Transition K wallet n e n' := loopStep_transition hs
    cases ht with
    | publish hph =>
      simp only [hph] at hp
      dsimp only
      rw [hp.2.cursor]
      exact Nat.min_le_right _ _
    | adopt => exact Nat.min_le_right _ _
    | rewind => exact Nat.le_trans (Nat.sub_le _ _) h
    | prepare | mined | elect | electNobody | execute | record | save | publishSpent => exact h
    | publishAdopted | publishRewound => exact h

theorem reachable_work {K : Primitives} {wallet : WalletPublicKey}
    {outcomes : List AppendOutcome} {observed : BtcEntropyState} {n : Node}
    (h : Reach (System.step K wallet) (boot K outcomes observed) n) :
    n.cursor.chainWork ≤ u128Max ∧
      (n.phase = .idle → n.state.chainWork = n.cursor.chainWork) := by
  have hinv : Coherent K n ∧ n.cursor.chainWork ≤ u128Max :=
    h.invariant (P := fun n => Coherent K n ∧ n.cursor.chainWork ≤ u128Max)
      ⟨coherent_boot K outcomes observed, Nat.zero_le _⟩
      fun _ _ _ hi _ hs => ⟨hi.1.step hs, work_step hi.1 hi.2 hs⟩
  refine ⟨hinv.2, fun hph => ?_⟩
  have hp := hinv.1.phase
  simp only [PhaseOk, hph] at hp
  exact hp.agreed.work

end BinaChain.Coherence
