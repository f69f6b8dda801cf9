import BinaChain.Node.Trace

/-!
# What a finalised checkpoint pins

The seed is pinned as the header has it; the tip height comes from the proof
that travels beside the header and that the seed hash does not cover.
-/

set_option autoImplicit false

namespace BinaChain.Pinning
open BinaChain.Word BinaChain.Crypto BinaChain.BitcoinEntropy BinaChain.Rewards BinaChain.State
open BinaChain.Machine BinaChain.Admission BinaChain.Mining BinaChain.Sync BinaChain.Reconcile
open BinaChain.System BinaChain.Coherence BinaChain.Trace

/-- The seed and the tip height of the last Bitcoin checkpoint. -/
abbrev Pin := Hash × ℕ

def pinned (s : NodeState) : Pin := (s.btcSeedHash, s.btcCheckpointTipHeight)

def Closing (n : Node) : Prop :=
  match n.phase with
  | .elected f | .executed f | .recorded f | .saved f =>
    f.winning.height = f.height ∧ f.checkpointTipNow = checkpointTip n.state f.winning f.height
  | _ => True

theorem checkpointTip_congr {s s' : NodeState} (w : PendingClaim) (height : ℕ)
    (h : s'.btcCheckpointTipHeight = s.btcCheckpointTipHeight) :
    checkpointTip s' w height = checkpointTip s w height := by
  unfold checkpointTip
  rw [h]

theorem Closing.framed {n n' : Node} (hf : Framed n n') (h : Closing n) : Closing n' := by
  unfold Closing at *
  rw [hf.phase]
  cases hp : n.phase with
  | elected f | executed f | recorded f | saved f =>
    simp only [hp] at h
    exact ⟨h.1, h.2.trans (checkpointTip_congr _ _ hf.btcCheckpointTipHeight).symm⟩
  | idle | searching | waiting | adopting | rewound | crashed => trivial

theorem closing_step {K : Primitives} {wallet : WalletPublicKey} {n n' : Node} {e : Event}
    (hsh : Shelved n.state) (h : Closing n) (hs : step K wallet n e = some n') : Closing n' := by
  cases e with
  | client e =>
    simp only [step] at hs
    split at hs
    · simp at hs
    · exact h.framed (clientStep_framed hs)
  | loop e =>
    have ht : Transition K wallet n e n' := loopStep_transition hs
    cases ht with
    | elect hp ho hw =>
      exact ⟨elect_height hsh ho hw, checkpointTip_congr _ _ rfl⟩
    | execute hp | record hp | save hp =>
      simp only [Closing, hp] at h
      exact h
    | prepare | mined | electNobody | publish | publishSpent | adopt | publishAdopted | rewind
      | publishRewound => trivial

structure Closed (K : Primitives) (n : Node) : Prop where
  coherent : Coherent K n
  shelved : Shelved n.state
  closing : Closing n

theorem Closed.step {K : Primitives} {wallet : WalletPublicKey} {n n' : Node} {e : Event}
    (h : Closed K n) (hs : System.step K wallet n e = some n') : Closed K n' :=
  ⟨h.coherent.step hs, shelved_step h.shelved hs, closing_step h.shelved h.closing hs⟩

theorem closed_boot (K : Primitives) (outcomes : List AppendOutcome)
    (observed : BtcEntropyState) : Closed K (boot K outcomes observed) where
  coherent := coherent_boot K outcomes observed
  shelved := shelved_boot K outcomes observed
  closing := trivial

theorem reachable_closed {K : Primitives} {wallet : WalletPublicKey}
    {outcomes : List AppendOutcome} {observed : BtcEntropyState} {n : Node}
    (h : Reach (System.step K wallet) (boot K outcomes observed) n) : Closed K n :=
  h.invariant (closed_boot K outcomes observed) fun _ _ _ hc _ hs => hc.step hs

/-- A node in whose run the claim wins its height and is published. -/
def Wins (K : Primitives) (wallet : WalletPublicKey) (p : PendingClaim) (n' : Node) : Prop :=
  ∃ outcomes observed n f, Reach (System.step K wallet) (boot K outcomes observed) n ∧
    n.phase = .saved f ∧ f.winning = p ∧ System.step K wallet n (.loop .publish) = some n' ∧
    n'.phase = .idle

theorem publish_pinned {K : Primitives} {n : Node} {f : Finalising} {state : NodeState}
    {proof : BtcCheckpointProof} (hc : Closed K n) (hp : n.phase = .saved f)
    (hs : publish K f n.ledger n.state = some state)
    (hckpt : isCheckpointHeight f.winning.height = true)
    (hproof : f.winning.btcCheckpoint = some proof) :
    pinned state = (f.winning.claim.header.bitcoinSeedHash, proof.tipHeight) := by
  have hphase := hc.coherent.phase
  have hclose := hc.closing
  simp only [PhaseOk, hp] at hphase
  simp only [Closing, hp] at hclose
  rw [hclose.1] at hckpt
  have hseed : f.cursor.btcSeedHash = f.winning.claim.header.bitcoinSeedHash := by
    rw [hphase.2.cursor]
    simp [advance, hckpt, hproof]
  have htip : f.checkpointTipNow = proof.tipHeight := by
    rw [hclose.2]
    simp [checkpointTip, hckpt, hproof]
  unfold publish at hs
  split at hs
  · simp at hs
  · obtain rfl := Option.some.inj hs
    exact Prod.ext hseed htip

theorem wins_pinned {K : Primitives} {wallet : WalletPublicKey} {p : PendingClaim} {n' : Node}
    {proof : BtcCheckpointProof} (h : Wins K wallet p n')
    (hckpt : isCheckpointHeight p.height = true) (hproof : p.btcCheckpoint = some proof) :
    pinned n'.state = (p.claim.header.bitcoinSeedHash, proof.tipHeight) := by
  obtain ⟨outcomes, observed, n, f, hreach, hp, rfl, hs, hidle⟩ := h
  have ht : Transition K wallet n .publish n' := loopStep_transition hs
  cases ht with
  | @publish f' state hp' hpub =>
    obtain rfl := Phase.saved.inj (hp.symm.trans hp')
    exact publish_pinned (reachable_closed hreach) hp hpub hckpt hproof
  | publishSpent => simp at hidle

/-- Two nodes that accept a checkpoint claim under the same header pin the same
checkpoint, when it wins, exactly if the proofs they were given name the same tip height. -/
theorem same_pin_iff {K : Primitives} {w₁ w₂ : WalletPublicKey} {s₁ s₂ : NodeState}
    {l₁ l₂ : RewardLedger} {now₁ now₂ : ℕ} {p₁ p₂ : PendingClaim} {a₁ a₂ : AcceptedClaim}
    {n₁ n₂ : Node} (ha₁ : (acceptSignedClaim K s₁ l₁ now₁ p₁).1 = .ok a₁)
    (ha₂ : (acceptSignedClaim K s₂ l₂ now₂ p₂).1 = .ok a₂)
    (hh : p₁.claim.header = p₂.claim.header) (hckpt : isCheckpointHeight p₁.height = true)
    (hw₁ : Wins K w₁ p₁ n₁) (hw₂ : Wins K w₂ p₂ n₂) :
    pinned n₁.state = pinned n₂.state ↔
      p₁.btcCheckpoint.map BtcCheckpointProof.tipHeight =
        p₂.btcCheckpoint.map BtcCheckpointProof.tipHeight := by
  have hckpt₂ : isCheckpointHeight p₂.height = true := by
    unfold PendingClaim.height at *
    rwa [← hh]
  have hseed₁ := (accepted_acceptable ha₁).1.seed
  have hseed₂ := (accepted_acceptable ha₂).1.seed
  unfold SeedHolds at hseed₁ hseed₂
  rw [if_pos hckpt] at hseed₁
  rw [if_pos hckpt₂] at hseed₂
  obtain ⟨proof₁, hproof₁, -⟩ := hseed₁
  obtain ⟨proof₂, hproof₂, -⟩ := hseed₂
  rw [wins_pinned hw₁ hckpt hproof₁, wins_pinned hw₂ hckpt₂ hproof₂, hh, hproof₁, hproof₂]
  simp

def toyCheckpoint (tipHeight : ℕ) : PendingClaim :=
  let p := toyCandidate 1 0 toyGenesis.state toyGenesis.ledger toyGenesis.cursor []
  { p with btcCheckpoint := p.btcCheckpoint.map fun proof => { proof with tipHeight } }

def toyClosing (p : PendingClaim) : List Event :=
  [.loop (.elect [p]), .loop .execute, .loop (.record true), .loop (.save true)]

def toyWin (p : PendingClaim) : Option Node :=
  exec (System.step toyPrimitives (toyWalletKey 1)) toyBoot
    (toySubmission p++toyMining 1 0 toyGenesis++toyClosing p)

def toyPins (p : PendingClaim) (pin : Pin) : Bool :=
  (acceptSignedClaim toyPrimitives toyBoot.state toyBoot.ledger (toyEnv.now 1) p).1.isOk &&
  (toyWin p).any fun n =>
    (match n.phase with
      | .saved f => f.winning == p
      | _ => false) &&
    (System.step toyPrimitives (toyWalletKey 1) n (.loop .publish)).any fun n' =>
      (match n'.phase with
        | .idle => true
        | _ => false) && pinned n'.state == pin

theorem toyPins_wins {p : PendingClaim} {pin : Pin} (h : toyPins p pin = true) :
    (∃ a, (acceptSignedClaim toyPrimitives toyBoot.state toyBoot.ledger (toyEnv.now 1) p).1 =
      .ok a) ∧ ∃ n', Wins toyPrimitives (toyWalletKey 1) p n' ∧ pinned n'.state = pin := by
  rw [toyPins, Bool.and_eq_true] at h
  obtain ⟨hok, h⟩ := h
  refine ⟨Checked.isOk_iff.mp hok, ?_⟩
  obtain ⟨n, hn, hs⟩ := (Option.any_eq_true _ _).mp h
  rw [Bool.and_eq_true] at hs
  obtain ⟨hsaved, hs⟩ := hs
  obtain ⟨n', hn', hs⟩ := (Option.any_eq_true _ _).mp hs
  rw [Bool.and_eq_true] at hs
  refine ⟨n', ?_, by simpa using hs.2⟩
  split at hsaved
  · rename_i f hp
    refine ⟨[], .mock, n, f, exec_reach hn, hp, by simpa using hsaved, hn', ?_⟩
    have hidle := hs.1
    split at hidle
    · assumption
    · simp at hidle
  · simp at hsaved

set_option maxRecDepth 100000 in
theorem same_pin_iff_sample :
    ∃ n₁ n₂, Wins toyPrimitives (toyWalletKey 1) (toyCheckpoint 1) n₁ ∧
      Wins toyPrimitives (toyWalletKey 1) (toyCheckpoint 1) n₂ ∧
      pinned n₁.state = pinned n₂.state := by
  have hpins : toyPins (toyCheckpoint 1) ((toyCheckpoint 1).claim.header.bitcoinSeedHash, 1) := by
    decide +kernel
  obtain ⟨⟨a, ha⟩, n, hw, -⟩ := toyPins_wins hpins
  exact ⟨n, n, hw, hw, (same_pin_iff ha ha rfl (by decide) hw hw).mpr rfl⟩

def seedInputs (p : PendingClaim) : List Bytes :=
  p.btcCheckpoint.toList.map fun proof =>
    btcSeedTag++proof.tipHash.toList++proof.utxoEntropy.toList++proof.staleXorPool.toList

set_option maxRecDepth 100000 in
theorem header_does_not_pin :
    ∃ p₁ p₂ n₁ n₂ a₁ a₂, p₁.claim.header = p₂.claim.header ∧ isCheckpointHeight p₁.height ∧
      (acceptSignedClaim toyPrimitives toyBoot.state toyBoot.ledger (toyEnv.now 1) p₁).1 =
        .ok a₁ ∧
      (acceptSignedClaim toyPrimitives toyBoot.state toyBoot.ledger (toyEnv.now 1) p₂).1 =
        .ok a₂ ∧
      CollisionFree toyPrimitives (seedInputs p₁++seedInputs p₂) ∧
      Wins toyPrimitives (toyWalletKey 1) p₁ n₁ ∧ Wins toyPrimitives (toyWalletKey 1) p₂ n₂ ∧
      pinned n₁.state ≠ pinned n₂.state := by
  obtain ⟨hfirst, hsecond, hfree⟩ :
      toyPins (toyCheckpoint 0) ((toyCheckpoint 0).claim.header.bitcoinSeedHash, 0) ∧
      toyPins (toyCheckpoint 2) ((toyCheckpoint 2).claim.header.bitcoinSeedHash, 2) ∧
      CollisionFree toyPrimitives (seedInputs (toyCheckpoint 0)++seedInputs (toyCheckpoint 2)) := by
    decide +kernel
  obtain ⟨⟨a₁, ha₁⟩, n₁, hw₁, hp₁⟩ := toyPins_wins hfirst
  obtain ⟨⟨a₂, ha₂⟩, n₂, hw₂, hp₂⟩ := toyPins_wins hsecond
  refine ⟨toyCheckpoint 0, toyCheckpoint 2, n₁, n₂, a₁, a₂, rfl, by decide, ha₁, ha₂, hfree,
    hw₁, hw₂, ?_⟩
  rw [hp₁, hp₂]
  intro h
  exact absurd (congrArg Prod.snd h) (by decide)

end BinaChain.Pinning
