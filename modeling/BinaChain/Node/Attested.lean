import BinaChain.Node.Carried
import BinaChain.Node.Restart

/-!
# Claims at checkpoint heights carry a proof

The tip check asks for the proof, the local miner attaches one, and nothing
takes it away: what is elected at a checkpoint height has a checkpoint to pin.
-/

set_option autoImplicit false

namespace BinaChain.Attested
open BinaChain.Crypto BinaChain.BitcoinEntropy BinaChain.Rewards BinaChain.State
open BinaChain.Machine BinaChain.Admission BinaChain.Mining BinaChain.Sync
open BinaChain.Reconcile BinaChain.System BinaChain.Coherence BinaChain.Trace
open BinaChain.Restart BinaChain.Carried Std

def HasProof (p : PendingClaim) : Prop :=
  isCheckpointHeight p.height = true → p.btcCheckpoint.isSome

def Pooled (s : NodeState) : Prop := ∀ (height : ℕ) (miner : Text.Str) (p : PendingClaim),
  (s.poolAt height)[miner]? = some p → HasProof p

def RequestBacked : Request → Prop
  | .tipChecked p _ => HasProof p
  | .executionChecked p => HasProof p
  | .spendChecked _ => True

abbrev Requests := ExtTreeMap ℕ Request

def AllBacked (m : Requests) : Prop :=
  ∀ (id : ℕ) (r : Request), m[id]? = some r → RequestBacked r

/-- The claim the loop works on. -/
def PhaseBacked (n : Node) : Prop :=
  match n.phase with
  | .searching t => isCheckpointHeight t.header.height = true → t.btcCheckpoint.isSome
  | .elected f | .executed f | .recorded f | .saved f => HasProof f.winning
  | _ => True

structure Backed (n : Node) : Prop where
  requests : AllBacked n.requests
  pools : Pooled n.state
  phase : PhaseBacked n

theorem checkTip_hasProof {K : Primitives} {s : NodeState} {now reward : ℕ} {p : PendingClaim}
    (h : checkTip K s now p = .ok reward) : HasProof p := by
  intro hc
  have hseed := (checkTip_ok.mp h).2.2.2.1
  unfold SeedHolds at hseed
  rw [if_pos hc] at hseed
  obtain ⟨proof, hp, -⟩ := hseed
  simp [hp]

theorem backed_iff {n : Node} : Backed n ↔ AllClaims HasProof n := by
  have hrequest : ∀ r, RequestBacked r ↔ OfRequest HasProof r := by
    intro r
    cases r <;> rfl
  have hphase : PhaseBacked n ↔ OfPhase HasProof n := by
    unfold PhaseBacked OfPhase
    cases n.phase with
    | searching t => exact ⟨fun h _ _ _ => h, fun h => h 0 [] []⟩
    | idle | waiting | elected | executed | recorded | saved | adopting | rewound | crashed => rfl
  constructor
  · intro h
    exact ⟨fun id r hr => (hrequest r).mp (h.requests id r hr), h.pools, hphase.mp h.phase⟩
  · intro h
    exact ⟨fun id r hr => (hrequest r).mpr (h.requests id r hr), h.pools, hphase.mpr h.phase⟩

theorem prepare_hasProof (K : Primitives) (miner : WalletAddress) (s : NodeState)
    (l : RewardLedger) (c : Cursor) (fresh : BtcEntropyState) (now : ℕ)
    (txs : List Transaction.SignedTransaction) (nonce : ℕ) (publicKey signature : Word.Bytes) :
    HasProof ((prepare K miner s l c fresh now txs).2.sign nonce publicKey signature) := by
  intro hc
  have hc' : isCheckpointHeight (c.height+1) = true := hc
  simp [prepare, Template.sign, hc']

theorem backed_boot (K : Primitives) (outcomes : List AppendOutcome)
    (observed : BtcEntropyState) : Backed (boot K outcomes observed) where
  requests id r h := by simp [boot] at h
  pools height miner p h := by simp [boot, genesisState, NodeState.poolAt] at h
  phase := trivial

theorem backed_serve (K : Primitives) (left : Leftovers) (n : Node) :
    Backed (serve K left n).node where
  requests id r h := by simp [serve] at h
  pools height miner p h := by simp [serve, freshState, NodeState.poolAt] at h
  phase := trivial

theorem backed_step {K : Primitives} {wallet : WalletPublicKey} {p p' : Process}
    {e : Restart.Event} (h : Backed p.node) (hs : Restart.step K wallet p e = some p') :
    Backed p'.node := by
  cases step_moves hs with
  | run ht hs' =>
    exact backed_iff.mpr (carried_step (backed_iff.mp h) (fun _ _ _ => checkTip_hasProof)
      (prepare_hasProof K _ _ _ _) hs')
  | restart => exact backed_serve K _ _
  | scope | guard | load | refill | resume => exact ⟨h.requests, h.pools, h.phase⟩

end BinaChain.Attested
