import BinaChain.Node.Coherence
import BinaChain.Node.Election

/-!
# What claims keep on their way through a node

A claim that passed the tip check waits in a request, then in a pool, until it
is elected; the local miner's goes into the pool directly. What holds of every
claim at these two entrances holds of every claim inside.
-/

set_option autoImplicit false

namespace BinaChain.Carried
open BinaChain.Word BinaChain.Text BinaChain.Crypto BinaChain.BitcoinEntropy BinaChain.Rewards
open BinaChain.State BinaChain.Admission BinaChain.Mining BinaChain.Sync BinaChain.Reconcile
open BinaChain.System Std

variable (P : PendingClaim → Prop)

def OfRequest : Request → Prop
  | .tipChecked p _ => P p
  | .executionChecked p => P p
  | .spendChecked _ => True

def OfPools (s : NodeState) : Prop := ∀ (height : ℕ) (miner : Str) (p : PendingClaim),
  (s.poolAt height)[miner]? = some p → P p

def OfRequests (m : ExtTreeMap ℕ Request) : Prop :=
  ∀ (id : ℕ) (r : Request), m[id]? = some r → OfRequest P r

/-- The claim the loop works on, whatever nonce and signature it gets. -/
def OfPhase (n : Node) : Prop :=
  match n.phase with
  | .searching t => ∀ nonce publicKey signature, P (t.sign nonce publicKey signature)
  | .elected f | .executed f | .recorded f | .saved f => P f.winning
  | _ => True

structure AllClaims (n : Node) : Prop where
  requests : OfRequests P n.requests
  pools : OfPools P n.state
  phase : OfPhase P n

variable {P}

theorem OfPools.register {s : NodeState} (h : OfPools P s) {p : PendingClaim} (hp : P p) :
    OfPools P (s.register p) := by
  intro height miner q hq
  rw [NodeState.poolAt_register] at hq
  split at hq
  · rw [Maps.getElem?_insert_eq] at hq
    split at hq
    · obtain rfl := Option.some.inj hq
      exact hp
    · exact h height miner q hq
  · exact h height miner q hq

theorem OfPools.retain {s : NodeState} (h : OfPools P s) (top : ℕ) :
    OfPools P (s.retainAbove top) := by
  intro height miner q hq
  rw [NodeState.poolAt_retainAbove] at hq
  split at hq
  · exact h height miner q hq
  · simp at hq

theorem OfPools.enter {s : NodeState} (h : OfPools P s) {p : PendingClaim} (hp : P p) :
    OfPools P (enterCandidate s p).2 ∧ OfPools P (enterLocal s p) := by
  unfold enterCandidate enterLocal
  split
  · exact ⟨h, h⟩
  · exact ⟨h.register hp, h.register hp⟩

theorem OfRequests.insert {m : ExtTreeMap ℕ Request} (h : OfRequests P m) (id : ℕ) {r : Request}
    (hr : OfRequest P r) : OfRequests P (m.insert id r) := by
  intro k q hq
  rw [Maps.getElem?_insert_eq] at hq
  split at hq
  · obtain rfl := Option.some.inj hq
    exact hr
  · exact h k q hq

theorem OfRequests.erase {m : ExtTreeMap ℕ Request} (h : OfRequests P m) (id : ℕ) :
    OfRequests P (m.erase id) := by
  intro k q hq
  rw [ExtTreeMap.getElem?_erase] at hq
  split at hq
  · simp at hq
  · exact h k q hq

theorem OfPhase.of_phase {n n' : Node} (hp : n'.phase = n.phase) (h : OfPhase P n) :
    OfPhase P n' := by
  unfold OfPhase at *
  rwa [hp]

theorem client_carried {K : Primitives} {n n' : Node} {e : ClientEvent} (h : AllClaims P n)
    (htip : ∀ now p reward, checkTip K n.state now p = .ok reward → P p)
    (hs : clientStep K n e = some n') : AllClaims P n' := by
  have hphase := h.phase.of_phase (clientStep_framed hs).phase
  cases clientStep_handled hs with
  | submit hscreen hcheck =>
    exact ⟨h.requests.insert _ (htip _ _ _ hcheck), h.pools, hphase⟩
  | @judge id reward p hreq =>
    have hp : P p := h.requests id _ hreq
    exact ⟨h.requests.insert id hp, h.pools, hphase⟩
  | @enter id p hreq =>
    have hp : P p := h.requests id _ hreq
    exact ⟨h.requests.erase id, (h.pools.enter hp).1, hphase⟩
  | observe => exact ⟨h.requests, h.pools, hphase⟩
  | offer => exact ⟨h.requests.insert _ trivial, h.pools, hphase⟩
  | refuse | queue | full => exact ⟨h.requests.erase _, h.pools, hphase⟩

theorem elected_carried {K : Primitives} {s : NodeState} {order : List PendingClaim} {height : ℕ}
    {w : PendingClaim} (h : OfPools P s) (ho : order.Perm (candidates s height))
    (hw : selectWinningPending K order = some w) : P w := by
  have hin : w ∈ order := Ranking.elect_mem (Election.pendingIsBetter_ranking K) hw
  obtain ⟨miner, hm⟩ := mem_candidates.mp (ho.subset hin)
  exact h height miner w hm

theorem transition_carried {K : Primitives} {wallet : WalletPublicKey} {n n' : Node}
    {e : LoopEvent} (h : AllClaims P n)
    (hnew : ∀ fresh now txs nonce publicKey signature, P ((prepare K (wallet.address K) n.state
      n.ledger n.cursor fresh now txs).2.sign nonce publicKey signature))
    (ht : Transition K wallet n e n') : AllClaims P n' := by
  have hphase := h.phase
  unfold OfPhase at hphase
  cases ht with
  | prepare => exact ⟨h.requests, h.pools, hnew _ _ _⟩
  | @mined t p nonce hashesTried elapsedMs signature hp hsign hv =>
    simp only [hp] at hphase
    have hcar : P p := by
      rw [hsign]
      exact hphase _ _ _
    exact ⟨h.requests, (h.pools.enter hcar).2, trivial⟩
  | elect hp ho hw => exact ⟨h.requests, h.pools.retain _, elected_carried h.pools ho hw⟩
  | execute hp | record hp | save hp =>
    simp only [hp] at hphase
    exact ⟨h.requests, h.pools, hphase⟩
  | publish hp hs =>
    refine ⟨h.requests, ?_, trivial⟩
    unfold Mining.publish at hs
    split at hs
    · simp at hs
    · obtain rfl := Option.some.inj hs
      exact h.pools
  | electNobody | publishSpent | adopt | rewind => exact ⟨h.requests, h.pools, trivial⟩
  | publishAdopted | publishRewound => exact ⟨h.requests, h.pools.retain _, trivial⟩

theorem carried_boot (K : Primitives) (outcomes : List AppendOutcome)
    (observed : BtcEntropyState) : AllClaims P (boot K outcomes observed) where
  requests id r h := by simp [boot] at h
  pools height miner p h := by simp [boot, genesisState, NodeState.poolAt] at h
  phase := trivial

theorem carried_step {K : Primitives} {wallet : WalletPublicKey} {n n' : Node} {e : Event}
    (h : AllClaims P n) (htip : ∀ now p reward, checkTip K n.state now p = .ok reward → P p)
    (hnew : ∀ fresh now txs nonce publicKey signature, P ((prepare K (wallet.address K) n.state
      n.ledger n.cursor fresh now txs).2.sign nonce publicKey signature))
    (hs : step K wallet n e = some n') : AllClaims P n' := by
  cases e with
  | client e =>
    simp only [step] at hs
    split at hs
    · simp at hs
    · exact client_carried h htip hs
  | loop e => exact transition_carried h hnew (loopStep_transition hs)

end BinaChain.Carried
