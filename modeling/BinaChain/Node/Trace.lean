import BinaChain.Node.Coherence
import BinaChain.Node.Election
import BinaChain.Support.Chain

/-!
# A record of what a node did

The record keeps the blocks that were finalised, the requests whose claim passed
the tip check and the claims that passed both checks. A rollback cuts the blocks
and voids the checks. A check that is still good at an election was made against
the very state the winner is executed on.
-/

set_option autoImplicit false

namespace BinaChain.Trace
open BinaChain.Word BinaChain.Text BinaChain.Crypto BinaChain.Block BinaChain.Transaction
open BinaChain.BitcoinEntropy BinaChain.Rewards BinaChain.Execution BinaChain.State
open BinaChain.Machine BinaChain.Store BinaChain.Admission BinaChain.Mining BinaChain.Sync
open BinaChain.Reconcile BinaChain.System BinaChain.Coherence Std

/-- A finalised block and the state root of the ledger right after its execution. -/
structure Entry where
  header : L1BlockHeader
  executedRoot : Hash

def Entry.height (e : Entry) : ℕ := e.header.height

/-- The blocks from the newest on, and the checks since the last rollback. -/
structure History where
  chain : List Entry
  fresh : List ℕ
  judged : List PendingClaim

def History.start : History := { chain := [], fresh := [], judged := [] }

def push (K : Primitives) (header : L1BlockHeader) (l : RewardLedger) (g : History) : History :=
  { g with chain := { header, executedRoot := l.stateRoot K } :: g.chain }

def noteClient (n : Node) (e : ClientEvent) (n' : Node) (g : History) : History :=
  match e with
  | .submit _ _ => { g with fresh := n.nextRequest :: g.fresh }
  | .checkExecution id =>
    match n.requests[id]?, n'.requests[id]? with
    | some (.tipChecked p _), some (.executionChecked _) =>
      if id ∈ g.fresh then { g with judged := p :: g.judged } else g
    | _, _ => g
  | _ => g

def noteLoop (K : Primitives) (wallet : WalletPublicKey) (n : Node) (e : LoopEvent) (n' : Node)
    (g : History) : History :=
  match e, n.phase with
  | .mined nonce signature _ _, .searching t =>
    { g with judged := t.sign nonce (wallet.ed25519++wallet.falcon) signature :: g.judged }
  | .execute, .elected f => push K f.winning.claim.header n'.ledger g
  | .adopt _ _ r, _ =>
    match headerFromRecord r n.cursor.tipHash with
    | .ok header => push K header n'.ledger g
    | .error _ => g
  | .rewind _, _ => { g with chain := Chain.cut Entry.height n'.cursor.height g.chain }
  | .publishRewound, _ => { g with fresh := [], judged := [] }
  | _, _ => g

def note (K : Primitives) (wallet : WalletPublicKey) (n : Node) (e : Event) (n' : Node)
    (g : History) : History :=
  match e with
  | .client e => noteClient n e n' g
  | .loop e => noteLoop K wallet n e n' g

abbrev Traced := Node × History

abbrev tracedStep (K : Primitives) (wallet : WalletPublicKey) : Traced → Event → Option Traced :=
  recording (step K wallet) (note K wallet)

theorem noteClient_chain (n : Node) (e : ClientEvent) (n' : Node) (g : History) :
    (noteClient n e n' g).chain = g.chain := by
  cases e with
  | checkExecution id =>
    unfold noteClient
    dsimp only
    split
    · split <;> rfl
    · rfl
  | submit | enter | observe | offer | queue => rfl

theorem noteLoop_mined {K : Primitives} {wallet : WalletPublicKey} {n n' : Node} {g : History}
    {t : Template} {nonce hashesTried elapsedMs : ℕ} {signature : Bytes}
    (hp : n.phase = .searching t) :
    noteLoop K wallet n (.mined nonce signature hashesTried elapsedMs) n' g =
      { g with judged := t.sign nonce (wallet.ed25519++wallet.falcon) signature :: g.judged } := by
  simp [noteLoop, hp]

theorem noteLoop_execute {K : Primitives} {wallet : WalletPublicKey} {n n' : Node} {g : History}
    {f : Finalising} (hp : n.phase = .elected f) :
    noteLoop K wallet n .execute n' g = push K f.winning.claim.header n'.ledger g := by
  simp [noteLoop, hp]

theorem noteLoop_adopt {K : Primitives} {wallet : WalletPublicKey} {n n' : Node} {g : History}
    {now : ℕ} {stored : Bool} {r : BlockRecord} {header : L1BlockHeader}
    (hh : headerFromRecord r n.cursor.tipHash = .ok header) :
    noteLoop K wallet n (.adopt now stored r) n' g = push K header n'.ledger g := by
  simp [noteLoop, hh]

def Electing (n : Node) : Prop :=
  match n.phase with
  | .idle | .searching _ | .waiting .. => True
  | _ => False

structure TipHeld (n : Node) (p : PendingClaim) (reward : ℕ) : Prop where
  height : p.height ≤ n.state.chainHeight+1
  current : Electing n → p.height = n.state.chainHeight+1 →
    ExtendsTip n.state p ∧ reward = blockReward p.height n.state.totalMinedBina

/-- If the claim is for the next height, both checks pass now. -/
structure Sound (K : Primitives) (n : Node) (p : PendingClaim) : Prop where
  height : p.height ≤ n.state.chainHeight+1
  current : Electing n → p.height = n.state.chainHeight+1 → ExtendsTip n.state p ∧
    Executes K n.ledger p (blockReward p.height n.state.totalMinedBina)

structure Judgements (K : Primitives) (n : Node) (g : History) : Prop where
  fresh : ∀ id ∈ g.fresh, ∀ p reward, n.requests[id]? = some (.tipChecked p reward) →
    TipHeld n p reward
  judged : ∀ p ∈ g.judged, Sound K n p

structure SameTip (n n' : Node) : Prop where
  tip : n'.state.tipHash = n.state.tipHash
  timestamp : n'.state.lastBlockTimestampMs = n.state.lastBlockTimestampMs
  difficulty : n'.state.difficultyBits = n.state.difficultyBits
  paid : n'.state.totalMinedBina = n.state.totalMinedBina
  ledger : n'.ledger = n.ledger

inductive Carries (n n' : Node) : Prop
  | grown (h : n.state.chainHeight < n'.state.chainHeight)
  | stands (h : n'.state.chainHeight = n.state.chainHeight)
      (ho : Electing n' → Electing n ∧ SameTip n n')

theorem extendsTip_same {n n' : Node} {p : PendingClaim}
    (hh : n'.state.chainHeight = n.state.chainHeight) (hs : SameTip n n')
    (h : ExtendsTip n.state p) : ExtendsTip n'.state p :=
  ⟨h.height.trans (by rw [hh]), h.parent.trans hs.tip.symm,
    h.difficulty.trans hs.difficulty.symm, by rw [hs.timestamp]; exact h.later⟩

theorem TipHeld.carry {n n' : Node} {p : PendingClaim} {reward : ℕ} (h : TipHeld n p reward)
    (hc : Carries n n') : TipHeld n' p reward := by
  have hp := h.height
  cases hc with
  | grown hlt => exact ⟨by omega, fun _ he => by omega⟩
  | stands hh ho =>
    refine ⟨by omega, fun he hp' => ?_⟩
    obtain ⟨he₀, hs⟩ := ho he
    obtain ⟨hext, hrew⟩ := h.current he₀ (by omega)
    exact ⟨extendsTip_same hh hs hext, by rw [hs.paid]; exact hrew⟩

theorem Sound.carry {K : Primitives} {n n' : Node} {p : PendingClaim} (h : Sound K n p)
    (hc : Carries n n') : Sound K n' p := by
  have hp := h.height
  cases hc with
  | grown hlt => exact ⟨by omega, fun _ he => by omega⟩
  | stands hh ho =>
    refine ⟨by omega, fun he hp' => ?_⟩
    obtain ⟨he₀, hs⟩ := ho he
    obtain ⟨hext, hexec⟩ := h.current he₀ (by omega)
    exact ⟨extendsTip_same hh hs hext, by rw [hs.paid, hs.ledger]; exact hexec⟩

def NoneNew (n n' : Node) : Prop := ∀ (id : ℕ) (p : PendingClaim) (reward : ℕ),
  n'.requests[id]? = some (.tipChecked p reward) → n.requests[id]? = some (.tipChecked p reward)

theorem Judgements.carry {K : Primitives} {n n' : Node} {g : History} (h : Judgements K n g)
    (hc : Carries n n') (hr : NoneNew n n') : Judgements K n' g :=
  ⟨fun id hid p reward hp => (h.fresh id hid p reward (hr id p reward hp)).carry hc,
    fun p hp => (h.judged p hp).carry hc⟩

theorem Carries.framed {n n' : Node} (hf : Framed n n') : Carries n n' := by
  refine .stands hf.chainHeight fun he => ⟨?_, ?_⟩
  · unfold Electing at *
    rwa [hf.phase] at he
  · exact ⟨hf.tipHash, hf.lastBlockTimestampMs, hf.difficultyBits, hf.totalMinedBina, hf.ledger⟩

theorem noneNew_erase (n : Node) (s : NodeState) (st : BlockStore) (id : ℕ) : NoneNew n
    { n with state := s, store := st, requests := n.requests.erase id } := by
  intro k p reward h
  simp only [ExtTreeMap.getElem?_erase] at h
  split at h
  · simp at h
  · exact h

theorem noneNew_insert (n : Node) (id next : ℕ) {r : Request}
    (hr : ∀ p reward, r ≠ .tipChecked p reward) :
    NoneNew n { n with requests := n.requests.insert id r, nextRequest := next } := by
  intro k p reward h
  simp only [Maps.getElem?_insert_eq] at h
  split at h
  · exact absurd (Option.some.inj h) (hr p reward)
  · exact h

theorem submit_judgements {K : Primitives} {n : Node} {g : History} {p : PendingClaim}
    {reward now : ℕ} (h : Judgements K n g) (ht : checkTip K n.state now p = .ok reward) :
    Judgements K (enroll n (.tipChecked p reward)) { g with fresh := n.nextRequest :: g.fresh } := by
  have hc : Carries n (enroll n (.tipChecked p reward)) :=
    .framed (.of_requests rfl rfl rfl rfl rfl rfl)
  obtain ⟨-, hext, -, -, hrew⟩ := checkTip_ok.mp ht
  refine ⟨fun id hid q r hq => ?_, fun q hq => (h.judged q hq).carry hc⟩
  simp only [enroll, Maps.getElem?_insert_eq] at hq
  split at hq
  · obtain ⟨rfl, rfl⟩ := Request.tipChecked.inj (Option.some.inj hq)
    exact ⟨Nat.le_of_eq hext.height, fun _ _ => ⟨hext, hrew⟩⟩
  · rename_i hne
    rcases List.mem_cons.mp hid with rfl | hid
    · exact absurd rfl hne
    · exact (h.fresh id hid q r hq).carry hc

theorem execution_judgements {K : Primitives} {n : Node} {g : History} {p : PendingClaim}
    {id reward : ℕ} (h : Judgements K n g) (hreq : n.requests[id]? = some (.tipChecked p reward))
    (he : checkExecution K n.ledger p reward = .ok ()) :
    Judgements K { n with requests := n.requests.insert id (.executionChecked p) }
      (if id ∈ g.fresh then { g with judged := p :: g.judged } else g) := by
  have hc : Carries n { n with requests := n.requests.insert id (.executionChecked p) } :=
    .framed (.of_requests rfl rfl rfl rfl rfl rfl)
  have hkept := h.carry hc (noneNew_insert n id n.nextRequest (by simp))
  split
  · rename_i hid
    refine ⟨hkept.fresh, fun q hq => ?_⟩
    rcases List.mem_cons.mp hq with rfl | hq
    · have htip := h.fresh id hid q reward hreq
      refine Sound.carry ⟨htip.height, fun ho hp => ?_⟩ hc
      obtain ⟨hext, hrew⟩ := htip.current ho hp
      exact ⟨hext, by rw [← hrew]; exact checkExecution_ok.mp he⟩
    · exact hkept.judged q hq
  · exact hkept

theorem client_judgements {K : Primitives} {n n' : Node} {g : History} {e : ClientEvent}
    (h : Judgements K n g) (hs : clientStep K n e = some n') :
    Judgements K n' (noteClient n e n' g) := by
  have hc : Carries n n' := .framed (clientStep_framed hs)
  cases clientStep_handled hs with
  | submit hscreen htip => exact submit_judgements h htip
  | @judge id reward p hreq hl hcheck =>
    have hnote : noteClient n (.checkExecution id)
        { n with requests := n.requests.insert id (.executionChecked p) } g =
        if id ∈ g.fresh then { g with judged := p :: g.judged } else g := by
      simp [noteClient, hreq]
    rw [hnote]
    exact execution_judgements h hreq hcheck
  | @refuse id reward p hreq =>
    have hnote : noteClient n (.checkExecution id)
        { n with requests := n.requests.erase id } g = g := by
      simp [noteClient, hreq]
    rw [hnote]
    exact h.carry hc (noneNew_erase n n.state n.store id)
  | @enter id => exact h.carry hc (noneNew_erase n _ n.store id)
  | observe => exact h.carry hc fun _ _ _ hp => hp
  | offer => exact h.carry hc (noneNew_insert n n.nextRequest (n.nextRequest+1) (by simp))
  | @queue id => exact h.carry hc (noneNew_erase n _ _ id)
  | @full id => exact h.carry hc (noneNew_erase n n.state n.store id)

def Shelved (s : NodeState) : Prop := ∀ (height : ℕ) (miner : Str) (p : PendingClaim),
  (s.poolAt height)[miner]? = some p → p.height = height

theorem Shelved.register {s : NodeState} (h : Shelved s) (p : PendingClaim) :
    Shelved (s.register p) := by
  intro height miner q hq
  rw [NodeState.poolAt_register] at hq
  split at hq
  · rename_i hp
    rw [Maps.getElem?_insert_eq] at hq
    split at hq
    · obtain rfl := Option.some.inj hq
      exact hp
    · exact h height miner q hq
  · exact h height miner q hq

theorem Shelved.retain {s : NodeState} (h : Shelved s) (top : ℕ) : Shelved (s.retainAbove top) := by
  intro height miner q hq
  rw [NodeState.poolAt_retainAbove] at hq
  split at hq
  · exact h height miner q hq
  · simp at hq

theorem Shelved.enter {s : NodeState} (h : Shelved s) (p : PendingClaim) :
    Shelved (enterCandidate s p).2 ∧ Shelved (enterLocal s p) := by
  unfold enterCandidate enterLocal
  split
  · exact ⟨h, h⟩
  · exact ⟨h.register p, h.register p⟩

theorem client_shelved {K : Primitives} {n n' : Node} {e : ClientEvent} (h : Shelved n.state)
    (hs : clientStep K n e = some n') : Shelved n'.state := by
  cases clientStep_handled hs with
  | submit | judge | refuse | observe | offer | queue | full => exact h
  | enter => exact (h.enter _).1

theorem transition_shelved {K : Primitives} {wallet : WalletPublicKey} {n n' : Node}
    {e : LoopEvent} (h : Shelved n.state) (ht : Transition K wallet n e n') :
    Shelved n'.state := by
  cases ht with
  | prepare | electNobody | execute | record | save | publishSpent | adopt | rewind => exact h
  | mined => exact (h.enter _).2
  | elect => exact h.retain _
  | publish hp hs =>
    unfold publish at hs
    split at hs
    · simp at hs
    · obtain rfl := Option.some.inj hs
      exact h
  | publishAdopted => exact h.retain _
  | publishRewound => exact h.retain _

theorem elect_height {K : Primitives} {s : NodeState} {order : List PendingClaim} {height : ℕ}
    {w : PendingClaim} (hsh : Shelved s) (ho : order.Perm (candidates s height))
    (hw : selectWinningPending K order = some w) : w.height = height := by
  have hin : w ∈ order := Ranking.elect_mem (Election.pendingIsBetter_ranking K) hw
  obtain ⟨miner, hm⟩ := mem_candidates.mp (ho.subset hin)
  exact hsh height miner w hm

theorem shelved_boot (K : Primitives) (outcomes : List AppendOutcome)
    (observed : BtcEntropyState) : Shelved (boot K outcomes observed).state := by
  intro height miner p h
  simp [boot, genesisState, NodeState.poolAt] at h

theorem shelved_step {K : Primitives} {wallet : WalletPublicKey} {n n' : Node} {e : Event}
    (h : Shelved n.state) (hs : step K wallet n e = some n') : Shelved n'.state := by
  cases e with
  | client e =>
    simp only [step] at hs
    split at hs
    · simp at hs
    · exact client_shelved h hs
  | loop e => exact transition_shelved h (loopStep_transition hs)

structure Proposes (K : Primitives) (address : WalletAddress) (n : Node) (t : Template) :
    Prop where
  parent : t.header.prevHash = n.cursor.tipHash
  difficulty : t.header.difficultyBits = n.cursor.adjuster.currentBits
  later : n.cursor.lastBlockTimestampMs < t.header.timestamp
  miner : t.header.minerAddress = address
  executes : simulateBlockExecution K n.ledger t.transactions (Hex.encode address.toList) t.reward =
    (t.transactions, t.header.stateRoot)

def Stage (K : Primitives) (wallet : WalletPublicKey) (n : Node) : Prop :=
  match n.phase with
  | .searching t => Proposes K (wallet.address K) n t
  | .elected f => ExtendsTip n.state f.winning ∧ Executes K n.ledger f.winning f.reward
  | _ => True

/-- No clock at the end of time, no overflow, and no winner that was checked
before the last rollback. -/
def Current (K : Primitives) (x : Traced) : Event → Prop
  | .loop (.prepare ..) => x.1.cursor.lastBlockTimestampMs < u64Max
  | .loop (.elect order) => ∀ w, selectWinningPending K order = some w → w ∈ x.2.judged
  | .loop .execute => ∀ f, x.1.phase = .elected f →
    Roomy x.1.ledger f.winning.transactions.length f.reward
  | .loop (.adopt _ _ r) => Roomy x.1.ledger r.transactions.length r.rewardBina
  | _ => True

theorem Stage.framed {K : Primitives} {wallet : WalletPublicKey} {n n' : Node}
    (hf : Framed n n') (h : Stage K wallet n) : Stage K wallet n' := by
  unfold Stage at *
  rw [hf.phase]
  split
  · rename_i t hp
    simp only [hp] at h
    exact ⟨h.parent.trans (by rw [hf.cursor]), h.difficulty.trans (by rw [hf.cursor]),
      by rw [hf.cursor]; exact h.later, h.miner, by rw [hf.ledger]; exact h.executes⟩
  · rename_i f hp
    simp only [hp] at h
    have hs : SameTip n n' :=
      ⟨hf.tipHash, hf.lastBlockTimestampMs, hf.difficultyBits, hf.totalMinedBina, hf.ledger⟩
    exact ⟨extendsTip_same hf.chainHeight hs h.1, by rw [hf.ledger]; exact h.2⟩
  · trivial

theorem prepare_proposes (K : Primitives) (address : WalletAddress) {n : Node}
    (hlt : n.cursor.lastBlockTimestampMs < u64Max) (fresh : BtcEntropyState) (now : ℕ)
    (txs : List SignedTransaction) : Proposes K address n
      (prepare K address n.state n.ledger n.cursor fresh now txs).2 where
  parent := rfl
  difficulty := rfl
  later := by
    have hsat : satAdd n.cursor.lastBlockTimestampMs 1 = n.cursor.lastBlockTimestampMs+1 :=
      satAdd_of_le hlt
    have hmax : max now (satAdd n.cursor.lastBlockTimestampMs 1) ≤
        (prepare K address n.state n.ledger n.cursor fresh now txs).2.header.timestamp :=
      Nat.le_refl _
    omega
  miner := rfl
  executes := simulate_idem K n.ledger txs _ _

theorem mined_sound {K : Primitives} {wallet : WalletPublicKey} {n n' : Node} {t : Template}
    {nonce : ℕ} {signature : Bytes} (hs : Settled n) (hh : t.header.height = n.cursor.height+1)
    (hr : t.reward = nextReward n) (h : Proposes K (wallet.address K) n t)
    (hc : Carries n n') : Sound K n' (t.sign nonce (wallet.ed25519++wallet.falcon) signature) := by
  have hheight : (t.sign nonce (wallet.ed25519++wallet.falcon) signature).height =
      n.state.chainHeight+1 := by
    rw [hs.agreed.height]
    exact hh
  have hminer : (t.sign nonce (wallet.ed25519++wallet.falcon) signature).minerHex =
      Hex.encode (wallet.address K).toList := by
    rw [← h.miner]
    rfl
  have hreward : blockReward (t.sign nonce (wallet.ed25519++wallet.falcon) signature).height
      n.state.totalMinedBina = t.reward := by
    rw [hheight, hs.paid, hs.agreed.height, hr]
    rfl
  refine Sound.carry ⟨Nat.le_of_eq hheight, fun _ _ => ⟨⟨hheight, ?_, ?_, ?_⟩, ?_, ?_⟩⟩ hc
  · exact h.parent.trans hs.agreed.tip.symm
  · exact h.difficulty.trans hs.agreed.difficulty.symm
  · rw [hs.agreed.timestamp]
    exact h.later
  · rw [hreward, hminer]
    exact congrArg (fun sim => sim.1.length) h.executes
  · rw [hreward, hminer]
    exact congrArg Prod.snd h.executes

theorem enterLocal_same (n : Node) (p : PendingClaim) (phase : Phase) :
    (enterLocal n.state p).chainHeight = n.state.chainHeight ∧
      SameTip n { n with state := enterLocal n.state p, phase } := by
  rw [enterLocal_eq]
  exact ⟨rfl, rfl, rfl, rfl, rfl, rfl⟩

/-- The end of a rollback is the one step of the loop that checks do not survive. -/
theorem transition_carries {K : Primitives} {wallet : WalletPublicKey} {n n' : Node}
    {e : LoopEvent} (hc : Coherent K n) (hne : e ≠ .publishRewound)
    (ht : Transition K wallet n e n') : Carries n n' := by
  have hphase := hc.phase
  unfold PhaseOk at hphase
  cases ht with
  | prepare hp hh ho hm =>
    simp only [hp] at hphase
    exact .stands rfl fun _ => ⟨by simp [Electing, hp],
      ⟨rfl, rfl, hphase.agreed.difficulty.symm, rfl, rfl⟩⟩
  | @mined t p nonce hashesTried elapsedMs signature hp hsign hv =>
    obtain ⟨hh, hs⟩ := enterLocal_same n p
      (.waiting p.height t.reward (p.claim.blockHash K) hashesTried elapsedMs)
    exact .stands hh fun _ => ⟨by simp [Electing, hp], hs⟩
  | elect | electNobody | execute | record | save | publishSpent | adopt | rewind =>
    exact .stands rfl fun he => False.elim he
  | @publish f state hp hs =>
    simp only [hp] at hphase
    obtain ⟨hag, -, -⟩ := publish_agreed hphase.2 hs
    have hheight : state.chainHeight = n.cursor.height+1 := by
      rw [hag.height, hphase.2.cursor]
      exact hphase.2.height
    refine .grown ?_
    dsimp only
    rw [hheight, hphase.1.height]
    omega
  | @publishAdopted r hp =>
    simp only [hp] at hphase
    refine .grown ?_
    show n.state.chainHeight < n.cursor.height
    omega
  | publishRewound => exact absurd rfl hne

theorem transition_requests {K : Primitives} {wallet : WalletPublicKey} {n n' : Node}
    {e : LoopEvent} (ht : Transition K wallet n e n') : n'.requests = n.requests := by
  cases ht <;> rfl

theorem loop_judgements {K : Primitives} {wallet : WalletPublicKey} {n n' : Node} {g : History}
    {e : LoopEvent} (hc : Coherent K n) (hst : Stage K wallet n) (h : Judgements K n g)
    (ht : Transition K wallet n e n') : Judgements K n' (noteLoop K wallet n e n' g) := by
  have hnew : NoneNew n n' := fun _ _ _ hp => by rwa [transition_requests ht] at hp
  have hold : e ≠ .publishRewound → Judgements K n' g := fun hne =>
    h.carry (transition_carries hc hne ht) hnew
  have hphase := hc.phase
  unfold PhaseOk at hphase
  cases ht with
  | prepare | elect | electNobody | record | save | publish | publishSpent | publishAdopted =>
    exact hold (by simp)
  | @mined t p nonce hashesTried elapsedMs signature hp hsign hv =>
    simp only [hp] at hphase
    simp only [Stage, hp] at hst
    have hold := hold (by simp)
    rw [noteLoop_mined hp]
    refine ⟨hold.fresh, fun q hq => ?_⟩
    rcases List.mem_cons.mp hq with rfl | hq
    · obtain ⟨hh, hs⟩ := enterLocal_same n p
        (.waiting p.height t.reward (p.claim.blockHash K) hashesTried elapsedMs)
      exact mined_sound hphase.1 hphase.2.1 hphase.2.2 hst
        (.stands hh fun _ => ⟨by simp [Electing, hp], hs⟩)
    · exact hold.judged q hq
  | execute hp =>
    rw [noteLoop_execute hp]
    exact ⟨(hold (by simp)).fresh, (hold (by simp)).judged⟩
  | adopt hp hh hck =>
    rw [noteLoop_adopt hck.header]
    exact ⟨(hold (by simp)).fresh, (hold (by simp)).judged⟩
  | rewind hp hpl => exact ⟨(hold (by simp)).fresh, (hold (by simp)).judged⟩
  | publishRewound hp =>
    exact ⟨fun _ hid => by simp [noteLoop] at hid, fun _ hq => by simp [noteLoop] at hq⟩

theorem loop_stage {K : Primitives} {wallet : WalletPublicKey} {n n' : Node} {g : History}
    {e : LoopEvent} (hc : Coherent K n) (hsh : Shelved n.state) (hj : Judgements K n g)
    (hok : Current K (n, g) (.loop e)) (ht : Transition K wallet n e n') :
    Stage K wallet n' := by
  have hphase := hc.phase
  unfold PhaseOk at hphase
  cases ht with
  | @prepare fresh now txs hp hh ho hm =>
    have hprop := prepare_proposes K (wallet.address K) hok fresh now txs
    exact ⟨hprop.parent, hprop.difficulty, hprop.later, hprop.miner, hprop.executes⟩
  | @elect order height reward hashesTried elapsedMs localHash w hp ho hw =>
    simp only [hp] at hphase
    obtain ⟨hset, hheight, hreward⟩ := hphase
    have hwh : w.height = n.state.chainHeight+1 := by
      rw [elect_height hsh ho hw, hheight, hset.agreed.height]
    obtain ⟨hext, hexec⟩ := (hj.judged w (hok w hw)).current (by simp [Electing, hp]) hwh
    have hpay : blockReward w.height n.state.totalMinedBina = reward := by
      rw [hwh, hset.paid, hset.agreed.height, hreward]
      rfl
    rw [hpay] at hexec
    exact ⟨⟨hext.height, hext.parent, hext.difficulty, hext.later⟩, hexec⟩
  | mined | electNobody | execute | record | save | publish | publishSpent | adopt
    | publishAdopted | rewind | publishRewound => trivial

/-- What holds of a node and its record as long as its steps are current. -/
structure Judged (K : Primitives) (wallet : WalletPublicKey) (x : Traced) : Prop where
  coherent : Coherent K x.1
  shelved : Shelved x.1.state
  judgements : Judgements K x.1 x.2
  stage : Stage K wallet x.1

theorem judged_boot (K : Primitives) (wallet : WalletPublicKey) (outcomes : List AppendOutcome)
    (observed : BtcEntropyState) : Judged K wallet (boot K outcomes observed, .start) where
  coherent := coherent_boot K outcomes observed
  shelved := shelved_boot K outcomes observed
  judgements := ⟨by simp [History.start], by simp [History.start]⟩
  stage := trivial

theorem judged_step {K : Primitives} {wallet : WalletPublicKey} {x y : Traced} {e : Event}
    (h : Judged K wallet x) (hok : Current K x e) (hs : tracedStep K wallet x e = some y) :
    Judged K wallet y := by
  obtain ⟨n, g⟩ := x
  obtain ⟨n', g'⟩ := y
  obtain ⟨hstep, hg⟩ := recording_eq_some.mp hs
  dsimp only at hstep hg
  subst hg
  have hcoh := h.coherent.step hstep
  cases e with
  | client e =>
    simp only [step] at hstep
    split at hstep
    · simp at hstep
    · exact ⟨hcoh, client_shelved h.shelved hstep, client_judgements h.judgements hstep,
        h.stage.framed (clientStep_framed hstep)⟩
  | loop e =>
    have ht := loopStep_transition hstep
    exact ⟨hcoh, transition_shelved h.shelved ht,
      loop_judgements h.coherent h.stage h.judgements ht,
      loop_stage h.coherent h.shelved h.judgements hok ht⟩

end BinaChain.Trace
