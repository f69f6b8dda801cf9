import BinaChain.Node.Reconcile
import BinaChain.Support.Machine

/-!
# A node as a machine of lock-sized steps

Handlers take the steps of their requests in any order between those of the
mining loop. A step is what happens under one lock; the loop's steps on its own
variables are joined to the lock-protected step they belong to.
-/

set_option autoImplicit false

namespace BinaChain.System
open BinaChain.Word BinaChain.Text BinaChain.Crypto BinaChain.Transaction
open BinaChain.Randomness BinaChain.BitcoinEntropy BinaChain.Rewards BinaChain.State
open BinaChain.Store BinaChain.Admission BinaChain.Mining BinaChain.Sync BinaChain.Reconcile Std

/-- A request between two of its locks. -/
inductive Request where
  | tipChecked (p : PendingClaim) (reward : ℕ)
  | executionChecked (p : PendingClaim)
  | spendChecked (tx : SignedTransaction)
  deriving DecidableEq

/-- Where the mining loop is. -/
inductive Phase where
  | idle
  | searching (t : Template)
  | waiting (height reward : ℕ) (localHash : Hash) (hashesTried elapsedMs : ℕ)
  | elected (f : Finalising)
  | executed (f : Finalising)
  | recorded (f : Finalising)
  | saved (f : Finalising)
  | adopting (r : BlockRecord)
  | rewound (rolledBack : List BlockRecord)
  | crashed

structure Node where
  state : NodeState
  ledger : RewardLedger
  store : BlockStore
  chainState : ChainStateFile
  cursor : Cursor
  phase : Phase
  requests : ExtTreeMap ℕ Request
  nextRequest : ℕ

namespace Node

def parts (n : Node) : Parts :=
  { state := n.state, ledger := n.ledger, store := n.store, cursor := n.cursor }

/-- The loop keeps the ledger from the execution of a winner to its publication. -/
def ledgerLocked (n : Node) : Bool :=
  match n.phase with
  | .executed _ | .recorded _ | .saved _ => true
  | _ => false

/-- A panic under the state lock poisons it for everybody. -/
def poisoned (n : Node) : Bool :=
  match n.phase with
  | .crashed => true
  | _ => false

end Node

/-- A node on a data directory that does not exist yet. -/
def boot (K : Primitives) (outcomes : List AppendOutcome) (observed : BtcEntropyState) : Node where
  state := genesisState K observed
  ledger := .create outcomes
  store := .empty
  chainState := chainStateFile (genesisHash K) (genesisHash K) 0 0 (genesisCursor K)
  cursor := genesisCursor K
  phase := .idle
  requests := ∅
  nextRequest := 0

inductive ClientEvent where
  | submit (p : PendingClaim) (now : ℕ)
  | checkExecution (id : ℕ)
  | enter (id : ℕ)
  | observe (btc : BtcEntropyState)
  | offer (tx : SignedTransaction)
  | queue (id : ℕ) (persisted : Bool)

inductive LoopEvent where
  | prepare (fresh : BtcEntropyState) (now : ℕ) (candidateTxs : List SignedTransaction)
  | mined (nonce : ℕ) (signature : Bytes) (hashesTried elapsedMs : ℕ)
  | elect (order : List PendingClaim)
  | execute
  | record (stored : Bool)
  | save (written : Bool)
  | publish
  | adopt (now : ℕ) (stored : Bool) (r : BlockRecord)
  | publishAdopted
  | rewind (env : ReorgEnv)
  | publishRewound

inductive Event where
  | client (e : ClientEvent)
  | loop (e : LoopEvent)

def enroll (n : Node) (r : Request) : Node :=
  { n with requests := n.requests.insert n.nextRequest r, nextRequest := n.nextRequest+1 }

def clientStep (K : Primitives) (n : Node) : ClientEvent → Option Node
  | .submit p now =>
    match screen K p, checkTip K n.state now p with
    | .ok (), .ok reward => some (enroll n (.tipChecked p reward))
    | _, _ => none
  | .checkExecution id =>
    match n.requests[id]? with
    | some (.tipChecked p reward) =>
      if n.ledgerLocked then none
      else
        match checkExecution K n.ledger p reward with
        | .ok () => some { n with requests := n.requests.insert id (.executionChecked p) }
        | .error _ => some { n with requests := n.requests.erase id }
    | _ => none
  | .enter id =>
    match n.requests[id]? with
    | some (.executionChecked p) =>
      some { n with state := (enterCandidate n.state p).2, requests := n.requests.erase id }
    | _ => none
  | .observe btc => some { n with state := { n.state with lastObservedBtc := btc } }
  | .offer tx =>
    if n.ledgerLocked then none
    else
      match checkSpend K n.ledger tx with
      | .ok () => some (enroll n (.spendChecked tx))
      | .error _ => none
  | .queue id persisted =>
    match n.requests[id]? with
    | some (.spendChecked tx) =>
      match queueTransaction K n.state tx with
      | .ok state => some
        { n with
          state
          store := if persisted then n.store.mempoolInsert K tx else n.store
          requests := n.requests.erase id }
      | .error _ => some { n with requests := n.requests.erase id }
    | _ => none

/-- `mempool.values().take(MAX_TXS_PER_BLOCK)`, in whatever order. -/
def FromMempool (K : Primitives) (s : NodeState) (txs : List SignedTransaction) : Prop :=
  txs.length = min maxTxsPerBlock s.mempool.size ∧ (txs.map (SignedTransaction.txId K)).Nodup ∧
    ∀ tx ∈ txs, s.mempool[tx.txId K]? = some tx

instance (K : Primitives) (s : NodeState) (txs : List SignedTransaction) :
    Decidable (FromMempool K s txs) := inferInstanceAs (Decidable (_ ∧ _ ∧ _))

/-- A checkpoint waits for a live observation once the chain has one. -/
def Observed (c : Cursor) (fresh : BtcEntropyState) : Prop :=
  isCheckpointHeight (c.height+1) → 0 < c.btcCheckpointTipHeight → 0 < fresh.tipHeight

instance (c : Cursor) (fresh : BtcEntropyState) : Decidable (Observed c fresh) :=
  inferInstanceAs (Decidable (_ → _ → _))

def loopStep (K : Primitives) (wallet : WalletPublicKey) (n : Node) : LoopEvent → Option Node
  | .prepare fresh now candidateTxs =>
    match n.phase with
    | .idle =>
      if n.cursor.height+1 ≤ u64Max ∧ Observed n.cursor fresh ∧
          FromMempool K n.state candidateTxs then
        let (state, t) := prepare K (wallet.address K) n.state n.ledger n.cursor fresh now
          candidateTxs
        some { n with state, phase := .searching t }
      else none
    | _ => none
  | .mined nonce signature hashesTried elapsedMs =>
    match n.phase with
    | .searching t =>
      let p := t.sign nonce (wallet.ed25519++wallet.falcon) signature
      match p.claim.verify K with
      | .ok () => some
        { n with
          state := enterLocal n.state p
          phase := .waiting p.height t.reward (p.claim.blockHash K) hashesTried elapsedMs }
      | .error _ => none
    | _ => none
  | .elect order =>
    match n.phase with
    | .waiting height reward localHash hashesTried elapsedMs =>
      if order.Perm (candidates n.state height) then
        match selectWinningPending K order with
        | some w => some
          { n with
            state := closeElection n.state height
            phase := .elected
              { height, reward, winning := w, localHash, hashesTried, elapsedMs
                cursor := advance K n.cursor w height
                checkpointTipNow := checkpointTip n.state w height } }
        | none => some { n with phase := .crashed }
      else none
    | _ => none
  | .execute =>
    match n.phase with
    | .elected f => some
      { n with
        ledger := executeWinner K f n.ledger
        state := dropConfirmed K n.state f.winning.transactions
        store := f.winning.transactions.foldl (BlockStore.mempoolRemove K) n.store
        phase := .executed f }
    | _ => none
  | .record stored =>
    match n.phase with
    | .executed f => some
      { n with
        store := if stored then n.store.insertBlock (recordOf K f) else n.store
        phase := .recorded f }
    | _ => none
  | .save written =>
    match n.phase with
    | .recorded f => some
      { n with
        chainState := if written then
          chainStateFile n.state.genesisHash (f.winning.claim.blockHash K) f.height
            f.checkpointTipNow f.cursor else n.chainState
        phase := .saved f }
    | _ => none
  | .publish =>
    match n.phase with
    | .saved f =>
      match publish K f n.ledger n.state with
      | some state => some { n with state, cursor := f.cursor, phase := .idle }
      | none => some { n with phase := .crashed }
    | _ => none
  | .adopt now stored r =>
    match n.phase with
    | .idle =>
      if r.height ≤ u64Max then
        match checkRecord K n.cursor n.ledger now r with
        | some claim =>
          let x := applyRecord K stored n.parts r claim
          some { n with ledger := x.ledger, store := x.store, cursor := x.cursor
                        phase := .adopting r }
        | none => none
      else none
    | _ => none
  | .publishAdopted =>
    match n.phase with
    | .adopting r =>
      let x := publishSynced K n.parts r
      some { n with state := x.state, store := x.store, phase := .idle }
    | _ => none
  | .rewind env =>
    match n.phase with
    | .idle =>
      match plan env n.parts with
      | .rollback _ r =>
        let x := rewind n.parts r
        some { n with ledger := x.ledger, store := x.store, cursor := x.cursor
                      phase := .rewound r.rolledBack }
      | .extend _ => none
      | .stay => none
    | _ => none
  | .publishRewound =>
    match n.phase with
    | .rewound rolledBack =>
      let x := publishRewound K n.parts rolledBack
      some { n with state := x.state, store := x.store, phase := .idle }
    | _ => none

def step (K : Primitives) (wallet : WalletPublicKey) (n : Node) : Event → Option Node
  | .client e => if n.poisoned then none else clientStep K n e
  | .loop e => loopStep K wallet n e

/-- Everything but the pending claims, the mempool, the observation of Bitcoin
and the requests is as before. -/
structure Framed (n n' : Node) : Prop where
  phase : n'.phase = n.phase
  ledger : n'.ledger = n.ledger
  cursor : n'.cursor = n.cursor
  chainState : n'.chainState = n.chainState
  blocks : n'.store.blocks = n.store.blocks
  genesisHash : n'.state.genesisHash = n.state.genesisHash
  tipHash : n'.state.tipHash = n.state.tipHash
  chainHeight : n'.state.chainHeight = n.state.chainHeight
  nullifiers : n'.state.nullifiers = n.state.nullifiers
  btcSeedHash : n'.state.btcSeedHash = n.state.btcSeedHash
  btcCheckpointTipHeight : n'.state.btcCheckpointTipHeight = n.state.btcCheckpointTipHeight
  difficultyBits : n'.state.difficultyBits = n.state.difficultyBits
  lastBlockTimestampMs : n'.state.lastBlockTimestampMs = n.state.lastBlockTimestampMs
  chainWork : n'.state.chainWork = n.state.chainWork
  totalMinedBina : n'.state.totalMinedBina = n.state.totalMinedBina

theorem Framed.of_requests {n n' : Node} (hs : n'.state = n.state) (hl : n'.ledger = n.ledger)
    (hst : n'.store = n.store) (hc : n'.chainState = n.chainState) (hcu : n'.cursor = n.cursor)
    (hp : n'.phase = n.phase) : Framed n n' := by
  constructor <;> simp [hs, hl, hst, hc, hcu, hp]

theorem Framed.trans {n m k : Node} (h : Framed n m) (h' : Framed m k) : Framed n k where
  phase := h'.phase.trans h.phase
  ledger := h'.ledger.trans h.ledger
  cursor := h'.cursor.trans h.cursor
  chainState := h'.chainState.trans h.chainState
  blocks := h'.blocks.trans h.blocks
  genesisHash := h'.genesisHash.trans h.genesisHash
  tipHash := h'.tipHash.trans h.tipHash
  chainHeight := h'.chainHeight.trans h.chainHeight
  nullifiers := h'.nullifiers.trans h.nullifiers
  btcSeedHash := h'.btcSeedHash.trans h.btcSeedHash
  btcCheckpointTipHeight := h'.btcCheckpointTipHeight.trans h.btcCheckpointTipHeight
  difficultyBits := h'.difficultyBits.trans h.difficultyBits
  lastBlockTimestampMs := h'.lastBlockTimestampMs.trans h.lastBlockTimestampMs
  chainWork := h'.chainWork.trans h.chainWork
  totalMinedBina := h'.totalMinedBina.trans h.totalMinedBina

inductive Handled (K : Primitives) : Node → ClientEvent → Node → Prop
  | submit {n : Node} {p : PendingClaim} {now reward : ℕ} (hs : screen K p = .ok ())
      (ht : checkTip K n.state now p = .ok reward) :
      Handled K n (.submit p now) (enroll n (.tipChecked p reward))
  | judge {n : Node} {id reward : ℕ} {p : PendingClaim}
      (hr : n.requests[id]? = some (.tipChecked p reward)) (hl : n.ledgerLocked = false)
      (he : checkExecution K n.ledger p reward = .ok ()) :
      Handled K n (.checkExecution id)
        { n with requests := n.requests.insert id (.executionChecked p) }
  | refuse {n : Node} {id reward : ℕ} {p : PendingClaim}
      (hr : n.requests[id]? = some (.tipChecked p reward)) (hl : n.ledgerLocked = false)
      (he : checkExecution K n.ledger p reward ≠ .ok ()) :
      Handled K n (.checkExecution id) { n with requests := n.requests.erase id }
  | enter {n : Node} {id : ℕ} {p : PendingClaim}
      (hr : n.requests[id]? = some (.executionChecked p)) :
      Handled K n (.enter id)
        { n with state := (enterCandidate n.state p).2, requests := n.requests.erase id }
  | observe {n : Node} {btc : BtcEntropyState} :
      Handled K n (.observe btc) { n with state := { n.state with lastObservedBtc := btc } }
  | offer {n : Node} {tx : SignedTransaction} (hl : n.ledgerLocked = false)
      (hc : checkSpend K n.ledger tx = .ok ()) :
      Handled K n (.offer tx) (enroll n (.spendChecked tx))
  | queue {n : Node} {id : ℕ} {persisted : Bool} {tx : SignedTransaction}
      (hr : n.requests[id]? = some (.spendChecked tx))
      (hroom : ¬(n.state.mempool.size ≥ maxMempoolSize ∧ tx.txId K ∉ n.state.mempool)) :
      Handled K n (.queue id persisted)
        { n with
          state := { n.state with mempool := n.state.mempool.insert (tx.txId K) tx }
          store := if persisted then n.store.mempoolInsert K tx else n.store
          requests := n.requests.erase id }
  | full {n : Node} {id : ℕ} {persisted : Bool} {tx : SignedTransaction}
      (hr : n.requests[id]? = some (.spendChecked tx))
      (hfull : n.state.mempool.size ≥ maxMempoolSize ∧ tx.txId K ∉ n.state.mempool) :
      Handled K n (.queue id persisted) { n with requests := n.requests.erase id }

theorem clientStep_handled {K : Primitives} {n n' : Node} {e : ClientEvent}
    (h : clientStep K n e = some n') : Handled K n e n' := by
  cases e with
  | submit p now =>
    simp only [clientStep] at h
    split at h
    · rename_i reward hs ht
      obtain rfl := Option.some.inj h
      exact .submit hs ht
    · simp at h
  | checkExecution id =>
    simp only [clientStep] at h
    split at h
    · rename_i p reward hr
      split at h
      · simp at h
      · rename_i hl
        have hl : n.ledgerLocked = false := Bool.eq_false_iff.mpr hl
        split at h
        · rename_i he
          obtain rfl := Option.some.inj h
          exact .judge hr hl he
        · rename_i he
          obtain rfl := Option.some.inj h
          exact .refuse hr hl (by simp [he])
    · simp at h
  | enter id =>
    simp only [clientStep] at h
    split at h
    · rename_i p hr
      obtain rfl := Option.some.inj h
      exact .enter hr
    · simp at h
  | observe btc =>
    obtain rfl := Option.some.inj h
    exact .observe
  | offer tx =>
    simp only [clientStep] at h
    split at h
    · simp at h
    · rename_i hl
      split at h
      · rename_i hc
        obtain rfl := Option.some.inj h
        exact .offer (Bool.eq_false_iff.mpr hl) hc
      · simp at h
  | queue id persisted =>
    simp only [clientStep, queueTransaction] at h
    split at h
    · rename_i tx hr
      by_cases hfull : n.state.mempool.size ≥ maxMempoolSize ∧ tx.txId K ∉ n.state.mempool
      · simp only [if_pos hfull] at h
        obtain rfl := Option.some.inj h
        exact .full hr hfull
      · simp only [if_neg hfull] at h
        obtain rfl := Option.some.inj h
        exact .queue hr hfull
    · simp at h

/-- No handler touches what the mining loop maintains. -/
theorem clientStep_framed {K : Primitives} {n n' : Node} {e : ClientEvent}
    (h : clientStep K n e = some n') : Framed n n' := by
  cases clientStep_handled h with
  | submit | judge | refuse | offer | full => exact .of_requests rfl rfl rfl rfl rfl rfl
  | enter =>
    rw [enterCandidate_eq]
    constructor <;> rfl
  | observe => constructor <;> rfl
  | @queue id persisted tx hr hroom =>
    have hblocks : (if persisted then n.store.mempoolInsert K tx else n.store).blocks =
        n.store.blocks := by
      split <;> rfl
    constructor <;> first | rfl | exact hblocks

inductive Transition (K : Primitives) (wallet : WalletPublicKey) :
    Node → LoopEvent → Node → Prop
  | prepare {n : Node} {fresh : BtcEntropyState} {now : ℕ} {txs : List SignedTransaction}
      (hp : n.phase = .idle) (hh : n.cursor.height+1 ≤ u64Max) (ho : Observed n.cursor fresh)
      (hm : FromMempool K n.state txs) :
      Transition K wallet n (.prepare fresh now txs)
        { n with
          state := (prepare K (wallet.address K) n.state n.ledger n.cursor fresh now txs).1
          phase := .searching
            (prepare K (wallet.address K) n.state n.ledger n.cursor fresh now txs).2 }
  | mined {n : Node} {t : Template} {p : PendingClaim} {nonce hashesTried elapsedMs : ℕ}
      {signature : Bytes} (hp : n.phase = .searching t)
      (hsign : p = t.sign nonce (wallet.ed25519++wallet.falcon) signature)
      (hv : p.claim.verify K = .ok ()) :
      Transition K wallet n (.mined nonce signature hashesTried elapsedMs)
        { n with
          state := enterLocal n.state p
          phase := .waiting p.height t.reward (p.claim.blockHash K) hashesTried elapsedMs }
  | elect {n : Node} {order : List PendingClaim} {height reward hashesTried elapsedMs : ℕ}
      {localHash : Hash} {w : PendingClaim}
      (hp : n.phase = .waiting height reward localHash hashesTried elapsedMs)
      (ho : order.Perm (candidates n.state height))
      (hw : selectWinningPending K order = some w) :
      Transition K wallet n (.elect order)
        { n with
          state := closeElection n.state height
          phase := .elected
            { height, reward, winning := w, localHash, hashesTried, elapsedMs
              cursor := advance K n.cursor w height
              checkpointTipNow := checkpointTip n.state w height } }
  | electNobody {n : Node} {order : List PendingClaim} {height reward hashesTried elapsedMs : ℕ}
      {localHash : Hash} (hp : n.phase = .waiting height reward localHash hashesTried elapsedMs)
      (ho : order.Perm (candidates n.state height)) (hw : selectWinningPending K order = none) :
      Transition K wallet n (.elect order) { n with phase := .crashed }
  | execute {n : Node} {f : Finalising} (hp : n.phase = .elected f) :
      Transition K wallet n .execute
        { n with
          ledger := executeWinner K f n.ledger
          state := dropConfirmed K n.state f.winning.transactions
          store := f.winning.transactions.foldl (BlockStore.mempoolRemove K) n.store
          phase := .executed f }
  | record {n : Node} {f : Finalising} {stored : Bool} (hp : n.phase = .executed f) :
      Transition K wallet n (.record stored)
        { n with
          store := if stored then n.store.insertBlock (recordOf K f) else n.store
          phase := .recorded f }
  | save {n : Node} {f : Finalising} {written : Bool} (hp : n.phase = .recorded f) :
      Transition K wallet n (.save written)
        { n with
          chainState := if written then
            chainStateFile n.state.genesisHash (f.winning.claim.blockHash K) f.height
              f.checkpointTipNow f.cursor else n.chainState
          phase := .saved f }
  | publish {n : Node} {f : Finalising} {state : NodeState} (hp : n.phase = .saved f)
      (hs : publish K f n.ledger n.state = some state) :
      Transition K wallet n .publish { n with state, cursor := f.cursor, phase := .idle }
  | publishSpent {n : Node} {f : Finalising} (hp : n.phase = .saved f)
      (hs : publish K f n.ledger n.state = none) :
      Transition K wallet n .publish { n with phase := .crashed }
  | adopt {n : Node} {now : ℕ} {stored : Bool} {r : BlockRecord}
      {claim : Claims.SignedBlockClaim} (hp : n.phase = .idle) (hh : r.height ≤ u64Max)
      (hc : Checked K n.cursor n.ledger now r claim) :
      Transition K wallet n (.adopt now stored r)
        { n with
          ledger := (applyRecord K stored n.parts r claim).ledger
          store := (applyRecord K stored n.parts r claim).store
          cursor := (applyRecord K stored n.parts r claim).cursor
          phase := .adopting r }
  | publishAdopted {n : Node} {r : BlockRecord} (hp : n.phase = .adopting r) :
      Transition K wallet n .publishAdopted
        { n with
          state := (publishSynced K n.parts r).state
          store := (publishSynced K n.parts r).store
          phase := .idle }
  | rewind {n : Node} {env : ReorgEnv} {target : ℕ} {r : Rollback} (hp : n.phase = .idle)
      (hr : plan env n.parts = .rollback target r) :
      Transition K wallet n (.rewind env)
        { n with
          ledger := (Reconcile.rewind n.parts r).ledger
          store := (Reconcile.rewind n.parts r).store
          cursor := (Reconcile.rewind n.parts r).cursor
          phase := .rewound r.rolledBack }
  | publishRewound {n : Node} {rolledBack : List BlockRecord} (hp : n.phase = .rewound rolledBack) :
      Transition K wallet n .publishRewound
        { n with
          state := (publishRewound K n.parts rolledBack).state
          store := (publishRewound K n.parts rolledBack).store
          phase := .idle }

theorem loopStep_transition {K : Primitives} {wallet : WalletPublicKey} {n n' : Node}
    {e : LoopEvent} (h : loopStep K wallet n e = some n') : Transition K wallet n e n' := by
  cases e with
  | prepare fresh now txs =>
    simp only [loopStep] at h
    split at h
    · rename_i hp
      split at h
      · rename_i hg
        obtain rfl := Option.some.inj h
        exact .prepare hp hg.1 hg.2.1 hg.2.2
      · simp at h
    · simp at h
  | mined nonce signature hashesTried elapsedMs =>
    simp only [loopStep] at h
    split at h
    · rename_i t hp
      split at h
      · rename_i hv
        obtain rfl := Option.some.inj h
        exact .mined hp rfl hv
      · simp at h
    · simp at h
  | elect order =>
    simp only [loopStep] at h
    split at h
    · rename_i hp
      split at h
      · rename_i ho
        split at h
        · rename_i hw
          obtain rfl := Option.some.inj h
          exact .elect hp ho hw
        · rename_i hw
          obtain rfl := Option.some.inj h
          exact .electNobody hp ho hw
      · simp at h
    · simp at h
  | execute =>
    simp only [loopStep] at h
    split at h
    · rename_i hp
      obtain rfl := Option.some.inj h
      exact .execute hp
    · simp at h
  | record stored =>
    simp only [loopStep] at h
    split at h
    · rename_i hp
      obtain rfl := Option.some.inj h
      exact .record hp
    · simp at h
  | save written =>
    simp only [loopStep] at h
    split at h
    · rename_i hp
      obtain rfl := Option.some.inj h
      exact .save hp
    · simp at h
  | publish =>
    simp only [loopStep] at h
    split at h
    · rename_i hp
      split at h
      · rename_i hs
        obtain rfl := Option.some.inj h
        exact .publish hp hs
      · rename_i hs
        obtain rfl := Option.some.inj h
        exact .publishSpent hp hs
    · simp at h
  | adopt now stored r =>
    simp only [loopStep] at h
    split at h
    · rename_i hp
      split at h
      · rename_i hh
        split at h
        · rename_i hc
          obtain rfl := Option.some.inj h
          exact .adopt hp hh (checkRecord_iff.mp hc)
        · simp at h
      · simp at h
    · simp at h
  | publishAdopted =>
    simp only [loopStep] at h
    split at h
    · rename_i hp
      obtain rfl := Option.some.inj h
      exact .publishAdopted hp
    · simp at h
  | rewind env =>
    simp only [loopStep] at h
    split at h
    · rename_i hp
      split at h
      · rename_i hr
        obtain rfl := Option.some.inj h
        exact .rewind hp hr
      · simp at h
      · simp at h
    · simp at h
  | publishRewound =>
    simp only [loopStep] at h
    split at h
    · rename_i hp
      obtain rfl := Option.some.inj h
      exact .publishRewound hp
    · simp at h

def toyWalletKey (key : UInt8) : WalletPublicKey :=
  { ed25519 := (toyPublicKey key).take 32, falcon := (toyPublicKey key).drop 32 }

def toyBoot : Node := boot toyPrimitives [] .mock

def toyAdoption (r : BlockRecord) : List Event :=
  [.loop (.adopt (toyEnv.now r.height) true r), .loop .publishAdopted]

def toySubmission (p : PendingClaim) : List Event :=
  [.client (.submit p (toyEnv.now p.height)), .client (.checkExecution 0), .client (.enter 0)]

def toyMining (key : UInt8) (nonce : ℕ) (x : Parts) : List Event :=
  [.loop (.prepare .mock (x.cursor.lastBlockTimestampMs+1) []),
    .loop (.mined nonce (toyCandidate key nonce x.state x.ledger x.cursor []).claim.signature 1 1)]

end BinaChain.System
