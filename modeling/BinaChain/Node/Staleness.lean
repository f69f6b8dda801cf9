import BinaChain.Node.Supply
import BinaChain.Node.Restart
import BinaChain.Node.Requeue

/-!
# Pending transactions and the nonces of their senders

A pending transaction is overtaken once its sender's nonce is past its own; no
block can apply it any more. The confirmation of a block takes exactly its own
transactions out of the mempool, and a submission looks at the nonce before it
is queued, under another lock.
-/

set_option autoImplicit false

namespace BinaChain.Staleness
open BinaChain.Word BinaChain.Text BinaChain.Crypto BinaChain.Transaction BinaChain.BitcoinEntropy
open BinaChain.Rewards BinaChain.Execution BinaChain.State BinaChain.Machine
open BinaChain.Store BinaChain.Admission BinaChain.Mining BinaChain.Sync BinaChain.Reconcile
open BinaChain.System BinaChain.Supply BinaChain.Filing BinaChain.Requeue BinaChain.Restart Std
open BinaChain.ChainWork
open BinaChain.Replay (replayRows rewards scopedTotals_eq)

/-- The sender's nonce is past the transaction's. -/
def Overtaken (l : RewardLedger) (q : SignedTransaction) : Prop := q.tx.nonce < l.nonce q.fromHex

instance (l : RewardLedger) (q : SignedTransaction) : Decidable (Overtaken l q) :=
  inferInstanceAs (Decidable (_ < _))

def Overtakes (sender : Str) (nonce : ℕ) (q : SignedTransaction) : Prop :=
  sender = q.fromHex ∧ q.tx.nonce < satAdd nonce 1

instance (sender : Str) (nonce : ℕ) (q : SignedTransaction) :
    Decidable (Overtakes sender nonce q) := inferInstanceAs (Decidable (_ ∧ _))

def RowOvertakes (q : SignedTransaction) : CsvRow → Prop
  | .reward .. => False
  | .tx _ sender _ _ _ nonce _ _ => Overtakes sender nonce q

instance (q : SignedTransaction) : DecidablePred (RowOvertakes q)
  | .reward .. => .isFalse id
  | .tx _ sender _ _ _ nonce _ _ => inferInstanceAs (Decidable (Overtakes sender nonce q))

theorem settle_overtaken_iff {K : Primitives} {l : RewardLedger} {s q : SignedTransaction}
    {height timestamp : ℕ} {miner : Str} : Overtaken (settle K l height s miner timestamp) q ↔
      if s.fromHex = q.fromHex then Overtakes s.fromHex s.tx.nonce q else Overtaken l q := by
  unfold Overtaken Overtakes
  simp only [settle, RewardLedger.nonce, Maps.getD_insert_eq]
  split
  · rename_i h
    simp [h]
  · rfl

theorem applied_overtaken {K : Primitives} {height timestamp : ℕ} {miner : Str}
    {q : SignedTransaction} (txs : List SignedTransaction) : ∀ l : RewardLedger,
    Overtaken (applyTransactions K height miner timestamp l txs).2 q →
      Overtaken l q ∨ ∃ tx ∈ txs, Overtakes tx.fromHex tx.tx.nonce q := by
  induction txs with
  | nil => exact fun _ h => Or.inl h
  | cons s txs ih =>
    intro l h
    unfold applyTransactions at h
    by_cases hacc : Accepted K l s
    · have hrest : Overtaken (applyTransactions K height miner timestamp
          (settle K l height s miner timestamp) txs).2 q := by
        rw [applyTransaction_accepted hacc] at h
        cases hrow : (txAppend K l height s miner timestamp).1 with
        | error e =>
          rw [hrow] at h
          exact h
        | ok u =>
          rw [hrow] at h
          exact h
      rcases ih _ hrest with hone | ⟨tx, htx, hover⟩
      · rw [settle_overtaken_iff] at hone
        split at hone
        · exact Or.inr ⟨s, List.mem_cons_self, hone⟩
        · exact Or.inl hone
      · exact Or.inr ⟨tx, List.mem_cons_of_mem _ htx, hover⟩
    · obtain ⟨e, hrej⟩ := applyTransaction_rejected hacc height miner timestamp
      rw [hrej] at h
      rcases ih l h with hone | ⟨tx, htx, hover⟩
      · exact Or.inl hone
      · exact Or.inr ⟨tx, List.mem_cons_of_mem _ htx, hover⟩

theorem credit_nonce (l : RewardLedger) (height reward timestamp : ℕ) (miner a : Str) :
    (l.credit height miner reward timestamp).2.nonce a = l.nonce a := by
  unfold RewardLedger.credit
  split <;> rfl

theorem executed_overtaken {K : Primitives} {b : Application} {l : RewardLedger}
    {q : SignedTransaction} (h : Overtaken (b.execute K l) q) :
    Overtaken l q ∨ ∃ tx ∈ b.txs, Overtakes tx.fromHex tx.tx.nonce q := by
  apply applied_overtaken b.txs l
  unfold Overtaken Application.execute executeBlock at h
  rw [credit_nonce] at h
  exact h

theorem replayRows_overtaken_iff (active : ℕ) (q : SignedTransaction) (rows : List CsvRow) :
    ∀ t : Totals, q.tx.nonce < (replayRows active t rows).nonces.getD q.fromHex 0 ↔
      q.tx.nonce < t.nonces.getD q.fromHex 0 ∨
        ∃ row ∈ rows, row.height ≤ active ∧ RowOvertakes q row := by
  induction rows with
  | nil =>
    intro t
    simp [replayRows]
  | cons row rows ih =>
    intro t
    cases row with
    | reward height addr reward total =>
      have hsame : (if height ≤ active ∧ rows.any (rewards height) = false then
          t.replayReward addr reward else t).nonces = t.nonces := by
        split <;> rfl
      rw [replayRows, ih, hsame]
      simp [RowOvertakes]
    | tx height sender recipient amount fee nonce miner total =>
      rw [replayRows, ih, List.exists_mem_cons_iff, ← or_assoc]
      refine or_congr_left ?_
      by_cases hle : height ≤ active
      · simp only [hle, if_true, Totals.replayTx, Maps.getD_insert_eq, CsvRow.height, true_and,
          RowOvertakes, Overtakes]
        by_cases hs : sender = q.fromHex
        · subst hs
          simp only [if_true, true_and]
          omega
        · simp [hs]
      · simp [hle, CsvRow.height]

theorem openScoped_overtaken_iff {csv : CsvFile} {active : ℕ} {q : SignedTransaction} :
    Overtaken (.openScoped csv active) q ↔
      ∃ row ∈ csvRows csv.text, row.height ≤ active ∧ RowOvertakes q row := by
  have h := replayRows_overtaken_iff active q (csvRows csv.text) Totals.empty
  rw [← scopedTotals_eq] at h
  have hnone : ¬q.tx.nonce < Totals.empty.nonces.getD q.fromHex 0 := by
    simp [Totals.empty]
  rw [or_iff_right hnone] at h
  exact h

theorem unscopedRows_overtaken_iff (q : SignedTransaction) (rows : List CsvRow) :
    ∀ t : Totals, q.tx.nonce < (rows.foldl unscopedRow t).nonces.getD q.fromHex 0 ↔
      q.tx.nonce < t.nonces.getD q.fromHex 0 ∨ ∃ row ∈ rows, RowOvertakes q row := by
  induction rows with
  | nil =>
    intro t
    simp
  | cons row rows ih =>
    intro t
    rw [List.foldl_cons, ih, List.exists_mem_cons_iff, ← or_assoc]
    refine or_congr_left ?_
    cases row with
    | reward height addr reward total => simp [RowOvertakes, unscopedRow]
    | tx height sender recipient amount fee nonce miner total =>
      simp only [unscopedRow, Totals.replayTx, Maps.getD_insert_eq, RowOvertakes, Overtakes]
      by_cases hs : sender = q.fromHex
      · subst hs
        simp only [if_true, true_and]
        omega
      · simp [hs]

theorem openLedger_overtaken {csv : CsvFile} {active : ℕ} {q : SignedTransaction}
    (h : Overtaken (.openScoped csv active) q) : Overtaken (.openLedger csv) q := by
  obtain ⟨row, hrow, -, hover⟩ := openScoped_overtaken_iff.mp h
  exact (unscopedRows_overtaken_iff q (csvRows csv.text) Totals.empty).mpr
    (Or.inr ⟨row, hrow, hover⟩)

theorem applied_nonce (K : Primitives) (height : ℕ) (miner : Str) (timestamp : ℕ) {a : Str}
    (txs : List SignedTransaction) : ∀ l : RewardLedger, l.nonce a ≤ u64Max →
    l.nonce a ≤ (applyTransactions K height miner timestamp l txs).2.nonce a ∧
      (applyTransactions K height miner timestamp l txs).2.nonce a ≤ u64Max := by
  induction txs with
  | nil => exact fun _ h => ⟨Nat.le_refl _, h⟩
  | cons s txs ih =>
    intro l h
    unfold applyTransactions
    by_cases hacc : Accepted K l s
    · have hnonce : s.tx.nonce = l.nonce s.fromHex := hacc.nonce
      have hmoved : (settle K l height s miner timestamp).nonce a =
          if s.fromHex = a then satAdd s.tx.nonce 1 else l.nonce a := by
        simp only [settle, RewardLedger.nonce, Maps.getD_insert_eq]
      have hup : l.nonce a ≤ (settle K l height s miner timestamp).nonce a ∧
          (settle K l height s miner timestamp).nonce a ≤ u64Max := by
        rw [hmoved]
        split
        · rename_i hs
          subst hs
          unfold satAdd
          omega
        · exact ⟨Nat.le_refl _, h⟩
      have hrest := ih _ hup.2
      rw [applyTransaction_accepted hacc]
      cases (txAppend K l height s miner timestamp).1 with
      | error e => exact ⟨Nat.le_trans hup.1 hrest.1, hrest.2⟩
      | ok u => exact ⟨Nat.le_trans hup.1 hrest.1, hrest.2⟩
    · obtain ⟨e, hrej⟩ := applyTransaction_rejected hacc height miner timestamp
      rw [hrej]
      exact ih l h

def Inapplicable (K : Primitives) (l : RewardLedger) (q : SignedTransaction) : Prop :=
  ∀ blocks : List Application, ¬Accepted K (blocks.foldl (fun l b => b.execute K l) l) q

theorem Overtaken.inapplicable {K : Primitives} {q : SignedTransaction} {l : RewardLedger}
    (h : Overtaken l q) (hw : l.nonce q.fromHex ≤ u64Max) : Inapplicable K l q := by
  intro blocks
  induction blocks generalizing l with
  | nil =>
    intro hacc
    have hnonce : q.tx.nonce = l.nonce q.fromHex := hacc.nonce
    exact Nat.ne_of_lt h hnonce
  | cons b blocks ih =>
    have hup := applied_nonce K b.height b.miner b.timestamp b.txs l hw
    have hsame : (b.execute K l).nonce q.fromHex =
        (applyTransactions K b.height b.miner b.timestamp l b.txs).2.nonce q.fromHex :=
      credit_nonce _ _ _ _ _ _
    rw [← hsame] at hup
    exact ih (Nat.lt_of_lt_of_le h hup.1) hup.2

def dropping (K : Primitives) (n : Node) : List Hash :=
  match n.phase with
  | .adopting r => r.transactions.map (SignedTransaction.txId K)
  | _ => []

def submission (n : Node) : Restart.Event → Option SignedTransaction
  | .run (.client (.queue id _)) =>
    match n.requests[id]? with
    | some (.spendChecked tx) => some tx
    | _ => none
  | _ => none

def confirmation (n : Node) : Restart.Event → Option Application
  | .run e => application n e
  | _ => none

def withdrawal (n : Node) : Restart.Event → Option Rollback
  | .run (.loop (.rewind env)) => (plan env n.parts).takenBack
  | _ => none

/-- A submission comes before the block that consumes its nonce. One of the
block under way is dropped with it, and one that finds no room is not queued. -/
def Timely (K : Primitives) (n : Node) (tx : SignedTransaction) : Prop :=
  ¬Overtaken n.ledger tx ∨ tx.txId K ∈ dropping K n ∨
    (n.state.mempool.size ≥ maxMempoolSize ∧ tx.txId K ∉ n.state.mempool)

/-- The block has every pending transaction that it leaves behind. -/
def Uncontested (K : Primitives) (s : NodeState) (txs : List SignedTransaction) : Prop :=
  ∀ p ∈ s.mempool.toList, ∀ tx ∈ txs, Overtakes tx.fromHex tx.tx.nonce p.2 →
    p.1 ∈ txs.map (SignedTransaction.txId K)

/-- No row that a rollback keeps leaves behind what is pending or rolled back. -/
def Recoverable (n : Node) (r : Rollback) : Prop :=
  ∀ q ∈ n.state.mempool.toList.map Prod.snd++r.rolledBack.flatMap BlockRecord.transactions,
    ∀ row ∈ csvRows n.ledger.csv.text, row.height ≤ r.forkPoint → ¬RowOvertakes q row

structure Orderly (K : Primitives) (n : Node) (e : Restart.Event) : Prop where
  submission : ∀ tx ∈ submission n e, Timely K n tx
  block : ∀ b ∈ confirmation n e, Uncontested K n.state b.txs
  rollback : ∀ r ∈ withdrawal n e, Recoverable n r

instance (K : Primitives) (n : Node) (tx : SignedTransaction) : Decidable (Timely K n tx) :=
  inferInstanceAs (Decidable (_ ∨ _ ∨ _ ∧ _))

instance (K : Primitives) (s : NodeState) (txs : List SignedTransaction) :
    Decidable (Uncontested K s txs) :=
  inferInstanceAs (Decidable (∀ p ∈ s.mempool.toList, ∀ tx ∈ txs,
    Overtakes tx.fromHex tx.tx.nonce p.2 → p.1 ∈ txs.map (SignedTransaction.txId K)))

instance (n : Node) (r : Rollback) : Decidable (Recoverable n r) :=
  inferInstanceAs (Decidable (∀ q ∈ n.state.mempool.toList.map Prod.snd++
    r.rolledBack.flatMap BlockRecord.transactions, ∀ row ∈ csvRows n.ledger.csv.text,
      row.height ≤ r.forkPoint → ¬RowOvertakes q row))

instance (K : Primitives) (n : Node) (e : Restart.Event) : Decidable (Orderly K n e) :=
  decidable_of_iff ((∀ tx ∈ submission n e, Timely K n tx) ∧
      (∀ b ∈ confirmation n e, Uncontested K n.state b.txs) ∧
      ∀ r ∈ withdrawal n e, Recoverable n r)
    ⟨fun h => ⟨h.1, h.2.1, h.2.2⟩, fun h => ⟨h.submission, h.block, h.rollback⟩⟩

structure Ahead (K : Primitives) (n : Node) : Prop where
  pending : ∀ (id : Hash) (q : SignedTransaction), n.state.mempool[id]? = some q →
    ¬Overtaken n.ledger q ∨ id ∈ dropping K n
  rolledBack : ∀ blocks, n.phase = .rewound blocks →
    ∀ q ∈ blocks.flatMap BlockRecord.transactions, ¬Overtaken n.ledger q

theorem ahead_boot (K : Primitives) (outcomes : List AppendOutcome)
    (observed : BtcEntropyState) : Ahead K (boot K outcomes observed) where
  pending := by simp [boot, genesisState]
  rolledBack _ h := by simp [boot] at h

theorem clientStep_mempool {K : Primitives} {n n' : Node} {e : ClientEvent}
    (h : clientStep K n e = some n') : n'.state.mempool = n.state.mempool ∨
      ∃ tx ∈ submission n (.run (.client e)),
        ¬(n.state.mempool.size ≥ maxMempoolSize ∧ tx.txId K ∉ n.state.mempool) ∧
        n'.state.mempool = n.state.mempool.insert (tx.txId K) tx := by
  cases clientStep_handled h with
  | submit | judge | refuse | observe | offer | full => exact Or.inl rfl
  | enter =>
    rw [enterCandidate_eq]
    exact Or.inl rfl
  | @queue id persisted tx hr hroom =>
    exact Or.inr ⟨tx, by simp [submission, hr], hroom, rfl⟩

theorem dropping_congr {K : Primitives} {n n' : Node} (h : n'.phase = n.phase) :
    dropping K n' = dropping K n := by
  unfold dropping
  rw [h]

theorem client_ahead {K : Primitives} {n n' : Node} {e : ClientEvent} (h : Ahead K n)
    (hok : Orderly K n (.run (.client e))) (hs : clientStep K n e = some n') : Ahead K n' := by
  have hf := clientStep_framed hs
  constructor
  · intro id q hq
    rw [hf.ledger, dropping_congr hf.phase]
    rcases clientStep_mempool hs with hsame | ⟨tx, htx, hroom, hins⟩
    · rw [hsame] at hq
      exact h.pending id q hq
    · rw [hins, Maps.getElem?_insert_eq] at hq
      split at hq
      · rename_i hid
        obtain rfl := Option.some.inj hq
        subst hid
        rcases hok.submission tx htx with hnew | hdrop | hfull
        · exact Or.inl hnew
        · exact Or.inr hdrop
        · exact absurd hfull hroom
      · exact h.pending id q hq
  · rw [hf.phase, hf.ledger]
    exact h.rolledBack

theorem Ahead.settled {K : Primitives} {n : Node} (h : Ahead K n) (hd : dropping K n = [])
    {id : Hash} {q : SignedTransaction} (hq : n.state.mempool[id]? = some q) :
    ¬Overtaken n.ledger q := by
  rcases h.pending id q hq with hnot | hdrop
  · exact hnot
  · rw [hd] at hdrop
    cases hdrop

theorem Ahead.of_pending {K : Primitives} {n : Node} (hp : ∀ blocks, n.phase ≠ .rewound blocks)
    (h : ∀ (id : Hash) (q : SignedTransaction), n.state.mempool[id]? = some q →
      ¬Overtaken n.ledger q ∨ id ∈ dropping K n) : Ahead K n :=
  ⟨h, fun blocks hph => absurd hph (hp blocks)⟩

theorem executed_ahead {K : Primitives} {n : Node} {b : Application} (h : Ahead K n)
    (hd : dropping K n = []) (hb : Uncontested K n.state b.txs) (id : Hash)
    (q : SignedTransaction) (hq : n.state.mempool[id]? = some q) :
    ¬Overtaken (b.execute K n.ledger) q ∨ id ∈ b.txs.map (SignedTransaction.txId K) := by
  by_cases hover : Overtaken (b.execute K n.ledger) q
  · rcases executed_overtaken hover with hold | ⟨tx, htx, hone⟩
    · exact absurd hold (h.settled hd hq)
    · exact Or.inr (hb (id, q) (ExtTreeMap.mem_toList_iff_getElem?_eq_some.mpr hq) tx htx hone)
  · exact Or.inl hover

theorem dropped_ahead {K : Primitives} {l : RewardLedger} {m : ExtTreeMap Hash SignedTransaction}
    {txs : List SignedTransaction} (h : ∀ (id : Hash) (q : SignedTransaction), m[id]? = some q →
      ¬Overtaken l q ∨ id ∈ txs.map (SignedTransaction.txId K)) {id : Hash} {q : SignedTransaction}
    (hq : (removeAll (SignedTransaction.txId K) txs m)[id]? = some q) : ¬Overtaken l q := by
  rw [getElem?_removeAll] at hq
  split at hq
  · cases hq
  · rename_i hout
    rcases h id q hq with hnot | hin
    · exact hnot
    · exact absurd hin hout

theorem recovered_ahead {n : Node} {r : Rollback} (h : Recoverable n r) {q : SignedTransaction}
    (hq : q ∈ n.state.mempool.toList.map Prod.snd++
      r.rolledBack.flatMap BlockRecord.transactions) :
    ¬Overtaken (.openScoped n.ledger.csv r.forkPoint) q := by
  rw [openScoped_overtaken_iff]
  rintro ⟨row, hrow, hle, hover⟩
  exact h q hq row hrow hle hover

theorem transition_ahead {K : Primitives} {wallet : WalletPublicKey} {n n' : Node}
    {e : LoopEvent} (h : Ahead K n) (hok : Orderly K n (.run (.loop e)))
    (ht : Transition K wallet n e n') : Ahead K n' := by
  have hidle (hd : dropping K n = []) {n' : Node} (hs : n'.state.mempool = n.state.mempool)
      (hl : n'.ledger = n.ledger) (hp : ∀ blocks, n'.phase ≠ .rewound blocks) : Ahead K n' :=
    .of_pending hp fun id q hq => Or.inl (by
      rw [hl]
      exact h.settled hd (by rw [← hs]; exact hq))
  cases ht with
  | prepare hp | elect hp | electNobody hp | record hp | save hp | publishSpent hp =>
    exact hidle (by simp [dropping, hp]) rfl rfl (by simp)
  | mined hp =>
    rw [enterLocal_eq]
    exact hidle (by simp [dropping, hp]) rfl rfl (by simp)
  | publish hp hs =>
    unfold publish at hs
    split at hs
    · cases hs
    · obtain rfl := Option.some.inj hs
      exact hidle (by simp [dropping, hp]) rfl rfl (by simp)
  | @execute f hp =>
    have hblock : Application.ofWinner f ∈ confirmation n (.run (.loop .execute)) := by
      simp [confirmation, application, hp]
    have hd : dropping K n = [] := by simp [dropping, hp]
    exact .of_pending (by simp) fun id q hq =>
      Or.inl (dropped_ahead (executed_ahead h hd (hok.block _ hblock)) hq)
  | @adopt now stored r claim hp =>
    have hblock : Application.ofRecord r ∈ confirmation n (.run (.loop (.adopt now stored r))) :=
      rfl
    have hd : dropping K n = [] := by simp [dropping, hp]
    exact .of_pending (by simp) (executed_ahead h hd (hok.block _ hblock))
  | @publishAdopted r hp =>
    have hd : dropping K n = r.transactions.map (SignedTransaction.txId K) := by
      simp [dropping, hp]
    have hall := h.pending
    rw [hd] at hall
    exact .of_pending (by simp) fun id q hq => Or.inl (dropped_ahead hall hq)
  | @rewind env target r hp hr =>
    have hback : r ∈ withdrawal n (.run (.loop (.rewind env))) := by
      simp [withdrawal, hr, Plan.takenBack]
    have hrec := hok.rollback r hback
    constructor
    · intro id q hq
      refine Or.inl (recovered_ahead hrec (List.mem_append_left _ ?_))
      exact List.mem_map.mpr ⟨(id, q), ExtTreeMap.mem_toList_iff_getElem?_eq_some.mpr hq, rfl⟩
    · intro blocks hph q hq
      obtain rfl := Phase.rewound.inj hph
      exact recovered_ahead hrec (List.mem_append_right _ hq)
  | @publishRewound rolledBack hp =>
    have hd : dropping K n = [] := by simp [dropping, hp]
    refine .of_pending (by simp) fun id q hq => Or.inl ?_
    rcases getElem?_fileAll _ _ _ hq with ⟨hin, -⟩ | hold
    · exact h.rolledBack rolledBack hp q hin
    · exact h.settled hd hold

theorem run_ahead {K : Primitives} {wallet : WalletPublicKey} {n n' : Node} {e : System.Event}
    (h : Ahead K n) (hok : Orderly K n (.run e)) (hs : System.step K wallet n e = some n') :
    Ahead K n' := by
  cases e with
  | client e =>
    simp only [System.step] at hs
    split at hs
    · cases hs
    · exact client_ahead h hok hs
  | loop e => exact transition_ahead h hok (loopStep_transition hs)

theorem refill_ahead {K : Primitives} {n : Node} (h : Ahead K n) (hp : n.phase = .idle)
    (pending : List SignedTransaction) (removed : SignedTransaction → Bool) :
    Ahead K (refill K pending removed n) := by
  refine .of_pending (fun blocks hph => by simp [refill, hp] at hph) fun id q hq => Or.inl ?_
  rcases getElem?_fileAll _ _ _ hq with ⟨hin, -⟩ | hold
  · have hvalid := (List.mem_filter.mp hin).2
    simp only [stillValid, Bool.and_eq_true, beq_iff_eq] at hvalid
    exact Nat.not_lt.mpr (Nat.le_of_eq hvalid.1.2.symm)
  · exact h.settled (by simp [dropping, hp]) hold

structure Paced (K : Primitives) (p : Process) : Prop where
  ahead : Ahead K p.node
  idle : p.starting ≠ none → p.node.phase = .idle
  whole : p.starting = some .serving → p.node.ledger = .openLedger p.node.ledger.csv

theorem paced_serve (K : Primitives) (left : Leftovers) (n : Node) : Paced K (serve K left n) where
  ahead := .of_pending (by simp [serve]) (by simp [serve, freshState])
  idle _ := rfl
  whole _ := rfl

theorem paced_step {K : Primitives} {wallet : WalletPublicKey} {p p' : Process}
    {e : Restart.Event} (h : Paced K p) (hok : Orderly K p.node e)
    (hs : Restart.step K wallet p e = some p') : Paced K p' := by
  cases step_moves hs with
  | run ht hs' =>
    refine ⟨run_ahead h.ahead hok hs', fun hr => ?_, fun hr => ?_⟩
    · have hp : p.starting ≠ none := hr
      obtain ⟨c, -, hc⟩ := served hp ht hs'
      exact (clientStep_framed hc).phase.trans (h.idle hp)
    · have hp : p.starting = some .serving := hr
      obtain ⟨c, -, hc⟩ := served (by simp [hp]) ht hs'
      show _ = RewardLedger.openLedger _
      rw [(clientStep_framed hc).ledger]
      exact h.whole hp
  | restart => exact paced_serve K _ _
  | @scope n fileReadable checkpointReadable file pin hf hpin =>
    have hidle : n.phase = .idle := h.idle (by simp)
    have hd : dropping K n = [] := by simp [dropping, hidle]
    refine ⟨.of_pending (fun blocks hph => by simp [hidle] at hph) fun id q hq => Or.inl ?_,
      fun _ => hidle, by simp⟩
    intro hover
    apply h.ahead.settled hd hq
    rw [show n.ledger = .openLedger n.ledger.csv from h.whole rfl]
    exact openLedger_overtaken hover
  | guard => exact ⟨⟨h.ahead.pending, h.ahead.rolledBack⟩, fun _ => h.idle (by simp), by simp⟩
  | load => exact ⟨h.ahead, fun _ => h.idle (by simp), by simp⟩
  | refill => exact ⟨refill_ahead h.ahead (h.idle (by simp)) _ _, fun _ => h.idle (by simp), by simp⟩
  | resume => exact ⟨⟨h.ahead.pending, h.ahead.rolledBack⟩, fun hr => absurd rfl hr, by simp⟩

/-- A fresh node, or one whose server has just come up on what some stop left
behind. -/
inductive Started (K : Primitives) : Process → Prop
  | fresh (outcomes : List AppendOutcome) (observed : BtcEntropyState) :
      Started K (booted K outcomes observed)
  | again (left : Leftovers) (p : Process) : Started K (serve K left p.node)

theorem Started.paced {K : Primitives} {p : Process} (h : Started K p) : Paced K p := by
  cases h with
  | fresh outcomes observed =>
    exact ⟨ahead_boot K outcomes observed, fun hr => absurd rfl hr, by simp [booted]⟩
  | again left p => exact paced_serve K left p.node

/-- Between two iterations, when all steps since a start were orderly, no
pending transaction has a nonce below its sender's, and the candidates a miner
takes are not all overtaken. -/
theorem pending_not_overtaken (K : Primitives) (wallet : WalletPublicKey) (start p : Process)
    (hstart : Started K start)
    (h : Run (Restart.step K wallet) (fun p e => Orderly K p.node e) start p)
    (hp : p.node.phase = .idle) :
    (∀ (id : Hash) (tx : SignedTransaction), p.node.state.mempool[id]? = some tx →
      p.node.ledger.nonce tx.fromHex ≤ tx.tx.nonce) ∧
    ∀ txs, FromMempool K p.node.state txs → txs ≠ [] →
      ∃ tx ∈ txs, ¬Overtaken p.node.ledger tx := by
  have hpaced : Paced K p := h.invariant hstart.paced fun _ _ _ => paced_step
  have hd : dropping K p.node = [] := by simp [dropping, hp]
  have hall : ∀ (id : Hash) (tx : SignedTransaction), p.node.state.mempool[id]? = some tx →
      ¬Overtaken p.node.ledger tx := fun id tx htx => hpaced.ahead.settled hd htx
  refine ⟨fun id tx htx => Nat.not_lt.mp (hall id tx htx), fun txs hm hne => ?_⟩
  obtain ⟨tx, htx⟩ := List.exists_mem_of_ne_nil txs hne
  exact ⟨tx, htx, hall _ tx (hm.2.2 tx htx)⟩

def atRest (n : Node) : Bool :=
  match n.phase with
  | .idle => true
  | _ => false

theorem atRest_idle {n : Node} (h : atRest n = true) : n.phase = .idle := by
  unfold atRest at h
  split at h
  · assumption
  · cases h

def toyFinality (x : Parts) (txs : List SignedTransaction) : List System.Event :=
  let p := toyCandidate 9 0 x.state x.ledger x.cursor txs
  [.loop (.prepare .mock (x.cursor.lastBlockTimestampMs+1) txs),
    .loop (.mined 0 p.claim.signature 1 1), .loop (.elect [p]), .loop .execute,
    .loop (.record true), .loop (.save true), .loop .publish]

def toyQueued (id : ℕ) (tx : SignedTransaction) : List System.Event :=
  [.client (.offer tx), .client (.queue id true)]

def toyRun (es : List System.Event) : Option Process :=
  exec (Restart.step toyPrimitives (toyWalletKey 9)) toyBooted (es.map Event.run)

def toyNext : SignedTransaction := Identity.toyHybridTransfer 1 (toyWallet 2) 5 1 1

def toyTurns : List System.Event :=
  toyAdoption (toyRecord 1 0 toyGenesis [])++toyQueued 0 toyPayment++
    toyFinality toyFirst [toyPayment]++toyQueued 1 toyNext

theorem pending_not_overtaken_sample : ∃ p,
    exec (Restart.step toyPrimitives (toyWalletKey 9)) toyBooted (toyTurns.map Event.run) =
        some p ∧
      FromMempool toyPrimitives p.node.state [toyNext] ∧
      p.node.ledger.nonce toyNext.fromHex ≤ toyNext.tx.nonce := by
  obtain ⟨hpool, hadm⟩ : ((toyRun toyTurns).any fun p =>
        atRest p.node && decide (FromMempool toyPrimitives p.node.state [toyNext])) ∧
      Admitted (Restart.step toyPrimitives (toyWalletKey 9))
        (fun p e => Orderly toyPrimitives p.node e) toyBooted
        (toyTurns.map Event.run) := by decide +kernel
  obtain ⟨p, hp, hfacts⟩ := (Option.any_eq_true _ _).mp hpool
  rw [Bool.and_eq_true, decide_eq_true_eq] at hfacts
  obtain ⟨hrest, hfrom⟩ := hfacts
  obtain ⟨hall, -⟩ := pending_not_overtaken toyPrimitives (toyWalletKey 9) toyBooted p
    (.fresh [] .mock) (hadm.run hp) (atRest_idle hrest)
  exact ⟨p, hp, hfrom, hall _ toyNext (hfrom.2.2 toyNext (List.mem_singleton_self _))⟩

def toyTwin : SignedTransaction := { toyPayment with signature := toyPayment.signature++[0] }

def toyStraddle : List System.Event :=
  toyAdoption (toyRecord 1 0 toyGenesis [])++toyQueued 0 toyPayment++toyQueued 1 toyTwin++
    .client (.offer toyPayment) :: toyFinality toyFirst [toyPayment, toyTwin]++
    [.client (.queue 2 true)]

def toyRival (x : Parts) : ReorgEnv :=
  { toySilentPeer x with
    statuses := [{ height := 3, genesisHash := x.state.genesisHash, chainWork := u128Max }]
    probe h := if h = 3 then some [{ toyRecord 2 9 x [] with height := 3 }]
      else (x.store.get h).map fun r => [r] }

def toyReturned : Parts := reconcileFork toyPrimitives (toySilentPeer toyPaid) toyPaid

def toyRegrown : Parts := toyExtend 3 8 toyReturned

def toyRewind (env : ReorgEnv) : List System.Event :=
  [.loop (.rewind env), .loop .publishRewound]

def toyRevived : List System.Event :=
  toyAdoption (toyRecord 1 0 toyGenesis [])++toyAdoption (toyRecord 2 7 toyFirst [toyPayment])++
    toyRewind (toySilentPeer toyPaid)++toyAdoption (toyRecord 3 8 toyReturned [])++
    toyAdoption (toyRecord 3 9 toyRegrown [])++toyRewind (toyRival (toyExtend 3 9 toyRegrown))

def Clogged (K : Primitives) (n : Node) (txs : List SignedTransaction) : Prop :=
  FromMempool K n.state txs ∧ ∀ tx ∈ txs, Overtaken n.ledger tx ∧ Inapplicable K n.ledger tx

theorem toyRun_clogged (es : List System.Event) {txs : List SignedTransaction}
    (h : (toyRun es).any fun p =>
      atRest p.node && (decide (FromMempool toyPrimitives p.node.state txs) && txs.all fun tx =>
        decide (Overtaken p.node.ledger tx ∧ p.node.ledger.nonce tx.fromHex ≤ u64Max))) :
    ∃ p, Reach (Restart.step toyPrimitives (toyWalletKey 9)) toyBooted p ∧
      p.node.phase = .idle ∧ Clogged toyPrimitives p.node txs := by
  obtain ⟨p, hp, hfacts⟩ := (Option.any_eq_true _ _).mp h
  simp only [Bool.and_eq_true, decide_eq_true_eq, List.all_eq_true] at hfacts
  obtain ⟨hrest, hfrom, hall⟩ := hfacts
  refine ⟨p, exec_reach hp, atRest_idle hrest, hfrom, fun tx htx => ?_⟩
  obtain ⟨hover, hword⟩ := hall tx htx
  exact ⟨hover, hover.inapplicable hword⟩

theorem mempool_clogged :
    (∃ p, Reach (Restart.step toyPrimitives (toyWalletKey 9)) toyBooted p ∧
      p.node.phase = .idle ∧ Clogged toyPrimitives p.node [toyPayment, toyTwin]) ∧
    ∃ p, Reach (Restart.step toyPrimitives (toyWalletKey 9)) toyBooted p ∧
      p.node.phase = .idle ∧ Clogged toyPrimitives p.node [toyPayment] := by
  constructor
  · exact toyRun_clogged toyStraddle (by decide +kernel)
  · exact toyRun_clogged toyRevived (by decide +kernel)

end BinaChain.Staleness
