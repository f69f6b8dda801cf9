import BinaChain.Node.Requeue
import BinaChain.Node.Restart
import Mathlib.Data.Nat.ModEq

/-!
# The size of the mempool

A submission looks at the size before it is queued. A rollback puts transactions
back without looking, and so does a start, whose server has queued submissions
before the table is reloaded.
-/

set_option autoImplicit false

namespace BinaChain.MempoolBound
open BinaChain.Word BinaChain.Text BinaChain.Crypto BinaChain.Transaction BinaChain.BitcoinEntropy
open BinaChain.Rewards BinaChain.State BinaChain.Machine BinaChain.Store BinaChain.Admission
open BinaChain.Mining BinaChain.Sync BinaChain.Reconcile BinaChain.System BinaChain.Filing
open BinaChain.Requeue BinaChain.Pinning BinaChain.Restart BinaChain.ChainWork Std

/-- The transactions of these whose identifiers the mempool does not have fit
into it. -/
def HasRoom (K : Primitives) (s : NodeState) (txs : List SignedTransaction) : Prop :=
  s.mempool.size+(freeKeys (SignedTransaction.txId K) txs s.mempool).card ≤ maxMempoolSize

/-- What a step puts into the mempool without a look at its size. -/
def putBack (K : Primitives) (p : Process) : Restart.Event → Option (List SignedTransaction)
  | .run (.loop .publishRewound) =>
    match p.node.phase with
    | .rewound rolledBack => some (rolledBack.flatMap BlockRecord.transactions)
    | _ => none
  | .start (.refill _) =>
    match p.starting with
    | some (.loaded _ pending) => some (pending.filter (stillValid K p.node.ledger))
    | _ => none
  | _ => none

def Roomy (K : Primitives) (p : Process) (e : Restart.Event) : Prop :=
  ∀ txs, putBack K p e = some txs → HasRoom K p.node.state txs

theorem queue_size {K : Primitives} {s : NodeState} {tx : SignedTransaction}
    (h : s.mempool.size ≤ maxMempoolSize)
    (hroom : ¬(s.mempool.size ≥ maxMempoolSize ∧ tx.txId K ∉ s.mempool)) :
    (s.mempool.insert (tx.txId K) tx).size ≤ maxMempoolSize := by
  rw [ExtTreeMap.size_insert]
  split
  · exact h
  · rename_i hout
    have hout : tx.txId K ∉ s.mempool := mt ExtTreeMap.contains_iff_mem.mpr hout
    have hlt : ¬s.mempool.size ≥ maxMempoolSize := fun hge => hroom ⟨hge, hout⟩
    omega

theorem client_size {K : Primitives} {n n' : Node} {e : ClientEvent}
    (h : n.state.mempool.size ≤ maxMempoolSize) (hs : clientStep K n e = some n') :
    n'.state.mempool.size ≤ maxMempoolSize := by
  cases clientStep_handled hs with
  | submit | judge | refuse | observe | offer | full => exact h
  | enter =>
    rw [enterCandidate_eq]
    exact h
  | queue hr hroom => exact queue_size h hroom

theorem transition_size {K : Primitives} {wallet : WalletPublicKey} {n n' : Node} {e : LoopEvent}
    (h : n.state.mempool.size ≤ maxMempoolSize) (ht : Transition K wallet n e n')
    (he : e ≠ .publishRewound) : n'.state.mempool.size ≤ maxMempoolSize := by
  cases ht with
  | prepare | electNobody | elect | save | publishSpent | rewind | record | adopt => exact h
  | mined =>
    rw [enterLocal_eq]
    exact h
  | execute | publishAdopted => exact Nat.le_trans (size_removeAll_le _ _) h
  | publish hp hs =>
    unfold publish at hs
    split at hs
    · cases hs
    · obtain rfl := Option.some.inj hs
      exact h
  | publishRewound => exact absurd rfl he

theorem size_putBack {K : Primitives} {wallet : WalletPublicKey} {p p' : Process}
    {e : Restart.Event} {txs : List SignedTransaction} (hs : Restart.step K wallet p e = some p')
    (hb : putBack K p e = some txs) :
    p'.node.state.mempool.size =
      p.node.state.mempool.size+(freeKeys (SignedTransaction.txId K) txs
        p.node.state.mempool).card := by
  cases step_moves hs with
  | restart | scope | guard | load | resume => simp [putBack] at hb
  | refill =>
    obtain rfl := Option.some.inj hb
    exact size_fileAll _ _
  | run ht hs' =>
    unfold putBack at hb
    split at hb
    · rename_i heq
      obtain rfl := Restart.Event.run.inj heq
      have hl : loopStep K wallet p.node .publishRewound = some _ := hs'
      cases loopStep_transition hl with
      | publishRewound hp =>
        rw [hp] at hb
        obtain rfl := Option.some.inj hb
        exact size_fileAll _ _
    · rename_i heq
      cases heq
    · cases hb

theorem size_kept {K : Primitives} {wallet : WalletPublicKey} {p p' : Process}
    {e : Restart.Event} (h : p.node.state.mempool.size ≤ maxMempoolSize)
    (hs : Restart.step K wallet p e = some p') (hb : putBack K p e = none) :
    p'.node.state.mempool.size ≤ maxMempoolSize := by
  cases step_moves hs with
  | restart => simp [serve, freshState]
  | scope | guard | load | resume => exact h
  | refill => simp [putBack] at hb
  | @run _ n' e ht hs' =>
    cases e with
    | client e =>
      simp only [System.step] at hs'
      split at hs'
      · cases hs'
      · exact client_size h hs'
    | loop e =>
      have htr := loopStep_transition hs'
      refine transition_size h htr ?_
      rintro rfl
      cases htr with
      | publishRewound hp => simp [putBack, hp] at hb

theorem size_step_iff {K : Primitives} {wallet : WalletPublicKey} {p p' : Process}
    {e : Restart.Event} (h : p.node.state.mempool.size ≤ maxMempoolSize)
    (hs : Restart.step K wallet p e = some p') :
    p'.node.state.mempool.size ≤ maxMempoolSize ↔ Roomy K p e := by
  cases hb : putBack K p e with
  | none =>
    refine ⟨fun _ txs htxs => ?_, fun _ => size_kept h hs hb⟩
    rw [hb] at htxs
    cases htxs
  | some txs =>
    rw [size_putBack hs hb]
    refine ⟨fun hle txs' htxs => ?_, fun hroom => hroom txs hb⟩
    obtain rfl := Option.some.inj (hb.symm.trans htxs)
    exact hle

/-- Through every run whose rollbacks and reloads find room the mempool keeps
within its bound, and any step that finds none takes it over. -/
theorem mempool_bounded {K : Primitives} {wallet : WalletPublicKey}
    {outcomes : List AppendOutcome} {observed : BtcEntropyState} {p : Process}
    (h : Run (Restart.step K wallet) (Roomy K) (booted K outcomes observed) p) :
    p.node.state.mempool.size ≤ maxMempoolSize ∧
      ∀ e p', Restart.step K wallet p e = some p' →
        (p'.node.state.mempool.size ≤ maxMempoolSize ↔ Roomy K p e) := by
  have hsize : p.node.state.mempool.size ≤ maxMempoolSize :=
    h.invariant (P := fun p => p.node.state.mempool.size ≤ maxMempoolSize)
      (by simp [booted, boot, genesisState]) fun _ _ _ hle hok hs => (size_step_iff hle hs).mpr hok
  exact ⟨hsize, fun e p' hs => size_step_iff hsize hs⟩

/-- The table holds transactions of the mempool, each under its own identifier. -/
structure Mirrors (K : Primitives) (s : NodeState) (st : BlockStore) : Prop where
  filed : ∀ (k : Str) (tx : SignedTransaction), st.mempool[k]? = some tx → tx.txIdHex K = k
  pooled : ∀ (k : Str) (tx : SignedTransaction), st.mempool[k]? = some tx →
    tx.txId K ∈ s.mempool

theorem Mirrors.congr {K : Primitives} {s s' : NodeState} {st st' : BlockStore}
    (h : Mirrors K s st) (hs : s'.mempool = s.mempool) (hst : st'.mempool = st.mempool) :
    Mirrors K s' st' where
  filed := by
    rw [hst]
    exact h.filed
  pooled := by
    rw [hst, hs]
    exact h.pooled

theorem Mirrors.inserted {K : Primitives} {s : NodeState} {st : BlockStore} (h : Mirrors K s st)
    (tx : SignedTransaction) (persisted : Bool) :
    Mirrors K { s with mempool := s.mempool.insert (tx.txId K) tx }
      (if persisted then st.mempoolInsert K tx else st) := by
  have hkept : ∀ (k : Str) (q : SignedTransaction), st.mempool[k]? = some q →
      q.txIdHex K = k ∧ q.txId K ∈ s.mempool.insert (tx.txId K) tx := fun k q hq =>
    ⟨h.filed k q hq, by simp [h.pooled k q hq]⟩
  have hnew : ∀ (k : Str) (q : SignedTransaction),
      (if persisted then st.mempoolInsert K tx else st).mempool[k]? = some q →
      q.txIdHex K = k ∧ q.txId K ∈ s.mempool.insert (tx.txId K) tx := by
    intro k q hq
    cases persisted with
    | false => exact hkept k q hq
    | true =>
      simp only [if_true, BlockStore.mempoolInsert, Maps.getElem?_insert_eq] at hq
      split at hq
      · rename_i hk
        obtain rfl := Option.some.inj hq
        exact ⟨hk, by simp⟩
      · exact hkept k q hq
  exact ⟨fun k q hq => (hnew k q hq).1, fun k q hq => (hnew k q hq).2⟩

theorem Mirrors.removed {K : Primitives} {s s' : NodeState} {st st' : BlockStore}
    (h : Mirrors K s st) (txs : List SignedTransaction)
    (hs : s'.mempool = removeAll (SignedTransaction.txId K) txs s.mempool)
    (hst : st'.mempool = removeAll (SignedTransaction.txIdHex K) txs st.mempool) :
    Mirrors K s' st' := by
  have hold : ∀ (k : Str) (q : SignedTransaction), st'.mempool[k]? = some q →
      k ∉ txs.map (SignedTransaction.txIdHex K) ∧ st.mempool[k]? = some q := by
    intro k q hq
    rw [hst, getElem?_removeAll] at hq
    split at hq
    · cases hq
    · rename_i hk
      exact ⟨hk, hq⟩
  constructor
  · exact fun k q hq => h.filed k q (hold k q hq).2
  · intro k q hq
    obtain ⟨hout, hk⟩ := hold k q hq
    rw [hs, mem_removeAll]
    refine ⟨fun hin => hout ?_, h.pooled k q hk⟩
    obtain ⟨tx, htx, he⟩ := List.mem_map.mp hin
    refine List.mem_map.mpr ⟨tx, htx, ?_⟩
    rw [← h.filed k q hk]
    simp only [SignedTransaction.txIdHex, he]

theorem Mirrors.requeued {K : Primitives} {s s' : NodeState} {st st' : BlockStore}
    (h : Mirrors K s st) (txs : List SignedTransaction)
    (hs : s'.mempool = fileAll (SignedTransaction.txId K) txs s.mempool)
    (hst : st'.mempool = fileAll (SignedTransaction.txIdHex K) txs st.mempool) :
    Mirrors K s' st' := by
  have hcases : ∀ (k : Str) (q : SignedTransaction), st'.mempool[k]? = some q →
      (q ∈ txs ∧ q.txIdHex K = k) ∨ st.mempool[k]? = some q := by
    intro k q hq
    rw [hst] at hq
    exact getElem?_fileAll txs k _ hq
  constructor
  · intro k q hq
    rcases hcases k q hq with ⟨-, hk⟩ | hold
    · exact hk
    · exact h.filed k q hold
  · intro k q hq
    rw [hs, mem_fileAll]
    rcases hcases k q hq with ⟨hin, -⟩ | hold
    · exact Or.inl (List.mem_map_of_mem hin)
    · exact Or.inr (h.pooled k q hold)

theorem client_pools {K : Primitives} {n n' : Node} {e : ClientEvent}
    (hs : clientStep K n e = some n') (he : ∀ id persisted, e ≠ .queue id persisted) :
    n'.state.mempool = n.state.mempool ∧ n'.store = n.store := by
  cases clientStep_handled hs with
  | submit | judge | refuse | observe | offer => exact ⟨rfl, rfl⟩
  | enter =>
    rw [enterCandidate_eq]
    exact ⟨rfl, rfl⟩
  | queue | full => exact absurd rfl (he _ _)

/-- The loop runs when the process is stopped, and a start finds, reads and deletes
what it should. -/
def Clean (p : Process) : Restart.Event → Prop
  | .restart left => p.starting = none ∧ left.csv = p.node.ledger.csv ∧
      left.pending = p.node.store.mempool
  | .start (.scope fileReadable checkpointReadable) =>
      fileReadable = true ∧ checkpointReadable = true
  | .start (.guard readable) => readable = true
  | .start (.load readable) => readable = true
  | .start (.refill removed) => ∀ tx, removed tx = true
  | _ => True

/-- Starts are clean, and the process is never stopped. -/
def Unstopped (p : Process) (e : Restart.Event) : Prop :=
  Clean p e ∧ ∀ left, e ≠ .restart left

/-- Starts are clean, and nothing is rolled back. -/
def Unreorganised (p : Process) (e : Restart.Event) : Prop :=
  Clean p e ∧ ∀ env, e ≠ .run (.loop (.rewind env))

/-- Starts are clean and nothing is queued until the loop runs. -/
def Quiet (p : Process) (e : Restart.Event) : Prop :=
  Clean p e ∧ ∀ id persisted, e = .run (.client (.queue id persisted)) → p.starting = none

structure Stocked (K : Primitives) (st : BlockStore) : Prop where
  filed : ∀ (k : Str) (tx : SignedTransaction), st.mempool[k]? = some tx → tx.txIdHex K = k
  size : st.mempool.size ≤ maxMempoolSize

/-- The mempool and its table in each stage of a quiet start. -/
def SteadyIn (K : Primitives) (n : Node) : Stage → Prop
  | .serving | .scoped _ | .guarded _ => n.state.mempool = ∅ ∧ Stocked K n.store
  | .loaded _ pending => n.state.mempool = ∅ ∧ Stocked K n.store ∧
      pending = n.store.mempool.toList.map Prod.snd
  | .refilled _ => n.state.mempool.size ≤ maxMempoolSize ∧ Mirrors K n.state n.store

def Steady (K : Primitives) (p : Process) : Prop :=
  match p.starting with
  | none => p.node.state.mempool.size ≤ maxMempoolSize ∧ Mirrors K p.node.state p.node.store
  | some stage => SteadyIn K p.node stage

theorem Mirrors.stocked {K : Primitives} {s : NodeState} {st : BlockStore} (h : Mirrors K s st)
    (hsize : s.mempool.size ≤ maxMempoolSize) : Stocked K st := by
  refine ⟨h.filed, Nat.le_trans ?_ hsize⟩
  refine size_le_of_embedding (f := fun row => row.2.txId K) h.pooled ?_
  intro k tx k' tx' hk hk' he
  rw [← h.filed k tx hk, ← h.filed k' tx' hk']
  simp only [SignedTransaction.txIdHex, he]

theorem SteadyIn.congr {K : Primitives} {n n' : Node} {stage : Stage} (h : SteadyIn K n stage)
    (hs : n'.state.mempool = n.state.mempool) (hst : n'.store = n.store) :
    SteadyIn K n' stage := by
  unfold SteadyIn at h ⊢
  split at h
  · rw [hs, hst]
    exact h
  · rw [hs, hst]
    exact h
  · rw [hs, hst]
    exact h
  · rw [hs, hst]
    exact h
  · rw [hs, hst]
    exact ⟨h.1, h.2.congr hs rfl⟩

theorem Stocked.hasRoom {K : Primitives} {s : NodeState} {st : BlockStore} (h : Stocked K st)
    (hs : s.mempool = ∅) (valid : SignedTransaction → Bool) :
    HasRoom K s ((st.mempool.toList.map Prod.snd).filter valid) := by
  unfold HasRoom
  rw [hs, ExtTreeMap.size_empty, Nat.zero_add]
  calc (freeKeys (SignedTransaction.txId K)
        ((st.mempool.toList.map Prod.snd).filter valid) ∅).card
      ≤ (((st.mempool.toList.map Prod.snd).filter valid).map
          (SignedTransaction.txId K)).toFinset.card := Finset.card_filter_le _ _
    _ ≤ ((st.mempool.toList.map Prod.snd).filter valid).length := by
        simpa using List.toFinset_card_le
          (((st.mempool.toList.map Prod.snd).filter valid).map (SignedTransaction.txId K))
    _ ≤ st.mempool.toList.length := by
        simpa using List.length_filter_le valid (st.mempool.toList.map Prod.snd)
    _ ≤ maxMempoolSize := by
        rw [ExtTreeMap.length_toList]
        exact h.size

theorem Stocked.refilled {K : Primitives} {n : Node} {removed : SignedTransaction → Bool}
    (h : Stocked K n.store) (hremoved : ∀ tx, removed tx = true) :
    Mirrors K (refill K (n.store.mempool.toList.map Prod.snd) removed n).state
      (refill K (n.store.mempool.toList.map Prod.snd) removed n).store := by
  have hrow : ∀ (k : Str) (tx : SignedTransaction),
      (refill K (n.store.mempool.toList.map Prod.snd) removed n).store.mempool[k]? = some tx →
      tx.txIdHex K = k ∧
        tx ∈ (n.store.mempool.toList.map Prod.snd).filter (stillValid K n.ledger) := by
    intro k tx hk
    rw [show (refill K (n.store.mempool.toList.map Prod.snd) removed n).store.mempool = _ from
      mempoolRemoves_mempool K _ _, getElem?_removeAll] at hk
    split at hk
    · cases hk
    rename_i hout
    have hin : tx ∈ n.store.mempool.toList.map Prod.snd :=
      List.mem_map.mpr ⟨(k, tx), ExtTreeMap.mem_toList_iff_getElem?_eq_some.mpr hk, rfl⟩
    refine ⟨h.filed k tx hk, List.mem_filter.mpr ⟨hin, ?_⟩⟩
    by_contra hvalid
    refine hout (List.mem_map.mpr ⟨tx, List.mem_filter.mpr ⟨hin, ?_⟩, h.filed k tx hk⟩)
    simp [Bool.eq_false_iff.mpr hvalid, hremoved]
  refine ⟨fun k tx hk => (hrow k tx hk).1, fun k tx hk => ?_⟩
  exact (mem_fileAll _ _).mpr (Or.inl (List.mem_map_of_mem (hrow k tx hk).2))

theorem client_mirrors {K : Primitives} {n n' : Node} {e : ClientEvent}
    (h : Mirrors K n.state n.store) (hs : clientStep K n e = some n') :
    Mirrors K n'.state n'.store := by
  cases clientStep_handled hs with
  | submit | judge | refuse | observe | offer | full => exact ⟨h.filed, h.pooled⟩
  | enter =>
    rw [enterCandidate_eq]
    exact ⟨h.filed, h.pooled⟩
  | queue => exact h.inserted _ _

theorem transition_mirrors {K : Primitives} {wallet : WalletPublicKey} {n n' : Node}
    {e : LoopEvent} (h : Mirrors K n.state n.store) (ht : Transition K wallet n e n') :
    Mirrors K n'.state n'.store := by
  cases ht with
  | prepare | electNobody | elect | save | publishSpent | rewind => exact ⟨h.filed, h.pooled⟩
  | mined =>
    rw [enterLocal_eq]
    exact ⟨h.filed, h.pooled⟩
  | @execute f => exact h.removed f.winning.transactions rfl (mempoolRemoves_mempool K _ _)
  | @record f stored =>
    have hpool : (if stored then n.store.insertBlock (recordOf K f) else n.store).mempool =
        n.store.mempool := by
      split <;> rfl
    exact h.congr rfl hpool
  | publish hp hs =>
    unfold publish at hs
    split at hs
    · cases hs
    · obtain rfl := Option.some.inj hs
      exact ⟨h.filed, h.pooled⟩
  | @adopt now stored r claim =>
    have hpool : (applyRecord K stored n.parts r claim).store.mempool = n.store.mempool := by
      unfold applyRecord
      dsimp only
      split <;> rfl
    exact h.congr rfl hpool
  | @publishAdopted r => exact h.removed r.transactions rfl (mempoolRemoves_mempool K _ _)
  | @publishRewound rolledBack =>
    exact h.requeued (rolledBack.flatMap BlockRecord.transactions) rfl
      (mempoolInserts_mempool K _ _)

theorem steady_step {K : Primitives} {wallet : WalletPublicKey} {p p' : Process}
    {e : Restart.Event} (h : Steady K p)
    (hok : Quiet p e ∧ (e = .run (.loop .publishRewound) → Roomy K p e))
    (hs : Restart.step K wallet p e = some p') : Steady K p' := by
  have hmoves := step_moves hs
  cases hmoves with
  | restart =>
    obtain ⟨hnone, -, hleft⟩ := hok.1.1
    simp only [Steady, hnone] at h
    have hstocked := h.2.stocked h.1
    refine ⟨rfl, ?_, ?_⟩
    · simp only [serve, hleft]
      exact hstocked.filed
    · simp only [serve, hleft]
      exact hstocked.size
  | scope => exact h
  | guard => exact h
  | @load n pin readable =>
    have hreadable : readable = true := hok.1.1
    subst hreadable
    exact ⟨h.1, h.2, rfl⟩
  | @refill n pin pending removed =>
    obtain ⟨hempty, hstocked, hpending⟩ :
      n.state.mempool = ∅ ∧ Stocked K n.store ∧ pending = n.store.mempool.toList.map Prod.snd := h
    subst hpending
    have hroom := hstocked.hasRoom hempty (stillValid K n.ledger)
    refine ⟨?_, hstocked.refilled hok.1.1⟩
    show (fileAll (SignedTransaction.txId K) _ n.state.mempool).size ≤ maxMempoolSize
    rw [size_fileAll]
    exact hroom
  | resume => exact ⟨h.1, h.2.filed, h.2.pooled⟩
  | @run _ n' e ht hs' =>
    cases hp : p.starting with
    | none =>
      simp only [Steady, hp] at h ⊢
      refine ⟨(size_step_iff h.1 hs).mpr ?_, ?_⟩
      · intro txs hb
        by_cases he : e = .loop .publishRewound
        · exact hok.2 (by rw [he]) txs hb
        · unfold putBack at hb
          split at hb
          · rename_i heq
            exact absurd (Restart.Event.run.inj heq) he
          · rename_i heq
            cases heq
          · cases hb
      · cases e with
        | client e =>
          simp only [System.step] at hs'
          split at hs'
          · cases hs'
          · exact client_mirrors h.2 hs'
        | loop e => exact transition_mirrors h.2 (loopStep_transition hs')
    | some stage =>
      have hstarting : p.starting ≠ none := by simp [hp]
      obtain ⟨c, rfl, hc⟩ := served hstarting ht hs'
      have hqueue : ∀ id persisted, c ≠ .queue id persisted := by
        rintro id persisted rfl
        exact hstarting (hok.1.2 id persisted rfl)
      obtain ⟨hpool, hstore⟩ := client_pools hc hqueue
      simp only [Steady, hp] at h ⊢
      exact h.congr hpool hstore

theorem steady_booted (K : Primitives) (outcomes : List AppendOutcome)
    (observed : BtcEntropyState) : Steady K (booted K outcomes observed) :=
  ⟨by simp [booted, boot, genesisState], by simp [booted, boot, BlockStore.empty],
    by simp [booted, boot, BlockStore.empty]⟩

/-- A start that nobody queues into always finds room for the table. -/
theorem quiet_reload_has_room {K : Primitives} {wallet : WalletPublicKey}
    {outcomes : List AppendOutcome} {observed : BtcEntropyState} {p : Process}
    (h : Run (Restart.step K wallet)
      (fun p e => Quiet p e ∧ (e = .run (.loop .publishRewound) → Roomy K p e))
      (booted K outcomes observed) p) (removed : SignedTransaction → Bool) :
    Roomy K p (.start (.refill removed)) := by
  have hsteady := h.invariant (steady_booted K outcomes observed) fun _ _ _ => steady_step
  intro txs hb
  simp only [putBack] at hb
  split at hb
  · rename_i pin pending hp
    simp only [Steady, hp] at hsteady
    obtain ⟨hempty, hstocked, rfl⟩ := hsteady
    obtain rfl := Option.some.inj hb
    exact hstocked.hasRoom hempty _
  · cases hb

/-- A client offers a transaction and has it queued and stored. -/
theorem offer_and_queue {K : Primitives} (wallet : WalletPublicKey) (starting : Option Stage)
    {n : Node} (hp : n.phase = .idle) {tx : SignedTransaction}
    (hcheck : checkSpend K n.ledger tx = .ok ()) (hroom : n.state.mempool.size < maxMempoolSize) :
    ∃ m n', Restart.step K wallet ⟨n, starting⟩ (.run (.client (.offer tx))) =
        some ⟨m, starting⟩ ∧
      Restart.step K wallet ⟨m, starting⟩ (.run (.client (.queue n.nextRequest true))) =
        some ⟨n', starting⟩ ∧ Framed n n' ∧
      n'.state.mempool = n.state.mempool.insert (tx.txId K) tx ∧
      n'.store.mempool = n.store.mempool.insert (tx.txIdHex K) tx := by
  have hpoison : n.poisoned = false := by simp [Node.poisoned, hp]
  have hlock : n.ledgerLocked = false := by simp [Node.ledgerLocked, hp]
  let m := enroll n (.spendChecked tx)
  have hoffer : clientStep K n (.offer tx) = some m := by
    simp [clientStep, hlock, hcheck, m]
  let s : NodeState := { n.state with mempool := n.state.mempool.insert (tx.txId K) tx }
  have hqueue : queueTransaction K n.state tx = .ok s :=
    if_neg fun h => Nat.not_le.mpr hroom h.1
  let n' : Node :=
    { m with
      state := s
      store := n.store.mempoolInsert K tx
      requests := m.requests.erase n.nextRequest }
  have hreq : m.requests[n.nextRequest]? = some (.spendChecked tx) := by
    simp [m, enroll]
  have hqueued : clientStep K m (.queue n.nextRequest true) = some n' := by
    have hstate : m.state = n.state := rfl
    simp only [clientStep, hreq, hstate, hqueue, if_true]
    rfl
  have hpoison' : m.poisoned = false := hpoison
  refine ⟨m, n', ?_, ?_, (clientStep_framed hoffer).trans (clientStep_framed hqueued), rfl, rfl⟩
  · simp only [Restart.step, takes_client starting (c := .offer tx) (by simp), System.step,
      hpoison, Bool.false_eq_true, if_false, if_true, hoffer, Option.map_some]
  · simp only [Restart.step, takes_client starting (c := .queue n.nextRequest true) (by simp),
      System.step, hpoison', Bool.false_eq_true, if_false, if_true, hqueued, Option.map_some]

theorem fill {K : Primitives} (wallet : WalletPublicKey) (ok : Process → Restart.Event → Prop)
    (hok : ∀ p c, ok p (.run (.client c))) (starting : Option Stage)
    (txs : List SignedTransaction) :
    ∀ n : Node, n.phase = .idle → (∀ tx ∈ txs, checkSpend K n.ledger tx = .ok ()) →
      n.state.mempool.size+txs.length ≤ maxMempoolSize →
      ∃ n', Run (Restart.step K wallet) ok ⟨n, starting⟩ ⟨n', starting⟩ ∧ Framed n n' ∧
        n'.state.mempool = fileAll (SignedTransaction.txId K) txs n.state.mempool ∧
        n'.store.mempool = fileAll (SignedTransaction.txIdHex K) txs n.store.mempool := by
  induction txs with
  | nil =>
    intro n hp _ _
    exact ⟨n, .refl _, .of_requests rfl rfl rfl rfl rfl rfl, rfl, rfl⟩
  | cons tx txs ih =>
    intro n hp hchecks hsize
    rw [List.length_cons] at hsize
    obtain ⟨m, n₁, hoffer, hqueue, hframed, hpool, hrows⟩ :=
      offer_and_queue wallet starting hp (hchecks tx List.mem_cons_self) (by omega)
    have hgrown : n₁.state.mempool.size ≤ n.state.mempool.size+1 := by
      rw [hpool]
      exact ExtTreeMap.size_insert_le
    obtain ⟨n', hrun, hframed', hpool', hrows'⟩ := ih n₁ (hframed.phase.trans hp)
      (fun q hq => by
        rw [hframed.ledger]
        exact hchecks q (List.mem_cons_of_mem _ hq)) (by omega)
    have htwo : Run (Restart.step K wallet) ok ⟨n, starting⟩ ⟨n₁, starting⟩ :=
      ((Run.refl _).tail (hok _ _) hoffer).tail (hok _ _) hqueue
    rw [hpool] at hpool'
    rw [hrows] at hrows'
    exact ⟨n', htwo.trans hrun, hframed.trans hframed', hpool', hrows'⟩

theorem findForkPoint_congr {env : ReorgEnv} {st st' : BlockStore} (hb : st'.blocks = st.blocks)
    (steps : ℕ) : ∀ start, findForkPoint env st' steps start =
      findForkPoint env st steps start := by
  induction steps with
  | zero => exact fun _ => rfl
  | succ steps ih =>
    intro start
    unfold findForkPoint localHashAt BlockStore.blockHashAt
    simp only [BlockStore.get_congr hb, ih]

theorem plan_congr {env : ReorgEnv} {x x' : Parts} (hc : x'.cursor = x.cursor)
    (hb : x'.store.blocks = x.store.blocks) (hg : x'.state.genesisHash = x.state.genesisHash) :
    plan env x' = plan env x := by
  have hrollback : ∀ fork, planRollback env x' fork = planRollback env x fork := by
    intro fork
    unfold planRollback blockAt BlockStore.getRange
    simp only [hc, hb, hg, BlockStore.get_congr hb]
  unfold plan
  simp only [hc, hg, findForkPoint_congr hb, hrollback]

theorem reorganise {K : Primitives} (wallet : WalletPublicKey) {m : Node} {env : ReorgEnv}
    {target : ℕ} {r : Rollback} (hidle : m.phase = .idle)
    (hplan : plan env m.parts = .rollback target r) :
    ∃ m₁ m₂, Restart.step K wallet ⟨m, none⟩ (.run (.loop (.rewind env))) = some ⟨m₁, none⟩ ∧
      Restart.step K wallet ⟨m₁, none⟩ (.run (.loop .publishRewound)) = some ⟨m₂, none⟩ ∧
      m₁.phase = .rewound r.rolledBack ∧ m₁.state = m.state ∧
      m₂.state.mempool = fileAll (SignedTransaction.txId K)
        (r.rolledBack.flatMap BlockRecord.transactions) m.state.mempool := by
  let x := rewind m.parts r
  let m₁ : Node :=
    { m with ledger := x.ledger, store := x.store, cursor := x.cursor
             phase := .rewound r.rolledBack }
  let y := publishRewound K m₁.parts r.rolledBack
  refine ⟨m₁, { m₁ with state := y.state, store := y.store, phase := .idle }, ?_, rfl, rfl, rfl,
    rfl⟩
  simp only [Restart.step, takes, System.step, loopStep, hidle, hplan]
  rfl

def toyModulus : ℕ := (1 <<< 200)-75

def toyCode (b : Bytes) : ℕ := b.foldl (fun acc x => (acc*257+x.toNat+1)%toyModulus) 7

theorem toyDigest_eq (b : Bytes) : toyDigest b = Vector.ofFn fun i : Fin 32 =>
    if i.val < 7 then 0 else UInt8.ofNat (toyCode b >>> (8*(i.val-7))) := rfl

theorem toyCode_append (b : Bytes) (x y : UInt8) : toyCode (b++[x, y]) =
    (toyCode b*66049+258+(x.toNat*257+y.toNat))%toyModulus := by
  have hfold : toyCode (b++[x, y]) =
      ((toyCode b*257+x.toNat+1)%toyModulus*257+(y.toNat+1))%toyModulus := by
    simp only [toyCode, List.foldl_append, List.foldl_cons, List.foldl_nil, Nat.add_assoc]
  have hmod : (toyCode b*257+x.toNat+1)%toyModulus*257+(y.toNat+1) ≡
      (toyCode b*257+x.toNat+1)*257+(y.toNat+1) [MOD toyModulus] :=
    ((Nat.mod_modEq _ _).mul_right 257).add_right _
  rw [hfold, hmod, show (toyCode b*257+x.toNat+1)*257+(y.toNat+1) =
    toyCode b*66049+258+(x.toNat*257+y.toNat) by omega]

theorem toyCode_small (b : Bytes) (x y : UInt8) : toyCode (b++[x, y]) >>> (8*25) = 0 := by
  have hlt : toyModulus ≤ 1 <<< (8*25) := by decide
  rw [toyCode_append, Nat.shiftRight_eq_div_pow]
  apply Nat.div_eq_of_lt
  rw [← Nat.one_shiftLeft]
  exact Nat.lt_of_lt_of_le (Nat.mod_lt _ (by decide)) hlt

theorem toyDigest_code {b b' : Bytes} (hb : toyCode b >>> (8*25) = 0)
    (hb' : toyCode b' >>> (8*25) = 0) (h : toyDigest b = toyDigest b') :
    toyCode b = toyCode b' := by
  rw [toyDigest_eq, toyDigest_eq] at h
  apply leBytes_injective (k := 25) _ (hb.trans hb'.symm)
  apply List.map_congr_left
  intro i hi
  have hi25 : i+7 < 32 := by
    have := List.mem_range.mp hi
    omega
  have hget := congrArg (fun v : Hash => v.toList.getD (i+7) 0) h
  simpa [List.getD_eq_getElem?_getD, hi25] using hget

def toySpend : SignedTransaction := Identity.toyHybridTransfer 2 (toyWallet 1) 5 0 1

def toyVariant (i : ℕ) : SignedTransaction :=
  { toySpend with signature := toySpend.signature++[UInt8.ofNat (i/256), UInt8.ofNat i] }

def toySpendId : Bytes := txIdTag++(toySpend.tx.digest toyPrimitives).toList++toySpend.signature

theorem toyVariant_id (i : ℕ) : (toyVariant i).txId toyPrimitives =
    toyDigest (toySpendId++[UInt8.ofNat (i/256), UInt8.ofNat i]) := by
  simp only [SignedTransaction.txId, toyVariant, toySpendId, List.append_assoc]
  rfl

theorem toyVariant_inj {i j : ℕ} (hi : i < 65536) (hj : j < 65536)
    (h : (toyVariant i).txId toyPrimitives = (toyVariant j).txId toyPrimitives) : i = j := by
  rw [toyVariant_id, toyVariant_id] at h
  have hcode := toyDigest_code (toyCode_small _ _ _) (toyCode_small _ _ _) h
  have hlarge : 65536*2 ≤ toyModulus := by decide
  simp only [toyCode_append, UInt8.toNat_ofNat'] at hcode
  have hsame := Nat.ModEq.add_left_cancel' (n := toyModulus) _ hcode
  have hoffset : i/256%2^8*257+i%2^8 = j/256%2^8*257+j%2^8 := by
    apply hsame.eq_of_lt_of_lt <;> omega
  omega

theorem toyVariant_checked {l : RewardLedger}
    (h : checkSpend toyPrimitives l toySpend = .ok ()) (i : ℕ) :
    checkSpend toyPrimitives l (toyVariant i) = .ok () := by
  have hkey : toySpend.publicKey.length ≠ ed25519PublicKeyBytes := by decide +kernel
  have hverify : toySpend.verify toyPrimitives = .ok () := by decide +kernel
  have hvariant : (toyVariant i).verify toyPrimitives = .ok () :=
    (Identity.appended_verifies hkey hverify _).1
  unfold checkSpend at h ⊢
  rw [hverify] at h
  rw [hvariant]
  exact h

theorem distance_le {m start v : ℕ} (hm : 0 < m) :
    ((start+v)%m+(m-start%m))%m ≤ v := by
  have hround : start+v+(m-start%m) = v+m*(start/m+1) := by
    have hdiv := Nat.mod_add_div start m
    have hlt := Nat.mod_lt start hm
    rw [Nat.mul_add, Nat.mul_one]
    omega
  have hnear : (start+v)%m+(m-start%m) ≡ v [MOD m] := by
    refine ((Nat.mod_modEq _ _).add_right _).trans ?_
    rw [hround]
    exact Nat.add_mul_mod_self_left v m _
  rw [hnear]
  exact Nat.mod_le v m

theorem toyDigest_apart {pay base : Bytes} (hsmall : toyCode pay >>> (8*25) = 0)
    (hfar : 65792 ≤ (toyCode pay+(toyModulus-(toyCode base*66049+258)%toyModulus))%toyModulus)
    (x y : UInt8) : toyDigest pay ≠ toyDigest (base++[x, y]) := by
  intro h
  have hcode := toyDigest_code hsmall (toyCode_small _ _ _) h
  rw [toyCode_append] at hcode
  rw [hcode] at hfar
  have hle := Nat.le_trans hfar (distance_le (show 0 < toyModulus by decide))
  have hx := x.toNat_lt
  have hy := y.toNat_lt
  omega

theorem toyPayment_apart (i : ℕ) :
    toyPayment.txId toyPrimitives ≠ (toyVariant i).txId toyPrimitives := by
  have hid : toyPayment.txId toyPrimitives =
      toyDigest (txIdTag++(toyPayment.tx.digest toyPrimitives).toList++toyPayment.signature) := by
    simp only [SignedTransaction.txId]
    rfl
  rw [toyVariant_id, hid]
  exact toyDigest_apart (by decide +kernel) (by decide +kernel) _ _

def toyAdoptions : List Restart.Event :=
  (toyAdoption (toyRecord 1 0 toyGenesis [])++
    toyAdoption (toyRecord 2 7 toyFirst [toyPayment])).map Event.run

theorem toyAdoptions_facts :
    (exec (Restart.step toyPrimitives (toyWalletKey 9)) toyBooted toyAdoptions).any fun p =>
      p.starting.isNone && p.node.phase matches .idle && p.node.state.mempool.isEmpty &&
      decide (checkSpend toyPrimitives p.node.ledger toySpend = .ok ()) &&
      match plan (toySilentPeer toyPaid) p.node.parts with
      | .rollback _ r => r.rolledBack.flatMap BlockRecord.transactions == [toyPayment]
      | _ => false := by
  decide +kernel

theorem idle_of {n : Node} (h : n.phase matches .idle) : n.phase = .idle := by
  cases hp : n.phase <;> simp_all

theorem toyAdoptions_spec (ok : Process → Restart.Event → Prop)
    (hok : ∀ e ∈ toyAdoptions, ∀ p, ok p e) : ∃ n target r,
    Run (Restart.step toyPrimitives (toyWalletKey 9)) ok toyBooted ⟨n, none⟩ ∧
    n.phase = .idle ∧ n.state.mempool = ∅ ∧
    checkSpend toyPrimitives n.ledger toySpend = .ok () ∧
    plan (toySilentPeer toyPaid) n.parts = .rollback target r ∧
    r.rolledBack.flatMap BlockRecord.transactions = [toyPayment] := by
  obtain ⟨⟨n, starting⟩, hn, hfacts⟩ := (Option.any_eq_true _ _).mp toyAdoptions_facts
  simp only [Bool.and_eq_true, Option.isNone_iff_eq_none, decide_eq_true_eq] at hfacts
  obtain ⟨⟨⟨⟨rfl, hphase⟩, hempty⟩, hspend⟩, hplan⟩ := hfacts
  have hrun := (Admitted.of_forall hok toyBooted).run hn
  cases hp : plan (toySilentPeer toyPaid) n.parts with
  | stay => rw [hp] at hplan; cases hplan
  | extend target => rw [hp] at hplan; cases hplan
  | rollback target r =>
    rw [hp] at hplan
    exact ⟨n, target, r, hrun, idle_of hphase, ExtTreeMap.isEmpty_iff.mp hempty, hspend, hp,
      eq_of_beq hplan⟩

def toyMined : List Restart.Event :=
  let p := toyCandidate 2 0 toyGenesis.state toyGenesis.ledger toyGenesis.cursor []
  (toyMining 2 0 toyGenesis++toyClosing p++[System.Event.loop .publish]).map Event.run

def toyReloads (n : Node) : Bool :=
  decide (checkSpend toyPrimitives (.openLedger n.ledger.csv) toySpend = .ok ()) &&
    (loadOrCreateChainState toyPrimitives true n.chainState).any fun file =>
      (resumeCheckpoint true n.store file).isSome &&
        stillValid toyPrimitives (.openScoped n.ledger.csv file.height) toySpend

theorem toyMined_facts :
    (exec (Restart.step toyPrimitives (toyWalletKey 2)) toyBooted toyMined).any fun p =>
      p.starting.isNone && p.node.phase matches .idle && p.node.state.mempool.isEmpty &&
      p.node.store.mempool.isEmpty &&
      decide (checkSpend toyPrimitives p.node.ledger toySpend = .ok ()) &&
      (resumeNullifiers true p.node.store).isSome && toyReloads p.node := by
  decide +kernel

theorem toyVariant_stillValid {l : RewardLedger}
    (h : stillValid toyPrimitives l toySpend = true) (i : ℕ) :
    stillValid toyPrimitives l (toyVariant i) = true := by
  have hkey : toySpend.publicKey.length ≠ ed25519PublicKeyBytes := by decide +kernel
  have hverify : toySpend.verify toyPrimitives = .ok () := by decide +kernel
  have hvariant : (toyVariant i).verify toyPrimitives = .ok () :=
    (Identity.appended_verifies hkey hverify _).1
  unfold stillValid at h ⊢
  rw [hverify] at h
  rw [hvariant]
  exact h

theorem toyReloads_congr {n n' : Node} (hl : n'.ledger = n.ledger)
    (hc : n'.chainState = n.chainState) (hb : n'.store.blocks = n.store.blocks) :
    toyReloads n' = toyReloads n := by
  simp only [toyReloads, resumeCheckpoint, latestCheckpoint, hl, hc, hb]

theorem resumeNullifiers_congr {st st' : BlockStore} (hb : st'.blocks = st.blocks) :
    resumeNullifiers true st' = resumeNullifiers true st := by
  simp only [resumeNullifiers, Nullifiers.reloadNullifiers, BlockStore.allNullifiers, hb]

theorem reloaded {K : Primitives} (wallet : WalletPublicKey) {n : Node} {file : ChainStateFile}
    (hf : loadOrCreateChainState K true n.chainState = some file)
    (hp : (resumeCheckpoint true n.store file).isSome = true)
    (hn : (resumeNullifiers true n.store).isSome = true) :
    ∃ n' stage, Run (Restart.step K wallet)
        Unreorganised ⟨n, some .serving⟩ ⟨n', some stage⟩ ∧
      n'.state.mempool = fileAll (SignedTransaction.txId K)
        ((n.store.mempool.toList.map Prod.snd).filter
          (stillValid K (.openScoped n.ledger.csv file.height))) n.state.mempool := by
  obtain ⟨pin, hp⟩ := Option.isSome_iff_exists.mp hp
  obtain ⟨nullifiers, hn⟩ := Option.isSome_iff_exists.mp hn
  let n₁ : Node := { n with chainState := file, ledger := .openScoped n.ledger.csv file.height }
  let n₂ : Node := { n₁ with state := { n₁.state with nullifiers } }
  let pending := n.store.mempool.toList.map Prod.snd
  have hscope : Restart.step K wallet ⟨n, some .serving⟩ (.start (.scope true true)) =
      some ⟨n₁, some (.scoped pin)⟩ := by
    simp [Restart.step, startStep, hf, hp, n₁]
  have hguard : Restart.step K wallet ⟨n₁, some (.scoped pin)⟩ (.start (.guard true)) =
      some ⟨n₂, some (.guarded pin)⟩ := by
    simp [Restart.step, startStep, n₁, n₂, hn]
  have hload : Restart.step K wallet ⟨n₂, some (.guarded pin)⟩ (.start (.load true)) =
      some ⟨n₂, some (.loaded pin pending)⟩ := rfl
  have hrefill : Restart.step K wallet ⟨n₂, some (.loaded pin pending)⟩
      (.start (.refill fun _ => true)) =
      some ⟨refill K pending (fun _ => true) n₂, some (.refilled pin)⟩ := rfl
  have hrun : Run (Restart.step K wallet) Unreorganised ⟨n, some .serving⟩ ⟨n, some .serving⟩ :=
    .refl _
  have hscoped := hrun.tail (e := Restart.Event.start (.scope true true))
    ⟨⟨rfl, rfl⟩, by simp⟩ hscope
  have hguarded := hscoped.tail (e := Restart.Event.start (.guard true)) ⟨rfl, by simp⟩ hguard
  have hloaded := hguarded.tail (e := Restart.Event.start (.load true)) ⟨rfl, by simp⟩ hload
  have hrefilled := hloaded.tail (e := Restart.Event.start (.refill fun _ => true))
    ⟨fun _ => rfl, by simp⟩ hrefill
  exact ⟨_, _, hrefilled, rfl⟩

def toyVariants (count : ℕ) : List SignedTransaction := (List.range count).map toyVariant

theorem toyVariants_size {count : ℕ} (h : count ≤ 65536) :
    (fileAll (SignedTransaction.txId toyPrimitives) (toyVariants count) ∅).size = count := by
  have hids : ((toyVariants count).map (SignedTransaction.txId toyPrimitives)).Nodup := by
    unfold toyVariants
    rw [List.map_map]
    refine List.Nodup.map_on ?_ List.nodup_range
    intro i hi j hj he
    rw [List.mem_range] at hi hj
    exact toyVariant_inj (by omega) (by omega) he
  have hfree : freeKeys (SignedTransaction.txId toyPrimitives) (toyVariants count) ∅ =
      ((toyVariants count).map (SignedTransaction.txId toyPrimitives)).toFinset := by
    simp [freeKeys]
  rw [size_fileAll, hfree, List.toFinset_card_of_nodup hids]
  simp [toyVariants]

theorem toyVariants_checked {l : RewardLedger}
    (h : checkSpend toyPrimitives l toySpend = .ok ()) (count : ℕ) :
    ∀ tx ∈ toyVariants count, checkSpend toyPrimitives l tx = .ok () := by
  intro tx htx
  obtain ⟨i, -, rfl⟩ := List.mem_map.mp htx
  exact toyVariant_checked h i

theorem freeKeys_single {m : ExtTreeMap Hash SignedTransaction} {tx : SignedTransaction}
    {K : Primitives} (h : tx.txId K ∉ m) :
    (freeKeys (SignedTransaction.txId K) [tx] m).card = 1 := by
  simp [freeKeys, Finset.filter_singleton, h]

theorem mempool_bounded_sample : ∃ p : Process,
    Run (Restart.step toyPrimitives (toyWalletKey 9)) (Roomy toyPrimitives)
      (booted toyPrimitives [] .mock) p ∧
    p.node.state.mempool.size = 1 ∧ p.node.state.mempool.size ≤ maxMempoolSize := by
  obtain ⟨n, target, r, hrun, hidle, hempty, -, hplan, htxs⟩ :=
    toyAdoptions_spec (Roomy toyPrimitives) (by
      intro e he p
      unfold toyAdoptions toyAdoption at he
      obtain ⟨a, ha, rfl⟩ := List.mem_map.mp he
      simp only [List.mem_append, List.mem_cons, List.not_mem_nil, or_false] at ha
      rcases ha with (rfl | rfl) | rfl | rfl <;> exact fun txs hb => by cases hb)
  obtain ⟨n₁, n₂, hrewind, hpublish, hphase, hstate, hpool⟩ :=
    reorganise (K := toyPrimitives) (toyWalletKey 9) hidle hplan
  have hone : n₂.state.mempool.size = 1 := by
    rw [hpool, htxs, size_fileAll, hempty, freeKeys_single (by simp)]
    rfl
  have hroom : Roomy toyPrimitives ⟨n₁, none⟩ (.run (.loop .publishRewound)) := by
    intro txs hb
    simp only [putBack, hphase] at hb
    obtain rfl := Option.some.inj hb
    unfold HasRoom
    rw [hstate, htxs, hempty, freeKeys_single (by simp)]
    decide
  have hall := (hrun.tail (show Roomy toyPrimitives ⟨n, none⟩ (.run (.loop (.rewind _))) from
    fun txs hb => by cases hb) hrewind).tail hroom hpublish
  exact ⟨⟨n₂, none⟩, hall, hone, (mempool_bounded hall).1⟩

theorem size_congr {m m' : ExtTreeMap Hash SignedTransaction} (h : ∀ k, k ∈ m ↔ k ∈ m') :
    m.size = m'.size := by
  have hle : ∀ {m m' : ExtTreeMap Hash SignedTransaction}, (∀ k, k ∈ m → k ∈ m') →
      m.size ≤ m'.size := fun h =>
    size_le_of_embedding (f := Prod.fst)
      (fun k tx hk => h k (ExtTreeMap.mem_iff_isSome_getElem?.mpr (by rw [hk]; rfl)))
      fun _ _ _ _ _ _ he => he
  exact Nat.le_antisymm (hle fun k => (h k).mp) (hle fun k => (h k).mpr)

theorem mem_reloaded {K : Primitives} {txs : List SignedTransaction} {k : Hash}
    {valid : SignedTransaction → Bool} (hv : ∀ tx ∈ txs, valid tx = true) :
    k ∈ (((fileAll (SignedTransaction.txIdHex K) txs ∅).toList.map Prod.snd).filter valid).map
        (SignedTransaction.txId K) ↔ k ∈ txs.map (SignedTransaction.txId K) := by
  simp only [List.mem_map, List.mem_filter]
  constructor
  · rintro ⟨tx, ⟨⟨⟨hex, q⟩, hq, rfl⟩, -⟩, rfl⟩
    rw [ExtTreeMap.mem_toList_iff_getElem?_eq_some] at hq
    rcases getElem?_fileAll _ _ _ hq with ⟨hin, -⟩ | hnone
    · exact ⟨q, hin, rfl⟩
    · simp at hnone
  · rintro ⟨tx, htx, rfl⟩
    have hfiled : Filed (SignedTransaction.txIdHex K)
        (fileAll (SignedTransaction.txIdHex K) txs ∅) tx := filed_fileAll htx ∅
    obtain ⟨q, hq, hkey⟩ := hfiled
    have hin : q ∈ txs := by
      rcases getElem?_fileAll _ _ _ hq with ⟨hin, -⟩ | hnone
      · exact hin
      · simp at hnone
    refine ⟨q, ⟨⟨(tx.txIdHex K, q), ExtTreeMap.mem_toList_iff_getElem?_eq_some.mpr hq, rfl⟩,
      hv q hin⟩, txIdHex_inj hkey⟩

theorem toyPayment_new {m : ExtTreeMap Hash SignedTransaction} {count : ℕ}
    (h : m = fileAll (SignedTransaction.txId toyPrimitives) (toyVariants count) ∅) :
    toyPayment.txId toyPrimitives ∉ m := by
  rw [h, mem_fileAll]
  rintro (hin | hin)
  · obtain ⟨tx, htx, he⟩ := List.mem_map.mp hin
    obtain ⟨i, -, rfl⟩ := List.mem_map.mp htx
    exact toyPayment_apart i he.symm
  · simp at hin

theorem toyVariants_succ (count : ℕ) (k : Hash) :
    k ∈ (toyVariants (count+1)).map (SignedTransaction.txId toyPrimitives) ↔
      k ∈ (toyVariants count).map (SignedTransaction.txId toyPrimitives) ∨
        k = (toyVariant count).txId toyPrimitives := by
  simp [toyVariants, List.range_succ]

theorem rollback_overflows :
    ∃ p, Run (Restart.step toyPrimitives (toyWalletKey 9)) Unstopped
        (booted toyPrimitives [] .mock) p ∧
      p.node.state.mempool.size = maxMempoolSize+1 := by
  obtain ⟨n, target, r, hstart, hidle, hempty, hcheck, hplan, htxs⟩ :=
    toyAdoptions_spec Unstopped (by
      intro e he p
      obtain ⟨a, -, rfl⟩ := List.mem_map.mp he
      exact ⟨trivial, by simp⟩)
  obtain ⟨m, hfilled, hframed, hpool, -⟩ := fill (toyWalletKey 9) Unstopped
    (fun _ _ => ⟨trivial, by simp⟩) none (toyVariants maxMempoolSize) n hidle
    (toyVariants_checked hcheck _) (by simp [hempty, toyVariants])
  have hsame : plan (toySilentPeer toyPaid) m.parts = .rollback target r := by
    rw [← hplan]
    exact plan_congr hframed.cursor hframed.blocks hframed.genesisHash
  obtain ⟨m₁, m₂, hrewind, hpublish, -, -, hlast⟩ :=
    reorganise (K := toyPrimitives) (toyWalletKey 9) (hframed.phase.trans hidle) hsame
  have hrewound := (hstart.trans hfilled).tail
    (e := Restart.Event.run (.loop (.rewind (toySilentPeer toyPaid)))) ⟨trivial, by simp⟩ hrewind
  have hpublished := hrewound.tail (e := Restart.Event.run (.loop .publishRewound))
    ⟨trivial, by simp⟩ hpublish
  refine ⟨⟨m₂, none⟩, hpublished, ?_⟩
  rw [hempty] at hpool
  rw [hlast, htxs, size_fileAll, freeKeys_single (toyPayment_new hpool), hpool,
    toyVariants_size (by decide)]

theorem start_overflows :
    ∃ p, Run (Restart.step toyPrimitives (toyWalletKey 2)) Unreorganised
        (booted toyPrimitives [] .mock) p ∧
      p.node.state.mempool.size = maxMempoolSize+1 := by
  obtain ⟨⟨n, starting⟩, hn, hfacts⟩ := (Option.any_eq_true _ _).mp toyMined_facts
  simp only [Bool.and_eq_true, Option.isNone_iff_eq_none, decide_eq_true_eq,
    ExtTreeMap.isEmpty_iff] at hfacts
  obtain ⟨⟨⟨⟨⟨⟨rfl, hphase⟩, hempty⟩, htable⟩, hcheck⟩, hnullifiers⟩, hreloads⟩ := hfacts
  have hmined : Run (Restart.step toyPrimitives (toyWalletKey 2)) Unreorganised toyBooted
      ⟨n, none⟩ := by
    refine (Admitted.of_forall ?_ toyBooted).run hn
    intro e he p
    unfold toyMined toyMining toyClosing at he
    obtain ⟨a, ha, rfl⟩ := List.mem_map.mp he
    simp only [List.mem_append, List.mem_cons, List.not_mem_nil, or_false] at ha
    rcases ha with ((rfl | rfl) | rfl | rfl | rfl | rfl) | rfl <;> exact ⟨trivial, by simp⟩
  obtain ⟨m, hfilled, hframed, hpool, hrows⟩ := fill (toyWalletKey 2) Unreorganised
    (fun _ _ => ⟨trivial, by simp⟩) none (toyVariants maxMempoolSize) n (idle_of hphase)
    (toyVariants_checked hcheck _) (by simp [hempty, toyVariants])
  let served := (serve toyPrimitives ⟨m.ledger.csv, m.store.mempool⟩ m).node
  have hserve : Restart.step toyPrimitives (toyWalletKey 2) ⟨m, none⟩
      (.restart ⟨m.ledger.csv, m.store.mempool⟩) = some ⟨served, some .serving⟩ := rfl
  have hserved := (hmined.trans hfilled).tail
    (e := Restart.Event.restart ⟨m.ledger.csv, m.store.mempool⟩) ⟨⟨rfl, rfl, rfl⟩, by simp⟩ hserve
  have hsame : toyReloads m = true := by
    rw [toyReloads_congr hframed.ledger hframed.chainState hframed.blocks]
    exact hreloads
  simp only [toyReloads, Bool.and_eq_true, decide_eq_true_eq] at hsame
  obtain ⟨hopened, hfile⟩ := hsame
  obtain ⟨file, hfile, hscoped⟩ := (Option.any_eq_true _ _).mp hfile
  simp only [Bool.and_eq_true] at hscoped
  -- The one that is queued before the reload.
  obtain ⟨q, hqueued, hframed', hpool', hrows'⟩ := fill (toyWalletKey 2) Unreorganised
    (fun _ _ => ⟨trivial, by simp⟩) (some .serving) [toyVariant maxMempoolSize] served rfl
    (by
      intro tx htx
      obtain rfl := List.mem_singleton.mp htx
      exact toyVariant_checked hopened _) (by simp [served, serve, freshState, maxMempoolSize])
  have hpointer : loadOrCreateChainState toyPrimitives true q.chainState = some file := by
    rw [hframed'.chainState]
    exact hfile
  have hpin : (resumeCheckpoint true q.store file).isSome = true := by
    have h := hscoped.1
    simp only [resumeCheckpoint, latestCheckpoint] at h ⊢
    rw [hframed'.blocks]
    exact h
  have hguard : (resumeNullifiers true q.store).isSome = true := by
    rw [resumeNullifiers_congr hframed'.blocks]
    exact (congrArg Option.isSome (resumeNullifiers_congr hframed.blocks)).trans hnullifiers
  obtain ⟨z, stage, hreloaded, hlast⟩ := reloaded (toyWalletKey 2) hpointer hpin hguard
  refine ⟨⟨z, some stage⟩, (hserved.trans hqueued).trans hreloaded, ?_⟩
  have htable' : q.store.mempool = fileAll (SignedTransaction.txIdHex toyPrimitives)
      (toyVariants (maxMempoolSize+1)) ∅ := by
    rw [hrows', show served.store.mempool = m.store.mempool from rfl, hrows, htable, toyVariants,
      toyVariants, List.range_succ, List.map_append]
    exact (List.foldl_append).symm
  have hvalid : ∀ tx ∈ toyVariants (maxMempoolSize+1),
      stillValid toyPrimitives (.openScoped q.ledger.csv file.height) tx = true := by
    intro tx htx
    obtain ⟨i, -, rfl⟩ := List.mem_map.mp htx
    rw [hframed'.ledger]
    exact toyVariant_stillValid hscoped.2 i
  have hsize : (fileAll (SignedTransaction.txId toyPrimitives)
      (toyVariants (maxMempoolSize+1)) ∅).size = maxMempoolSize+1 := toyVariants_size (by decide)
  refine (size_congr fun k => ?_).trans hsize
  rw [hlast, mem_fileAll, mem_fileAll, htable', mem_reloaded hvalid, hpool', mem_fileAll,
    toyVariants_succ]
  simp [served, serve, freshState]

theorem full_mempool_overflows :
    (∃ p, Run (Restart.step toyPrimitives (toyWalletKey 9)) Unstopped
        (booted toyPrimitives [] .mock) p ∧
      p.node.state.mempool.size = maxMempoolSize+1) ∧
    ∃ p, Run (Restart.step toyPrimitives (toyWalletKey 2)) Unreorganised
        (booted toyPrimitives [] .mock) p ∧
      p.node.state.mempool.size = maxMempoolSize+1 :=
  ⟨rollback_overflows, start_overflows⟩

end BinaChain.MempoolBound
