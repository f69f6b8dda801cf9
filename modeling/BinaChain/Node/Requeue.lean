import BinaChain.Node.ChainWork
import BinaChain.Node.Range
import BinaChain.Ledger.Identity
import BinaChain.Support.Filing

/-!
# Transactions across a reorganisation

A rollback files the transactions of the blocks it removes in both copies of
the mempool. Each record adopted afterwards takes exactly its own transactions
out of both, so a transaction is missing only if an adopted block has it.
-/

set_option autoImplicit false

namespace BinaChain.Requeue
open BinaChain.Word BinaChain.Text BinaChain.Crypto BinaChain.Transaction BinaChain.BitcoinEntropy
open BinaChain.State BinaChain.Store BinaChain.Mining BinaChain.Sync BinaChain.Reconcile
open BinaChain.ChainWork BinaChain.Filing BinaChain.Range Std

/-- The records verify and are applied one after the other. -/
inductive Follows (K : Primitives) (env : SyncEnv) : Parts → List BlockRecord → Parts → Prop
  | nil (x : Parts) : Follows K env x [] x
  | cons {x x' y : Parts} {r : BlockRecord} {rest : List BlockRecord} :
      syncRecord K env x r = some x' → Follows K env x' rest y → Follows K env x (r :: rest) y

theorem Follows.append {K : Primitives} {env : SyncEnv} {x y z : Parts}
    {rs rs' : List BlockRecord} (h : Follows K env x rs y) (h' : Follows K env y rs' z) :
    Follows K env x (rs++rs') z := by
  induction h with
  | nil => exact h'
  | cons hs _ ih => exact .cons hs (ih h')

theorem syncPage_follows (K : Primitives) (env : SyncEnv) (page : List BlockRecord) :
    ∀ x : Parts, Follows K env x (adoptedPage K env x page) (syncPage K env x page).1 := by
  induction page with
  | nil => exact fun x => .nil x
  | cons r rest ih =>
    intro x
    unfold adoptedPage syncPage
    cases hs : syncRecord K env x r with
    | none => exact .nil x
    | some x' => exact .cons hs (ih x')

theorem sync_follows (K : Primitives) (env : SyncEnv) (target : ℕ)
    (replies : List (Option (List BlockRecord))) :
    ∀ x : Parts, Follows K env x (adopted K env target x replies)
      (syncForwardFromPeer K env target x replies) := by
  induction replies with
  | nil => exact fun x => .nil x
  | cons reply replies ih =>
    intro x
    unfold adopted syncForwardFromPeer
    split
    · exact .nil x
    · rcases reply with - | (- | ⟨r, rest⟩)
      · exact .nil x
      · exact .nil x
      · have hpage := syncPage_follows K env (r :: rest) x
        simp only
        generalize syncPage K env x (r :: rest) = next at hpage ⊢
        obtain ⟨x', stop⟩ := next
        simp only at hpage ⊢
        cases stop with
        | true => simpa using hpage
        | false => exact hpage.append (ih x')

theorem Follows.heights {K : Primitives} {env : SyncEnv} {x y : Parts} {rs : List BlockRecord}
    (h : Follows K env x rs y) :
    rs.map BlockRecord.height = List.range' (x.cursor.height+1) rs.length ∧
      y.cursor.height = x.cursor.height+rs.length := by
  induction h with
  | nil => exact ⟨rfl, rfl⟩
  | @cons x x' y r rest hs _ ih =>
    unfold syncRecord at hs
    obtain ⟨claim, hc, rfl⟩ := Option.map_eq_some_iff.mp hs
    have hr : r.height = x.cursor.height+1 := (checkRecord_iff.mp hc).height
    obtain ⟨hheights, htop⟩ := ih
    have hx : (publishSynced K (applyRecord K (env.stored r.height) x r claim) r).cursor.height =
        x.cursor.height+1 := hr
    rw [hx] at hheights htop
    refine ⟨?_, ?_⟩
    · rw [List.map_cons, List.length_cons, List.range'_succ, hheights, hr]
    · rw [htop, List.length_cons]
      omega

theorem syncRecord_keyed {K : Primitives} {env : SyncEnv} {x x' : Parts} {r : BlockRecord}
    (hx : Keyed x.store) (h : syncRecord K env x r = some x') : Keyed x'.store := by
  unfold syncRecord at h
  obtain ⟨claim, -, rfl⟩ := Option.map_eq_some_iff.mp h
  refine Keyed.congr ?_ (BlockStore.mempoolRemoves_blocks K r.transactions _)
  unfold applyRecord
  dsimp only
  split
  · exact hx.insertBlock r
  · exact hx

def Pooled (K : Primitives) (s : NodeState) (tx : SignedTransaction) : Prop :=
  Filed (SignedTransaction.txId K) s.mempool tx

def Persisted (K : Primitives) (s : BlockStore) (tx : SignedTransaction) : Prop :=
  Filed (SignedTransaction.txIdHex K) s.mempool tx

def Includes (K : Primitives) (chain : List BlockRecord) (tx : SignedTransaction) : Prop :=
  ∃ b ∈ chain, ∃ q ∈ b.transactions, q.txId K = tx.txId K

theorem txIdHex_inj {K : Primitives} {tx q : SignedTransaction}
    (h : q.txIdHex K = tx.txIdHex K) : q.txId K = tx.txId K :=
  Vector.toList_inj.mp (Hex.encode_injective h)

theorem mempoolInserts_mempool (K : Primitives) (txs : List SignedTransaction) :
    ∀ s : BlockStore, (txs.foldl (BlockStore.mempoolInsert K) s).mempool =
      fileAll (SignedTransaction.txIdHex K) txs s.mempool := by
  induction txs with
  | nil => exact fun _ => rfl
  | cons tx txs ih => exact fun s => ih (s.mempoolInsert K tx)

theorem mempoolRemoves_mempool (K : Primitives) (txs : List SignedTransaction) :
    ∀ s : BlockStore, (txs.foldl (BlockStore.mempoolRemove K) s).mempool =
      removeAll (SignedTransaction.txIdHex K) txs s.mempool := by
  induction txs with
  | nil => exact fun _ => rfl
  | cons tx txs ih => exact fun s => ih (s.mempoolRemove K tx)

/-- What was in one copy of the mempool is still there or in one of the blocks. -/
structure Keeps (K : Primitives) (x : Parts) (chain : List BlockRecord) (y : Parts) : Prop where
  pooled : ∀ tx, Pooled K x.state tx → Includes K chain tx ∨ Pooled K y.state tx
  persisted : ∀ tx, Persisted K x.store tx → Includes K chain tx ∨ Persisted K y.store tx

theorem Includes.mono {K : Primitives} {chain chain' : List BlockRecord} {tx : SignedTransaction}
    (h : Includes K chain tx) (hsub : chain ⊆ chain') : Includes K chain' tx := by
  obtain ⟨b, hb, hq⟩ := h
  exact ⟨b, hsub hb, hq⟩

theorem syncRecord_keeps {K : Primitives} {env : SyncEnv} {x x' : Parts} {r : BlockRecord}
    (h : syncRecord K env x r = some x') : Keeps K x [r] x' := by
  unfold syncRecord at h
  obtain ⟨claim, -, rfl⟩ := Option.map_eq_some_iff.mp h
  constructor
  · intro tx htx
    rcases Filed.removeAll r.transactions _ htx with ⟨q, hq, he⟩ | hkept
    · exact Or.inl ⟨r, List.mem_singleton_self r, q, hq, he⟩
    · exact Or.inr hkept
  · intro tx htx
    have hstored : (applyRecord K (env.stored r.height) x r claim).store.mempool =
        x.store.mempool := by
      unfold applyRecord BlockStore.insertBlock
      dsimp only
      split <;> rfl
    rcases Filed.removeAll r.transactions _ htx with ⟨q, hq, he⟩ | hkept
    · exact Or.inl ⟨r, List.mem_singleton_self r, q, hq, txIdHex_inj he⟩
    · refine Or.inr ?_
      unfold Persisted publishSynced
      dsimp only
      rw [mempoolRemoves_mempool, hstored]
      exact hkept

theorem Follows.keeps {K : Primitives} {env : SyncEnv} {x y : Parts} {rs : List BlockRecord}
    (h : Follows K env x rs y) : Keeps K x rs y := by
  induction h with
  | nil => exact ⟨fun _ h => Or.inr h, fun _ h => Or.inr h⟩
  | @cons x x' y r rest hs _ ih =>
    have hhead : [r] ⊆ r :: rest := by simp
    have htail : rest ⊆ r :: rest := List.subset_cons_self r rest
    have hone := syncRecord_keeps hs
    constructor
    · intro tx htx
      rcases hone.pooled tx htx with hin | hkept
      · exact Or.inl (hin.mono hhead)
      · exact (ih.pooled tx hkept).imp_left fun hin => hin.mono htail
    · intro tx htx
      rcases hone.persisted tx htx with hin | hkept
      · exact Or.inl (hin.mono hhead)
      · exact (ih.persisted tx hkept).imp_left fun hin => hin.mono htail

theorem publishRewound_pooled (K : Primitives) (x : Parts) {rolledBack : List BlockRecord}
    {b : BlockRecord} {tx : SignedTransaction} (hb : b ∈ rolledBack) (htx : tx ∈ b.transactions) :
    Pooled K (publishRewound K x rolledBack).state tx ∧
      Persisted K (publishRewound K x rolledBack).store tx := by
  have hin : tx ∈ rolledBack.flatMap BlockRecord.transactions :=
    List.mem_flatMap.mpr ⟨b, hb, htx⟩
  refine ⟨filed_fileAll hin _, ?_⟩
  unfold Persisted publishRewound
  dsimp only
  rw [mempoolInserts_mempool]
  exact filed_fileAll hin _

theorem publishRewound_keeps (K : Primitives) (x : Parts) (rolledBack : List BlockRecord) :
    Keeps K x [] (publishRewound K x rolledBack) := by
  constructor
  · exact fun tx htx => Or.inr (Filed.fileAll _ _ htx)
  · intro tx htx
    refine Or.inr ?_
    unfold Persisted publishRewound
    dsimp only
    rw [mempoolInserts_mempool]
    exact Filed.fileAll _ _ htx

theorem planRollback_rolledBack {env : ReorgEnv} {x : Parts} {fork : ℕ} {r : Rollback}
    (h : planRollback env x fork = some r) (hf : 0 < fork) : r.rolledBack =
      if env.rangeReadable then
        x.store.getRange (fork+1) x.cursor.height (x.cursor.height-fork+1) else [] := by
  have hg : governingCheckpointHeight fork ≠ 0 := by
    have := governing_bounds hf
    omega
  unfold planRollback at h
  simp only [Option.bind_eq_bind, Option.bind_eq_some_iff, if_neg (Nat.ne_of_gt hf), if_neg hg] at h
  obtain ⟨_, -, _, -, _, -, b, -, seed, -, _, -, _, -, _, -, hr⟩ := h
  obtain rfl := Option.some.inj hr
  rfl

theorem plan_rolledBack {env : ReorgEnv} {x : Parts} {target : ℕ} {r : Rollback}
    (hs : Keyed x.store) (h : plan env x = .rollback target r) (hr : env.rangeReadable = true) :
    r.rolledBack = between x.store (r.forkPoint+1) x.cursor.height := by
  obtain ⟨fork, hpos, hlt, -, hplan⟩ := plan_rollback h
  obtain ⟨rfl, -⟩ := planRollback_block hplan hpos
  rw [planRollback_rolledBack hplan hpos, if_pos hr, getRange_eq hs (by omega)]

/-- After a call that rolled back, with the rolled-back blocks read from the
store and whatever the peer served: the adopted blocks are those above the fork
point; a transaction of a rolled-back block is in one of them or in both copies
of the mempool; nothing has left a copy that is not in one of them. -/
theorem transactions_kept (K : Primitives) (env : ReorgEnv) (x : Parts) (target : ℕ)
    (r : Rollback) (hs : Keyed x.store) (hp : plan env x = .rollback target r)
    (hr : env.rangeReadable = true) :
    let y := reconcileFork K env x
    let chain :=
      adopted K env.sync target (publishRewound K (rewind x r) r.rolledBack) env.pages
    (chain.map BlockRecord.height = List.range' (r.forkPoint+1) chain.length ∧
      y.cursor.height = r.forkPoint+chain.length) ∧
    (∀ height b tx, r.forkPoint < height → height ≤ x.cursor.height →
      x.store.get height = some b → tx ∈ b.transactions →
        Includes K chain tx ∨ (Pooled K y.state tx ∧ Persisted K y.store tx)) ∧
    (∀ tx, Pooled K x.state tx → Includes K chain tx ∨ Pooled K y.state tx) ∧
    (∀ tx, Persisted K x.store tx → Includes K chain tx ∨ Persisted K y.store tx) := by
  intro y chain
  have hy : y = syncForwardFromPeer K env.sync target
      (publishRewound K (rewind x r) r.rolledBack) env.pages := by
    simp only [y, reconcileFork, hp]
  have hfollows : Follows K env.sync (publishRewound K (rewind x r) r.rolledBack) chain y := by
    rw [hy]
    exact sync_follows K env.sync target env.pages _
  have hback := publishRewound_keeps K (rewind x r) r.rolledBack
  have hkept := hfollows.keeps
  refine ⟨hfollows.heights, ?_, ?_, ?_⟩
  · intro height b tx hlo hhi hg htx
    have hb : b ∈ r.rolledBack := by
      rw [plan_rolledBack hs hp hr]
      have he : b.height = height := hs height b hg
      exact (mem_between hs).mpr ⟨by rw [he]; exact hg, by omega, by omega⟩
    obtain ⟨hpool, htable⟩ := publishRewound_pooled K (rewind x r) hb htx
    rcases hkept.pooled tx hpool with hin | hpool
    · exact Or.inl hin
    · exact (hkept.persisted tx htable).imp_right fun htable => ⟨hpool, htable⟩
  · intro tx htx
    rcases hback.pooled tx htx with ⟨b, hb, -⟩ | hpool
    · cases hb
    · exact hkept.pooled tx hpool
  · intro tx htx
    rcases hback.persisted tx htx with ⟨b, hb, -⟩ | htable
    · cases hb
    · exact hkept.persisted tx htable

def toyPayment : SignedTransaction := Identity.toyHybridTransfer 1 (toyWallet 2) 5 0 1

def toyPaid : Parts :=
  (syncRecord toyPrimitives toyEnv toyFirst (toyRecord 2 7 toyFirst [toyPayment])).getD toyFirst

theorem toyPaid_keyed : Keyed toyPaid.store := by
  have hgetD : ∀ {x : Parts} (r : BlockRecord), Keyed x.store →
      Keyed ((syncRecord toyPrimitives toyEnv x r).getD x).store := by
    intro x r hx
    cases hs : syncRecord toyPrimitives toyEnv x r with
    | none => exact hx
    | some x' => exact syncRecord_keyed hx hs
  have hfirst : Keyed toyFirst.store := by
    unfold toyFirst toyExtend
    exact hgetD _ keyed_empty
  unfold toyPaid
  exact hgetD _ hfirst

set_option maxRecDepth 100000 in
theorem transactions_kept_sample :
    let y := reconcileFork toyPrimitives (toySilentPeer toyPaid) toyPaid
    Pooled toyPrimitives y.state toyPayment ∧ Persisted toyPrimitives y.store toyPayment := by
  obtain ⟨hheight, hrow, hplan⟩ : toyPaid.cursor.height = 2 ∧
      (toyPaid.store.get 2).any (fun b => b.transactions = [toyPayment]) ∧
      (plan (toySilentPeer toyPaid) toyPaid).takenBack.any fun r => r.forkPoint == 1 := by
    decide +kernel
  cases hp : plan (toySilentPeer toyPaid) toyPaid with
  | stay => rw [hp] at hplan; cases hplan
  | extend target => rw [hp] at hplan; cases hplan
  | rollback target r =>
    rw [hp] at hplan
    obtain ⟨b, hb, htxs⟩ := (Option.any_eq_true _ _).mp hrow
    have hkept := transactions_kept toyPrimitives (toySilentPeer toyPaid) toyPaid target r
      toyPaid_keyed hp rfl
    have hfork : r.forkPoint < 2 := Nat.lt_of_le_of_lt (Nat.le_of_eq (beq_iff_eq.mp hplan)) (by decide)
    rcases hkept.2.1 2 b toyPayment hfork (Nat.le_of_eq hheight.symm) hb
      (by rw [of_decide_eq_true htxs]; exact List.mem_singleton_self _) with ⟨c, hc, -⟩ | hboth
    · cases hc
    · exact hboth

end BinaChain.Requeue
