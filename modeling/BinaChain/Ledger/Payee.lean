import BinaChain.Ledger.Replay

/-!
# Whom a block pays

The miner's name is the key to which fees and the reward are credited. Senders
and recipients are written in canonical hexadecimal, so a name in any other
spelling is an account of its own that nothing but a block can pay.
-/

set_option autoImplicit false

namespace BinaChain.Payee
open BinaChain.Word BinaChain.Text BinaChain.Crypto BinaChain.Transaction BinaChain.Maps
open BinaChain.Rewards BinaChain.Execution BinaChain.Replay Std

theorem totalsOf_eq {l l' : RewardLedger} : totalsOf l = totalsOf l' ↔
    l.balances = l'.balances ∧ l.nonces = l'.nonces ∧ l.totalMined = l'.totalMined := by
  simp [totalsOf]

theorem accepted_congr {K : Primitives} {l l' : RewardLedger} {s : SignedTransaction}
    (h : totalsOf l = totalsOf l') : Accepted K l s ↔ Accepted K l' s := by
  obtain ⟨hb, hn, -⟩ := totalsOf_eq.mp h
  unfold Accepted ledgerBook
  rw [hb, hn]

theorem applyTransactions_cons (K : Primitives) (height : ℕ) (miner : Str) (timestamp : ℕ)
    (l : RewardLedger) (s : SignedTransaction) (txs : List SignedTransaction) :
    (applyTransactions K height miner timestamp l (s :: txs)).2 =
      (applyTransactions K height miner timestamp
        (l.applyTransaction K height s miner timestamp).2 txs).2 := by
  rw [applyTransactions]
  cases l.applyTransaction K height s miner timestamp with
  | mk result l' => cases result <;> rfl

structure Unpaid (reward : ℕ) (txs : List SignedTransaction) : Prop where
  reward : reward = 0
  fees : ∀ tx ∈ txs, tx.tx.fee = 0

theorem simulateTransaction_unpaid {K : Primitives} {l : RewardLedger} {tx : SignedTransaction}
    (h : tx.tx.fee = 0) (miner miner' : Str)
    (acc : RewardLedger.Overlay × List SignedTransaction) :
    simulateTransaction K l miner acc tx = simulateTransaction K l miner' acc tx := by
  simp [simulateTransaction, h]

theorem simulate_unpaid {K : Primitives} {l : RewardLedger} {reward : ℕ}
    {txs : List SignedTransaction} (h : Unpaid reward txs) (miner miner' : Str) :
    simulateBlockExecution K l txs miner reward = simulateBlockExecution K l txs miner' reward := by
  have hfold : ∀ acc, txs.foldl (simulateTransaction K l miner) acc =
      txs.foldl (simulateTransaction K l miner') acc := by
    intro acc
    exact List.foldl_ext _ _ acc fun a tx ht =>
      simulateTransaction_unpaid (h.fees tx ht) miner miner' a
  simp [simulateBlockExecution_eq, hfold, h.reward]

theorem settle_unpaid {K : Primitives} {l l' : RewardLedger} {s : SignedTransaction}
    (h : totalsOf l = totalsOf l') (hf : s.tx.fee = 0) (height : ℕ) (miner miner' : Str)
    (timestamp : ℕ) : totalsOf (settle K l height s miner timestamp) =
      totalsOf (settle K l' height s miner' timestamp) := by
  obtain ⟨hb, hn, ht⟩ := totalsOf_eq.mp h
  simp [totalsOf, settle, settleBalances, hf, hb, hn, ht]

theorem transactions_unpaid (K : Primitives) (height : ℕ) (miner miner' : Str) (timestamp : ℕ)
    {txs : List SignedTransaction} (hf : ∀ tx ∈ txs, tx.tx.fee = 0) :
    ∀ l l' : RewardLedger, totalsOf l = totalsOf l' →
      totalsOf (applyTransactions K height miner timestamp l txs).2 =
        totalsOf (applyTransactions K height miner' timestamp l' txs).2 := by
  induction txs with
  | nil => exact fun l l' h => h
  | cons s txs ih =>
    intro l l' h
    rw [applyTransactions_cons, applyTransactions_cons]
    apply ih fun tx ht => hf tx (List.mem_cons_of_mem _ ht)
    by_cases hacc : Accepted K l s
    · rw [applyTransaction_accepted hacc, applyTransaction_accepted ((accepted_congr h).mp hacc)]
      exact settle_unpaid h (hf s List.mem_cons_self) height miner miner' timestamp
    · obtain ⟨e, hrej⟩ := applyTransaction_rejected hacc height miner timestamp
      obtain ⟨e', hrej'⟩ := applyTransaction_rejected ((accepted_congr h).not.mp hacc) height
        miner' timestamp
      rw [hrej, hrej']
      exact h

theorem execute_unpaid {K : Primitives} {l : RewardLedger} {reward : ℕ}
    {txs : List SignedTransaction} (h : Unpaid reward txs) (height : ℕ) (miner miner' : Str)
    (timestamp : ℕ) : totalsOf (executeBlock K height miner reward timestamp l txs) =
      totalsOf (executeBlock K height miner' reward timestamp l txs) := by
  unfold executeBlock RewardLedger.credit
  rw [if_pos h.reward, if_pos h.reward]
  exact transactions_unpaid K height miner miner' timestamp h.fees l l rfl

/-- The name is no canonical spelling. -/
def Foreign (a : Str) : Prop := ∀ bs, a ≠ Hex.encode bs

theorem getD_creditBalance_ne {m : Accounts} {a b : Str} (h : b ≠ a) (x : ℕ) :
    (creditBalance m b x).getD a 0 = m.getD a 0 := by
  rw [creditBalance, getD_insert_eq, if_neg h]

theorem settle_other {m : Accounts} {s : SignedTransaction} {a : Str} (ha : Foreign a) :
    (creditBalance (debit m s.fromHex (s.tx.amount+s.tx.fee)) s.toHex s.tx.amount).getD a 0 =
      m.getD a 0 := by
  have hto : s.toHex ≠ a := Ne.symm (ha _)
  have hfrom : s.fromHex ≠ a := Ne.symm (ha _)
  rw [getD_creditBalance_ne hto, debit, getD_insert_eq, if_neg hfrom]

theorem execute_untouched (K : Primitives) {miner a : Str} (ha : Foreign a) (hm : miner ≠ a)
    (height reward timestamp : ℕ) (l : RewardLedger) (txs : List SignedTransaction) :
    (executeBlock K height miner reward timestamp l txs).balance a = l.balance a := by
  have htxs : ∀ l : RewardLedger,
      (applyTransactions K height miner timestamp l txs).2.balance a = l.balance a := by
    induction txs with
    | nil => exact fun _ => rfl
    | cons s txs ih =>
      intro l
      rw [applyTransactions_cons, ih]
      by_cases hacc : Accepted K l s
      · rw [applyTransaction_accepted hacc]
        unfold RewardLedger.balance settle settleBalances
        dsimp only
        split
        · rw [getD_creditBalance_ne hm, settle_other ha]
        · exact settle_other ha
      · obtain ⟨e, hrej⟩ := applyTransaction_rejected hacc height miner timestamp
        rw [hrej]
  unfold executeBlock RewardLedger.credit
  split
  · exact htxs l
  · rw [← htxs l]
    simp only [RewardLedger.balance, getD_insert_eq, if_neg hm]

def AllAccepted (K : Primitives) (height : ℕ) (miner : Str) (timestamp : ℕ) :
    RewardLedger → List SignedTransaction → Prop
  | _, [] => True
  | l, s :: txs => Accepted K l s ∧
    AllAccepted K height miner timestamp (settle K l height s miner timestamp) txs

theorem simulate_allAccepted (K : Primitives) (l : RewardLedger) (miner : Str)
    (height timestamp reward : ℕ) (txs : List SignedTransaction) :
    ∀ (l' : RewardLedger) (overlay : RewardLedger.Overlay) (applied : List SignedTransaction),
      overlayBook l overlay = ledgerBook l' → Roomy l' txs.length reward →
      (txs.foldl (simulateTransaction K l miner) (overlay, applied)).2.length =
        applied.length+txs.length →
      AllAccepted K height miner timestamp l' txs := by
  induction txs with
  | nil => exact fun _ _ _ _ _ _ => trivial
  | cons s txs ih =>
    intro l' overlay applied hbook hroom hlen
    rw [List.foldl_cons] at hlen
    by_cases hacc : Accepted K l' s
    · have hroom' := settle_roomy hacc hroom height miner timestamp
      obtain ⟨overlay', hsim, hbook'⟩ :=
        simulateTransaction_settles hacc hbook hroom height miner timestamp applied
      rw [hsim] at hlen
      refine ⟨hacc, ih _ overlay' (applied++[s]) hbook' hroom' ?_⟩
      rw [hlen]
      simp only [List.length_append, List.length_cons, List.length_nil]
      omega
    · rw [simulateTransaction_refused (by rw [hbook]; exact hacc)] at hlen
      obtain ⟨selected, happ, -, hle⟩ := simulate_selected K l miner txs (overlay, applied)
      rw [happ, List.length_append, List.length_cons] at hlen
      dsimp only at hlen
      omega

theorem settle_paid {m : Accounts} {s : SignedTransaction} {a : Str} (ha : Foreign a)
    (hf : s.tx.amount+s.tx.fee ≤ m.getD s.fromHex 0) (ht : total m ≤ u64Max) :
    (settleBalances m s a).getD a 0 = m.getD a 0+s.tx.fee := by
  have hne : a ≠ [] := ha []
  have hother := settle_other (m := m) (s := s) ha
  have hdebit := total_debit hf
  have hle := getD_le_total (debit m s.fromHex (s.tx.amount+s.tx.fee)) a
  have hkept : (debit m s.fromHex (s.tx.amount+s.tx.fee)).getD a 0 = m.getD a 0 := by
    have hfrom : s.fromHex ≠ a := Ne.symm (ha _)
    rw [debit, getD_insert_eq, if_neg hfrom]
  unfold settleBalances
  dsimp only
  split
  · rw [creditBalance, getD_insert_eq, if_pos rfl, hother, satAdd_of_le (by omega)]
  · rename_i hz
    have hz : s.tx.fee = 0 := by
      by_contra hpos
      exact hz ⟨Nat.pos_of_ne_zero hpos, hne⟩
    rw [hother, hz]
    rfl

theorem transactions_paid (K : Primitives) {a : Str} (ha : Foreign a) (height timestamp : ℕ)
    (txs : List SignedTransaction) : ∀ l : RewardLedger, total l.balances ≤ u64Max →
      AllAccepted K height a timestamp l txs →
      (applyTransactions K height a timestamp l txs).2.balance a =
        l.balance a+(txs.map fun tx => tx.tx.fee).sum := by
  induction txs with
  | nil => exact fun _ _ _ => rfl
  | cons s txs ih =>
    intro l ht hall
    have hle := total_settleBalances_le (m := l.balances) hall.1.funded a
    have hone : (settle K l height s a timestamp).balance a = l.balance a+s.tx.fee :=
      settle_paid ha hall.1.funded ht
    rw [applyTransactions_cons, applyTransaction_accepted hall.1,
      ih (settle K l height s a timestamp) (Nat.le_trans hle ht) hall.2, hone, List.map_cons,
      List.sum_cons]
    omega

theorem execute_paid {K : Primitives} {l : RewardLedger} {reward : ℕ}
    {txs : List SignedTransaction} {a : Str} (ha : Foreign a) (hroom : Roomy l txs.length reward)
    (hall : (simulateBlockExecution K l txs a reward).1.length = txs.length)
    (height timestamp : ℕ) : (executeBlock K height a reward timestamp l txs).balance a =
      l.balance a+(txs.map fun tx => tx.tx.fee).sum+reward := by
  have hsup := hroom.supply
  have hacc : AllAccepted K height a timestamp l txs := by
    refine simulate_allAccepted K l a height timestamp reward txs l ∅ []
      (overlayBook_empty l) hroom ?_
    rw [simulateBlockExecution_eq] at hall
    simpa using hall
  have hpaid := transactions_paid K ha height timestamp txs l (by omega) hacc
  have htot := total_applyTransactions_le K height a timestamp txs l
  have hle := getD_le_total (applyTransactions K height a timestamp l txs).2.balances a
  have hfit : (applyTransactions K height a timestamp l txs).2.balance a+reward ≤ u64Max := by
    unfold RewardLedger.balance
    omega
  unfold executeBlock RewardLedger.credit
  split
  · rename_i hz
    rw [hpaid, hz]
    rfl
  · rw [← hpaid]
    simp only [RewardLedger.balance, getD_insert_eq, if_pos]
    exact wrapAdd_of_le hfit

end BinaChain.Payee
