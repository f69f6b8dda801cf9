import BinaChain.Core.Rewards
import Mathlib.Data.Set.Insert
import Mathlib.Logic.Function.Basic

/-!
# Execution and its simulation

The ledger mutates two maps and the simulation writes an overlay. Both are
read as one book of accounts, where a transfer is exact arithmetic; the state
root commits to nothing but the book.
-/

set_option autoImplicit false

namespace BinaChain.Execution
open BinaChain.Word BinaChain.Text BinaChain.Crypto BinaChain.Transaction BinaChain.Maps
open BinaChain.Rewards Std

/-- The next `n` appends reach the file. -/
def Durable (n : ℕ) (f : CsvFile) : Prop := ∀ o ∈ f.outcomes.take n, o = .written

instance (n : ℕ) (f : CsvFile) : Decidable (Durable n f) :=
  inferInstanceAs (Decidable (∀ o ∈ _, o = AppendOutcome.written))

/-- The loop over a block's transactions, which skips the ones that fail. -/
def applyTransactions (K : Primitives) (height : ℕ) (miner : Str) (timestamp : ℕ) :
    RewardLedger → List SignedTransaction → List SignedTransaction × RewardLedger
  | l, [] => ([], l)
  | l, tx :: txs =>
    match l.applyTransaction K height tx miner timestamp with
    | (.ok (), l') =>
      let (applied, last) := applyTransactions K height miner timestamp l' txs
      (tx :: applied, last)
    | (.error _, l') => applyTransactions K height miner timestamp l' txs

/-- Balance and nonce of every address, and the addresses with an entry. -/
@[ext] structure Book where
  account : Str → ℕ × ℕ
  known : Set Str

namespace Book

def set (b : Book) (a : Str) (v : ℕ × ℕ) : Book :=
  { account := Function.update b.account a v, known := insert a b.known }

def give (b : Book) (a : Str) (x : ℕ) : Book := b.set a ((b.account a).1+x, (b.account a).2)

def take (b : Book) (a : Str) (x : ℕ) : Book := b.set a ((b.account a).1-x, (b.account a).2+1)

def settle (b : Book) (s : SignedTransaction) (miner : Str) : Book :=
  let paid := (b.take s.fromHex (s.tx.amount+s.tx.fee)).give s.toHex s.tx.amount
  if s.tx.fee > 0 ∧ miner ≠ [] then paid.give miner s.tx.fee else paid

def reward (b : Book) (miner : Str) (x : ℕ) : Book := if x > 0 then b.give miner x else b

structure Admits (K : Primitives) (b : Book) (s : SignedTransaction) : Prop where
  verified : s.verify K = .ok ()
  nonce : s.tx.nonce = (b.account s.fromHex).2
  fits : s.tx.amount+s.tx.fee ≤ u64Max
  funded : s.tx.amount+s.tx.fee ≤ (b.account s.fromHex).1

@[simp] theorem set_account (b : Book) (a c : Str) (v : ℕ × ℕ) :
    (b.set a v).account c = if a = c then v else b.account c := by
  simp [set, Function.update_apply, eq_comm]

@[simp] theorem set_set (b : Book) (a : Str) (v w : ℕ × ℕ) : (b.set a v).set a w = b.set a w := by
  simp [set]

theorem le_give (b : Book) (a c : Str) (x : ℕ) :
    (b.account c).1 ≤ ((b.give a x).account c).1 := by
  rw [give, set_account]
  split
  · rename_i h
    subst h
    exact Nat.le_add_right _ _
  · exact Nat.le_refl _

end Book

def bookOf (balances nonces : Accounts) : Book where
  account a := (balances.getD a 0, nonces.getD a 0)
  known := {a | a ∈ balances ∨ a ∈ nonces}

def ledgerBook (l : RewardLedger) : Book := bookOf l.balances l.nonces

def overlayBook (l : RewardLedger) (overlay : RewardLedger.Overlay) : Book where
  account := l.overlayRead overlay
  known := {a | a ∈ l.balances ∨ a ∈ l.nonces ∨ a ∈ overlay}

theorem mem_insert_iff {β : Type} (m : ExtTreeMap Str β) (k a : Str) (v : β) :
    a ∈ m.insert k v ↔ a = k ∨ a ∈ m := by
  rw [ExtTreeMap.mem_insert, LawfulEqCmp.compare_eq_iff_eq, eq_comm]

theorem bookOf_balance (m ns : Accounts) (a : Str) (x : ℕ) :
    bookOf (m.insert a x) ns = (bookOf m ns).set a (x, ns.getD a 0) := by
  ext c
  · simp only [bookOf, Book.set_account, getD_insert_eq]
    split <;> rfl
  · simp only [bookOf, Book.set_account, getD_insert_eq]
    split
    · rename_i h
      rw [h]
    · rfl
  · simp only [bookOf, Book.set, Set.mem_ofPred_eq, Set.mem_insert_iff, mem_insert_iff, or_assoc]

theorem bookOf_nonce (m ns : Accounts) (a : Str) (x : ℕ) :
    bookOf m (ns.insert a x) = (bookOf m ns).set a (m.getD a 0, x) := by
  ext c
  · simp only [bookOf, Book.set_account, getD_insert_eq]
    split
    · rename_i h
      rw [h]
    · rfl
  · simp only [bookOf, Book.set_account, getD_insert_eq]
    split <;> rfl
  · simp only [bookOf, Book.set, Set.mem_ofPred_eq, Set.mem_insert_iff, mem_insert_iff]
    tauto

theorem overlayBook_insert (l : RewardLedger) (overlay : RewardLedger.Overlay) (a : Str)
    (v : ℕ × ℕ) : overlayBook l (overlay.insert a v) = (overlayBook l overlay).set a v := by
  have hread : ∀ c, l.overlayRead (overlay.insert a v) c =
      if a = c then v else l.overlayRead overlay c := by
    intro c
    simp only [RewardLedger.overlayRead, getElem?_insert_eq]
    split <;> rfl
  ext c
  · rw [Book.set_account]
    exact congrArg Prod.fst (hread c)
  · rw [Book.set_account]
    exact congrArg Prod.snd (hread c)
  · simp only [overlayBook, Book.set, Set.mem_ofPred_eq, Set.mem_insert_iff, mem_insert_iff]
    tauto

theorem overlayBook_empty (l : RewardLedger) : overlayBook l ∅ = ledgerBook l := by
  ext c
  · simp [overlayBook, ledgerBook, bookOf, RewardLedger.overlayRead, RewardLedger.balance]
  · simp [overlayBook, ledgerBook, bookOf, RewardLedger.overlayRead, RewardLedger.nonce]
  · simp [overlayBook, ledgerBook, bookOf]

theorem stateRoot_congr (K : Primitives) {l l' : RewardLedger}
    {overlay overlay' : RewardLedger.Overlay}
    (h : overlayBook l overlay = overlayBook l' overlay') :
    l.stateRootWithOverlay K overlay = l'.stateRootWithOverlay K overlay' := by
  have hread : l.overlayRead overlay = l'.overlayRead overlay' := congrArg Book.account h
  have haddr : l.addresses overlay = l'.addresses overlay' := by
    unfold RewardLedger.addresses
    congr 1
    apply ExtTreeSet.ext_mem
    intro c
    have hk : c ∈ (overlayBook l overlay).known ↔ c ∈ (overlayBook l' overlay').known := by rw [h]
    simpa [ExtTreeSet.mem_ofList, overlayBook] using hk
  unfold RewardLedger.stateRootWithOverlay
  rw [haddr, hread]

abbrev Accepted (K : Primitives) (l : RewardLedger) (s : SignedTransaction) : Prop :=
  (ledgerBook l).Admits K s

def settleBalances (balances : Accounts) (s : SignedTransaction) (miner : Str) : Accounts :=
  let paid := creditBalance (debit balances s.fromHex (s.tx.amount+s.tx.fee)) s.toHex s.tx.amount
  if s.tx.fee > 0 ∧ miner ≠ [] then creditBalance paid miner s.tx.fee else paid

def txAppend (K : Primitives) (l : RewardLedger) (height : ℕ) (s : SignedTransaction)
    (miner : Str) (timestamp : ℕ) : Except String Unit × CsvFile :=
  l.csv.append "opening ledger CSV for transaction append"
    (txLine K height s miner l.totalMined timestamp)

def settle (K : Primitives) (l : RewardLedger) (height : ℕ) (s : SignedTransaction)
    (miner : Str) (timestamp : ℕ) : RewardLedger :=
  { balances := settleBalances l.balances s miner
    nonces := l.nonces.insert s.fromHex (satAdd s.tx.nonce 1)
    totalMined := l.totalMined
    csv := (txAppend K l height s miner timestamp).2 }

theorem applyTransaction_accepted {K : Primitives} {l : RewardLedger} {s : SignedTransaction}
    (h : Accepted K l s) (height : ℕ) (miner : Str) (timestamp : ℕ) :
    l.applyTransaction K height s miner timestamp =
      ((txAppend K l height s miner timestamp).1, settle K l height s miner timestamp) := by
  have hc : checkedAdd s.tx.amount s.tx.fee = some (s.tx.amount+s.tx.fee) :=
    checkedAdd_eq_some.mpr ⟨h.fits, rfl⟩
  have hn : s.tx.nonce = l.nonce s.fromHex := h.nonce
  have hb : ¬ l.balance s.fromHex < s.tx.amount+s.tx.fee := Nat.not_lt.mpr h.funded
  have hd : debitChecked l.balances s.fromHex (s.tx.amount+s.tx.fee) =
      (.ok (), debit l.balances s.fromHex (s.tx.amount+s.tx.fee)) := if_neg hb
  simp only [RewardLedger.applyTransaction, h.verified, hn, ne_eq, not_true_eq_false,
    if_false, hc, if_neg hb, hd]
  simp only [settle, settleBalances, txAppend, hn]

theorem applyTransaction_rejected {K : Primitives} {l : RewardLedger} {s : SignedTransaction}
    (h : ¬ Accepted K l s) (height : ℕ) (miner : Str) (timestamp : ℕ) :
    ∃ e, l.applyTransaction K height s miner timestamp = (.error e, l) := by
  unfold RewardLedger.applyTransaction
  cases hv : s.verify K with
  | error e => exact ⟨e, rfl⟩
  | ok u =>
    by_cases hn : s.tx.nonce = l.nonce s.fromHex
    · cases hc : checkedAdd s.tx.amount s.tx.fee with
      | none => simp [hn]
      | some debitTotal =>
        obtain ⟨hfit, rfl⟩ := checkedAdd_eq_some.mp hc
        have hb : l.balance s.fromHex < s.tx.amount+s.tx.fee := by
          by_contra hlt
          exact h ⟨hv, hn, hfit, Nat.not_lt.mp hlt⟩
        simp [hn, hb]
    · simp [hn]

theorem total_creditBalance_le (m : Accounts) (a : Str) (x : ℕ) :
    total (creditBalance m a x) ≤ total m+x := by
  have h := total_insert m a (satAdd (m.getD a 0) x)
  have hs := satAdd_le_add (m.getD a 0) x
  unfold creditBalance
  omega

theorem total_debit {m : Accounts} {a : Str} {x : ℕ} (h : x ≤ m.getD a 0) :
    total (debit m a x)+x = total m := by
  have hi := total_insert m a (m.getD a 0-x)
  unfold debit
  omega

theorem total_settleBalances_le {m : Accounts} {s : SignedTransaction}
    (h : s.tx.amount+s.tx.fee ≤ m.getD s.fromHex 0) (miner : Str) :
    total (settleBalances m s miner) ≤ total m := by
  have hd := total_debit h
  have hp := total_creditBalance_le (debit m s.fromHex (s.tx.amount+s.tx.fee)) s.toHex s.tx.amount
  unfold settleBalances
  split
  · have hf := total_creditBalance_le (creditBalance
      (debit m s.fromHex (s.tx.amount+s.tx.fee)) s.toHex s.tx.amount) miner s.tx.fee
    simp only
    omega
  · simp only
    omega

theorem total_applyTransactions_le (K : Primitives) (height : ℕ) (miner : Str) (timestamp : ℕ)
    (txs : List SignedTransaction) : ∀ l : RewardLedger,
    total (applyTransactions K height miner timestamp l txs).2.balances ≤ total l.balances := by
  induction txs with
  | nil => exact fun l => Nat.le_refl _
  | cons s txs ih =>
    intro l
    unfold applyTransactions
    by_cases hacc : Accepted K l s
    · have hs := total_settleBalances_le (m := l.balances) hacc.funded miner
      have hl := ih (settle K l height s miner timestamp)
      rw [applyTransaction_accepted hacc]
      cases (txAppend K l height s miner timestamp).1 with
      | error e => exact Nat.le_trans hl hs
      | ok u => exact Nat.le_trans hl hs
    · obtain ⟨e, hrej⟩ := applyTransaction_rejected hacc height miner timestamp
      rw [hrej]
      exact ih l

theorem bookOf_credit {m ns : Accounts} {a : Str} {x : ℕ} (h : m.getD a 0+x ≤ u64Max) :
    bookOf (creditBalance m a x) ns = (bookOf m ns).give a x := by
  unfold creditBalance
  rw [bookOf_balance, satAdd_of_le h]
  rfl

theorem ledgerBook_settle {K : Primitives} {l : RewardLedger} {s : SignedTransaction}
    (h : Accepted K l s) (hn : l.nonce s.fromHex < u64Max) (ht : total l.balances ≤ u64Max)
    (height : ℕ) (miner : Str) (timestamp : ℕ) :
    ledgerBook (settle K l height s miner timestamp) = (ledgerBook l).settle s miner := by
  have hf : s.tx.amount+s.tx.fee ≤ l.balances.getD s.fromHex 0 := h.funded
  have hsn : s.tx.nonce = l.nonces.getD s.fromHex 0 := h.nonce
  have hnonce : satAdd s.tx.nonce 1 = l.nonces.getD s.fromHex 0+1 := by
    rw [hsn]
    exact satAdd_of_le hn
  have hd := total_debit hf
  have hp := total_creditBalance_le (debit l.balances s.fromHex (s.tx.amount+s.tx.fee)) s.toHex
    s.tx.amount
  have hto := getD_le_total (debit l.balances s.fromHex (s.tx.amount+s.tx.fee)) s.toHex
  have hmi := getD_le_total (creditBalance (debit l.balances s.fromHex (s.tx.amount+s.tx.fee))
    s.toHex s.tx.amount) miner
  have htake : bookOf (debit l.balances s.fromHex (s.tx.amount+s.tx.fee))
      (l.nonces.insert s.fromHex (satAdd s.tx.nonce 1)) =
      (ledgerBook l).take s.fromHex (s.tx.amount+s.tx.fee) := by
    unfold debit
    rw [bookOf_balance, bookOf_nonce, Book.set_set, getD_insert_eq, if_pos rfl, hnonce]
    rfl
  unfold Book.settle ledgerBook settle settleBalances
  split
  · rw [bookOf_credit (by omega), bookOf_credit (by omega), htake]
    rfl
  · rw [bookOf_credit (by omega), htake]
    rfl

theorem overlayBook_give {l : RewardLedger} {overlay : RewardLedger.Overlay} {a : Str} {x : ℕ}
    (h : (l.overlayRead overlay a).1+x ≤ u64Max) :
    overlayBook l (overlay.insert a (satAdd (l.overlayRead overlay a).1 x,
      (l.overlayRead overlay a).2)) = (overlayBook l overlay).give a x := by
  rw [overlayBook_insert, satAdd_of_le h]
  rfl

theorem simulateTransaction_admits {K : Primitives} {l : RewardLedger} {miner : Str}
    {overlay : RewardLedger.Overlay} {s : SignedTransaction}
    (h : (overlayBook l overlay).Admits K s) (hn : s.tx.nonce < u64Max)
    (hfit : ∀ a, (((overlayBook l overlay).settle s miner).account a).1 ≤ u64Max)
    (applied : List SignedTransaction) :
    ∃ overlay', simulateTransaction K l miner (overlay, applied) s = (overlay', applied++[s]) ∧
      overlayBook l overlay' = (overlayBook l overlay).settle s miner := by
  have hc : checkedAdd s.tx.amount s.tx.fee = some (s.tx.amount+s.tx.fee) :=
    checkedAdd_eq_some.mpr ⟨h.fits, rfl⟩
  have hsn : s.tx.nonce = (l.overlayRead overlay s.fromHex).2 := h.nonce
  have hb : ¬ (l.overlayRead overlay s.fromHex).1 < s.tx.amount+s.tx.fee :=
    Nat.not_lt.mpr h.funded
  have hwrap : wrapAdd (l.overlayRead overlay s.fromHex).2 1 =
      (l.overlayRead overlay s.fromHex).2+1 := wrapAdd_of_le (by omega)
  unfold simulateTransaction
  simp only [h.verified, hsn, ne_eq, not_true_eq_false, if_false, hc, if_neg hb, hwrap]
  refine ⟨_, rfl, ?_⟩
  generalize hdeb : overlay.insert s.fromHex ((l.overlayRead overlay s.fromHex).1-
    (s.tx.amount+s.tx.fee), (l.overlayRead overlay s.fromHex).2+1) = debited
  have htake : overlayBook l debited =
      (overlayBook l overlay).take s.fromHex (s.tx.amount+s.tx.fee) := by
    rw [← hdeb, overlayBook_insert]
    rfl
  have hpay : (l.overlayRead debited s.toHex).1+s.tx.amount ≤ u64Max := by
    have hg : (((overlayBook l debited).give s.toHex s.tx.amount).account s.toHex).1 =
        (l.overlayRead debited s.toHex).1+s.tx.amount := by
      rw [Book.give, Book.set_account, if_pos rfl]
      rfl
    have hle : (((overlayBook l debited).give s.toHex s.tx.amount).account s.toHex).1 ≤
        (((overlayBook l overlay).settle s miner).account s.toHex).1 := by
      unfold Book.settle
      rw [htake]
      split
      · exact Book.le_give _ _ _ _
      · exact Nat.le_refl _
    have := hfit s.toHex
    omega
  have hpaid := overlayBook_give hpay
  generalize debited.insert s.toHex (satAdd (l.overlayRead debited s.toHex).1 s.tx.amount,
    (l.overlayRead debited s.toHex).2) = paid at hpaid ⊢
  unfold Book.settle at hfit ⊢
  rw [← htake, ← hpaid] at hfit ⊢
  split
  · rename_i hfee
    apply overlayBook_give
    have hm := hfit miner
    rw [if_pos hfee, Book.give, Book.set_account, if_pos rfl] at hm
    exact hm
  · rfl

theorem simulateTransaction_refused {K : Primitives} {l : RewardLedger} {miner : Str}
    {overlay : RewardLedger.Overlay} {s : SignedTransaction}
    (h : ¬ (overlayBook l overlay).Admits K s) (applied : List SignedTransaction) :
    simulateTransaction K l miner (overlay, applied) s = (overlay, applied) := by
  unfold simulateTransaction
  cases hv : s.verify K with
  | error e => rfl
  | ok u =>
    by_cases hn : s.tx.nonce = (l.overlayRead overlay s.fromHex).2
    · cases hc : checkedAdd s.tx.amount s.tx.fee with
      | none => simp [hn]
      | some debitTotal =>
        obtain ⟨hfit, rfl⟩ := checkedAdd_eq_some.mp hc
        have hb : (l.overlayRead overlay s.fromHex).1 < s.tx.amount+s.tx.fee := by
          by_contra hlt
          exact h ⟨hv, hn, hfit, Nat.not_lt.mp hlt⟩
        simp [hn, hb]
    · simp [hn]

/-- Room for `n` more transactions and a reward. -/
structure Roomy (l : RewardLedger) (n reward : ℕ) : Prop where
  nonces : ∀ a, l.nonce a+n < u64Max
  supply : total l.balances+reward ≤ u64Max

theorem settle_roomy {K : Primitives} {l : RewardLedger} {s : SignedTransaction} {n reward : ℕ}
    (h : Accepted K l s) (hr : Roomy l (n+1) reward) (height : ℕ) (miner : Str) (timestamp : ℕ) :
    Roomy (settle K l height s miner timestamp) n reward where
  nonces a := by
    have hs := hr.nonces s.fromHex
    have ha := hr.nonces a
    have hsn : s.tx.nonce = l.nonce s.fromHex := h.nonce
    have hle := satAdd_le_add s.tx.nonce 1
    simp only [settle, RewardLedger.nonce, getD_insert_eq]
    split
    · omega
    · simp only [RewardLedger.nonce] at ha
      omega
  supply := by
    have ht := total_settleBalances_le (m := l.balances) h.funded miner
    have hs := hr.supply
    simp only [settle]
    omega

theorem Durable.mono {n m : ℕ} {f : CsvFile} (h : Durable n f) (hm : m ≤ n) : Durable m f :=
  fun o ho => h o (List.take_subset_take_left f.outcomes hm ho)

theorem append_durable {n : ℕ} {f : CsvFile} (h : Durable (n+1) f) (context : String)
    (line : Str) : (f.append context line).1 = .ok () ∧ Durable n (f.append context line).2 := by
  obtain ⟨text, outcomes⟩ := f
  cases outcomes with
  | nil => exact ⟨rfl, by simp [Durable, CsvFile.append]⟩
  | cons o rest =>
    have ho : o = .written := h o (by simp)
    subst ho
    exact ⟨rfl, fun o ho => h o (List.mem_cons_of_mem _ ho)⟩

theorem simulateTransaction_settles {K : Primitives} {l l' : RewardLedger}
    {overlay : RewardLedger.Overlay} {s : SignedTransaction} {n reward : ℕ}
    (hacc : Accepted K l' s) (hbook : overlayBook l overlay = ledgerBook l')
    (hroom : Roomy l' (n+1) reward) (height : ℕ) (miner : Str) (timestamp : ℕ)
    (applied : List SignedTransaction) :
    ∃ overlay', simulateTransaction K l miner (overlay, applied) s = (overlay', applied++[s]) ∧
      overlayBook l overlay' = ledgerBook (settle K l' height s miner timestamp) := by
  have hroom' := settle_roomy hacc hroom height miner timestamp
  have hsn : s.tx.nonce = l'.nonce s.fromHex := hacc.nonce
  have hn := hroom.nonces s.fromHex
  have hstep := ledgerBook_settle hacc (by omega)
    (by have := hroom.supply; omega) height miner timestamp
  have hfit : ∀ a, (((overlayBook l overlay).settle s miner).account a).1 ≤ u64Max := by
    intro a
    rw [hbook, ← hstep]
    have hle := getD_le_total (settle K l' height s miner timestamp).balances a
    have := hroom'.supply
    exact Nat.le_trans hle (by omega)
  have hadm : (overlayBook l overlay).Admits K s := by
    rw [hbook]
    exact hacc
  obtain ⟨overlay', hsim, hbook'⟩ := simulateTransaction_admits hadm (by omega) hfit applied
  exact ⟨overlay', hsim, by rw [hbook', hbook, hstep]⟩

/-- The simulation and the mutation go through the same books, whether or not
the rows reach the file; when they do, the same transactions apply. -/
theorem simulate_follows (K : Primitives) (l : RewardLedger) (miner : Str)
    (height timestamp reward : ℕ) (txs : List SignedTransaction) :
    ∀ (l' : RewardLedger) (overlay : RewardLedger.Overlay) (applied : List SignedTransaction),
      overlayBook l overlay = ledgerBook l' → Roomy l' txs.length reward →
      let sim := txs.foldl (simulateTransaction K l miner) (overlay, applied)
      let real := applyTransactions K height miner timestamp l' txs
      overlayBook l sim.1 = ledgerBook real.2 ∧ Roomy real.2 0 reward ∧
        (Durable txs.length l'.csv → sim.2 = applied++real.1) := by
  induction txs with
  | nil =>
    intro l' overlay applied hbook hroom
    exact ⟨hbook, hroom, fun _ => (List.append_nil _).symm⟩
  | cons s txs ih =>
    intro l' overlay applied hbook hroom
    simp only [List.foldl_cons, applyTransactions]
    by_cases hacc : Accepted K l' s
    · have hroom' := settle_roomy hacc hroom height miner timestamp
      obtain ⟨overlay', hsim, hbook'⟩ := simulateTransaction_settles hacc hbook hroom height
        miner timestamp applied
      rw [hsim, applyTransaction_accepted hacc]
      obtain ⟨hb, hr, hlist⟩ := ih _ overlay' (applied++[s]) hbook' hroom'
      have hdur : Durable (txs.length+1) l'.csv →
          (txAppend K l' height s miner timestamp).1 = .ok () ∧
          Durable txs.length (settle K l' height s miner timestamp).csv :=
        fun h => append_durable h _ _
      cases hrow : (txAppend K l' height s miner timestamp).1 with
      | error e =>
        refine ⟨hb, hr, fun hd => ?_⟩
        simp [hrow] at hdur
        exact absurd hd hdur
      | ok u =>
        refine ⟨hb, hr, fun hd => ?_⟩
        rw [hlist (hdur hd).2, List.append_assoc]
        rfl
    · obtain ⟨e, hrej⟩ := applyTransaction_rejected hacc height miner timestamp
      have href : simulateTransaction K l miner (overlay, applied) s = (overlay, applied) :=
        simulateTransaction_refused (by rw [hbook]; exact hacc) applied
      rw [href, hrej]
      have hroom' : Roomy l' txs.length reward :=
        ⟨fun a => Nat.lt_of_le_of_lt (by simp) (hroom.nonces a), hroom.supply⟩
      obtain ⟨hb, hr, hlist⟩ := ih l' overlay applied hbook hroom'
      exact ⟨hb, hr, fun hd => hlist (hd.mono (Nat.le_succ _))⟩

theorem ledgerBook_credit {l : RewardLedger} {miner : Str} {reward : ℕ}
    (h : l.balance miner+reward ≤ u64Max) (height timestamp : ℕ) :
    ledgerBook (l.credit height miner reward timestamp).2 = (ledgerBook l).reward miner reward := by
  unfold RewardLedger.credit Book.reward
  by_cases hz : reward = 0
  · simp [hz]
  · rw [if_neg hz, if_pos (by omega)]
    simp only [ledgerBook]
    rw [bookOf_balance, wrapAdd_of_le h]
    rfl

theorem simulateBlockExecution_eq (K : Primitives) (l : RewardLedger)
    (txs : List SignedTransaction) (miner : Str) (reward : ℕ) :
    simulateBlockExecution K l txs miner reward =
      let sim := txs.foldl (simulateTransaction K l miner) (∅, [])
      (sim.2, l.stateRootWithOverlay K (if reward > 0 then
        sim.1.insert miner (satAdd (l.overlayRead sim.1 miner).1 reward,
          (l.overlayRead sim.1 miner).2) else sim.1)) := rfl

theorem simulateTransaction_cases (K : Primitives) (l : RewardLedger) (miner : Str)
    (acc : RewardLedger.Overlay × List SignedTransaction) (s : SignedTransaction) :
    simulateTransaction K l miner acc s = acc ∨
      ∃ overlay, simulateTransaction K l miner acc s = (overlay, acc.2++[s]) := by
  unfold simulateTransaction
  cases s.verify K with
  | error e => exact Or.inl rfl
  | ok u =>
    dsimp only
    split
    · exact Or.inl rfl
    · cases checkedAdd s.tx.amount s.tx.fee with
      | none => exact Or.inl rfl
      | some debitTotal =>
        dsimp only
        split
        · exact Or.inl rfl
        · exact Or.inr ⟨_, rfl⟩

theorem simulate_selected (K : Primitives) (l : RewardLedger) (miner : Str)
    (txs : List SignedTransaction) : ∀ acc : RewardLedger.Overlay × List SignedTransaction,
    ∃ selected, (txs.foldl (simulateTransaction K l miner) acc).2 = acc.2++selected ∧
      selected.foldl (simulateTransaction K l miner) acc =
        txs.foldl (simulateTransaction K l miner) acc ∧ selected.length ≤ txs.length := by
  induction txs with
  | nil => exact fun acc => ⟨[], (List.append_nil _).symm, rfl, Nat.le_refl _⟩
  | cons s txs ih =>
    intro acc
    rw [List.foldl_cons]
    rcases simulateTransaction_cases K l miner acc s with hskip | ⟨overlay, htake⟩
    · obtain ⟨selected, happ, hfold, hlen⟩ := ih acc
      rw [hskip]
      exact ⟨selected, happ, hfold, Nat.le_succ_of_le hlen⟩
    · obtain ⟨selected, happ, hfold, hlen⟩ := ih (overlay, acc.2++[s])
      rw [htake]
      refine ⟨s :: selected, ?_, ?_, Nat.succ_le_succ hlen⟩
      · rw [happ, List.append_assoc]
        rfl
      · rw [List.foldl_cons, htake]
        exact hfold

theorem simulate_idem (K : Primitives) (l : RewardLedger) (txs : List SignedTransaction)
    (miner : Str) (reward : ℕ) :
    simulateBlockExecution K l (simulateBlockExecution K l txs miner reward).1 miner reward =
      simulateBlockExecution K l txs miner reward := by
  obtain ⟨selected, happ, hfold, -⟩ := simulate_selected K l miner txs (∅, [])
  simp only [simulateBlockExecution_eq]
  rw [happ, List.nil_append, hfold, happ]
  rfl

def executeBlock (K : Primitives) (height : ℕ) (miner : Str) (reward timestamp : ℕ)
    (l : RewardLedger) (txs : List SignedTransaction) : RewardLedger :=
  ((applyTransactions K height miner timestamp l txs).2.credit height miner reward timestamp).2

theorem simulated_root (K : Primitives) {l : RewardLedger} {txs : List SignedTransaction}
    {reward : ℕ} (h : Roomy l txs.length reward) (miner : Str) (height timestamp : ℕ) :
    (simulateBlockExecution K l txs miner reward).2 =
      (executeBlock K height miner reward timestamp l txs).stateRoot K := by
  obtain ⟨hbook, hroom, -⟩ := simulate_follows K l miner height timestamp reward txs l ∅ []
    (overlayBook_empty l) h
  rw [simulateBlockExecution_eq]
  apply stateRoot_congr
  generalize txs.foldl (simulateTransaction K l miner) (∅, []) = sim at hbook ⊢
  unfold executeBlock
  generalize (applyTransactions K height miner timestamp l txs).2 = last at hbook hroom ⊢
  have hle := getD_le_total last.balances miner
  have hsup := hroom.supply
  have hbal : last.balance miner+reward ≤ u64Max := by
    unfold RewardLedger.balance
    omega
  have hread : (l.overlayRead sim.1 miner).1 = last.balance miner :=
    congrArg (fun b => (b.account miner).1) hbook
  rw [overlayBook_empty, ledgerBook_credit hbal, ← hbook]
  unfold Book.reward
  split
  · exact overlayBook_give (by omega)
  · rfl

theorem simulated_applied (K : Primitives) {l : RewardLedger} {txs : List SignedTransaction}
    {reward : ℕ} (h : Roomy l txs.length reward) (hd : Durable txs.length l.csv) (miner : Str)
    (height timestamp : ℕ) :
    (simulateBlockExecution K l txs miner reward).1 =
      (applyTransactions K height miner timestamp l txs).1 := by
  obtain ⟨-, -, hlist⟩ := simulate_follows K l miner height timestamp reward txs l ∅ []
    (overlayBook_empty l) h
  exact hlist hd

/-- The simulation, which only borrows the ledger, selects the transactions that
apply and computes the state root of the ledger they and the reward leave. -/
theorem simulation_matches_application (K : Primitives) (l : RewardLedger)
    (txs : List SignedTransaction) (miner : Str) (height reward timestamp : ℕ)
    (hn : ∀ a, l.nonce a+txs.length < u64Max) (hb : total l.balances+reward ≤ u64Max)
    (hd : Durable txs.length l.csv) :
    let sim := simulateBlockExecution K l txs miner reward
    let real := applyTransactions K height miner timestamp l txs
    sim.1 = real.1 ∧ sim.2 = (real.2.credit height miner reward timestamp).2.stateRoot K :=
  ⟨simulated_applied K ⟨hn, hb⟩ hd miner height timestamp,
    simulated_root K ⟨hn, hb⟩ miner height timestamp⟩

def toyTransfer (key : UInt8) (recipient : WalletAddress) (amount nonce fee : ℕ) :
    SignedTransaction :=
  let publicKey := List.replicate 32 key
  let sender := truncate (toyPrimitives.keccak256 publicKey)
  let tx : Transfer := { sender, recipient, amount, nonce, fee }
  { tx, publicKey, signature := (tx.digest toyPrimitives).toList++publicKey }

def toySender (key : UInt8) : WalletAddress :=
  truncate (toyPrimitives.keccak256 (List.replicate 32 key))

def toyLedger : RewardLedger :=
  ((RewardLedger.create []).credit 1 (Hex.encode (toySender 1).toList) 50 0).2

theorem toyLedger_nonce (a : Str) : toyLedger.nonce a = 0 := by
  simp [toyLedger, RewardLedger.credit, RewardLedger.create, RewardLedger.nonce]

theorem simulation_matches_application_sample :
    let txs := [toyTransfer 1 (toySender 2) 30 0 1, toyTransfer 1 (toySender 2) 30 1 0]
    let miner := Hex.encode (toySender 1).toList
    let sim := simulateBlockExecution toyPrimitives toyLedger txs miner 50
    let real := applyTransactions toyPrimitives 2 miner 9 toyLedger txs
    real.1 = [toyTransfer 1 (toySender 2) 30 0 1] ∧ sim.1 = real.1 ∧
      sim.2 = (real.2.credit 2 miner 50 9).2.stateRoot toyPrimitives :=
  ⟨by decide +kernel, simulation_matches_application toyPrimitives toyLedger
    [toyTransfer 1 (toySender 2) 30 0 1, toyTransfer 1 (toySender 2) 30 1 0]
    (Hex.encode (toySender 1).toList) 2 50 9 (by simp [toyLedger_nonce, u64Max]) (by decide +kernel)
    (by simp [Durable, toyLedger, RewardLedger.credit, RewardLedger.create, CsvFile.create,
      CsvFile.append])⟩

end BinaChain.Execution
