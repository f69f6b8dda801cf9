import BinaChain.Ledger.StateRoot

/-!
# What a failed call leaves behind

The checks of a call come before its first write to memory, the append to the
file after its last. A call that fails in a check leaves the ledger as it was;
one that fails in the append has already changed it.
-/

set_option autoImplicit false

namespace BinaChain.Atomic
open BinaChain.Word BinaChain.Text BinaChain.Crypto BinaChain.Transaction BinaChain.Maps
open BinaChain.Rewards BinaChain.Execution BinaChain.StateRoot Std

def perform (K : Primitives) (l : RewardLedger) : LedgerCall → Except String Unit × RewardLedger
  | .credit height miner reward timestamp =>
    let (result, l') := l.credit height miner reward timestamp
    (result.map fun _ => (), l')
  | .apply height signed miner timestamp => l.applyTransaction K height signed miner timestamp

/-- If the call returns an error, the accounts and the total are as before. -/
def Unchanged (K : Primitives) (l : RewardLedger) (c : LedgerCall) : Prop :=
  ∀ e, (perform K l c).1 = .error e → (perform K l c).2.balances = l.balances ∧
    (perform K l c).2.nonces = l.nonces ∧ (perform K l c).2.totalMined = l.totalMined

/-- The call has something to append: a reward to credit, or a transfer that
passes every check. -/
def Appends (K : Primitives) (l : RewardLedger) : LedgerCall → Prop
  | .credit _ _ reward _ => reward ≠ 0
  | .apply _ signed _ _ => Accepted K l signed

/-- The next append opens the file and writes its whole row. -/
def Writable (f : CsvFile) : Prop := ∀ o ∈ f.outcomes.head?, o = .written

instance (f : CsvFile) : Decidable (Writable f) :=
  match h : f.outcomes with
  | [] => .isTrue (by simp [Writable, h])
  | o :: _ => decidable_of_iff (o = .written) (by simp [Writable, h])

def InWords : LedgerCall → Prop
  | .credit _ _ reward _ => reward ≤ u64Max
  | .apply .. => True

theorem append_ok_iff (f : CsvFile) (context : String) (line : Str) :
    (f.append context line).1 = .ok () ↔ Writable f := by
  obtain ⟨text, outcomes⟩ := f
  unfold Writable
  cases outcomes with
  | nil => simp [CsvFile.append]
  | cons o rest => cases o <;> simp [CsvFile.append]

theorem wrapAdd_ne {b : ℕ} (hb : b ≤ u64Max) (hpos : b ≠ 0) (a : ℕ) : wrapAdd a b ≠ a := by
  have hmax : u64Max = 0xffffffffffffffff := rfl
  unfold wrapAdd
  omega

theorem credit_changes {l : RewardLedger} {miner : Str} {reward : ℕ} (hz : reward ≠ 0)
    (hrew : reward ≤ u64Max) (height timestamp : ℕ) :
    (l.credit height miner reward timestamp).2.balances ≠ l.balances := by
  intro he
  have hget := congrArg (fun m : Accounts => m.getD miner 0) he
  simp only [RewardLedger.credit, if_neg hz, getD_insert_eq, if_true] at hget
  exact wrapAdd_ne hrew hz _ hget

theorem settleBalances_sender {m : Accounts} {s : SignedTransaction} (hne : s.toHex ≠ s.fromHex)
    (hamount : s.tx.amount ≠ 0) (hfunded : s.tx.amount+s.tx.fee ≤ m.getD s.fromHex 0)
    (miner : Str) : (settleBalances m s miner).getD s.fromHex 0 < m.getD s.fromHex 0 := by
  have hpaid : (creditBalance (debit m s.fromHex (s.tx.amount+s.tx.fee)) s.toHex
      s.tx.amount).getD s.fromHex 0 = m.getD s.fromHex 0-(s.tx.amount+s.tx.fee) := by
    rw [creditBalance, getD_insert_eq, if_neg hne, debit, getD_insert_eq, if_pos rfl]
  unfold settleBalances
  dsimp only
  split
  · rw [creditBalance, getD_insert_eq]
    split
    · rename_i hminer
      rw [hminer, hpaid]
      have := satAdd_le_add (m.getD s.fromHex 0-(s.tx.amount+s.tx.fee)) s.tx.fee
      omega
    · rw [hpaid]
      omega
  · rw [hpaid]
    omega

theorem toHex_ne_fromHex {K : Primitives} {s : SignedTransaction} (h : s.verify K = .ok ()) :
    s.toHex ≠ s.fromHex := fun e =>
  (Identity.verify_sensible h).recipient (Vector.toList_inj.mp (Hex.encode_injective e)).symm

theorem settle_changes {K : Primitives} {l : RewardLedger} {s : SignedTransaction}
    (h : Accepted K l s) (height : ℕ) (miner : Str) (timestamp : ℕ) :
    (settle K l height s miner timestamp).balances ≠ l.balances := by
  intro he
  have hamount := (Identity.verify_sensible h.verified).amount
  have hlt := settleBalances_sender (toHex_ne_fromHex h.verified) hamount h.funded miner
  have hget := congrArg (fun m : Accounts => m.getD s.fromHex 0) he
  simp only [settle] at hget
  omega

theorem perform_appends {K : Primitives} {l : RewardLedger} {c : LedgerCall}
    (hw : InWords c) (ha : Appends K l c) :
    ((perform K l c).1 = .ok () ↔ Writable l.csv) ∧
      (perform K l c).2.balances ≠ l.balances := by
  cases c with
  | credit height miner reward timestamp =>
    refine ⟨?_, credit_changes ha hw height timestamp⟩
    rw [← append_ok_iff l.csv "opening ledger CSV for append" (rewardLine height miner reward
      (satAdd l.totalMined reward) timestamp)]
    simp only [perform, RewardLedger.credit, if_neg ha]
    cases (l.csv.append "opening ledger CSV for append" (rewardLine height miner reward
      (satAdd l.totalMined reward) timestamp)).1 with
    | error e => simp [Except.map]
    | ok u => simp [Except.map]
  | apply height signed miner timestamp =>
    simp only [perform, applyTransaction_accepted ha]
    exact ⟨append_ok_iff _ _ _, settle_changes ha height miner timestamp⟩

theorem perform_idle {K : Primitives} {l : RewardLedger} {c : LedgerCall}
    (ha : ¬Appends K l c) : (perform K l c).2 = l := by
  cases c with
  | credit height miner reward timestamp =>
    have hz : reward = 0 := not_not.mp ha
    simp [perform, RewardLedger.credit, hz]
  | apply height signed miner timestamp =>
    obtain ⟨e, he⟩ := applyTransaction_rejected ha height miner timestamp
    simp [perform, he]

/-- A call leaves the accounts alone on every error exactly when it has nothing
to append or the append succeeds. -/
theorem unchanged_iff (K : Primitives) (l : RewardLedger) (c : LedgerCall) (hw : InWords c) :
    Unchanged K l c ↔ (Appends K l c → Writable l.csv) := by
  by_cases ha : Appends K l c
  · obtain ⟨hok, hchanged⟩ := perform_appends hw ha
    constructor
    · intro h _
      rw [← hok]
      cases hr : (perform K l c).1 with
      | ok u => rfl
      | error e => exact absurd (h e hr).1 hchanged
    · intro h e he
      rw [hok.mpr (h ha)] at he
      cases he
  · refine ⟨fun _ h => absurd h ha, fun _ e _ => ?_⟩
    rw [perform_idle ha]
    exact ⟨rfl, rfl, rfl⟩

theorem unchanged_iff_sample :
    let l := RewardLedger.create [.written, .openFailed]
    let c := LedgerCall.credit 1 "miner".toList 50 7
    Unchanged toyPrimitives l c ↔ (Appends toyPrimitives l c → Writable l.csv) :=
  unchanged_iff toyPrimitives _ _ (show 50 ≤ u64Max by decide)

theorem unwritten_reward_kept :
    let l := RewardLedger.create [.openFailed]
    let c := LedgerCall.credit 1 "miner".toList 50 7
    (perform toyPrimitives l c).1.isOk = false ∧ l.totalMined = 0 ∧
      (perform toyPrimitives l c).2.totalMined = 50 ∧ ¬Unchanged toyPrimitives l c := by
  intro l c
  have hrun : (perform toyPrimitives l c).1 = .error "opening ledger CSV for append" ∧
      (perform toyPrimitives l c).2.totalMined = 50 := ⟨rfl, rfl⟩
  refine ⟨by rw [hrun.1]; rfl, rfl, hrun.2, fun h => ?_⟩
  have hsame := (h _ hrun.1).2.2
  rw [hrun.2] at hsame
  cases hsame

end BinaChain.Atomic
