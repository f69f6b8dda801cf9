import BinaChain.Ledger.Payee
import Mathlib.Algebra.BigOperators.Intervals

/-!
# The emission schedule against the ledger

When every block credits what the schedule assigns to its height, the supply
is a function of the height alone. The reward rows of the file then carry the
schedule, stale rows of abandoned branches included.
-/

set_option autoImplicit false

namespace BinaChain.Schedule
open BinaChain.Word BinaChain.Text BinaChain.Crypto BinaChain.Transaction BinaChain.Rewards
open BinaChain.Execution BinaChain.Rows BinaChain.Replay BinaChain.Payee Std

def minedAt : ℕ → ℕ
  | 0 => 0
  | height+1 => minedAt height+blockReward (height+1) (minedAt height)

/-- The reward of a height on schedule; nothing for the genesis block. -/
def scheduled : ℕ → ℕ
  | 0 => 0
  | height+1 => blockReward (height+1) (minedAt height)

theorem minedAt_le (height : ℕ) : minedAt height ≤ hardCap := by
  induction height with
  | zero => exact Nat.zero_le _
  | succ height ih => exact blockReward_add_le ih

theorem minedAt_eq_sum (height : ℕ) :
    minedAt height = ∑ h ∈ Finset.range (height+1), scheduled h := by
  induction height with
  | zero => rfl
  | succ height ih => rw [Finset.sum_range_succ, ← ih, minedAt, scheduled]

def lastReward (height : ℕ) : List CsvRow → ℕ
  | [] => 0
  | .reward h _ r _ :: rest =>
    if h = height ∧ rest.any (rewards height) = false then r else lastReward height rest
  | .tx .. :: rest => lastReward height rest

/-- The supply a scoped load of the rows finds. -/
def issued (active : ℕ) (rows : List CsvRow) : ℕ :=
  ∑ h ∈ Finset.range (active+1), lastReward h rows

theorem lastReward_absent {height : ℕ} {rows : List CsvRow}
    (h : rows.any (rewards height) = false) : lastReward height rows = 0 := by
  induction rows with
  | nil => rfl
  | cons row rows ih =>
    rw [List.any_cons, Bool.or_eq_false_iff] at h
    cases row with
    | reward g addr r total =>
      have hg : g ≠ height := by simpa [rewards] using h.1
      rw [lastReward, if_neg (fun hc => hg hc.1), ih h.2]
    | tx => exact ih h.2

theorem lastReward_append (height : ℕ) (rows later : List CsvRow) :
    lastReward height (rows++later) =
      if later.any (rewards height) then lastReward height later else lastReward height rows := by
  induction rows with
  | nil =>
    cases hl : later.any (rewards height) with
    | false => simpa [lastReward] using lastReward_absent hl
    | true => simp
  | cons row rows ih =>
    cases row with
    | reward g addr r total =>
      rw [List.cons_append, lastReward, lastReward, ih, List.any_append]
      cases later.any (rewards height) <;> simp
    | tx => exact ih

theorem lastReward_tx {height : ℕ} {rows : List CsvRow} (htx : ∀ row ∈ rows, IsTx row)
    (later : List CsvRow) : lastReward height (rows++later) = lastReward height later := by
  induction rows with
  | nil => rfl
  | cons row rows ih =>
    have hrest := ih fun row hr => htx row (List.mem_cons_of_mem _ hr)
    cases row with
    | reward => exact (htx _ List.mem_cons_self).elim
    | tx => exact hrest

theorem issued_reward (active h : ℕ) (addr : Str) (r total : ℕ) (rest : List CsvRow) :
    issued active (.reward h addr r total :: rest) =
      (if h ≤ active ∧ rest.any (rewards h) = false then r else 0)+issued active rest := by
  have hcons : ∀ g, lastReward g (.reward h addr r total :: rest) =
      (if h = g then if rest.any (rewards h) = false then r else 0 else 0)+lastReward g rest := by
    intro g
    rw [lastReward]
    by_cases hg : h = g
    · subst hg
      cases hl : rest.any (rewards h) with
      | false => simp [lastReward_absent hl]
      | true => simp
    · simp [hg]
  unfold issued
  rw [Finset.sum_congr rfl fun g _ => hcons g, Finset.sum_add_distrib, Finset.sum_ite_eq]
  simp only [Finset.mem_range, Nat.lt_succ_iff, ← ite_and]

theorem replay_totalMined (active : ℕ) (rows : List CsvRow) (t : Totals)
    (ht : t.totalMined ≤ u64Max) :
    (replayRows active t rows).totalMined = satAdd t.totalMined (issued active rows) := by
  induction rows generalizing t with
  | nil =>
    simp [replayRows, issued, lastReward, satAdd, ht]
  | cons row rows ih =>
    cases row with
    | reward h addr r total =>
      rw [replayRows, issued_reward]
      split
      · rw [ih _ (satAdd_le _ _)]
        simp only [Totals.replayReward, satAdd]
        omega
      · rw [ih _ ht, Nat.zero_add]
    | tx h sender recipient amount fee nonce miner total =>
      rw [replayRows, show issued active (.tx h sender recipient amount fee nonce miner total ::
        rows) = issued active rows from rfl]
      split
      · exact ih _ ht
      · exact ih _ ht

theorem openScoped_totalMined (csv : CsvFile) (active : ℕ) :
    (RewardLedger.openScoped csv active).totalMined =
      satAdd 0 (issued active (csvRows csv.text)) := by
  simp only [RewardLedger.openScoped, RewardLedger.openInner, scopedTotals_eq]
  exact replay_totalMined active _ Totals.empty (Nat.zero_le _)

def Follows (tip : ℕ) (rows : List CsvRow) : Prop :=
  ∀ h, lastReward h rows = scheduled h ∨ (tip < h ∧ lastReward h rows = 0)

theorem Follows.lower {tip tip' : ℕ} {rows : List CsvRow} (h : Follows tip rows)
    (hle : tip' ≤ tip) : Follows tip' rows := by
  intro g
  rcases h g with hg | ⟨hg, hz⟩
  · exact .inl hg
  · exact .inr ⟨by omega, hz⟩

theorem Follows.issued {tip : ℕ} {rows : List CsvRow} (h : Follows tip rows) :
    Schedule.issued tip rows = minedAt tip := by
  unfold Schedule.issued
  rw [minedAt_eq_sum]
  refine Finset.sum_congr rfl fun g hg => ?_
  rcases h g with hs | ⟨hlt, -⟩
  · exact hs
  · rw [Finset.mem_range] at hg
    omega

theorem Follows.extend {tip : ℕ} {rows later : List CsvRow} {miner : Str} {total : ℕ}
    (h : Follows tip rows) (htx : ∀ row ∈ later, IsTx row) :
    Follows (tip+1) (rows++(later++rewardRows (tip+1) miner (scheduled (tip+1)) total)) := by
  have hany : ∀ g, (later++rewardRows (tip+1) miner (scheduled (tip+1)) total).any (rewards g) =
      decide (g = tip+1 ∧ scheduled (tip+1) ≠ 0) := by
    intro g
    have hnone : later.any (rewards g) = false := by
      rw [List.any_eq_false]
      intro row hr
      have := htx row hr
      cases row with
      | reward => exact this.elim
      | tx => simp [rewards]
    rw [List.any_append, hnone, Bool.false_or]
    unfold rewardRows
    by_cases hz : scheduled (tip+1) = 0
    · simp [hz]
    · rw [if_neg hz, Bool.eq_iff_iff]
      simp only [rewardRow, rewards, List.any_cons, List.any_nil, Bool.or_false, beq_iff_eq,
        decide_eq_true_eq]
      exact ⟨fun hg => ⟨hg.symm, hz⟩, fun hg => hg.1.symm⟩
  intro g
  rw [lastReward_append, hany, lastReward_tx htx]
  by_cases hg : g = tip+1
  · subst hg
    by_cases hz : scheduled (tip+1) = 0
    · rw [if_neg (by simp [hz])]
      rcases h (tip+1) with hs | ⟨-, hs⟩
      · exact .inl hs
      · exact .inl (hs.trans hz.symm)
    · rw [if_pos (by simp [hz])]
      left
      simp [rewardRows, hz, rewardRow, lastReward]
  · rw [if_neg (by simp [hg])]
    rcases h g with hs | ⟨hlt, hs⟩
    · exact .inl hs
    · exact .inr ⟨by omega, hs⟩

theorem transactions_totalMined (K : Primitives) (height : ℕ) (miner : Str) (timestamp : ℕ)
    (txs : List SignedTransaction) (l : RewardLedger) :
    (applyTransactions K height miner timestamp l txs).2.totalMined = l.totalMined := by
  induction txs generalizing l with
  | nil => rfl
  | cons s txs ih =>
    rw [applyTransactions_cons, ih]
    by_cases hacc : Accepted K l s
    · rw [applyTransaction_accepted hacc]
      rfl
    · obtain ⟨e, hrej⟩ := applyTransaction_rejected hacc height miner timestamp
      rw [hrej]

/-- From the ledger before the block and the one after its transactions, the
block leads to one that pays the miner the schedule's reward and nobody else. -/
structure Pays (height : ℕ) (miner : Str) (l paid l' : RewardLedger) : Prop where
  supply : l'.totalMined = l.totalMined+blockReward height l.totalMined
  credited : l'.balance miner = paid.balance miner+blockReward height l.totalMined
  others : ∀ a, a ≠ miner → l'.balance a = paid.balance a

structure Due (K : Primitives) (height : ℕ) (miner : Str) (reward timestamp : ℕ)
    (l : RewardLedger) (txs : List SignedTransaction) : Prop where
  amount : reward = blockReward height l.totalMined
  fits : reward ≠ 0 →
    (applyTransactions K height miner timestamp l txs).2.balance miner+reward ≤ u64Max

instance (K : Primitives) (height : ℕ) (miner : Str) (reward timestamp : ℕ) (l : RewardLedger)
    (txs : List SignedTransaction) : Decidable (Due K height miner reward timestamp l txs) :=
  decidable_of_iff (reward = blockReward height l.totalMined ∧ (reward ≠ 0 →
      (applyTransactions K height miner timestamp l txs).2.balance miner+reward ≤ u64Max))
    ⟨fun h => ⟨h.1, h.2⟩, fun h => ⟨h.amount, h.fits⟩⟩

theorem execute_pays_iff {K : Primitives} {l : RewardLedger} (hcap : l.totalMined ≤ hardCap)
    (height : ℕ) (miner : Str) (reward timestamp : ℕ) (txs : List SignedTransaction) :
    Pays height miner l (applyTransactions K height miner timestamp l txs).2
        (executeBlock K height miner reward timestamp l txs) ↔
      Due K height miner reward timestamp l txs := by
  have hmined := transactions_totalMined K height miner timestamp txs l
  have hle : l.totalMined+blockReward height l.totalMined ≤ hardCap := blockReward_add_le hcap
  have hroom : hardCap < u64Max := by decide
  generalize hpaid : (applyTransactions K height miner timestamp l txs).2 = paid at hmined ⊢
  unfold executeBlock RewardLedger.credit
  rw [hpaid]
  by_cases hz : reward = 0
  · rw [if_pos hz]
    constructor
    · intro h
      exact ⟨by have := h.supply; dsimp only at this; omega, fun hr => (hr hz).elim⟩
    · intro h
      have hr : blockReward height l.totalMined = 0 := h.amount.symm.trans hz
      exact ⟨by rw [hr]; exact hmined, by rw [hr]; rfl, fun _ _ => rfl⟩
  · rw [if_neg hz]
    have hminer : ∀ x, (paid.balances.insert miner x).getD miner 0 = x := by
      intro x
      rw [Maps.getD_insert_eq, if_pos rfl]
    constructor
    · intro h
      have hs : satAdd paid.totalMined reward = l.totalMined+blockReward height l.totalMined :=
        h.supply
      have hm := h.credited
      simp only [RewardLedger.balance, hminer] at hm
      have hr : reward = blockReward height l.totalMined := by
        unfold satAdd at hs
        omega
      refine ⟨hr, fun _ => ?_⟩
      have hlt : wrapAdd (paid.balances.getD miner 0) reward < 2^64 := Nat.mod_lt _ (by decide)
      rw [hpaid, RewardLedger.balance]
      unfold u64Max
      omega
    · intro h
      have hr := h.amount
      have hfits := h.fits hz
      rw [hpaid] at hfits
      refine ⟨?_, ?_, fun a ha => ?_⟩
      · change satAdd paid.totalMined reward = _
        rw [satAdd_of_le (by omega), hmined, hr]
      · simp only [RewardLedger.balance, hminer, ← hr]
        exact wrapAdd_of_le hfits
      · simp only [RewardLedger.balance, Maps.getD_insert_eq, if_neg (Ne.symm ha)]

def appends (reward : ℕ) (txs : List SignedTransaction) : ℕ :=
  txs.length+if reward = 0 then 0 else 1

/-- Supply and file stand where the schedule puts them at a height. -/
structure OnSchedule (tip : ℕ) (l : RewardLedger) : Prop where
  whole : WholeLines l.csv.text
  mined : l.totalMined = minedAt tip
  rows : Follows tip (csvRows l.csv.text)

theorem onSchedule_create (outcomes : List AppendOutcome) :
    OnSchedule 0 (RewardLedger.create outcomes) where
  whole := wholeLines_create outcomes
  mined := rfl
  rows := by
    have hrows : csvRows (RewardLedger.create outcomes).csv.text = [] := csvRows_create outcomes
    intro h
    rw [hrows]
    cases h with
    | zero => exact .inl rfl
    | succ h => exact .inr ⟨Nat.succ_pos h, rfl⟩

theorem OnSchedule.bounded {tip : ℕ} {l : RewardLedger} (h : OnSchedule tip l) :
    l.totalMined ≤ hardCap := h.mined.trans_le (minedAt_le tip)

theorem OnSchedule.execute {K : Primitives} {tip reward timestamp : ℕ} {miner : Str}
    {l : RewardLedger} {txs : List SignedTransaction} (h : OnSchedule tip l)
    (hdue : Due K (tip+1) miner reward timestamp l txs) (hd : Durable (appends reward txs) l.csv)
    (hh : tip+1 ≤ u64Max) (hm : Plain miner) :
    OnSchedule (tip+1) (executeBlock K (tip+1) miner reward timestamp l txs) := by
  have hpays := (execute_pays_iff h.bounded (tip+1) miner reward timestamp txs).mpr hdue
  have hreward : reward = scheduled (tip+1) := by
    rw [hdue.amount, h.mined]
    rfl
  have hle : reward ≤ u64Max := by
    have hcap : l.totalMined+blockReward (tip+1) l.totalMined ≤ hardCap :=
      blockReward_add_le h.bounded
    have hroom : hardCap < u64Max := by decide
    rw [hdue.amount]
    omega
  obtain ⟨hw, rows, total, hrows, hall, -⟩ := block_rows K timestamp hh hle hm txs hd h.whole
  refine ⟨hw, ?_, ?_⟩
  · rw [hpays.supply, h.mined]
    rfl
  · rw [hrows, hreward]
    exact h.rows.extend fun row hr => (hall row hr).1

/-- Opening the file at a lower height goes back along the schedule. -/
theorem OnSchedule.reload {tip fork : ℕ} {l : RewardLedger} (h : OnSchedule tip l)
    (hle : fork ≤ tip) : OnSchedule fork (RewardLedger.openScoped l.csv fork) := by
  have hrows := h.rows.lower hle
  refine ⟨h.whole, ?_, hrows⟩
  have hbound : minedAt fork ≤ hardCap := minedAt_le fork
  have hroom : hardCap < u64Max := by decide
  rw [openScoped_totalMined, hrows.issued, satAdd_of_le (by omega), Nat.zero_add]

theorem openScoped_bounded_iff (csv : CsvFile) (fork : ℕ) :
    (RewardLedger.openScoped csv fork).totalMined ≤ hardCap ↔
      issued fork (csvRows csv.text) ≤ hardCap := by
  have hroom : hardCap < u64Max := by decide
  rw [openScoped_totalMined]
  unfold satAdd
  omega

end BinaChain.Schedule
