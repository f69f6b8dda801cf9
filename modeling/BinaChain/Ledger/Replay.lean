import BinaChain.Ledger.Rows
import BinaChain.Support.Machine

/-!
# Reloading the ledger from its file

The scoped load counts a reward row when no later reward row has its height and
a transaction row always. On a file whose transaction rows all belong to the
current branch this is the ledger in memory; a reorganisation can leave others.
-/

set_option autoImplicit false

namespace BinaChain.Replay
open BinaChain.Word BinaChain.Text BinaChain.Crypto BinaChain.Transaction BinaChain.Maps
open BinaChain.Rewards BinaChain.Execution BinaChain.Rows BinaChain.Machine Std

def rewards (height : ℕ) : CsvRow → Bool
  | .reward h .. => h == height
  | .tx .. => false

def IsTx : CsvRow → Prop
  | .reward .. => False
  | .tx .. => True

instance : DecidablePred IsTx
  | .reward .. => .isFalse id
  | .tx .. => .isTrue trivial

def replayRows (active : ℕ) : Totals → List CsvRow → Totals
  | t, [] => t
  | t, .reward h addr r _ :: rest =>
    replayRows active
      (if h ≤ active ∧ rest.any (rewards h) = false then t.replayReward addr r else t) rest
  | t, .tx h sender recipient amount fee nonce miner _ :: rest =>
    replayRows active
      (if h ≤ active then t.replayTx sender recipient amount fee nonce miner else t) rest

theorem collectRow_skipped {active : ℕ} {row : CsvRow} (h : active < row.height)
    (acc : List ReplayRow × ExtTreeMap ℕ ℕ) : collectRow active acc row = acc := by
  cases row <;> simp_all [collectRow, CsvRow.height]

theorem replayRows_skipped {active : ℕ} {row : CsvRow} (h : active < row.height) (t : Totals)
    (rows : List CsvRow) : replayRows active t (row :: rows) = replayRows active t rows := by
  cases row <;> simp_all [replayRows, CsvRow.height, Nat.not_le_of_lt]

theorem rewards_other {row : CsvRow} {height : ℕ} (h : row.height ≠ height) :
    rewards height row = false := by
  cases row <;> simp_all [rewards, CsvRow.height]

def Indexes (active count : ℕ) (rows : List CsvRow) (latest final : ExtTreeMap ℕ ℕ) : Prop :=
  ∀ h ≤ active, (rows.any (rewards h) = false → final[h]? = latest[h]?) ∧
    (rows.any (rewards h) = true → ∃ i, count ≤ i ∧ final[h]? = some i)

theorem Indexes.mono {active count fewer : ℕ} {rows : List CsvRow} {latest final : ExtTreeMap ℕ ℕ}
    (h : Indexes active count rows latest final) (hle : fewer ≤ count) :
    Indexes active fewer rows latest final := by
  intro g hg
  refine ⟨(h g hg).1, fun hany => ?_⟩
  obtain ⟨i, hi, hf⟩ := (h g hg).2 hany
  exact ⟨i, hle.trans hi, hf⟩

theorem Indexes.cons {active count : ℕ} {row : CsvRow} {rows : List CsvRow}
    {latest final : ExtTreeMap ℕ ℕ} (h : Indexes active count rows latest final)
    (hrow : ∀ g ≤ active, rewards g row = false) :
    Indexes active count (row :: rows) latest final := by
  intro g hg
  rw [List.any_cons, hrow g hg, Bool.false_or]
  exact h g hg

theorem Indexes.reward {active count height : ℕ} {rows : List CsvRow}
    {latest final : ExtTreeMap ℕ ℕ}
    (h : Indexes active (count+1) rows (latest.insert height count) final)
    (addr : Str) (r total : ℕ) :
    Indexes active count (.reward height addr r total :: rows) latest final := by
  intro g hg
  by_cases hgh : height = g
  · subst hgh
    refine ⟨by simp [rewards], fun _ => ?_⟩
    cases hl : rows.any (rewards height) with
    | false =>
      have hf := (h height hg).1 hl
      exact ⟨count, Nat.le_refl _, by simp [hf]⟩
    | true =>
      obtain ⟨i, hi, hf⟩ := (h height hg).2 hl
      exact ⟨i, Nat.le_of_succ_le hi, hf⟩
  · have hother : rewards g (.reward height addr r total) = false := rewards_other hgh
    rw [List.any_cons, hother, Bool.false_or]
    refine ⟨fun hl => ?_, fun hl => ?_⟩
    · rw [(h g hg).1 hl, getElem?_insert_eq, if_neg hgh]
    · obtain ⟨i, hi, hf⟩ := (h g hg).2 hl
      exact ⟨i, Nat.le_of_succ_le hi, hf⟩

theorem replayRow_reward {active count height : ℕ} {rows : List CsvRow}
    {latest final : ExtTreeMap ℕ ℕ}
    (h : Indexes active (count+1) rows (latest.insert height count) final)
    (ha : height ≤ active) (t : Totals) (addr : Str) (r : ℕ) :
    replayRow final t (.reward count height addr r) =
      if height ≤ active ∧ rows.any (rewards height) = false then t.replayReward addr r
      else t := by
  unfold replayRow
  cases hl : rows.any (rewards height) with
  | false =>
    have hf := (h height ha).1 hl
    simp [hf, ha]
  | true =>
    obtain ⟨i, hi, hf⟩ := (h height ha).2 hl
    simp [hf, show i ≠ count by omega]

/-- The second pass over the collected rows, against the final reward index,
does what `replayRows` does; that index is the last reward row of each height. -/
theorem collect_replay (active : ℕ) (rows : List CsvRow) :
    ∀ (acc : List ReplayRow) (latest : ExtTreeMap ℕ ℕ),
      ∃ suffix final, rows.foldl (collectRow active) (acc, latest) = (acc++suffix, final) ∧
        (∀ t, suffix.foldl (replayRow final) t = replayRows active t rows) ∧
        Indexes active acc.length rows latest final := by
  induction rows with
  | nil =>
    intro acc latest
    exact ⟨[], latest, by simp, fun _ => rfl, by simp [Indexes]⟩
  | cons row rows ih =>
    intro acc latest
    rw [List.foldl_cons]
    rcases Nat.lt_or_ge active row.height with habove | hbelow
    · obtain ⟨suffix, final, hfold, hrep, hidx⟩ := ih acc latest
      refine ⟨suffix, final, by rw [collectRow_skipped habove, hfold], ?_, ?_⟩
      · intro t
        rw [hrep, replayRows_skipped habove]
      · exact hidx.cons fun g hg => rewards_other (by omega)
    · cases row with
      | reward h addr r total =>
        have hc : collectRow active (acc, latest) (.reward h addr r total) =
            (acc++[.reward acc.length h addr r], latest.insert h acc.length) := by
          simp [collectRow, hbelow]
        obtain ⟨suffix, final, hfold, hrep, hidx⟩ :=
          ih (acc++[.reward acc.length h addr r]) (latest.insert h acc.length)
        rw [List.length_append, List.length_singleton] at hidx
        refine ⟨.reward acc.length h addr r :: suffix, final, ?_, ?_, hidx.reward addr r total⟩
        · rw [hc, hfold, List.append_assoc]
          rfl
        · intro t
          rw [List.foldl_cons, hrep, replayRow_reward hidx hbelow]
          rfl
      | tx h sender recipient amount fee nonce miner total =>
        have hc : collectRow active (acc, latest)
            (.tx h sender recipient amount fee nonce miner total) =
            (acc++[.tx sender recipient amount fee nonce miner], latest) := by
          simp [collectRow, hbelow]
        obtain ⟨suffix, final, hfold, hrep, hidx⟩ :=
          ih (acc++[.tx sender recipient amount fee nonce miner]) latest
        rw [List.length_append, List.length_singleton] at hidx
        refine ⟨.tx sender recipient amount fee nonce miner :: suffix, final, ?_, ?_, ?_⟩
        · rw [hc, hfold, List.append_assoc]
          rfl
        · intro t
          have ha : h ≤ active := hbelow
          rw [List.foldl_cons, hrep]
          simp [replayRow, replayRows, ha]
        · exact (hidx.mono (Nat.le_succ _)).cons fun _ _ => rfl

theorem scopedTotals_eq (rows : List CsvRow) (active : ℕ) :
    scopedTotals rows active = replayRows active Totals.empty rows := by
  obtain ⟨suffix, final, hfold, hrep, -⟩ := collect_replay active rows [] ∅
  unfold scopedTotals
  rw [hfold]
  exact hrep Totals.empty

theorem replay_tx_append {rows : List CsvRow} (htx : ∀ row ∈ rows, IsTx row) (active : ℕ)
    (t : Totals) (later : List CsvRow) :
    replayRows active t (rows++later) = replayRows active (replayRows active t rows) later := by
  induction rows generalizing t with
  | nil => rfl
  | cons row rows ih =>
    have hrest := ih fun row hr => htx row (List.mem_cons_of_mem _ hr)
    cases row with
    | reward => exact (htx _ List.mem_cons_self).elim
    | tx => exact hrest _

/-- Rows of the next height extend the replay of the heights below it, when
they supersede whatever the file already holds at their height. -/
theorem replay_extend {rows later : List CsvRow} {tip : ℕ}
    (hlater : ∀ row ∈ later, row.height = tip+1)
    (htx : ∀ row ∈ rows, IsTx row → row.height ≠ tip+1)
    (hrew : rows.any (rewards (tip+1)) → later.any (rewards (tip+1))) (t : Totals) :
    replayRows (tip+1) t (rows++later) = replayRows (tip+1) (replayRows tip t rows) later := by
  have hnone : ∀ h ≤ tip, later.any (rewards h) = false := by
    intro h hh
    rw [List.any_eq_false]
    intro row hrow
    have := hlater row hrow
    cases row <;> simp only [CsvRow.height] at this <;> simp [rewards]
    omega
  induction rows generalizing t with
  | nil => rfl
  | cons row rows ih =>
    have htx' : ∀ row ∈ rows, IsTx row → row.height ≠ tip+1 := fun row hr =>
      htx row (List.mem_cons_of_mem _ hr)
    have hrew' : rows.any (rewards (tip+1)) → later.any (rewards (tip+1)) := fun h =>
      hrew (by simp [h])
    cases row with
    | reward h addr r total =>
      simp only [List.cons_append, replayRows, List.any_append]
      rw [ih htx' hrew']
      congr 2
      by_cases hle : h ≤ tip
      · simp [hle, Nat.le_succ_of_le hle, hnone h hle]
      · by_cases heq : h = tip+1
        · subst heq
          have hl := hrew (by simp [rewards])
          simp [hl]
        · simp [hle, show ¬ h ≤ tip+1 by omega]
    | tx h sender recipient amount fee nonce miner total =>
      simp only [List.cons_append, replayRows]
      rw [ih htx' hrew']
      have hne : h ≠ tip+1 := htx _ List.mem_cons_self trivial
      congr 2
      by_cases hle : h ≤ tip
      · simp [hle, Nat.le_succ_of_le hle]
      · simp [hle, show ¬ h ≤ tip+1 by omega]

def totalsOf (l : RewardLedger) : Totals :=
  { balances := l.balances, nonces := l.nonces, totalMined := l.totalMined }

theorem settle_totals {K : Primitives} {l : RewardLedger} {s : SignedTransaction}
    (h : Accepted K l s) (hs : Sized s) (height : ℕ) (miner : Str) (timestamp : ℕ) :
    totalsOf (settle K l height s miner timestamp) =
      (totalsOf l).replayTx s.fromHex s.toHex s.tx.amount s.tx.fee s.tx.nonce miner := by
  have hsn : s.tx.nonce = l.nonces.getD s.fromHex 0 := h.nonce
  have hmax : max (satAdd s.tx.nonce 1) (l.nonces.getD s.fromHex 0) = satAdd s.tx.nonce 1 := by
    have := hs.nonce
    rw [← hsn]
    unfold satAdd
    omega
  simp [totalsOf, settle, Totals.replayTx, settleBalances, hmax, satAdd_of_le h.fits]

theorem transactions_rows (K : Primitives) {height : ℕ} {miner : Str} (timestamp : ℕ)
    (hh : height ≤ u64Max) (hm : Plain miner) (txs : List SignedTransaction) :
    ∀ (l : RewardLedger) (n : ℕ), Durable (txs.length+n) l.csv → WholeLines l.csv.text →
      let last := (applyTransactions K height miner timestamp l txs).2
      Durable n last.csv ∧ WholeLines last.csv.text ∧
      ∃ rows, csvRows last.csv.text = csvRows l.csv.text++rows ∧
        (∀ row ∈ rows, IsTx row ∧ row.height = height) ∧
        ((∀ s ∈ txs, Sized s) → replayRows height (totalsOf l) rows = totalsOf last) := by
  induction txs with
  | nil =>
    intro l n hd hw
    exact ⟨hd.mono (by simp), hw, [], by simp [applyTransactions], by simp, fun _ => rfl⟩
  | cons s txs ih =>
    intro l n hd hw
    by_cases hacc : Accepted K l s
    · have hd₁ : Durable (txs.length+n+1) l.csv := hd.mono (by simp only [List.length_cons]; omega)
      obtain ⟨hok, hd'⟩ : (txAppend K l height s miner timestamp).1 = .ok () ∧
        Durable (txs.length+n) (settle K l height s miner timestamp).csv := append_durable hd₁ _ _
      have hline := csvRows_append hw (join_no_newline (txLine_plain K hm height s
        l.totalMined timestamp))
      rw [show joinFields _ = txLine K height s miner l.totalMined timestamp from rfl,
        parse_txLine K hh hm] at hline
      obtain ⟨hw', hrow⟩ := hline
      rw [← append_written hd₁ "opening ledger CSV for transaction append"] at hw' hrow
      obtain ⟨hdl, hwl, rows, hrows, hall, hrep⟩ :=
        ih (settle K l height s miner timestamp) n hd' hw'
      simp only [applyTransactions, applyTransaction_accepted hacc, hok]
      refine ⟨hdl, hwl, txRow height s miner l.totalMined :: rows, ?_, ?_, fun hs => ?_⟩
      · rw [hrows]
        simp only [settle, txAppend, hrow, Option.toList_some, List.append_assoc,
          List.singleton_append]
      · intro row hr
        rcases List.mem_cons.mp hr with rfl | hr
        · exact ⟨trivial, rfl⟩
        · exact hall row hr
      · rw [txRow_sized (hs s List.mem_cons_self)]
        simp only [replayRows, Nat.le_refl, if_true]
        rw [← settle_totals hacc (hs s List.mem_cons_self) height miner timestamp]
        exact hrep fun t ht => hs t (List.mem_cons_of_mem _ ht)
    · obtain ⟨e, hrej⟩ := applyTransaction_rejected hacc height miner timestamp
      simp only [applyTransactions, hrej]
      obtain ⟨hdl, hwl, rows, hrows, hall, hrep⟩ :=
        ih l n (hd.mono (by simp only [List.length_cons]; omega)) hw
      exact ⟨hdl, hwl, rows, hrows, hall, fun hs => hrep fun t ht =>
        hs t (List.mem_cons_of_mem _ ht)⟩

/-- The row of a block's reward; none when there is no reward. -/
def rewardRows (height : ℕ) (miner : Str) (reward total : ℕ) : List CsvRow :=
  if reward = 0 then [] else [rewardRow height miner reward total]

theorem block_rows (K : Primitives) {height reward : ℕ} {miner : Str} (timestamp : ℕ)
    (hh : height ≤ u64Max) (hr : reward ≤ u64Max) (hm : Plain miner)
    (txs : List SignedTransaction) {l : RewardLedger}
    (hd : Durable (txs.length+if reward = 0 then 0 else 1) l.csv) (hw : WholeLines l.csv.text) :
    let last := executeBlock K height miner reward timestamp l txs
    WholeLines last.csv.text ∧
    ∃ rows total, csvRows last.csv.text =
        csvRows l.csv.text++(rows++rewardRows height miner reward total) ∧
      (∀ row ∈ rows, IsTx row ∧ row.height = height) ∧
      ((∀ s ∈ txs, Sized s) → Maps.total l.balances+reward ≤ u64Max →
        replayRows height (totalsOf l) (rows++rewardRows height miner reward total) =
          totalsOf last) := by
  obtain ⟨hdl, hwl, rows, hrows, hall, hrep⟩ :=
    transactions_rows K timestamp hh hm txs l _ hd hw
  have hle := total_applyTransactions_le K height miner timestamp txs l
  unfold executeBlock
  generalize (applyTransactions K height miner timestamp l txs).2 = last at *
  unfold RewardLedger.credit rewardRows
  by_cases hz : reward = 0
  · rw [if_pos hz]
    refine ⟨hwl, rows, 0, ?_, hall, fun hs _ => ?_⟩
    · rw [if_pos hz, List.append_nil]
      exact hrows
    · rw [if_pos hz, List.append_nil]
      exact hrep hs
  · rw [if_neg hz] at hdl ⊢
    have hline := csvRows_append hwl (join_no_newline (rewardLine_plain hm height reward
      (satAdd last.totalMined reward) timestamp))
    rw [show joinFields _ = rewardLine height miner reward (satAdd last.totalMined reward)
      timestamp from rfl, parse_rewardLine hh hr hm] at hline
    obtain ⟨hw', hrow⟩ := hline
    rw [← append_written hdl "opening ledger CSV for append"] at hw' hrow
    refine ⟨hw', rows, satAdd last.totalMined reward, ?_, hall, fun hs hroom => ?_⟩
    · rw [if_neg hz]
      simp only [hrow, hrows, Option.toList_some, List.append_assoc]
    · have hget := getD_le_total last.balances miner
      have hwrap : wrapAdd (last.balances.getD miner 0) reward =
          satAdd (last.balances.getD miner 0) reward := by
        rw [wrapAdd_of_le (by omega), satAdd_of_le (by omega)]
      rw [if_neg hz, replay_tx_append (fun row h => (hall row h).1), hrep hs]
      simp [rewardRow, replayRows, totalsOf, Totals.replayReward, creditBalance,
        RewardLedger.balance, hwrap]

structure BlockExec where
  miner : Str
  reward : ℕ
  timestamp : ℕ
  txs : List SignedTransaction
  reward_le : reward ≤ u64Max
  sized : ∀ s ∈ txs, Sized s

/-- A ledger and the height it stands for. -/
structure Journal where
  ledger : RewardLedger
  tip : ℕ

inductive Op where
  | execute (block : BlockExec)
  | reorg (forkPoint : ℕ)

def start (outcomes : List AppendOutcome) : Journal :=
  { ledger := .create outcomes, tip := 0 }

def step (K : Primitives) (j : Journal) : Op → Option Journal
  | .execute b =>
    if j.tip+1 ≤ u64Max then
      some { ledger := executeBlock K (j.tip+1) b.miner b.reward b.timestamp j.ledger b.txs
             tip := j.tip+1 }
    else none
  | .reorg forkPoint =>
    if forkPoint ≤ j.tip then
      some { ledger := .openScoped j.ledger.csv forkPoint, tip := forkPoint }
    else none

def fileRows (j : Journal) : List CsvRow := csvRows j.ledger.csv.text

/-- The block's rows will be the only live ones of their height. -/
structure Fresh (j : Journal) (b : BlockExec) : Prop where
  durable : Durable (b.txs.length+1) j.ledger.csv
  plain : Plain b.miner
  room : total j.ledger.balances+b.reward ≤ u64Max
  noTx : ∀ row ∈ fileRows j, IsTx row → row.height ≠ j.tip+1
  supersedes : (fileRows j).any (rewards (j.tip+1)) → 0 < b.reward

instance (j : Journal) (b : BlockExec) : Decidable (Fresh j b) :=
  decidable_of_iff (Durable (b.txs.length+1) j.ledger.csv ∧ Plain b.miner ∧
      total j.ledger.balances+b.reward ≤ u64Max ∧
      (∀ row ∈ fileRows j, IsTx row → row.height ≠ j.tip+1) ∧
      ((fileRows j).any (rewards (j.tip+1)) → 0 < b.reward))
    ⟨fun h => ⟨h.1, h.2.1, h.2.2.1, h.2.2.2.1, h.2.2.2.2⟩,
      fun h => ⟨h.durable, h.plain, h.room, h.noTx, h.supersedes⟩⟩

def Admissible (j : Journal) : Op → Prop
  | .execute b => Fresh j b
  | .reorg _ => True

instance (j : Journal) : (op : Op) → Decidable (Admissible j op)
  | .execute b => inferInstanceAs (Decidable (Fresh j b))
  | .reorg _ => .isTrue trivial

/-- The file is whole and its replay at the tip is the ledger in memory. -/
structure Faithful (j : Journal) : Prop where
  whole : WholeLines j.ledger.csv.text
  replays : scopedTotals (fileRows j) j.tip = totalsOf j.ledger

theorem faithful_start (outcomes : List AppendOutcome) : Faithful (start outcomes) where
  whole := wholeLines_create outcomes
  replays := by
    have hrows : fileRows (start outcomes) = [] := csvRows_create outcomes
    rw [hrows]
    rfl

theorem faithful_execute {K : Primitives} {j : Journal} {b : BlockExec} (hf : Faithful j)
    (hb : Fresh j b) (ht : j.tip+1 ≤ u64Max) :
    Faithful { ledger := executeBlock K (j.tip+1) b.miner b.reward b.timestamp j.ledger b.txs
               tip := j.tip+1 } := by
  obtain ⟨hw, rows, total, hrows, hall, hrep⟩ := block_rows K b.timestamp ht b.reward_le
    hb.plain b.txs (hb.durable.mono (by split <;> omega)) hf.whole
  have hheight : ∀ row ∈ rows++rewardRows (j.tip+1) b.miner b.reward total,
      row.height = j.tip+1 := by
    intro row h
    rcases List.mem_append.mp h with h | h
    · exact (hall row h).2
    · unfold rewardRows at h
      split at h
      · simp at h
      · rw [List.mem_singleton.mp h]
        rfl
  have hrew : 0 < b.reward →
      (rows++rewardRows (j.tip+1) b.miner b.reward total).any (rewards (j.tip+1)) = true := by
    intro hpos
    simp [rewardRows, Nat.ne_of_gt hpos, rewardRow, rewards]
  refine ⟨hw, ?_⟩
  have hext := replay_extend hheight hb.noTx (fun h => hrew (hb.supersedes h)) Totals.empty
  rw [← scopedTotals_eq, ← scopedTotals_eq, hf.replays, hrep b.sized hb.room] at hext
  unfold fileRows at hext ⊢
  rw [← hrows] at hext
  exact hext

theorem faithful_step {K : Primitives} {j k : Journal} {op : Op} (hf : Faithful j)
    (ho : Admissible j op) (hs : step K j op = some k) : Faithful k := by
  cases op with
  | execute b =>
    rw [step] at hs
    split at hs
    · rename_i ht
      obtain rfl := Option.some.inj hs
      exact faithful_execute hf ho ht
    · simp at hs
  | reorg forkPoint =>
    rw [step] at hs
    split at hs
    · obtain rfl := Option.some.inj hs
      exact ⟨hf.whole, rfl⟩
    · simp at hs

/-- When every executed block finds no stale row of its height that it does not
supersede, reloading at the tip gives back the ledger in memory. -/
theorem scoped_reload {K : Primitives} {outcomes : List AppendOutcome} {j : Journal}
    (h : Run (step K) Admissible (start outcomes) j) :
    RewardLedger.openScoped j.ledger.csv j.tip = j.ledger := by
  have hf := h.invariant (faithful_start outcomes) fun _ _ _ => faithful_step
  have hr := hf.replays
  unfold fileRows at hr
  simp only [RewardLedger.openScoped, RewardLedger.openInner, hr]
  rfl

def toyBlock (txs : List SignedTransaction) (h : ∀ s ∈ txs, Sized s := by decide +kernel) :
    BlockExec where
  miner := Hex.encode (toySender 1).toList
  reward := 50
  timestamp := 7
  txs
  reward_le := by decide
  sized := h

def toyPayment : SignedTransaction := toyTransfer 1 (toySender 2) 30 0 1

theorem scoped_reload_sample :
    let ops := [.execute (toyBlock []), .execute (toyBlock []), .reorg 1,
      .execute (toyBlock [toyPayment])]
    ∃ j, exec (step toyPrimitives) (start []) ops = some j ∧ j.tip = 2 ∧
      RewardLedger.openScoped j.ledger.csv j.tip = j.ledger := by
  intro ops
  have htip : (exec (step toyPrimitives) (start []) ops).any (·.tip == 2) := by decide +kernel
  have hadm : Admitted (step toyPrimitives) Admissible (start []) ops := by decide +kernel
  obtain ⟨j, hj, ht⟩ := (Option.any_eq_true _ _).mp htip
  exact ⟨j, hj, by simpa using ht, scoped_reload (hadm.run hj)⟩

theorem rolled_back_transfer_replayed :
    let ops := [.execute (toyBlock []), .execute (toyBlock [toyPayment]), .reorg 1,
      .execute (toyBlock [])]
    ∃ j, exec (step toyPrimitives) (start []) ops = some j ∧ j.tip = 2 ∧
      j.ledger.balance toyPayment.toHex = 0 ∧
      (RewardLedger.openScoped j.ledger.csv j.tip).balance toyPayment.toHex = 30 := by
  intro ops
  have hrun : (exec (step toyPrimitives) (start []) ops).any fun j => j.tip == 2 &&
      j.ledger.balance toyPayment.toHex == 0 &&
      (RewardLedger.openScoped j.ledger.csv j.tip).balance toyPayment.toHex == 30 := by
    decide +kernel
  obtain ⟨j, hj, ht⟩ := (Option.any_eq_true _ _).mp hrun
  simp only [Bool.and_eq_true, beq_iff_eq] at ht
  exact ⟨j, hj, ht.1.1, ht.1.2, ht.2⟩

end BinaChain.Replay
