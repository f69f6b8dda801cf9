import BinaChain.Ledger.Replay
import BinaChain.Ledger.StateRoot

/-!
# Reloading a linear history

The calls of blocks at increasing heights write rows that no later row
supersedes. The plain load then counts every row and the scoped load the rows
of the heights up to its own, each exactly once.
-/

set_option autoImplicit false

namespace BinaChain.History
open BinaChain.Word BinaChain.Text BinaChain.Crypto BinaChain.Transaction BinaChain.Maps
open BinaChain.Rewards BinaChain.Execution BinaChain.Rows BinaChain.Machine BinaChain.Replay
open BinaChain.StateRoot

def callHeight : LedgerCall → ℕ
  | .credit height .. => height
  | .apply height .. => height

def callMiner : LedgerCall → Str
  | .credit _ miner .. => miner
  | .apply _ _ miner _ => miner

def IsCredit : LedgerCall → Prop
  | .credit .. => True
  | .apply .. => False

/-- The row of a call is read back as it was written. -/
structure Legible (c : LedgerCall) : Prop where
  height : callHeight c ≤ u64Max
  miner : Plain (callMiner c)

def callRows (l : RewardLedger) : LedgerCall → List CsvRow
  | .credit height miner reward _ => rewardRows height miner reward (satAdd l.totalMined reward)
  | .apply height signed miner _ => [txRow height signed miner l.totalMined]

def countRow (t : Totals) : CsvRow → Totals
  | .reward _ addr reward _ => t.replayReward addr reward
  | .tx _ sender recipient amount fee nonce miner _ =>
    t.replayTx sender recipient amount fee nonce miner

def liveRow (active : ℕ) (t : Totals) (row : CsvRow) : Totals :=
  if row.height ≤ active then countRow t row else t

structure Recorded (l : RewardLedger) (credited : ℕ) : Prop where
  whole : WholeLines l.csv.text
  supply : total l.balances ≤ credited
  nonces : ∀ a, l.nonce a ≤ u64Max
  mined : l.totalMined = credited

structure Adds (l l' : RewardLedger) (rows : List CsvRow) : Prop where
  file : csvRows l'.csv.text = csvRows l.csv.text++rows
  counted : rows.foldl countRow (totalsOf l) = totalsOf l'
  trusted : rows.foldl unscopedRow (totalsOf l) = totalsOf l'

theorem recorded_create (outcomes : List AppendOutcome) :
    Recorded (RewardLedger.create outcomes) 0 where
  whole := wholeLines_create outcomes
  supply := by simp [RewardLedger.create, total_empty]
  nonces a := by simp [RewardLedger.create, RewardLedger.nonce]
  mined := rfl

theorem Adds.refl (l : RewardLedger) : Adds l l [] := ⟨by simp, rfl, rfl⟩

theorem Adds.trans {l m n : RewardLedger} {rows more : List CsvRow} (h : Adds l m rows)
    (h' : Adds m n more) : Adds l n (rows++more) where
  file := by rw [h'.file, h.file, List.append_assoc]
  counted := by rw [List.foldl_append, h.counted, h'.counted]
  trusted := by rw [List.foldl_append, h.trusted, h'.trusted]

theorem append_ok {f : CsvFile} {context : String} {line : Str}
    (h : (f.append context line).1 = .ok ()) :
    (f.append context line).2.text = f.text++unlines [line] := by
  unfold CsvFile.append at h ⊢
  split at h <;> first | rfl | cases h

theorem call_credit {K : Primitives} {l l' : RewardLedger} {height : ℕ} {miner : Str}
    {reward timestamp : ℕ} (hz : reward ≠ 0)
    (h : call K l (.credit height miner reward timestamp) = some l') :
    l' = { l with
      totalMined := satAdd l.totalMined reward
      balances := l.balances.insert miner (wrapAdd (l.balance miner) reward)
      csv := l'.csv } ∧
    l'.csv.text = l.csv.text++
      unlines [rewardLine height miner reward (satAdd l.totalMined reward) timestamp] := by
  simp only [call, RewardLedger.credit, if_neg hz] at h
  cases ha : (l.csv.append "opening ledger CSV for append"
      (rewardLine height miner reward (satAdd l.totalMined reward) timestamp)).1 with
  | error e => simp [ha, Except.map] at h
  | ok u =>
    simp only [ha, Except.map, Option.some.injEq] at h
    subst h
    exact ⟨rfl, append_ok ha⟩

theorem call_apply {K : Primitives} {l l' : RewardLedger} {height : ℕ} {s : SignedTransaction}
    {miner : Str} {timestamp : ℕ} (h : call K l (.apply height s miner timestamp) = some l') :
    Accepted K l s ∧ l' = settle K l height s miner timestamp ∧
    l'.csv.text = l.csv.text++unlines [txLine K height s miner l.totalMined timestamp] := by
  simp only [call] at h
  by_cases hacc : Accepted K l s
  · rw [applyTransaction_accepted hacc] at h
    cases ha : (txAppend K l height s miner timestamp).1 with
    | error e => simp [ha] at h
    | ok u =>
      simp only [ha, Option.some.injEq] at h
      subst h
      exact ⟨hacc, rfl, append_ok ha⟩
  · obtain ⟨e, hrej⟩ := applyTransaction_rejected hacc height miner timestamp
    simp [hrej] at h

theorem credit_adds {K : Primitives} {l l' : RewardLedger} {credited height : ℕ} {miner : Str}
    {reward timestamp : ℕ} (hr : Recorded l credited)
    (hp : Legible (.credit height miner reward timestamp)) (hfit : credited+reward ≤ u64Max)
    (h : call K l (.credit height miner reward timestamp) = some l') :
    Recorded l' (credited+reward) ∧
      Adds l l' (callRows l (.credit height miner reward timestamp)) := by
  by_cases hz : reward = 0
  · subst hz
    obtain rfl : l = l' := by
      simpa [call, RewardLedger.credit] using h
    exact ⟨hr, .refl l⟩
  obtain ⟨hl', htext⟩ := call_credit hz h
  have hbal := getD_le_total l.balances miner
  have hsup := hr.supply
  have hmined : satAdd l.totalMined reward = credited+reward := by
    rw [hr.mined, satAdd_of_le hfit]
  have hsum : satAdd (l.balances.getD miner 0) reward = l.balances.getD miner 0+reward :=
    satAdd_of_le (by omega)
  have hwrap : wrapAdd (l.balance miner) reward = satAdd (l.balances.getD miner 0) reward := by
    rw [hsum]
    exact wrapAdd_of_le (by unfold RewardLedger.balance; omega)
  have hheight : height ≤ u64Max := hp.height
  have hplain : Plain miner := hp.miner
  have hline := csvRows_append hr.whole (join_no_newline (rewardLine_plain hplain height reward
    (satAdd l.totalMined reward) timestamp))
  rw [show joinFields _ = rewardLine height miner reward (satAdd l.totalMined reward) timestamp
    from rfl, parse_rewardLine hheight (by omega) hplain, ← htext] at hline
  have hrows : callRows l (.credit height miner reward timestamp) =
      [rewardRow height miner reward (satAdd l.totalMined reward)] := if_neg hz
  rw [hl', hrows]
  refine ⟨⟨hline.1, ?_, hr.nonces, hmined⟩, ⟨hline.2, ?_, ?_⟩⟩
  · have hins := total_insert l.balances miner (l.balances.getD miner 0+reward)
    simp only [hwrap, hsum]
    omega
  · simp [countRow, rewardRow, Totals.replayReward, totalsOf, creditBalance, hwrap]
  · have hread : readNat (credited+reward) = credited+reward := by
      rw [readNat, parseU64_showNat hfit]
      rfl
    simp [unscopedRow, rewardRow, totalsOf, creditBalance, hwrap, hmined, hread]

theorem apply_adds {K : Primitives} {l l' : RewardLedger} {credited height : ℕ}
    {s : SignedTransaction} {miner : Str} {timestamp : ℕ} (hr : Recorded l credited)
    (hp : Legible (.apply height s miner timestamp)) (hfit : credited ≤ u64Max)
    (h : call K l (.apply height s miner timestamp) = some l') :
    Recorded l' credited ∧ Adds l l' (callRows l (.apply height s miner timestamp)) := by
  obtain ⟨hacc, rfl, htext⟩ := call_apply h
  have hfunded : s.tx.amount+s.tx.fee ≤ l.balances.getD s.fromHex 0 := hacc.funded
  have hbal := getD_le_total l.balances s.fromHex
  have hsup := hr.supply
  have hsized : Sized s := by
    have hnonce := hr.nonces s.fromHex
    have hsn : s.tx.nonce = l.nonce s.fromHex := hacc.nonce
    exact ⟨by omega, by omega, by omega⟩
  have hheight : height ≤ u64Max := hp.height
  have hplain : Plain miner := hp.miner
  have hline := csvRows_append hr.whole (join_no_newline (txLine_plain K hplain height s
    l.totalMined timestamp))
  rw [show joinFields _ = txLine K height s miner l.totalMined timestamp from rfl,
    parse_txLine K hheight hplain, ← htext] at hline
  have hsettle := settle_totals hacc hsized height miner timestamp
  have hmined : parseU64 (showNat l.totalMined) = some l.totalMined :=
    parseU64_showNat (by rw [hr.mined]; exact hfit)
  refine ⟨⟨hline.1, ?_, ?_, hr.mined⟩, ⟨hline.2, ?_, ?_⟩⟩
  · exact Nat.le_trans (total_settleBalances_le hacc.funded miner) hr.supply
  · intro a
    simp only [settle, RewardLedger.nonce, getD_insert_eq]
    split
    · exact satAdd_le _ _
    · exact hr.nonces a
  · rw [hsettle]
    simp [callRows, txRow_sized hsized, countRow]
  · rw [hsettle]
    simp [callRows, txRow_sized hsized, unscopedRow, hmined, Totals.replayTx, totalsOf]

theorem call_adds {K : Primitives} {l l' : RewardLedger} {credited : ℕ} {c : LedgerCall}
    (hr : Recorded l credited) (hp : Legible c) (hfit : credited+c.credited ≤ u64Max)
    (h : call K l c = some l') : Recorded l' (credited+c.credited) ∧ Adds l l' (callRows l c) := by
  cases c with
  | credit height miner reward timestamp => exact credit_adds hr hp hfit h
  | apply height s miner timestamp => exact apply_adds hr hp hfit h

def BelongsTo (row : CsvRow) (c : LedgerCall) : Prop :=
  row.height = callHeight c ∧ (IsTx row ∨ IsCredit c)

def Apart (row later : CsvRow) : Prop := ∀ h, rewards h row = true → rewards h later = false

def Ordered (c later : LedgerCall) : Prop :=
  callHeight c ≤ callHeight later ∧
    (IsCredit c → IsCredit later → callHeight c ≠ callHeight later)

theorem rewards_eq_true {h : ℕ} {row : CsvRow} (hr : rewards h row = true) :
    row.height = h ∧ ¬IsTx row := by
  cases row with
  | reward => exact ⟨beq_iff_eq.mp hr, id⟩
  | tx => cases hr

theorem callRows_belong (l : RewardLedger) (c : LedgerCall) :
    ∀ row ∈ callRows l c, BelongsTo row c := by
  cases c with
  | credit height miner reward timestamp =>
    intro row hrow
    simp only [callRows, rewardRows] at hrow
    split at hrow
    · cases hrow
    · rw [List.mem_singleton.mp hrow]
      exact ⟨rfl, .inr trivial⟩
  | apply height s miner timestamp =>
    intro row hrow
    rw [List.mem_singleton.mp hrow]
    exact ⟨rfl, .inl trivial⟩

theorem callRows_apart (l : RewardLedger) (c : LedgerCall) : (callRows l c).Pairwise Apart := by
  cases c with
  | credit height miner reward timestamp =>
    simp only [callRows, rewardRows]
    split
    · exact List.Pairwise.nil
    · exact List.pairwise_singleton _ _
  | apply height s miner timestamp => exact List.pairwise_singleton _ _

theorem BelongsTo.apart {row later : CsvRow} {c d : LedgerCall} (h : BelongsTo row c)
    (h' : BelongsTo later d) (ho : Ordered c d) : Apart row later := by
  intro height hr
  by_contra hl
  rw [Bool.not_eq_false] at hl
  obtain ⟨hheight, htx⟩ := rewards_eq_true hr
  obtain ⟨hheight', htx'⟩ := rewards_eq_true hl
  refine ho.2 (h.2.resolve_left htx) (h'.2.resolve_left htx') ?_
  rw [← h.1, ← h'.1, hheight, hheight']

theorem replayRows_apart (active : ℕ) {rows : List CsvRow} (h : rows.Pairwise Apart) :
    ∀ t, replayRows active t rows = rows.foldl (liveRow active) t := by
  induction rows with
  | nil => exact fun _ => rfl
  | cons row rows ih =>
    intro t
    obtain ⟨hrow, hrows⟩ := List.pairwise_cons.mp h
    cases row with
    | reward height addr reward total =>
      have hlast : rows.any (rewards height) = false := by
        rw [List.any_eq_false]
        intro later hl
        simpa using hrow later hl height (by simp [rewards])
      simp only [replayRows, hlast, and_true, List.foldl_cons, ih hrows]
      rfl
    | tx height sender recipient amount fee nonce miner total =>
      simp only [replayRows, List.foldl_cons, ih hrows]
      rfl

theorem live_counted {active : ℕ} {rows : List CsvRow} (h : ∀ row ∈ rows, row.height ≤ active)
    (t : Totals) : rows.foldl (liveRow active) t = rows.foldl countRow t := by
  induction rows generalizing t with
  | nil => rfl
  | cons row rows ih =>
    rw [List.foldl_cons, List.foldl_cons, liveRow, if_pos (h row List.mem_cons_self)]
    exact ih (fun r hr => h r (List.mem_cons_of_mem _ hr)) _

theorem live_stale {active : ℕ} {rows : List CsvRow} (h : ∀ row ∈ rows, active < row.height)
    (t : Totals) : rows.foldl (liveRow active) t = t := by
  induction rows generalizing t with
  | nil => rfl
  | cons row rows ih =>
    rw [List.foldl_cons, liveRow, if_neg (Nat.not_le.mpr (h row List.mem_cons_self))]
    exact ih (fun r hr => h r (List.mem_cons_of_mem _ hr)) _

def upTo (active : ℕ) (calls : List LedgerCall) : List LedgerCall :=
  calls.filter fun c => callHeight c ≤ active

/-- The rows that a run appends, and what the load of a height makes of them:
the ledger after the calls up to that height. -/
theorem run_adds {K : Primitives} {calls : List LedgerCall} :
    ∀ {l l' : RewardLedger} {credited : ℕ}, Recorded l credited → (∀ c ∈ calls, Legible c) →
      calls.Pairwise Ordered → credited+totalCredited calls ≤ u64Max →
      exec (call K) l calls = some l' →
      ∃ rows, Adds l l' rows ∧ rows.Pairwise Apart ∧
        (∀ row ∈ rows, ∃ c ∈ calls, BelongsTo row c) ∧
        ∀ active, ∃ m, exec (call K) l (upTo active calls) = some m ∧
          rows.foldl (liveRow active) (totalsOf l) = totalsOf m := by
  induction calls with
  | nil =>
    intro l l' credited hr hp ho hfit hs
    obtain rfl := Option.some.inj hs
    exact ⟨[], .refl l, .nil, by simp, fun active => ⟨l, rfl, rfl⟩⟩
  | cons c calls ih =>
    intro l l' credited hr hp ho hfit hs
    obtain ⟨u, hu, hs⟩ := Option.bind_eq_some_iff.mp hs
    obtain ⟨hc, ho⟩ := List.pairwise_cons.mp ho
    have hsum : totalCredited (c :: calls) = c.credited+totalCredited calls := by
      simp [totalCredited]
    rw [hsum] at hfit
    obtain ⟨hru, hadd⟩ := call_adds hr (hp c List.mem_cons_self) (by omega) hu
    obtain ⟨rows, hadds, hapart, hbelong, hload⟩ := ih hru
      (fun d hd => hp d (List.mem_cons_of_mem _ hd)) ho (by omega) hs
    have hown := callRows_belong l c
    refine ⟨callRows l c++rows, hadd.trans hadds, ?_, ?_, fun active => ?_⟩
    · refine List.pairwise_append.mpr ⟨callRows_apart l c, hapart, fun row hrow later hl => ?_⟩
      obtain ⟨d, hd, hbel⟩ := hbelong later hl
      exact (hown row hrow).apart hbel (hc d hd)
    · intro row hrow
      rcases List.mem_append.mp hrow with hrow | hrow
      · exact ⟨c, List.mem_cons_self, hown row hrow⟩
      · obtain ⟨d, hd, hbel⟩ := hbelong row hrow
        exact ⟨d, List.mem_cons_of_mem _ hd, hbel⟩
    · by_cases hle : callHeight c ≤ active
      · obtain ⟨m, hm, hlive⟩ := hload active
        refine ⟨m, ?_, ?_⟩
        · have hfirst : upTo active (c :: calls) = c :: upTo active calls := by
            simp [upTo, hle]
          rw [hfirst, exec, hu]
          exact hm
        · have hreached : ∀ row ∈ callRows l c, row.height ≤ active := by
            intro row hrow
            rw [(hown row hrow).1]
            exact hle
          rw [List.foldl_append, live_counted hreached, hadd.counted, hlive]
      · have hlater : ∀ d ∈ c :: calls, active < callHeight d := by
          intro d hd
          rcases List.mem_cons.mp hd with rfl | hd
          · omega
          · have hord := (hc d hd).1
            omega
        have hnone : upTo active (c :: calls) = [] := by
          rw [upTo, List.filter_eq_nil_iff]
          intro d hd
          have hlt := hlater d hd
          simpa using hlt
        refine ⟨l, by rw [hnone]; rfl, live_stale ?_ _⟩
        intro row hrow
        rcases List.mem_append.mp hrow with hrow | hrow
        · rw [(hown row hrow).1]
          exact hlater c List.mem_cons_self
        · obtain ⟨d, hd, hbel⟩ := hbelong row hrow
          rw [hbel.1]
          exact hlater d (List.mem_cons_of_mem _ hd)

/-- What a block does to the ledger: its transactions, each with the miner and
the time it is applied with, then at most one credit. -/
structure LedgerBlock where
  height : ℕ
  applied : List (SignedTransaction × Str × ℕ)
  credited : Option (Str × ℕ × ℕ)

def LedgerBlock.calls (b : LedgerBlock) : List LedgerCall :=
  b.applied.map (fun a => .apply b.height a.1 a.2.1 a.2.2)++
    (b.credited.map fun c => LedgerCall.credit b.height c.1 c.2.1 c.2.2).toList

def allCalls (blocks : List LedgerBlock) : List LedgerCall := blocks.flatMap LedgerBlock.calls

structure LinearHistory (blocks : List LedgerBlock) : Prop where
  increasing : blocks.Pairwise fun b later => b.height < later.height
  word : ∀ b ∈ blocks, b.height ≤ u64Max
  collector : ∀ b ∈ blocks, ∀ a ∈ b.applied, a.2.1 = [] ∨ IsAddress a.2.1
  miner : ∀ b ∈ blocks, ∀ c ∈ b.credited, IsAddress c.1
  fits : totalCredited (allCalls blocks) ≤ u64Max

theorem plain_address {a : Str} (h : IsAddress a) : Plain a := by
  have hall : (hexDigits.all fun c => isWhitespace c == false && c != ',') = true := by decide
  intro c hc
  have hdigit := List.all_eq_true.mp hall c (h.digits c hc)
  rw [Bool.and_eq_true, beq_iff_eq, bne_iff_ne] at hdigit
  exact hdigit

theorem mem_calls {b : LedgerBlock} {c : LedgerCall} (h : c ∈ b.calls) : callHeight c = b.height := by
  rcases List.mem_append.mp h with h | h
  · obtain ⟨a, -, rfl⟩ := List.mem_map.mp h
    rfl
  · rw [Option.mem_toList, Option.map_eq_some_iff] at h
    obtain ⟨c, -, rfl⟩ := h
    rfl

theorem LinearHistory.legible {blocks : List LedgerBlock} (h : LinearHistory blocks) :
    ∀ c ∈ allCalls blocks, Legible c := by
  intro c hc
  obtain ⟨b, hb, hc⟩ := List.mem_flatMap.mp hc
  refine ⟨by rw [mem_calls hc]; exact h.word b hb, ?_⟩
  rcases List.mem_append.mp hc with hc | hc
  · obtain ⟨a, ha, rfl⟩ := List.mem_map.mp hc
    rcases h.collector b hb a ha with hnone | haddr
    · simp only [callMiner, hnone]
      exact fun c hc => absurd hc List.not_mem_nil
    · exact plain_address haddr
  · rw [Option.mem_toList, Option.map_eq_some_iff] at hc
    obtain ⟨r, hr, rfl⟩ := hc
    exact plain_address (h.miner b hb r hr)

theorem calls_ordered (b : LedgerBlock) : b.calls.Pairwise Ordered := by
  obtain ⟨height, applied, credited⟩ := b
  refine List.pairwise_append.mpr ⟨?_, ?_, ?_⟩
  · rw [List.pairwise_map]
    exact List.pairwise_of_forall fun _ _ => ⟨Nat.le_refl _, fun hc => hc.elim⟩
  · cases credited with
    | none => exact .nil
    | some c => exact List.pairwise_singleton _ _
  · intro c hc d hd
    obtain ⟨a, -, rfl⟩ := List.mem_map.mp hc
    rw [Option.mem_toList, Option.map_eq_some_iff] at hd
    obtain ⟨r, -, rfl⟩ := hd
    exact ⟨Nat.le_refl _, fun hc => hc.elim⟩

theorem allCalls_ordered {blocks : List LedgerBlock}
    (h : blocks.Pairwise fun b later => b.height < later.height) :
    (allCalls blocks).Pairwise Ordered := by
  unfold allCalls
  rw [List.pairwise_flatMap]
  refine ⟨fun b _ => calls_ordered b, h.imp fun hlt c hc d hd => ?_⟩
  rw [Ordered, mem_calls hc, mem_calls hd]
  exact ⟨Nat.le_of_lt hlt, fun _ _ => Nat.ne_of_lt hlt⟩

theorem upTo_allCalls (active : ℕ) (blocks : List LedgerBlock) :
    upTo active (allCalls blocks) = allCalls (blocks.filter fun b => b.height ≤ active) := by
  induction blocks with
  | nil => rfl
  | cons b blocks ih =>
    have hsplit : upTo active (allCalls (b :: blocks)) =
        upTo active b.calls++upTo active (allCalls blocks) := by
      simp [upTo, allCalls]
    rw [hsplit, ih]
    by_cases hle : b.height ≤ active
    · have hall : upTo active b.calls = b.calls := by
        rw [upTo, List.filter_eq_self]
        intro c hc
        simpa [mem_calls hc] using hle
      rw [hall, List.filter_cons_of_pos (by simpa using hle)]
      rfl
    · have hnone : upTo active b.calls = [] := by
        rw [upTo, List.filter_eq_nil_iff]
        intro c hc
        simpa [mem_calls hc] using hle
      rw [hnone, List.filter_cons_of_neg (by simpa using hle)]
      rfl

/-- One ledger reads like another. -/
structure Reproduces (K : Primitives) (loaded l : RewardLedger) : Prop where
  balances : loaded.balances = l.balances
  nonces : loaded.nonces = l.nonces
  totalMined : loaded.totalMined = l.totalMined
  stateRoot : loaded.stateRoot K = l.stateRoot K

theorem reproduces_of_totals {K : Primitives} {loaded l : RewardLedger}
    (h : totalsOf loaded = totalsOf l) : Reproduces K loaded l := by
  obtain ⟨balances, nonces, totalMined, csv⟩ := loaded
  obtain ⟨balances', nonces', totalMined', csv'⟩ := l
  obtain ⟨hb, hn, ht⟩ := Totals.mk.inj h
  dsimp only at hb hn ht
  subst hb hn ht
  exact ⟨rfl, rfl, rfl, rfl⟩

/-- The plain load gives back the last ledger of a linear history, and the
load of a height the ledger after the last block up to that height. -/
theorem reload_history {K : Primitives} {outcomes : List AppendOutcome}
    {blocks : List LedgerBlock} {l : RewardLedger} (h : LinearHistory blocks)
    (hl : exec (call K) (.create outcomes) (allCalls blocks) = some l) :
    Reproduces K (.openLedger l.csv) l ∧
    ∀ active, ∃ m, exec (call K) (.create outcomes)
        (allCalls (blocks.filter fun b => b.height ≤ active)) = some m ∧
      Reproduces K (.openScoped l.csv active) m := by
  have hfit := h.fits
  obtain ⟨rows, hadds, hapart, -, hload⟩ := run_adds (recorded_create outcomes) h.legible
    (allCalls_ordered h.increasing) (by omega) hl
  have hempty : totalsOf (RewardLedger.create outcomes) = Totals.empty := rfl
  have hrows : csvRows l.csv.text = rows := by
    have hfile := hadds.file
    rw [show csvRows (RewardLedger.create outcomes).csv.text = [] from csvRows_create outcomes,
      List.nil_append] at hfile
    exact hfile
  refine ⟨reproduces_of_totals ?_, fun active => ?_⟩
  · rw [← hadds.trusted, hempty, ← hrows]
    rfl
  · obtain ⟨m, hm, hlive⟩ := hload active
    rw [upTo_allCalls] at hm
    refine ⟨m, hm, reproduces_of_totals ?_⟩
    rw [← hlive, hempty, ← replayRows_apart active hapart, ← scopedTotals_eq, ← hrows]
    rfl

def toyBlocks : List LedgerBlock :=
  [{ height := 1, applied := [], credited := some (toyAddress 1, 50, 7) },
    { height := 2, applied := [(toyTransfer 1 (toySender 2) 30 0 1, [], 8)]
      credited := some (toyAddress 2, 50, 8) },
    { height := 5, applied := [(toyTransfer 1 (toySender 2) 10 1 1, toyAddress 2, 9)]
      credited := none }]

theorem toyBlocks_linear : LinearHistory toyBlocks where
  increasing := by decide
  word := by decide
  collector := by
    intro b hb a ha
    simp only [toyBlocks, List.mem_cons, List.not_mem_nil, or_false] at hb
    rcases hb with rfl | rfl | rfl
    · cases ha
    · exact .inl (by rw [List.mem_singleton.mp ha])
    · exact .inr (by rw [List.mem_singleton.mp ha]; exact encode_isAddress _)
  miner := by
    intro b hb c hc
    simp only [toyBlocks, List.mem_cons, List.not_mem_nil, or_false] at hb
    rcases hb with rfl | rfl | rfl
    · obtain rfl := Option.some.inj hc
      exact encode_isAddress _
    · obtain rfl := Option.some.inj hc
      exact encode_isAddress _
    · cases hc
  fits := by decide

theorem reload_history_sample : ∃ l m,
    exec (call toyPrimitives) (.create []) (allCalls toyBlocks) = some l ∧
    exec (call toyPrimitives) (.create []) (allCalls (toyBlocks.take 2)) = some m ∧
    Reproduces toyPrimitives (.openLedger l.csv) l ∧
    Reproduces toyPrimitives (.openScoped l.csv 4) m ∧ l.totalMined = 100 := by
  have hrun : (exec (call toyPrimitives) (.create []) (allCalls toyBlocks)).any
      fun l => l.totalMined == 100 := by decide +kernel
  obtain ⟨l, hl, hmined⟩ := (Option.any_eq_true _ _).mp hrun
  obtain ⟨hplain, hscoped⟩ := reload_history toyBlocks_linear hl
  obtain ⟨m, hm, hload⟩ := hscoped 4
  exact ⟨l, m, hl, hm, hplain, hload, beq_iff_eq.mp hmined⟩

end BinaChain.History
