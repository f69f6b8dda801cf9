import BinaChain.Ledger.Atomic
import BinaChain.Ledger.History

/-!
# A row cut short

An append that the operating system cuts short leaves a part of a line without
its end. The loader reads it as a line of its own when nothing follows, and as
the beginning of the next line when something does.
-/

set_option autoImplicit false

namespace BinaChain.Torn
open BinaChain.Word BinaChain.Text BinaChain.Crypto BinaChain.Transaction BinaChain.Maps
open BinaChain.Rewards BinaChain.Execution BinaChain.Rows BinaChain.Machine BinaChain.Replay
open BinaChain.StateRoot BinaChain.Atomic BinaChain.History

def callLine (K : Primitives) (l : RewardLedger) : LedgerCall → Str
  | .credit height miner reward timestamp =>
    rewardLine height miner reward (satAdd l.totalMined reward) timestamp
  | .apply height signed miner timestamp => txLine K height signed miner l.totalMined timestamp

def cutLine (K : Primitives) (l : RewardLedger) (c : LedgerCall) (kept : ℕ) : Str :=
  (callLine K l c).take kept

structure Untorn (K : Primitives) (l : RewardLedger) (c : LedgerCall) : Prop where
  legible : Legible c
  whole : Appends K l c → ∀ kept, l.csv.outcomes.head? ≠ some (.torn kept)

def History (K : Primitives) (outcomes : List AppendOutcome) : RewardLedger → Prop :=
  Run (fun l c => some (perform K l c).2) (Untorn K) (.create outcomes)

/-- The call appends, and its line is cut before the end of the line. -/
structure CutShort (K : Primitives) (l : RewardLedger) (c : LedgerCall) (kept : ℕ) : Prop where
  appends : Appends K l c
  outcome : l.csv.outcomes.head? = some (.torn kept)
  short : kept ≤ (callLine K l c).length

def reopened (K : Primitives) (l : RewardLedger) (c : LedgerCall)
    (outcomes : List AppendOutcome) : RewardLedger :=
  .openLedger { text := (perform K l c).2.csv.text, outcomes }

/-- The calls that succeed on the reopened ledger, and the ledger after them. -/
def Resumed (K : Primitives) (l : RewardLedger) (c : LedgerCall) (later : List LedgerCall)
    (l' : RewardLedger) : Prop :=
  (∀ d ∈ later, Legible d) ∧
    ∃ outcomes, exec (call K) (reopened K l c outcomes) later = some l'

def completeText (K : Primitives) (l : RewardLedger) (c : LedgerCall) (kept : ℕ) : Str :=
  if kept = (callLine K l c).length then l.csv.text++unlines [callLine K l c] else l.csv.text

/-- The file loads as if it held the complete rows before the cut and the rows
after it. -/
def Survives (K : Primitives) (l : RewardLedger) (c : LedgerCall) (kept : ℕ)
    (l' : RewardLedger) : Prop :=
  ∀ added, l'.csv.text = (perform K l c).2.csv.text++added →
    Reproduces K (.openLedger l'.csv)
      (.openLedger { text := completeText K l c kept++added, outcomes := [] })

def writes : LedgerCall → Bool
  | .credit _ _ reward _ => reward != 0
  | .apply .. => true

/-- Nothing of the row was written; or nothing follows what was written, which
is all of the row or too little to be read; or a reward follows the beginning
of the first field. -/
def Harmless (K : Primitives) (l : RewardLedger) (c : LedgerCall) (kept : ℕ)
    (later : List LedgerCall) : Prop :=
  kept = 0 ∨ match later.find? writes with
    | none => kept = (callLine K l c).length ∨ parseLine (cutLine K l c kept) = none
    | some d => IsCredit d ∧ ',' ∉ cutLine K l c kept

theorem callLine_plain (K : Primitives) (l : RewardLedger) {c : LedgerCall} (hc : Legible c) :
    ∃ s t cols, callLine K l c = joinFields (s :: t :: cols) ∧ ∀ u ∈ s :: t :: cols, Plain u := by
  have hm := hc.miner
  cases c with
  | credit height miner reward timestamp =>
    exact ⟨_, _, _, rfl, rewardLine_plain hm height reward _ timestamp⟩
  | apply height s miner timestamp => exact ⟨_, _, _, rfl, txLine_plain K hm height s _ timestamp⟩

theorem callLine_no_newline (K : Primitives) (l : RewardLedger) {c : LedgerCall}
    (hc : Legible c) : ∀ x ∈ callLine K l c, x ≠ '\n' ∧ x ≠ '\r' := by
  obtain ⟨s, t, cols, hline, hplain⟩ := callLine_plain K l hc
  rw [hline]
  exact join_no_newline hplain

theorem comma_mem_callLine (K : Primitives) (l : RewardLedger) {c : LedgerCall}
    (hc : Legible c) : ',' ∈ callLine K l c := by
  obtain ⟨s, t, cols, hline, -⟩ := callLine_plain K l hc
  rw [hline, joinFields_cons]
  simp

theorem cutLine_no_newline (K : Primitives) (l : RewardLedger) {c : LedgerCall}
    (hc : Legible c) (kept : ℕ) : ∀ x ∈ cutLine K l c kept, x ≠ '\n' ∧ x ≠ '\r' :=
  fun x hx => callLine_no_newline K l hc x (List.mem_of_mem_take hx)

theorem cutLine_plain {K : Primitives} {l : RewardLedger} {c : LedgerCall} (hc : Legible c)
    {kept : ℕ} (h : ',' ∉ cutLine K l c kept) : Plain (cutLine K l c kept) := by
  obtain ⟨s, t, cols, hline, hplain⟩ := callLine_plain K l hc
  intro x hx
  refine ⟨join_no_white hplain x ?_, fun he => h (he ▸ hx)⟩
  rw [← hline]
  exact List.mem_of_mem_take hx

theorem call_line {K : Primitives} {l l' : RewardLedger} {c : LedgerCall}
    (h : call K l c = some l') :
    if writes c then l'.csv.text = l.csv.text++unlines [callLine K l c] else l' = l := by
  cases c with
  | credit height miner reward timestamp =>
    by_cases hz : reward = 0
    · subst hz
      obtain rfl : l = l' := by
        simpa [call, RewardLedger.credit] using h
      simp [writes]
    · have hw : writes (.credit height miner reward timestamp) = true := by simpa [writes] using hz
      rw [if_pos hw]
      exact (call_credit hz h).2
  | apply height s miner timestamp => exact (call_apply h).2.2

theorem run_lines {K : Primitives} {calls : List LedgerCall} :
    ∀ {l l' : RewardLedger}, (∀ c ∈ calls, Legible c) → exec (call K) l calls = some l' →
      ∃ added, l'.csv.text = l.csv.text++unlines added ∧
        (∀ x ∈ added, ∀ y ∈ x, y ≠ '\n' ∧ y ≠ '\r') ∧
        (calls.find? writes = none → added = []) ∧
        ∀ d, calls.find? writes = some d →
          (call K l d).isSome ∧ ∃ more, added = callLine K l d :: more := by
  induction calls with
  | nil =>
    intro l l' hp h
    obtain rfl := Option.some.inj h
    exact ⟨[], by simp [unlines], by simp, fun _ => rfl, by simp⟩
  | cons c calls ih =>
    intro l l' hp h
    obtain ⟨u, hu, h⟩ := Option.bind_eq_some_iff.mp h
    obtain ⟨added, htext, hlines, hnone, hfirst⟩ :=
      ih (fun d hd => hp d (List.mem_cons_of_mem _ hd)) h
    have hline := call_line hu
    cases hw : writes c with
    | false =>
      rw [if_neg (by simp [hw])] at hline
      subst hline
      have hfind : (c :: calls).find? writes = calls.find? writes :=
        List.find?_cons_of_neg (by simp [hw])
      rw [hfind]
      exact ⟨added, htext, hlines, hnone, hfirst⟩
    | true =>
      rw [if_pos hw] at hline
      have hfind : (c :: calls).find? writes = some c := List.find?_cons_of_pos hw
      rw [hfind]
      refine ⟨callLine K l c :: added, ?_, ?_, by simp, ?_⟩
      · rw [htext, hline]
        simp [unlines]
      · intro x hx
        rcases List.mem_cons.mp hx with rfl | hx
        · exact callLine_no_newline K l (hp c List.mem_cons_self)
        · exact hlines x hx
      · intro d hd
        obtain rfl := Option.some.inj hd
        exact ⟨by rw [hu]; rfl, added, rfl⟩

section Cut

variable {K : Primitives} {l l' : RewardLedger} {c : LedgerCall} {kept : ℕ}

theorem append_whole {f : CsvFile} (hw : WholeLines f.text)
    (ho : ∀ kept, f.outcomes.head? ≠ some (.torn kept)) (context : String) {line : Str}
    (hl : ∀ x ∈ line, x ≠ '\n' ∧ x ≠ '\r') : WholeLines (f.append context line).2.text := by
  obtain ⟨text, outcomes⟩ := f
  rcases outcomes with _ | ⟨_ | _ | kept, rest⟩
  · exact (csvRows_append hw hl).1
  · exact (csvRows_append hw hl).1
  · exact hw
  · exact absurd rfl (ho kept)

theorem attempt_whole (hw : WholeLines l.csv.text) (h : Untorn K l c) :
    WholeLines (perform K l c).2.csv.text := by
  by_cases ha : Appends K l c
  · have hline := callLine_no_newline K l h.legible
    have ho := h.whole ha
    cases c with
    | credit height miner reward timestamp =>
      simp only [perform, RewardLedger.credit, if_neg ha]
      exact append_whole hw ho _ hline
    | apply height s miner timestamp =>
      simp only [perform, applyTransaction_accepted ha]
      exact append_whole hw ho _ hline
  · rw [perform_idle ha]
    exact hw

theorem history_whole {outcomes : List AppendOutcome} (h : History K outcomes l) :
    WholeLines l.csv.text := by
  refine h.invariant (P := fun l => WholeLines l.csv.text) (wholeLines_create outcomes) ?_
  intro l c u hw hc hu
  obtain rfl := Option.some.inj hu
  exact attempt_whole hw hc

theorem append_torn {f : CsvFile} (ho : f.outcomes.head? = some (.torn kept))
    (context : String) {line : Str} (hs : kept ≤ line.length) :
    (f.append context line).2.text = f.text++line.take kept := by
  obtain ⟨text, outcomes⟩ := f
  cases outcomes with
  | nil => cases ho
  | cons o rest =>
    obtain rfl := Option.some.inj ho
    have htake : (unlines [line]).take kept = line.take kept := by
      simp [unlines, List.take_append_of_le_length hs]
    simp only [CsvFile.append, htake]

theorem CutShort.text (h : CutShort K l c kept) :
    (perform K l c).2.csv.text = l.csv.text++cutLine K l c kept := by
  have ha := h.appends
  have ho := h.outcome
  have hs := h.short
  cases c with
  | credit height miner reward timestamp =>
    simp only [perform, RewardLedger.credit, if_neg ha]
    exact append_torn ho _ hs
  | apply height s miner timestamp =>
    simp only [perform, applyTransaction_accepted ha]
    exact append_torn ho _ hs

theorem resumed_text (h : CutShort K l c kept) {later : List LedgerCall}
    (hr : Resumed K l c later l') : ∃ added, l'.csv.text =
        l.csv.text++cutLine K l c kept++unlines added ∧
      (∀ x ∈ added, ∀ y ∈ x, y ≠ '\n' ∧ y ≠ '\r') ∧
      (later.find? writes = none → added = []) ∧
      ∀ d, later.find? writes = some d → ∃ outcomes more,
        (call K (reopened K l c outcomes) d).isSome ∧
        added = callLine K (reopened K l c outcomes) d :: more := by
  obtain ⟨hp, outcomes, hs⟩ := hr
  obtain ⟨added, htext, hlines, hnone, hfirst⟩ := run_lines hp hs
  refine ⟨added, ?_, hlines, hnone, fun d hd => ?_⟩
  · rw [htext, ← h.text]
    rfl
  · obtain ⟨hok, more, hmore⟩ := hfirst d hd
    exact ⟨outcomes, more, hok, hmore⟩

def loaded (text : Str) : Totals := (csvRows text).foldl unscopedRow Totals.empty

theorem survives_of_loaded (h : CutShort K l c kept) {rest : Str}
    (ht : l'.csv.text = l.csv.text++cutLine K l c kept++rest)
    (he : loaded (l.csv.text++cutLine K l c kept++rest) = loaded (completeText K l c kept++rest)) :
    Survives K l c kept l' := by
  intro added hadded
  have hrest : added = rest := by
    rw [ht, h.text, List.append_cancel_left_eq] at hadded
    exact hadded.symm
  subst hrest
  apply reproduces_of_totals
  rw [← ht] at he
  exact he

theorem cutLine_ne_line (hc : Legible c) (h : ',' ∉ cutLine K l c kept) :
    kept ≠ (callLine K l c).length := by
  intro hk
  rw [cutLine, List.take_of_length_le (Nat.le_of_eq hk.symm)] at h
  exact h (comma_mem_callLine K l hc)

theorem merged_reward {frag : Str} (hf : Plain frag) {m : RewardLedger} {d : LedgerCall}
    (hd : Legible d) (hcredit : IsCredit d) (t : Totals) :
    (parseLine (frag++callLine K m d)).toList.foldl unscopedRow t =
      (parseLine (callLine K m d)).toList.foldl unscopedRow t := by
  cases d with
  | apply height s miner timestamp => exact hcredit.elim
  | credit height miner reward timestamp =>
    have hm : Plain miner := hd.miner
    have hplain : Plain (frag++showNat height) := by
      intro x hx
      exact (List.mem_append.mp hx).elim (hf x) (showNat_plain height x)
    have hne : frag++showNat height ≠ "tx".toList := by
      intro he
      obtain ⟨x, digits, hx⟩ := List.exists_cons_of_ne_nil
        (show showNat height ≠ [] from Nat.toDigits_ne_nil)
      have hdigit : x.isDigit := showNat_digit (by rw [hx]; exact List.mem_cons_self)
      have hmem : x ∈ "tx".toList := by
        rw [← he, hx]
        simp
      have hall : "tx".toList.all (fun y => !y.isDigit) = true := by decide
      have hno := List.all_eq_true.mp hall x hmem
      rw [hdigit] at hno
      cases hno
    have hmerge : frag++callLine K m (.credit height miner reward timestamp) =
        joinFields [frag++showNat height, miner, showNat reward,
          showNat (satAdd m.totalMined reward), showNat timestamp] := by
      simp only [callLine, rewardLine, joinFields_cons, List.append_assoc]
    rw [hmerge, parse_reward hplain hne hm]
    simp only [callLine, rewardLine,
      parse_reward (showNat_plain height) (showNat_ne_tx height) hm]
    rfl

theorem harmless_survives (hw : WholeLines l.csv.text) (hc : Legible c)
    (h : CutShort K l c kept) {later : List LedgerCall} (hr : Resumed K l c later l')
    (hh : Harmless K l c kept later) : Survives K l c kept l' := by
  obtain ⟨added, htext, hlines, hnone, hfirst⟩ := resumed_text h hr
  have hfrag := cutLine_no_newline K l hc kept
  apply survives_of_loaded h htext
  rcases hh with rfl | hh
  · have hne : 0 ≠ (callLine K l c).length := cutLine_ne_line hc (by simp [cutLine])
    rw [completeText, if_neg hne]
    simp [cutLine]
  cases hd : later.find? writes with
  | none =>
    rw [hd] at hh
    rw [hnone hd]
    have hempty : unlines [] = [] := rfl
    rw [hempty, List.append_nil, List.append_nil, loaded, csvRows_torn hw hfrag, completeText]
    split
    · rename_i hk
      rw [cutLine, List.take_of_length_le (Nat.le_of_eq hk.symm), loaded,
        (csvRows_append hw (callLine_no_newline K l hc)).2]
    · rename_i hk
      have hshort := hh.resolve_left hk
      rw [hshort]
      simp [loaded]
  | some d =>
    rw [hd] at hh
    obtain ⟨hcredit, hcomma⟩ := hh
    obtain ⟨outcomes, more, -, rfl⟩ := hfirst d hd
    have hlegible := hr.1 d (List.mem_of_find?_eq_some hd)
    rw [completeText, if_neg (cutLine_ne_line hc hcomma), loaded, loaded,
      csvRows_merged hw hfrag hlines, (csvRows_extend hw hlines).2, List.filterMap_cons]
    have hsame := merged_reward (K := K) (cutLine_plain hc hcomma) (m := reopened K l c outcomes)
      hlegible hcredit
    cases hp : parseLine (callLine K (reopened K l c outcomes) d) with
    | none => simp [List.foldl_append, hsame, hp]
    | some row => simp [List.foldl_append, hsame, hp]

/-- The row takes nothing from the account and pays it at most a fee. -/
def Spares (a : Str) : CsvRow → Prop
  | .reward _ addr _ _ => addr ≠ a
  | .tx _ sender recipient .. => sender ≠ a ∧ recipient ≠ a

def feeTo (a : Str) : CsvRow → ℕ
  | .reward .. => 0
  | .tx _ _ _ _ fee _ miner _ => if miner = a then fee else 0

theorem spared_balance {a : Str} (ha : a ≠ []) {t : Totals} (ht : t.balances.getD a 0 = 0)
    {row : CsvRow} (h : Spares a row) :
    (unscopedRow t row).balances.getD a 0 = satAdd 0 (feeTo a row) := by
  have hzero : satAdd 0 0 = 0 := by decide
  cases row with
  | reward height addr reward total =>
    have hne : addr ≠ a := h
    simp only [unscopedRow, creditBalance, getD_insert_eq, if_neg hne, ht, feeTo, hzero]
  | tx height sender recipient amount fee nonce miner total =>
    obtain ⟨hs, hr⟩ := h
    have hpaid : (creditBalance (debit t.balances sender (satAdd amount fee)) recipient
        amount).getD a 0 = 0 := by
      rw [creditBalance, getD_insert_eq, if_neg hr, debit, getD_insert_eq, if_neg hs, ht]
    simp only [unscopedRow, Totals.replayTx, feeTo]
    by_cases hm : miner = a
    · subst hm
      rw [if_pos rfl]
      split
      · rw [creditBalance, getD_insert_eq, if_pos rfl, hpaid]
      · rename_i hfee
        have hnone : fee = 0 := by
          by_contra hne
          exact hfee ⟨Nat.pos_of_ne_zero hne, ha⟩
        rw [hpaid, hnone, hzero]
    · rw [if_neg hm, hzero]
      split
      · rw [creditBalance, getD_insert_eq, if_neg hm, hpaid]
      · exact hpaid

def namesOf : LedgerCall → List Str
  | .credit _ miner .. => [miner]
  | .apply _ s miner _ => [s.fromHex, s.toHex, miner]

def ownFee : LedgerCall → ℕ
  | .credit .. => 0
  | .apply _ s .. => readNat s.tx.fee

def freshName (n : ℕ) : Str := List.replicate (n+1) 'a'

theorem freshName_plain (n : ℕ) : Plain (freshName n) := by
  intro x hx
  rw [(List.mem_replicate.mp hx).2]
  decide

theorem freshName_ne_nil (n : ℕ) : freshName n ≠ [] := by simp [freshName]

theorem append_showNat_ne (part : Str) (k n : ℕ) : part++showNat k ≠ freshName n := by
  intro he
  obtain ⟨x, digits, hx⟩ := List.exists_cons_of_ne_nil
    (show showNat k ≠ [] from Nat.toDigits_ne_nil)
  have hdigit : x.isDigit := showNat_digit (by rw [hx]; exact List.mem_cons_self)
  have hmem : x ∈ freshName n := by
    rw [← he, hx]
    simp
  rw [(List.mem_replicate.mp hmem).2] at hdigit
  revert hdigit
  decide

theorem exists_fresh (names : List Str) : ∃ n, freshName n ∉ names := by
  refine ⟨names.flatten.length, fun hmem => ?_⟩
  have hle := (List.sublist_flatten_of_mem hmem).length_le
  simp only [freshName, List.length_replicate] at hle
  omega

theorem merged_fields {first next : Str} {cols back : List Str}
    (hp : ∀ s ∈ first :: cols, Plain s) (hn : ∀ s ∈ next :: back, Plain s)
    (hcomma : ',' ∈ (joinFields (first :: cols)).take kept) :
    ∃ front col rest part, cols = front++col :: rest ∧
      (joinFields (first :: cols)).take kept++joinFields (next :: back) =
        joinFields (first :: (front++(part++next) :: back)) ∧
      ∀ s ∈ first :: (front++(part++next) :: back), Plain s := by
  obtain ⟨front, col, rest, part, hcols, hpart, htake⟩ :=
    take_joinFields (List.cons_ne_nil first cols) kept
  have hplain : Plain part := by
    intro x hx
    exact hp col (by rw [hcols]; simp) x (hpart.subset hx)
  have hfront : front ≠ [] := by
    rw [htake] at hcomma
    exact (comma_mem_joinFields fun hx => (hplain ',' hx).2 rfl).mp hcomma
  obtain ⟨f, front, rfl⟩ := List.exists_cons_of_ne_nil hfront
  obtain ⟨rfl, htail⟩ := List.cons.inj hcols
  refine ⟨front, col, rest, part, htail, by rw [htake, joinFields_merge]; rfl, ?_⟩
  intro s hs
  simp only [List.mem_cons, List.mem_append] at hs
  rcases hs with rfl | hs | rfl | hs
  · exact hp s List.mem_cons_self
  · exact hp s (by rw [htail]; simp [hs])
  · intro x hx
    exact (List.mem_append.mp hx).elim (hplain x) (hn next List.mem_cons_self x)
  · exact hn s (List.mem_cons_of_mem _ hs)

theorem merged_credit {height reward total timestamp n : ℕ} {miner : Str} (hm : Plain miner)
    (hfresh : freshName n ≠ miner)
    (hcomma : ',' ∈ (rewardLine height miner reward total timestamp).take kept)
    {r later : ℕ} {row : CsvRow}
    (hrow : parseLine ((rewardLine height miner reward total timestamp).take kept++
      rewardLine 0 (freshName n) r later 0) = some row) :
    Spares (freshName n) row ∧ feeTo (freshName n) row = 0 := by
  obtain ⟨front, col, rest, part, hcols, hline, hplain⟩ :=
    merged_fields (rewardLine_plain hm height reward total timestamp)
      (rewardLine_plain (freshName_plain n) 0 r later 0) hcomma
  rw [rewardLine, rewardLine, hline] at hrow
  have hhead : showNat height ≠ "tx".toList := showNat_ne_tx height
  cases front with
  | nil =>
    rcases parse_join hplain hrow with ⟨-, x, y, rfl⟩ | ⟨htx, -⟩
    · exact ⟨append_showNat_ne part 0 n, rfl⟩
    · exact absurd htx hhead
  | cons f front =>
    obtain ⟨rfl, -⟩ := List.cons.inj hcols
    rcases parse_join hplain hrow with ⟨-, x, y, rfl⟩ | ⟨htx, -⟩
    · exact ⟨hfresh.symm, rfl⟩
    · exact absurd htx hhead

theorem merged_transfer {K : Primitives} {height total timestamp n : ℕ}
    {s : SignedTransaction} {miner : Str} (hm : Plain miner)
    (hfrom : freshName n ≠ s.fromHex) (hto : freshName n ≠ s.toHex) (hminer : freshName n ≠ miner)
    (hcomma : ',' ∈ (txLine K height s miner total timestamp).take kept)
    {r later : ℕ} {row : CsvRow}
    (hrow : parseLine ((txLine K height s miner total timestamp).take kept++
      rewardLine 0 (freshName n) r later 0) = some row) :
    Spares (freshName n) row ∧
      (feeTo (freshName n) row = 0 ∨ feeTo (freshName n) row = readNat s.tx.fee) := by
  obtain ⟨front, col, rest, part, hcols, hline, hplain⟩ :=
    merged_fields (txLine_plain K hm height s total timestamp)
      (rewardLine_plain (freshName_plain n) 0 r later 0) hcomma
  rw [txLine, rewardLine, hline] at hrow
  rcases front with _ | ⟨f1, _ | ⟨f2, _ | ⟨f3, _ | ⟨f4, _ | ⟨f5, front⟩⟩⟩⟩⟩
  case cons.cons.cons.cons.cons =>
    simp only [List.cons_append, List.cons.injEq] at hcols
    obtain ⟨rfl, rfl, rfl, rfl, rfl, hcols⟩ := hcols
    obtain ⟨htx, -⟩ | ⟨-, -, x, amount, nonce, y, rfl⟩ := parse_join hplain hrow
    · exact absurd rfl htx
    refine ⟨⟨hfrom.symm, hto.symm⟩, ?_⟩
    rcases front with _ | ⟨g1, _ | ⟨g2, _ | ⟨g3, front⟩⟩⟩
    · left
      exact if_neg (append_showNat_ne [] r n)
    · right
      simp only [List.cons_append, List.cons.injEq] at hcols
      obtain ⟨rfl, -⟩ := hcols
      exact if_pos rfl
    · left
      exact if_neg (append_showNat_ne part 0 n)
    · left
      simp only [List.cons_append, List.cons.injEq] at hcols
      obtain ⟨rfl, rfl, rfl, -⟩ := hcols
      exact if_neg hminer.symm
  all_goals
    obtain ⟨htx, -⟩ | ⟨-, hlen, -⟩ := parse_join hplain hrow
    · exact absurd rfl htx
    · simp at hlen

theorem own_row (hc : Legible c) {n : ℕ} (hfresh : freshName n ∉ namesOf c) {row : CsvRow}
    (h : parseLine (callLine K l c) = some row) :
    Spares (freshName n) row ∧ feeTo (freshName n) row = 0 := by
  have hm := hc.miner
  cases c with
  | credit height miner reward timestamp =>
    simp only [namesOf, List.mem_singleton] at hfresh
    obtain ⟨-, x, y, rfl⟩ | ⟨htx, -⟩ :=
      parse_join (rewardLine_plain hm height reward (satAdd l.totalMined reward) timestamp) h
    · exact ⟨Ne.symm hfresh, rfl⟩
    · exact absurd htx (showNat_ne_tx height)
  | apply height s miner timestamp =>
    simp only [namesOf, List.mem_cons, List.not_mem_nil, or_false, not_or] at hfresh
    obtain ⟨htx, -⟩ | ⟨-, -, x, amount, nonce, y, rfl⟩ :=
      parse_join (txLine_plain K hm height s l.totalMined timestamp) h
    · exact absurd rfl htx
    · exact ⟨⟨Ne.symm hfresh.1, Ne.symm hfresh.2.1⟩, if_neg (Ne.symm hfresh.2.2)⟩

theorem merged_row (hc : Legible c) {n : ℕ} (hfresh : freshName n ∉ namesOf c)
    (hcomma : ',' ∈ cutLine K l c kept) {r later : ℕ} {row : CsvRow}
    (hrow : parseLine (cutLine K l c kept++rewardLine 0 (freshName n) r later 0) = some row) :
    Spares (freshName n) row ∧
      (feeTo (freshName n) row = 0 ∨ feeTo (freshName n) row = ownFee c) := by
  have hm := hc.miner
  cases c with
  | credit height miner reward timestamp =>
    simp only [namesOf, List.mem_singleton] at hfresh
    obtain ⟨hspares, hfee⟩ := merged_credit hm hfresh hcomma hrow
    exact ⟨hspares, .inl hfee⟩
  | apply height s miner timestamp =>
    simp only [namesOf, List.mem_cons, List.not_mem_nil, or_false, not_or] at hfresh
    exact merged_transfer hm hfresh.1 hfresh.2.1 hfresh.2.2 hcomma hrow

def otherReward (c : LedgerCall) : ℕ := if ownFee c = 1 then 2 else 1

theorem otherReward_ne (c : LedgerCall) {fee : ℕ} (h : fee = 0 ∨ fee = ownFee c) :
    satAdd 0 fee ≠ satAdd 0 (otherReward c) := by
  have hmax : u64Max = 0xffffffffffffffff := rfl
  unfold otherReward satAdd
  split <;> omega

theorem completeText_whole (hw : WholeLines l.csv.text) (hc : Legible c) :
    WholeLines (completeText K l c kept) := by
  unfold completeText
  split
  · exact (csvRows_append hw (callLine_no_newline K l hc)).1
  · exact hw

theorem row_balance {a : Str} (ha : a ≠ []) {t : Totals} (ht : t.balances.getD a 0 = 0)
    {row : Option CsvRow} (h : ∀ r ∈ row, Spares a r) : ∃ fee,
      (row.toList.foldl unscopedRow t).balances.getD a 0 = satAdd 0 fee ∧
      (fee = 0 ∨ ∃ r ∈ row, fee = feeTo a r) := by
  cases row with
  | none => exact ⟨0, ht, .inl rfl⟩
  | some r => exact ⟨feeTo a r, by simpa using spared_balance ha ht (h r rfl), .inr ⟨r, rfl, rfl⟩⟩

theorem complete_balance (hw : WholeLines l.csv.text) (hc : Legible c) {n : ℕ}
    (hfresh : freshName n ∉ namesOf c)
    (hz : (loaded l.csv.text).balances.getD (freshName n) 0 = 0) :
    (loaded (completeText K l c kept)).balances.getD (freshName n) 0 = 0 := by
  unfold completeText
  split
  · rw [loaded, (csvRows_append hw (callLine_no_newline K l hc)).2, List.foldl_append]
    obtain ⟨fee, hbal, hfee⟩ := row_balance (freshName_ne_nil n) hz
      (fun row hrow => (own_row (K := K) (l := l) hc hfresh hrow).1)
    have hnone : fee = 0 := by
      rcases hfee with hfee | ⟨row, hrow, hfee⟩
      · exact hfee
      · rw [hfee, (own_row hc hfresh hrow).2]
    rw [hnone] at hbal
    exact hbal
  · exact hz

theorem merged_balance (hw : WholeLines l.csv.text) (hc : Legible c) {n : ℕ}
    (hfresh : freshName n ∉ namesOf c)
    (hz : (loaded l.csv.text).balances.getD (freshName n) 0 = 0)
    (hcomma : ',' ∈ cutLine K l c kept) (later : ℕ) :
    let line := rewardLine 0 (freshName n) (otherReward c) later 0
    (loaded (l.csv.text++cutLine K l c kept++unlines [line])).balances.getD (freshName n) 0 ≠
      (loaded (completeText K l c kept++unlines [line])).balances.getD (freshName n) 0 := by
  intro line
  have hname := freshName_plain n
  have hline : ∀ x ∈ line, x ≠ '\n' ∧ x ≠ '\r' := join_no_newline (rewardLine_plain hname 0 _ _ 0)
  have hmerged : ∀ row ∈ parseLine (cutLine K l c kept++line), Spares (freshName n) row :=
    fun row hrow => (merged_row hc hfresh hcomma hrow).1
  have hlines : ∀ x ∈ [line], ∀ y ∈ x, y ≠ '\n' ∧ y ≠ '\r' := by
    intro x hx
    rw [List.mem_singleton.mp hx]
    exact hline
  obtain ⟨fee, hbal, hfee⟩ := row_balance (freshName_ne_nil n) hz hmerged
  have hactual : (loaded (l.csv.text++cutLine K l c kept++unlines [line])).balances.getD
      (freshName n) 0 = satAdd 0 fee := by
    rw [← hbal, loaded, csvRows_merged hw (cutLine_no_newline K l hc kept) hlines]
    simp [loaded, List.foldl_append]
  have hexpected : (loaded (completeText K l c kept++unlines [line])).balances.getD
      (freshName n) 0 = satAdd 0 (otherReward c) := by
    have hword : otherReward c ≤ u64Max := by
      unfold otherReward
      split <;> decide
    rw [loaded, (csvRows_append (completeText_whole hw hc) hline).2,
      parse_rewardLine (Nat.zero_le _) hword hname, List.foldl_append]
    have hbase : (loaded (completeText K l c kept)).balances.getD (freshName n) 0 = 0 :=
      complete_balance hw hc hfresh hz
    rw [loaded] at hbase
    simp [rewardRow, unscopedRow, creditBalance, hbase]
  rw [hactual, hexpected]
  refine otherReward_ne c ?_
  rcases hfee with hfee | ⟨row, hrow, rfl⟩
  · exact .inl hfee
  · exact (merged_row hc hfresh hcomma hrow).2

theorem comma_loses (hw : WholeLines l.csv.text) (hc : Legible c) (h : CutShort K l c kept)
    (hcomma : ',' ∈ cutLine K l c kept) :
    ∃ later l', Resumed K l c later l' ∧ ¬Survives K l c kept l' := by
  obtain ⟨n, hn⟩ := exists_fresh ((loaded l.csv.text).balances.keys++namesOf c)
  rw [List.mem_append, not_or] at hn
  obtain ⟨hkeys, hfresh⟩ := hn
  have hz : (loaded l.csv.text).balances.getD (freshName n) 0 = 0 :=
    Std.ExtTreeMap.getD_eq_fallback (by simpa using hkeys)
  have hr : otherReward c ≠ 0 := by
    unfold otherReward
    split <;> decide
  let d := LedgerCall.credit 0 (freshName n) (otherReward c) 0
  have hd : Legible d := ⟨Nat.zero_le _, freshName_plain n⟩
  obtain ⟨l', hl'⟩ : ∃ l', call K (reopened K l c []) d = some l' := by
    simp [d, call, RewardLedger.credit, if_neg hr, reopened, RewardLedger.openLedger,
      RewardLedger.openInner, CsvFile.append, Except.map]
  have htext := call_line hl'
  rw [if_pos (by simpa [d, writes] using hr)] at htext
  refine ⟨[d], l', ⟨fun e he => ?_, [], by rw [exec, hl']; rfl⟩, fun hs => ?_⟩
  · rw [List.mem_singleton.mp he]
    exact hd
  · have hbal := congrArg (fun m : Accounts => m.getD (freshName n) 0) (hs _ htext).balances
    have hsame : (loaded l'.csv.text).balances.getD (freshName n) 0 = _ := hbal
    rw [htext, show (reopened K l c []).csv.text = _ from h.text] at hsame
    exact merged_balance hw hc hfresh hz hcomma _ hsame

theorem cutLine_eq_nil (hc : Legible c) : cutLine K l c kept = [] ↔ kept = 0 := by
  have hne := List.ne_nil_of_mem (comma_mem_callLine K l hc)
  simp [cutLine, List.take_eq_nil_iff, hne]

theorem parse_field {s : Str} (h : Plain s) : parseLine s = none := by
  have hf : fields s = [s] := by
    have hj := fields_join (List.cons_ne_nil s []) (by simpa using h)
    simpa [joinFields] using hj
  unfold parseLine
  split
  · rfl
  · simp [hf]

theorem reopened_totals (hw : WholeLines l.csv.text) (hc : Legible c) (h : CutShort K l c kept)
    (hcomma : ',' ∉ cutLine K l c kept) (outcomes : List AppendOutcome) :
    totalsOf (reopened K l c outcomes) = loaded l.csv.text := by
  have hrows := csvRows_torn hw (cutLine_no_newline K l hc kept)
  rw [parse_field (cutLine_plain hc hcomma), Option.toList_none, List.append_nil, ← h.text] at hrows
  rw [loaded, ← hrows]
  rfl

theorem merged_tx {frag miner : Str} (hf : Plain frag) (hne : frag ≠ []) (hm : Plain miner)
    {height total timestamp : ℕ} {s : SignedTransaction} {row : CsvRow}
    (h : parseLine (frag++txLine K height s miner total timestamp) = some row) :
    ∃ x reward y, row = .reward x (showNat height) reward y := by
  have hone : joinFields ([]++[frag]) = frag := by simp [joinFields]
  rw [txLine, ← hone, joinFields_merge, List.nil_append] at h
  have htx := txLine_plain K hm height s total timestamp
  have hplain : ∀ u ∈ (frag++"tx".toList) :: showNat height :: [s.txIdHex K, s.fromHex, s.toHex,
      showNat s.tx.amount, showNat s.tx.fee, showNat s.tx.nonce, miner, showNat total,
      showNat timestamp], Plain u := by
    intro u hu
    rcases List.mem_cons.mp hu with rfl | hu
    · intro x hx
      exact (List.mem_append.mp hx).elim (hf x) (htx _ List.mem_cons_self x)
    · exact htx u (List.mem_cons_of_mem _ hu)
  rcases parse_join hplain h with ⟨-, x, y, rfl⟩ | ⟨he, -⟩
  · exact ⟨x, _, y, rfl⟩
  · have hlen := congrArg List.length he
    rw [List.length_append] at hlen
    exact absurd (List.length_eq_zero_iff.mp (by omega)) hne

theorem merged_sender (hw : WholeLines l.csv.text) (hc : Legible c)
    (hcomma : ',' ∉ cutLine K l c kept) (hne : cutLine K l c kept ≠ []) {s : SignedTransaction}
    (hrecipient : s.toHex ≠ s.fromHex) (hamount : s.tx.amount ≠ 0)
    (hfits : s.tx.amount+s.tx.fee ≤ u64Max)
    (hfunded : s.tx.amount+s.tx.fee ≤ (loaded l.csv.text).balances.getD s.fromHex 0)
    (later : ℕ) :
    let line := txLine K 0 s [] later 0
    (loaded (l.csv.text++cutLine K l c kept++unlines [line])).balances.getD s.fromHex 0 ≠
      (loaded (completeText K l c kept++unlines [line])).balances.getD s.fromHex 0 := by
  intro line
  have hnone : Plain [] := fun x hx => absurd hx List.not_mem_nil
  have hline : ∀ x ∈ line, x ≠ '\n' ∧ x ≠ '\r' :=
    join_no_newline (txLine_plain K hnone 0 s later 0)
  have hlines : ∀ x ∈ [line], ∀ y ∈ x, y ≠ '\n' ∧ y ≠ '\r' := by
    intro x hx
    rw [List.mem_singleton.mp hx]
    exact hline
  have hother : showNat 0 ≠ s.fromHex := by
    intro he
    have hlen : s.fromHex.length = 40 := (encode_isAddress s.tx.sender).length
    rw [← he] at hlen
    revert hlen
    decide
  have hactual : (loaded (l.csv.text++cutLine K l c kept++unlines [line])).balances.getD
      s.fromHex 0 = (loaded l.csv.text).balances.getD s.fromHex 0 := by
    rw [loaded, csvRows_merged hw (cutLine_no_newline K l hc kept) hlines, List.filterMap_nil,
      List.append_nil, List.foldl_append]
    cases hp : parseLine (cutLine K l c kept++line) with
    | none => rfl
    | some row =>
      obtain ⟨x, reward, y, rfl⟩ := merged_tx (cutLine_plain hc hcomma) hne hnone hp
      simp only [Option.toList_some, List.foldl_cons, List.foldl_nil, unscopedRow, creditBalance,
        getD_insert_eq, if_neg hother]
      rfl
  have hexpected : (loaded (completeText K l c kept++unlines [line])).balances.getD s.fromHex 0 =
      (loaded l.csv.text).balances.getD s.fromHex 0-(s.tx.amount+s.tx.fee) := by
    have hread : ∀ x, x ≤ u64Max → readNat x = x := fun x hx => by
      rw [readNat, parseU64_showNat hx]
      rfl
    rw [completeText, if_neg (cutLine_ne_line hc hcomma), loaded, (csvRows_append hw hline).2,
      parse_txLine K (Nat.zero_le _) hnone, List.foldl_append]
    simp only [Option.toList_some, List.foldl_cons, List.foldl_nil, txRow, unscopedRow,
      Totals.replayTx, hread s.tx.amount (by omega), hread s.tx.fee (by omega), ne_eq,
      not_true_eq_false, and_false, if_false, creditBalance, debit, getD_insert_eq,
      if_neg hrecipient, if_true, satAdd_of_le hfits]
    rfl
  rw [hactual, hexpected]
  omega

theorem transfer_loses (hw : WholeLines l.csv.text) (hc : Legible c) (h : CutShort K l c kept)
    (hcomma : ',' ∉ cutLine K l c kept) (hkept : kept ≠ 0) {s : SignedTransaction}
    {outcomes : List AppendOutcome} (hacc : Accepted K (reopened K l c outcomes) s) :
    ∃ later l', Resumed K l c later l' ∧ ¬Survives K l c kept l' := by
  let d := LedgerCall.apply 0 s [] 0
  have hd : Legible d := ⟨Nat.zero_le _, fun x hx => absurd hx List.not_mem_nil⟩
  have hacc' : Accepted K (reopened K l c []) s := hacc
  obtain ⟨l', hl'⟩ : ∃ l', call K (reopened K l c []) d = some l' := by
    simp only [d, call, applyTransaction_accepted hacc']
    exact ⟨_, rfl⟩
  have htext := call_line hl'
  rw [if_pos (show writes d = true from rfl)] at htext
  refine ⟨[d], l', ⟨fun e he => ?_, [], by rw [exec, hl']; rfl⟩, fun hs => ?_⟩
  · rw [List.mem_singleton.mp he]
    exact hd
  · have hbal := congrArg (fun m : Accounts => m.getD s.fromHex 0) (hs _ htext).balances
    have hsame : (loaded l'.csv.text).balances.getD s.fromHex 0 = _ := hbal
    rw [htext, show (reopened K l c []).csv.text = _ from h.text] at hsame
    have hfunded : s.tx.amount+s.tx.fee ≤ (loaded l.csv.text).balances.getD s.fromHex 0 := by
      rw [← reopened_totals hw hc h hcomma []]
      exact hacc'.funded
    exact merged_sender hw hc hcomma (mt (cutLine_eq_nil hc).mp hkept) (toHex_ne_fromHex hacc.verified)
      (Identity.verify_sensible hacc.verified).amount hacc.fits hfunded _ hsame

/-- A cut that harms some continuation loses more than its own row in one. -/
theorem survives_harmless (hw : WholeLines l.csv.text) (hc : Legible c) (h : CutShort K l c kept)
    (hs : ∀ later l', Resumed K l c later l' → Survives K l c kept l')
    {later : List LedgerCall} (hr : Resumed K l c later l') : Harmless K l c kept later := by
  by_cases hkept : kept = 0
  · exact .inl hkept
  have hcomma : ',' ∉ cutLine K l c kept := by
    intro hcomma
    obtain ⟨later, l', hr, hloses⟩ := comma_loses hw hc h hcomma
    exact hloses (hs later l' hr)
  right
  cases hd : later.find? writes with
  | none => exact .inr (parse_field (cutLine_plain hc hcomma))
  | some d =>
    obtain ⟨added, -, -, -, hfirst⟩ := resumed_text h hr
    obtain ⟨outcomes, more, hok, -⟩ := hfirst d hd
    obtain ⟨u, hu⟩ := Option.isSome_iff_exists.mp hok
    cases d with
    | credit height miner reward timestamp => exact ⟨trivial, hcomma⟩
    | apply height s miner timestamp =>
      obtain ⟨later, l', hr, hloses⟩ := transfer_loses hw hc h hcomma hkept (call_apply hu).1
      exact absurd (hs later l' hr) hloses

end Cut

/-- A harmless cut loses at most its own row; and when no continuation loses
more than that, the cut is harmless to them all. -/
theorem torn_append {K : Primitives} {outcomes : List AppendOutcome} {l : RewardLedger}
    {c : LedgerCall} {kept : ℕ} (hl : History K outcomes l) (hc : Legible c)
    (h : CutShort K l c kept) :
    (∀ later l', Resumed K l c later l' → Harmless K l c kept later → Survives K l c kept l') ∧
    ((∀ later l', Resumed K l c later l' → Survives K l c kept l') →
      ∀ later l', Resumed K l c later l' → Harmless K l c kept later) := by
  have hw := history_whole hl
  constructor
  · intro later l' hr hh
    exact harmless_survives hw hc h hr hh
  · intro hs later l' hr
    exact survives_harmless hw hc h hs hr

def toyFile (kept : ℕ) : RewardLedger :=
  ((RewardLedger.create [.written, .torn kept]).credit 1 (toyAddress 1) 50 7).2

def toyCut : LedgerCall := .credit 2 (toyAddress 1) 50 8

def toyNext : LedgerCall := .credit 3 (toyAddress 2) 50 9

def toyResumed (kept : ℕ) : RewardLedger :=
  ((reopened toyPrimitives (toyFile kept) toyCut []).credit 3 (toyAddress 2) 50 9).2

theorem toy_legible (height reward timestamp : ℕ) (hh : height ≤ u64Max) (key : UInt8) :
    Legible (.credit height (toyAddress key) reward timestamp) := by
  constructor
  · simpa only [callHeight] using hh
  · rw [callMiner, toyAddress]
    exact plain_address (encode_isAddress _)

theorem toy_recorded (kept : ℕ) :
    History toyPrimitives [.written, .torn kept] (toyFile kept) := by
  refine (Run.refl _).tail (e := .credit 1 (toyAddress 1) 50 7) ⟨?_, ?_⟩ rfl
  · exact toy_legible 1 50 7 (by decide) 1
  · intro _ cut he
    cases he

theorem toy_resumed (kept : ℕ) :
    Resumed toyPrimitives (toyFile kept) toyCut [toyNext] (toyResumed kept) := by
  refine ⟨fun d hd => ?_, [], rfl⟩
  rw [List.mem_singleton.mp hd]
  exact toy_legible 3 50 9 (by decide) 2

theorem toy_short {kept : ℕ} (h : kept ≤ 2) :
    CutShort toyPrimitives (toyFile kept) toyCut kept where
  appends := show 50 ≠ 0 by decide
  outcome := rfl
  short := by
    have hlen : (callLine toyPrimitives (toyFile 0) toyCut).length = 51 := by decide +kernel
    have hsame : callLine toyPrimitives (toyFile kept) toyCut =
        callLine toyPrimitives (toyFile 0) toyCut := rfl
    rw [hsame, hlen]
    omega

theorem torn_append_sample :
    Survives toyPrimitives (toyFile 1) toyCut 1 (toyResumed 1) := by
  have hh : Harmless toyPrimitives (toyFile 1) toyCut 1 [toyNext] :=
    .inr ⟨trivial, by decide +kernel⟩
  exact (torn_append (toy_recorded 1) (toy_legible 2 50 8 (by decide) 1)
    (toy_short (by decide))).1 _ _ (toy_resumed 1) hh

theorem next_reward_lost : ∃ l l',
    History toyPrimitives [.written, .torn 2] l ∧ Legible toyCut ∧
    CutShort toyPrimitives l toyCut 2 ∧ Resumed toyPrimitives l toyCut [toyNext] l' ∧
    l'.balance (toyAddress 2) = 50 ∧ (RewardLedger.openLedger l'.csv).balance (toyAddress 2) = 0 ∧
    ¬Survives toyPrimitives l toyCut 2 l' := by
  have hbefore : (toyResumed 2).balance (toyAddress 2) = 50 := by decide +kernel
  have hafter : (RewardLedger.openLedger (toyResumed 2).csv).balance (toyAddress 2) = 0 := by
    decide +kernel
  refine ⟨toyFile 2, toyResumed 2, toy_recorded 2, toy_legible 2 50 8 (by decide) 1,
    toy_short (Nat.le_refl 2), toy_resumed 2, hbefore, hafter, fun hs => ?_⟩
  let line := callLine toyPrimitives (reopened toyPrimitives (toyFile 2) toyCut []) toyNext
  let whole := completeText toyPrimitives (toyFile 2) toyCut 2++unlines [line]
  have hexpected : (RewardLedger.openLedger { text := whole, outcomes := [] }).balance
      (toyAddress 2) = 50 := by decide +kernel
  have hbal := (hs (unlines [line]) rfl).balances
  rw [RewardLedger.balance, hbal] at hafter
  rw [RewardLedger.balance, hafter] at hexpected
  cases hexpected

end BinaChain.Torn
