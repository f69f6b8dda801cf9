import BinaChain.Ledger.Execution
import Mathlib.Data.List.TakeWhile

/-!
# The rows of the ledger file

What an append writes, the loader reads back as the same row, provided the
miner's name cannot be mistaken for separators.
-/

set_option autoImplicit false

namespace BinaChain.Rows
open BinaChain.Word BinaChain.Text BinaChain.Crypto BinaChain.Transaction
open BinaChain.Rewards BinaChain.Execution

/-- A transaction whose numbers are machine words. -/
structure Sized (s : SignedTransaction) : Prop where
  amount : s.tx.amount ≤ u64Max
  nonce : s.tx.nonce ≤ u64Max
  fee : s.tx.fee ≤ u64Max

instance (s : SignedTransaction) : Decidable (Sized s) :=
  decidable_of_iff (s.tx.amount ≤ u64Max ∧ s.tx.nonce ≤ u64Max ∧ s.tx.fee ≤ u64Max)
    ⟨fun h => ⟨h.1, h.2.1, h.2.2⟩, fun h => ⟨h.amount, h.nonce, h.fee⟩⟩

def readNat (n : ℕ) : ℕ := (parseU64 (showNat n)).getD 0

def rewardRow (height : ℕ) (miner : Str) (reward total : ℕ) : CsvRow :=
  .reward height miner reward (readNat total)

def txRow (height : ℕ) (s : SignedTransaction) (miner : Str) (total : ℕ) : CsvRow :=
  .tx height s.fromHex s.toHex (readNat s.tx.amount) (readNat s.tx.fee) (readNat s.tx.nonce) miner
    (parseU64 (showNat total))

theorem trim_ne_nil {s : Str} {c : Char} (hc : c ∈ s) (hw : isWhitespace c = false) :
    trim s ≠ [] := by
  have keep : ∀ t : Str, c ∈ t → c ∈ t.dropWhile isWhitespace := by
    intro t ht
    rw [← List.takeWhile_append_dropWhile (p := isWhitespace) (l := t), List.mem_append] at ht
    rcases ht with h | h
    · have := List.mem_takeWhile_imp h
      simp [hw] at this
    · exact h
  have hin : c ∈ trim s := by
    unfold trim
    rw [List.mem_reverse]
    exact keep _ (List.mem_reverse.mpr (keep s hc))
  exact List.ne_nil_of_mem hin

theorem trim_join_ne_nil (s t : Str) (cols : List Str) : trim (joinFields (s :: t :: cols)) ≠ [] :=
  trim_ne_nil (c := ',') (by simp [joinFields_cons]) (by decide)

theorem showNat_ne_tx (n : ℕ) : showNat n ≠ "tx".toList := by
  intro h
  have hd : ('t' : Char).isDigit := showNat_digit (n := n) (by rw [h]; decide)
  revert hd
  decide

theorem rewardLine_plain {miner : Str} (hm : Plain miner) (height reward total timestamp : ℕ) :
    ∀ s ∈ [showNat height, miner, showNat reward, showNat total, showNat timestamp], Plain s := by
  simp [showNat_plain, hm]

theorem txLine_plain (K : Primitives) {miner : Str} (hm : Plain miner) (height : ℕ)
    (signed : SignedTransaction) (total timestamp : ℕ) :
    ∀ s ∈ ["tx".toList, showNat height, signed.txIdHex K, signed.fromHex, signed.toHex,
      showNat signed.tx.amount, showNat signed.tx.fee, showNat signed.tx.nonce, miner,
      showNat total, showNat timestamp], Plain s := by
  have htx : Plain "tx".toList := by decide
  have hid : Plain (signed.txIdHex K) := Hex.encode_plain _
  have hfrom : Plain signed.fromHex := Hex.encode_plain _
  have hto : Plain signed.toHex := Hex.encode_plain _
  simp [-String.reduceToList, htx, hid, hfrom, hto, showNat_plain, hm]

theorem parse_reward {first miner : Str} (hf : Plain first) (htx : first ≠ "tx".toList)
    (hm : Plain miner) (reward total timestamp : ℕ) :
    parseLine (joinFields [first, miner, showNat reward, showNat total, showNat timestamp]) =
      some (.reward ((parseU64 first).getD 0) miner (readNat reward) (readNat total)) := by
  have hplain : ∀ s ∈ [first, miner, showNat reward, showNat total, showNat timestamp],
      Plain s := by
    simp [showNat_plain, hf, hm]
  have hcols := fields_join (List.cons_ne_nil _ _) hplain
  unfold parseLine
  rw [if_neg (trim_join_ne_nil _ _ _)]
  simp [-String.reduceToList, hcols, htx, trim_plain, showNat_plain, hf, hm, readNat]

theorem parse_rewardLine {height reward : ℕ} {miner : Str} (hh : height ≤ u64Max)
    (hr : reward ≤ u64Max) (hm : Plain miner) (total timestamp : ℕ) :
    parseLine (rewardLine height miner reward total timestamp) =
      some (rewardRow height miner reward total) := by
  rw [rewardLine, parse_reward (showNat_plain height) (showNat_ne_tx height) hm]
  simp [rewardRow, readNat, parseU64_showNat hh, parseU64_showNat hr]

theorem parse_txLine (K : Primitives) {height : ℕ} {signed : SignedTransaction} {miner : Str}
    (hh : height ≤ u64Max) (hm : Plain miner) (total timestamp : ℕ) :
    parseLine (txLine K height signed miner total timestamp) =
      some (txRow height signed miner total) := by
  have hf := fields_join (List.cons_ne_nil _ _) (txLine_plain K hm height signed total timestamp)
  have hfrom : Plain signed.fromHex := Hex.encode_plain _
  have hto : Plain signed.toHex := Hex.encode_plain _
  unfold parseLine txLine
  rw [if_neg (trim_join_ne_nil _ _ _)]
  simp [-String.reduceToList, hf, trim_plain, showNat_plain, hm, hfrom, hto, parseU64_showNat hh,
    txRow, readNat]

theorem txRow_sized {height : ℕ} {s : SignedTransaction} (hs : Sized s) (miner : Str)
    (total : ℕ) : txRow height s miner total = .tx height s.fromHex s.toHex s.tx.amount s.tx.fee
      s.tx.nonce miner (parseU64 (showNat total)) := by
  simp [txRow, readNat, parseU64_showNat hs.amount, parseU64_showNat hs.fee,
    parseU64_showNat hs.nonce]

/-- The header and complete lines, nothing else. -/
def WholeLines (text : Str) : Prop :=
  ∃ ls, text = unlines (csvHeader :: ls) ∧ ∀ l ∈ csvHeader :: ls, ∀ c ∈ l, c ≠ '\n' ∧ c ≠ '\r'

theorem header_no_newline : ∀ l ∈ [csvHeader], ∀ c ∈ l, c ≠ '\n' ∧ c ≠ '\r' := by
  have hall : csvHeader.all (fun c => c != '\n' && c != '\r') = true := by decide
  intro l hl c hc
  rw [List.mem_singleton.mp hl] at hc
  simpa using List.all_eq_true.mp hall c hc

theorem wholeLines_create (outcomes : List AppendOutcome) :
    WholeLines (CsvFile.create outcomes).text :=
  ⟨[], rfl, header_no_newline⟩

theorem csvRows_create (outcomes : List AppendOutcome) :
    csvRows (CsvFile.create outcomes).text = [] := by
  unfold CsvFile.create csvRows
  rw [lines_unlines header_no_newline]
  rfl

theorem whole_rows {ls : List Str}
    (h : ∀ l ∈ csvHeader :: ls, ∀ c ∈ l, c ≠ '\n' ∧ c ≠ '\r') :
    csvRows (unlines (csvHeader :: ls)) = ls.filterMap parseLine := by
  rw [csvRows, lines_unlines h]
  rfl

theorem csvRows_extend {text : Str} (h : WholeLines text) {added : List Str}
    (ha : ∀ l ∈ added, ∀ c ∈ l, c ≠ '\n' ∧ c ≠ '\r') :
    WholeLines (text++unlines added) ∧
      csvRows (text++unlines added) = csvRows text++added.filterMap parseLine := by
  obtain ⟨ls, rfl, hls⟩ := h
  have hcat : unlines (csvHeader :: ls)++unlines added = unlines (csvHeader :: (ls++added)) := by
    rw [← unlines_append]
    rfl
  have hall : ∀ l ∈ csvHeader :: (ls++added), ∀ c ∈ l, c ≠ '\n' ∧ c ≠ '\r' := by
    intro l hm
    rw [← List.cons_append, List.mem_append] at hm
    exact hm.elim (hls l) (ha l)
  refine ⟨⟨ls++added, hcat, hall⟩, ?_⟩
  rw [hcat, whole_rows hall, whole_rows hls, List.filterMap_append]

theorem csvRows_append {text line : Str} (h : WholeLines text)
    (hl : ∀ c ∈ line, c ≠ '\n' ∧ c ≠ '\r') :
    WholeLines (text++unlines [line]) ∧
      csvRows (text++unlines [line]) = csvRows text++(parseLine line).toList := by
  have hone : ∀ l ∈ [line], ∀ c ∈ l, c ≠ '\n' ∧ c ≠ '\r' := by
    intro l hm
    rw [List.mem_singleton.mp hm]
    exact hl
  have hx := csvRows_extend h hone
  cases hp : parseLine line with
  | none => simpa [hp] using hx
  | some row => simpa [hp] using hx

theorem csvRows_torn {text frag : Str} (h : WholeLines text)
    (hf : ∀ c ∈ frag, c ≠ '\n' ∧ c ≠ '\r') :
    csvRows (text++frag) = csvRows text++(parseLine frag).toList := by
  obtain ⟨ls, rfl, hls⟩ := h
  rw [whole_rows hls, csvRows, lines_torn hls hf]
  by_cases he : frag = []
  · subst he
    simp [parseLine, trim]
  · rw [if_neg he]
    cases hp : parseLine frag with
    | none => simp [hp]
    | some row => simp [hp]

theorem csvRows_merged {text frag line : Str} {more : List Str} (h : WholeLines text)
    (hf : ∀ c ∈ frag, c ≠ '\n' ∧ c ≠ '\r')
    (hl : ∀ l ∈ line :: more, ∀ c ∈ l, c ≠ '\n' ∧ c ≠ '\r') :
    csvRows (text++frag++unlines (line :: more)) =
      csvRows text++(parseLine (frag++line)).toList++more.filterMap parseLine := by
  have hcat : text++frag++unlines (line :: more) = text++unlines ((frag++line) :: more) := by
    simp [unlines]
  have hall : ∀ l ∈ (frag++line) :: more, ∀ c ∈ l, c ≠ '\n' ∧ c ≠ '\r' := by
    intro l hm
    rcases List.mem_cons.mp hm with rfl | hm
    · intro c hc
      exact (List.mem_append.mp hc).elim (hf c) (hl line List.mem_cons_self c)
    · exact hl l (List.mem_cons_of_mem _ hm)
  rw [hcat, (csvRows_extend h hall).2]
  cases hp : parseLine (frag++line) with
  | none => simp [hp]
  | some row => simp [hp]

theorem parse_join {s t : Str} {cols : List Str} (h : ∀ u ∈ s :: t :: cols, Plain u)
    {row : CsvRow} (hrow : parseLine (joinFields (s :: t :: cols)) = some row) :
    (s ≠ "tx".toList ∧ ∃ height total, row = .reward height t
        ((parseU64 (cols.getD 0 [])).getD 0) total) ∨
      (s = "tx".toList ∧ 9 ≤ cols.length ∧ ∃ height amount nonce total,
        row = .tx height (cols.getD 1 []) (cols.getD 2 []) amount
          ((parseU64 (cols.getD 4 [])).getD 0) nonce (cols.getD 6 []) total) := by
  have hf := fields_join (List.cons_ne_nil _ _) h
  have hcol : ∀ i, trim ((s :: t :: cols).getD i []) = (s :: t :: cols).getD i [] := by
    intro i
    rw [List.getD_eq_getElem?_getD]
    cases hi : (s :: t :: cols)[i]? with
    | none => rfl
    | some u => exact trim_plain (h u (List.mem_of_getElem? hi))
  unfold parseLine at hrow
  rw [if_neg (trim_join_ne_nil _ _ _)] at hrow
  simp only [hf, hcol] at hrow
  by_cases hs : s = "tx".toList
  · right
    rw [if_pos (by rw [hs]; rfl)] at hrow
    split at hrow
    · cases hrow
    · rename_i hlen
      refine ⟨hs, by simpa using hlen, _, _, _, _, (Option.some.inj hrow).symm⟩
  · left
    rw [if_neg (by simpa using hs)] at hrow
    split at hrow
    · cases hrow
    · exact ⟨hs, _, _, (Option.some.inj hrow).symm⟩

theorem append_written {n : ℕ} {f : CsvFile} (h : Durable (n+1) f) (context : String)
    (line : Str) : (f.append context line).2.text = f.text++unlines [line] := by
  obtain ⟨text, outcomes⟩ := f
  cases outcomes with
  | nil => rfl
  | cons o rest =>
    have ho : o = .written := h o (by simp)
    subst ho
    rfl

end BinaChain.Rows
