import BinaChain.Ledger.History

/-!
# Accounts under addresses

As long as no append is torn and every miner is named by an address, the ledger
and whatever is loaded from its file have accounts of addresses only, with
numbers that are machine words.
-/

set_option autoImplicit false

namespace BinaChain.Names
open BinaChain.Word BinaChain.Text BinaChain.Crypto BinaChain.Transaction BinaChain.Maps
open BinaChain.Rewards BinaChain.Execution BinaChain.Rows BinaChain.StateRoot BinaChain.History
open Std

def rowNames : CsvRow → List Str
  | .reward _ addr _ _ => [addr]
  | .tx _ sender recipient _ _ _ miner _ => [sender, recipient, miner]

structure NamedFile (f : CsvFile) : Prop where
  whole : WholeLines f.text
  untorn : ∀ o ∈ f.outcomes, ∀ kept, o ≠ .torn kept
  rows : ∀ row ∈ csvRows f.text, ∀ a ∈ rowNames row, IsAddress a

structure NamedAccounts (balances nonces : Accounts) : Prop where
  address : ∀ a ∈ (bookOf balances nonces).known, IsAddress a
  balance : ∀ a, balances.getD a 0 ≤ u64Max
  nonce : ∀ a, nonces.getD a 0 ≤ u64Max

structure Named (l : RewardLedger) : Prop where
  accounts : NamedAccounts l.balances l.nonces
  file : NamedFile l.csv

theorem namedAccounts_empty : NamedAccounts ∅ ∅ where
  address a ha := by simp [bookOf] at ha
  balance a := by simp
  nonce a := by simp

theorem named_create {outcomes : List AppendOutcome}
    (h : ∀ o ∈ outcomes, ∀ kept, o ≠ .torn kept) : Named (.create outcomes) where
  accounts := namedAccounts_empty
  file :=
    { whole := wholeLines_create outcomes
      untorn := h
      rows := fun row hrow => by
        rw [RewardLedger.create, csvRows_create] at hrow
        cases hrow }

section Accounts

variable {balances nonces : Accounts} {a b : Str}

theorem NamedAccounts.balanced (h : NamedAccounts balances nonces) (ha : IsAddress a) {x : ℕ}
    (hx : x ≤ u64Max) : NamedAccounts (balances.insert a x) nonces where
  address b hb := by
    rw [bookOf_balance] at hb
    rcases hb with rfl | hb
    · exact ha
    · exact h.address b hb
  balance b := by
    rw [getD_insert_eq]
    split
    · exact hx
    · exact h.balance b
  nonce := h.nonce

theorem NamedAccounts.numbered (h : NamedAccounts balances nonces) (ha : IsAddress a) {x : ℕ}
    (hx : x ≤ u64Max) : NamedAccounts balances (nonces.insert a x) where
  address b hb := by
    rw [bookOf_nonce] at hb
    rcases hb with rfl | hb
    · exact ha
    · exact h.address b hb
  balance := h.balance
  nonce b := by
    rw [getD_insert_eq]
    split
    · exact hx
    · exact h.nonce b

theorem NamedAccounts.credited (h : NamedAccounts balances nonces) (ha : IsAddress a) (x : ℕ) :
    NamedAccounts (creditBalance balances a x) nonces := h.balanced ha (satAdd_le _ _)

theorem NamedAccounts.debited (h : NamedAccounts balances nonces) (ha : IsAddress a) (x : ℕ) :
    NamedAccounts (debit balances a x) nonces :=
  h.balanced ha (Nat.le_trans (Nat.sub_le _ _) (h.balance a))

end Accounts

theorem fromHex_isAddress (s : SignedTransaction) : IsAddress s.fromHex := encode_isAddress _

theorem toHex_isAddress (s : SignedTransaction) : IsAddress s.toHex := encode_isAddress _

theorem NamedAccounts.settled {balances nonces : Accounts} (h : NamedAccounts balances nonces)
    (s : SignedTransaction) {miner : Str} (hm : IsAddress miner) :
    NamedAccounts (settleBalances balances s miner)
      (nonces.insert s.fromHex (satAdd s.tx.nonce 1)) := by
  have hpaid := ((h.debited (fromHex_isAddress s) (s.tx.amount+s.tx.fee)).credited
    (toHex_isAddress s) s.tx.amount).numbered (fromHex_isAddress s) (satAdd_le s.tx.nonce 1)
  unfold settleBalances
  dsimp only
  split
  · exact hpaid.credited hm s.tx.fee
  · exact hpaid

theorem NamedFile.append {f : CsvFile} (h : NamedFile f) (context : String) {line : Str}
    (hl : ∀ c ∈ line, c ≠ '\n' ∧ c ≠ '\r')
    (hrow : ∀ row ∈ parseLine line, ∀ a ∈ rowNames row, IsAddress a) :
    NamedFile (f.append context line).2 := by
  obtain ⟨text, outcomes⟩ := f
  obtain ⟨hwhole, hrows⟩ := csvRows_append h.whole hl
  have hall : ∀ row ∈ csvRows (text++unlines [line]), ∀ a ∈ rowNames row, IsAddress a := by
    intro row hmem
    dsimp only at hrows
    rw [hrows, List.mem_append] at hmem
    rcases hmem with hmem | hmem
    · exact h.rows row hmem
    · exact hrow row (Option.mem_toList.mp hmem)
  cases outcomes with
  | nil =>
    exact
      { whole := hwhole
        untorn := h.untorn
        rows := hall }
  | cons o rest =>
    have hrest : ∀ o ∈ rest, ∀ kept, o ≠ .torn kept :=
      fun o ho => h.untorn o (List.mem_cons_of_mem _ ho)
    cases o with
    | written =>
      exact
        { whole := hwhole
          untorn := hrest
          rows := hall }
    | openFailed =>
      exact
        { whole := h.whole
          untorn := hrest
          rows := h.rows }
    | torn kept => exact absurd rfl (h.untorn _ List.mem_cons_self kept)

theorem NamedFile.reward {f : CsvFile} (h : NamedFile f) (context : String) {miner : Str}
    (hm : IsAddress miner) (height reward total timestamp : ℕ) :
    NamedFile (f.append context (rewardLine height miner reward total timestamp)).2 := by
  have hplain := rewardLine_plain (plain_address hm) height reward total timestamp
  apply h.append context (join_no_newline hplain)
  intro row hrow a ha
  have hparse := parse_reward (showNat_plain height) (showNat_ne_tx height) (plain_address hm)
    reward total timestamp
  obtain rfl := Option.some.inj (hparse.symm.trans hrow)
  rwa [List.mem_singleton.mp ha]

theorem NamedFile.tx {f : CsvFile} (h : NamedFile f) (K : Primitives) (context : String)
    {miner : Str} (hm : IsAddress miner) (height : ℕ) (s : SignedTransaction)
    (total timestamp : ℕ) :
    NamedFile (f.append context (txLine K height s miner total timestamp)).2 := by
  have hplain := txLine_plain K (plain_address hm) height s total timestamp
  apply h.append context (join_no_newline hplain)
  intro row hrow a ha
  rcases parse_join hplain hrow with ⟨hne, -⟩ | ⟨-, -, _, _, _, _, rfl⟩
  · exact absurd rfl hne
  · simp only [rowNames, List.getD_cons_succ, List.getD_cons_zero, List.mem_cons,
      List.not_mem_nil, or_false] at ha
    rcases ha with rfl | rfl | rfl
    · exact fromHex_isAddress s
    · exact toHex_isAddress s
    · exact hm

section Ledger

variable {K : Primitives} {l : RewardLedger} {miner : Str}

theorem wrapAdd_le (a b : ℕ) : wrapAdd a b ≤ u64Max := by
  have hlt : (a+b)%0x10000000000000000 < 0x10000000000000000 := Nat.mod_lt _ (by decide)
  unfold wrapAdd u64Max
  omega

theorem Named.credit (h : Named l) (hm : IsAddress miner) (height reward timestamp : ℕ) :
    Named (l.credit height miner reward timestamp).2 := by
  unfold RewardLedger.credit
  split
  · exact h
  · exact
      { accounts := h.accounts.balanced hm (wrapAdd_le _ _)
        file := h.file.reward _ hm _ _ _ _ }

theorem Named.settle (h : Named l) (hm : IsAddress miner) (height : ℕ) (s : SignedTransaction)
    (timestamp : ℕ) : Named (settle K l height s miner timestamp) where
  accounts := h.accounts.settled s hm
  file := h.file.tx K _ hm _ _ _ _

theorem Named.applyTransactions (hm : IsAddress miner) (height timestamp : ℕ)
    (txs : List SignedTransaction) : ∀ {l : RewardLedger}, Named l →
      Named (applyTransactions K height miner timestamp l txs).2 := by
  induction txs with
  | nil => exact fun h => h
  | cons s txs ih =>
    intro l h
    unfold Execution.applyTransactions
    by_cases hacc : Accepted K l s
    · have hs := ih (h.settle (K := K) hm height s timestamp)
      rw [applyTransaction_accepted hacc]
      cases (txAppend K l height s miner timestamp).1 with
      | error e => exact hs
      | ok u => exact hs
    · obtain ⟨e, hrej⟩ := applyTransaction_rejected hacc height miner timestamp
      rw [hrej]
      exact ih h

theorem Named.executeBlock (h : Named l) (hm : IsAddress miner) (height reward timestamp : ℕ)
    (txs : List SignedTransaction) :
    Named (executeBlock K height miner reward timestamp l txs) :=
  (Named.applyTransactions hm height timestamp txs h).credit hm _ _ _

end Ledger

def replayNames : ReplayRow → List Str
  | .reward _ _ addr _ => [addr]
  | .tx sender recipient _ _ _ miner => [sender, recipient, miner]

theorem collect_names {rows : List CsvRow} (active : ℕ)
    (h : ∀ row ∈ rows, ∀ a ∈ rowNames row, IsAddress a) :
    ∀ acc : List ReplayRow × ExtTreeMap ℕ ℕ, (∀ row ∈ acc.1, ∀ a ∈ replayNames row, IsAddress a) →
      ∀ row ∈ (rows.foldl (collectRow active) acc).1, ∀ a ∈ replayNames row, IsAddress a := by
  induction rows with
  | nil => exact fun _ hacc => hacc
  | cons row rows ih =>
    intro acc hacc
    rw [List.foldl_cons]
    apply ih fun r hr => h r (List.mem_cons_of_mem _ hr)
    have hrow := h row List.mem_cons_self
    have hpush (r : ReplayRow) (hr : ∀ a ∈ replayNames r, IsAddress a) :
        ∀ row ∈ acc.1++[r], ∀ a ∈ replayNames row, IsAddress a := by
      intro row hmem
      rcases List.mem_append.mp hmem with hmem | hmem
      · exact hacc row hmem
      · rwa [List.mem_singleton.mp hmem]
    unfold collectRow
    split
    · exact hacc
    · cases row with
      | reward height addr reward total => exact hpush _ hrow
      | tx height sender recipient amount fee nonce miner total => exact hpush _ hrow

theorem NamedAccounts.replayed {t : Totals} (h : NamedAccounts t.balances t.nonces)
    {sender recipient miner : Str} (hs : IsAddress sender) (hr : IsAddress recipient)
    (hm : IsAddress miner) (amount fee nonce : ℕ) :
    NamedAccounts (t.replayTx sender recipient amount fee nonce miner).balances
      (t.replayTx sender recipient amount fee nonce miner).nonces := by
  have hnonce : max (satAdd nonce 1) (t.nonces.getD sender 0) ≤ u64Max :=
    Nat.max_le.mpr ⟨satAdd_le _ _, h.nonce sender⟩
  have hpaid := ((h.debited hs (satAdd amount fee)).credited hr amount).numbered hs hnonce
  unfold Totals.replayTx
  dsimp only
  split
  · exact hpaid.credited hm fee
  · exact hpaid

theorem replay_named (index : ExtTreeMap ℕ ℕ) {rows : List ReplayRow}
    (h : ∀ row ∈ rows, ∀ a ∈ replayNames row, IsAddress a) :
    ∀ {t : Totals}, NamedAccounts t.balances t.nonces →
      NamedAccounts (rows.foldl (replayRow index) t).balances
        (rows.foldl (replayRow index) t).nonces := by
  induction rows with
  | nil => exact fun ht => ht
  | cons row rows ih =>
    intro t ht
    rw [List.foldl_cons]
    apply ih fun r hr => h r (List.mem_cons_of_mem _ hr)
    have hrow := h row List.mem_cons_self
    cases row with
    | reward i height addr reward =>
      unfold replayRow
      dsimp only
      split
      · exact ht.credited (hrow addr List.mem_cons_self) reward
      · exact ht
    | tx sender recipient amount fee nonce miner =>
      exact ht.replayed (hrow sender (by simp [replayNames]))
        (hrow recipient (by simp [replayNames])) (hrow miner (by simp [replayNames])) _ _ _

theorem NamedFile.openScoped {f : CsvFile} (h : NamedFile f) (active : ℕ) :
    Named (.openScoped f active) where
  accounts := by
    have hrows := collect_names active h.rows ([], ∅) fun row hrow => by cases hrow
    exact replay_named _ hrows namedAccounts_empty
  file := h

theorem rootInput_injective {l l' : RewardLedger} (h : Named l) (h' : Named l')
    (he : rootInput l = rootInput l') : ledgerBook l = ledgerBook l' := by
  have hwidth : ∀ {l : RewardLedger}, Named l → ∀ e ∈ entries l, (record e).length = 56 := by
    intro l h e hmem
    obtain ⟨a, v⟩ := e
    simp [record, strBytes_length (h.accounts.address a (mem_entries.mp hmem).1)]
  have hentries : entries l = entries l' := by
    apply records_injective (by decide) (hwidth h) (hwidth h') _ (List.append_cancel_left he)
    rintro ⟨a, v⟩ ha ⟨b, w⟩ hb hrec
    obtain ⟨hka, rfl⟩ := mem_entries.mp ha
    obtain ⟨hkb, rfl⟩ := mem_entries.mp hb
    unfold record at hrec
    obtain ⟨hrest, hnonce⟩ := List.append_inj' hrec (by simp)
    obtain ⟨haddr, hbalance⟩ := List.append_inj' hrest (by simp)
    obtain rfl := strBytes_injective (h.accounts.address a hka) (h'.accounts.address b hkb) haddr
    have hbalance : l.balance a = l'.balance a :=
      leBytes_u64 (h.accounts.balance a) (h'.accounts.balance a) hbalance
    have hnonce : l.nonce a = l'.nonce a :=
      leBytes_u64 (h.accounts.nonce a) (h'.accounts.nonce a) hnonce
    rw [hbalance, hnonce]
  ext a
  · exact (entries_agree hentries a).1
  · exact (entries_agree hentries a).2
  · constructor
    · intro ha
      have hmem : (a, l.balance a, l.nonce a) ∈ entries l' := by
        rw [← hentries]
        exact mem_entries.mpr ⟨ha, rfl⟩
      exact (mem_entries.mp hmem).1
    · intro ha
      have hmem : (a, l'.balance a, l'.nonce a) ∈ entries l := by
        rw [hentries]
        exact mem_entries.mpr ⟨ha, rfl⟩
      exact (mem_entries.mp hmem).1

end BinaChain.Names
