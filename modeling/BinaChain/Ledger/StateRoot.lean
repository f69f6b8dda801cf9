import BinaChain.Support.Machine
import BinaChain.Ledger.Execution
import BinaChain.Ledger.Identity

/-!
# What a state root commits to

The root hashes the stored accounts in order, each as a record of one width.
It determines the accounts because the records can be told apart, and it is
determined by them because a ledger stores no account with neither balance nor
nonce.
-/

set_option autoImplicit false

namespace BinaChain.StateRoot
open BinaChain.Word BinaChain.Text BinaChain.Crypto BinaChain.Transaction BinaChain.Maps
open BinaChain.Rewards BinaChain.Execution BinaChain.Machine Std

def hexDigits : Str := "0123456789abcdef".toList

/-- Forty lowercase hexadecimal digits. -/
structure IsAddress (a : Str) : Prop where
  length : a.length = 40
  digits : ∀ c ∈ a, c ∈ hexDigits

theorem hexDigit_mem : ∀ n < 16, Hex.hexDigit n ∈ hexDigits := by decide

theorem encode_isAddress (a : WalletAddress) : IsAddress (Hex.encode a.toList) where
  length := by simp [Hex.encode_length]
  digits c hc := by
    obtain ⟨b, -, hb⟩ := List.mem_flatMap.mp hc
    obtain ⟨hhi, hlo, -⟩ := Hex.byte_halves b
    rcases List.mem_pair.mp hb with rfl | rfl
    · exact hexDigit_mem _ hhi
    · exact hexDigit_mem _ hlo

theorem hexDigits_ascii : ∀ c ∈ hexDigits, (String.utf8EncodeChar c).length = 1 ∧
    ∀ d ∈ hexDigits, String.utf8EncodeChar c = String.utf8EncodeChar d → c = d := by
  have hall : (hexDigits.all fun c => (String.utf8EncodeChar c).length == 1 &&
      hexDigits.all fun d => String.utf8EncodeChar c != String.utf8EncodeChar d || c == d) =
      true := by decide
  intro c hc
  have h := List.all_eq_true.mp hall c hc
  rw [Bool.and_eq_true, beq_iff_eq, List.all_eq_true] at h
  refine ⟨h.1, fun d hd he => ?_⟩
  have hd' := h.2 d hd
  simpa [he] using hd'

theorem strBytes_length {a : Str} (h : IsAddress a) : (strBytes a).length = 40 := by
  have hone : ∀ s : Str, (∀ c ∈ s, c ∈ hexDigits) → (strBytes s).length = s.length := by
    intro s hs
    induction s with
    | nil => rfl
    | cons c s ih =>
      have hc := (hexDigits_ascii c (hs c List.mem_cons_self)).1
      have hrest := ih fun d hd => hs d (List.mem_cons_of_mem _ hd)
      simp only [strBytes, List.flatMap_cons, List.length_append, List.length_cons] at hrest ⊢
      omega
  rw [hone a h.digits, h.length]

theorem strBytes_injective {a b : Str} (ha : IsAddress a) (hb : IsAddress b)
    (h : strBytes a = strBytes b) : a = b := by
  apply records_injective Nat.one_pos _ _ _ h
  · exact fun c hc => (hexDigits_ascii c (ha.digits c hc)).1
  · exact fun c hc => (hexDigits_ascii c (hb.digits c hc)).1
  · exact fun c hc d hd he => (hexDigits_ascii c (ha.digits c hc)).2 d (hb.digits d hd) he

inductive LedgerCall where
  | credit (height : ℕ) (miner : Str) (reward timestamp : ℕ)
  | apply (height : ℕ) (signed : SignedTransaction) (miner : Str) (timestamp : ℕ)

namespace LedgerCall

def Addressed : LedgerCall → Prop
  | .credit _ miner _ _ => IsAddress miner
  | .apply _ _ miner _ => IsAddress miner

def credited : LedgerCall → ℕ
  | .credit _ _ reward _ => reward
  | .apply .. => 0

end LedgerCall

def totalCredited (calls : List LedgerCall) : ℕ := (calls.map LedgerCall.credited).sum

/-- A call that succeeds; `none` is an error. -/
def call (K : Primitives) (l : RewardLedger) : LedgerCall → Option RewardLedger
  | .credit height miner reward timestamp =>
    match l.credit height miner reward timestamp with
    | (.ok _, l') => some l'
    | (.error _, _) => none
  | .apply height signed miner timestamp =>
    match l.applyTransaction K height signed miner timestamp with
    | (.ok _, l') => some l'
    | (.error _, _) => none

/-- Every stored account is an address with a balance or a nonce, and the
numbers fit their words. -/
structure Tidy (l : RewardLedger) (credited : ℕ) : Prop where
  address : ∀ a ∈ (ledgerBook l).known, IsAddress a
  live : ∀ a ∈ (ledgerBook l).known, l.balance a ≠ 0 ∨ l.nonce a ≠ 0
  supply : total l.balances ≤ credited
  nonces : ∀ a, l.nonce a ≤ u64Max

theorem tidy_create (outcomes : List AppendOutcome) : Tidy (RewardLedger.create outcomes) 0 where
  address a ha := by simp [ledgerBook, bookOf, RewardLedger.create] at ha
  live a ha := by simp [ledgerBook, bookOf, RewardLedger.create] at ha
  supply := by simp [RewardLedger.create, total_empty]
  nonces a := by simp [RewardLedger.create, RewardLedger.nonce]

theorem Tidy.balance_le {l : RewardLedger} {credited : ℕ} (h : Tidy l credited)
    (hfit : credited ≤ u64Max) (a : Str) : l.balance a ≤ u64Max :=
  Nat.le_trans (getD_le_total l.balances a) (Nat.le_trans h.supply hfit)

theorem Tidy.credit {l : RewardLedger} {credited : ℕ} (h : Tidy l credited) {miner : Str}
    (hm : IsAddress miner) {reward : ℕ} (hfit : credited+reward ≤ u64Max) (height timestamp : ℕ) :
    Tidy (l.credit height miner reward timestamp).2 (credited+reward) := by
  unfold RewardLedger.credit
  by_cases hz : reward = 0
  · rw [if_pos hz, hz]
    exact h
  rw [if_neg hz]
  have hbal := getD_le_total l.balances miner
  have hsup := h.supply
  have hsum : wrapAdd (l.balance miner) reward = l.balance miner+reward := by
    apply wrapAdd_of_le
    unfold RewardLedger.balance
    omega
  have hknown : ∀ a, (a ∈ l.balances.insert miner (l.balance miner+reward) ∨ a ∈ l.nonces) ↔
      a = miner ∨ a ∈ (ledgerBook l).known := by
    intro a
    rw [mem_insert_iff, or_assoc]
    rfl
  simp only [hsum]
  constructor
  · intro a ha
    rcases (hknown a).mp ha with rfl | ha
    · exact hm
    · exact h.address a ha
  · intro a ha
    simp only [RewardLedger.balance, getD_insert_eq]
    by_cases he : miner = a
    · rw [if_pos he]
      left
      omega
    · rw [if_neg he]
      rcases (hknown a).mp ha with rfl | ha
      · exact absurd rfl he
      · exact h.live a ha
  · have hins := total_insert l.balances miner (l.balance miner+reward)
    simp only [RewardLedger.balance] at hins ⊢
    omega
  · exact h.nonces

theorem le_creditBalance {m : Accounts} {b : Str} (hb : m.getD b 0 ≤ u64Max) (a : Str) (x : ℕ) :
    m.getD b 0 ≤ (creditBalance m a x).getD b 0 ∧ (creditBalance m a x).getD b 0 ≤ u64Max := by
  rw [creditBalance, getD_insert_eq]
  split
  · rename_i he
    subst he
    refine ⟨?_, satAdd_le _ _⟩
    unfold satAdd
    omega
  · exact ⟨Nat.le_refl _, hb⟩

theorem creditBalance_pos (m : Accounts) (a : Str) {x : ℕ} (hx : x ≠ 0) :
    (creditBalance m a x).getD a 0 ≠ 0 := by
  rw [creditBalance, getD_insert_eq, if_pos rfl]
  unfold satAdd u64Max
  omega

theorem mem_creditBalance {m : Accounts} {a b : Str} {x : ℕ} :
    b ∈ creditBalance m a x ↔ b = a ∨ b ∈ m := mem_insert_iff _ _ _ _

section Settling

variable {m : Accounts} {s : SignedTransaction} {miner a : Str}

theorem le_settleBalances (miner : Str) (hm : ∀ a, m.getD a 0 ≤ u64Max) (hne : a ≠ s.fromHex) :
    m.getD a 0 ≤ (settleBalances m s miner).getD a 0 := by
  have hdeb : (debit m s.fromHex (s.tx.amount+s.tx.fee)).getD a 0 = m.getD a 0 := by
    rw [debit, getD_insert_eq, if_neg (Ne.symm hne)]
  have hpaid := le_creditBalance (m := debit m s.fromHex (s.tx.amount+s.tx.fee)) (b := a)
    (by rw [hdeb]; exact hm a) s.toHex s.tx.amount
  rw [hdeb] at hpaid
  unfold settleBalances
  dsimp only
  split
  · exact Nat.le_trans hpaid.1 (le_creditBalance hpaid.2 miner s.tx.fee).1
  · exact hpaid.1

theorem settleBalances_new (hamount : s.tx.amount ≠ 0) (hne : a ≠ s.fromHex)
    (ha : a ∈ settleBalances m s miner) :
    a ∈ m ∨ ((a = s.toHex ∨ a = miner) ∧ (settleBalances m s miner).getD a 0 ≠ 0) := by
  have hpaid : ∀ x, (creditBalance (creditBalance (debit m s.fromHex (s.tx.amount+s.tx.fee))
      s.toHex s.tx.amount) miner x).getD s.toHex 0 ≠ 0 := by
    intro x
    have hpos := creditBalance_pos (debit m s.fromHex (s.tx.amount+s.tx.fee)) s.toHex hamount
    have hle := (le_creditBalance (m := creditBalance (debit m s.fromHex (s.tx.amount+s.tx.fee))
      s.toHex s.tx.amount) (b := s.toHex)
      (by rw [creditBalance, getD_insert_eq, if_pos rfl]; exact satAdd_le _ _) miner x).1
    omega
  have hold : a ∈ debit m s.fromHex (s.tx.amount+s.tx.fee) → a ∈ m := by
    intro hd
    rcases (mem_insert_iff _ _ _ _).mp hd with he | hd
    · exact absurd he hne
    · exact hd
  unfold settleBalances at ha ⊢
  dsimp only at ha ⊢
  split at ha
  · rename_i hfee
    rw [if_pos hfee]
    rcases mem_creditBalance.mp ha with rfl | ha
    · exact .inr ⟨.inr rfl, creditBalance_pos _ _ (by omega)⟩
    · rcases mem_creditBalance.mp ha with rfl | ha
      · exact .inr ⟨.inl rfl, hpaid _⟩
      · exact .inl (hold ha)
  · rename_i hfee
    rw [if_neg hfee]
    rcases mem_creditBalance.mp ha with rfl | ha
    · exact .inr ⟨.inl rfl, creditBalance_pos _ _ hamount⟩
    · exact .inl (hold ha)

end Settling

theorem tidy_settle {K : Primitives} {l : RewardLedger} {credited : ℕ} (h : Tidy l credited)
    (hfit : credited ≤ u64Max) {s : SignedTransaction} (hacc : Accepted K l s) {miner : Str}
    (hm : IsAddress miner) (height timestamp : ℕ) :
    Tidy (settle K l height s miner timestamp) credited := by
  have hamount := (Identity.verify_sensible hacc.verified).amount
  have hbal : ∀ a, l.balances.getD a 0 ≤ u64Max := h.balance_le hfit
  have hsender : (settle K l height s miner timestamp).nonce s.fromHex ≠ 0 := by
    simp only [settle, RewardLedger.nonce, getD_insert_eq, if_pos]
    unfold satAdd u64Max
    omega
  have hnonce : ∀ a, a ≠ s.fromHex →
      (settle K l height s miner timestamp).nonce a = l.nonce a := by
    intro a ha
    simp only [settle, RewardLedger.nonce, getD_insert_eq, if_neg (Ne.symm ha)]
  have hentry : ∀ a ∈ (ledgerBook (settle K l height s miner timestamp)).known, a ≠ s.fromHex →
      a ∈ (ledgerBook l).known ∨ ((a = s.toHex ∨ a = miner) ∧
        (settle K l height s miner timestamp).balance a ≠ 0) := by
    intro a ha hne
    rcases ha with ha | ha
    · rcases settleBalances_new hamount hne ha with hold | hnew
      · exact .inl (.inl hold)
      · exact .inr hnew
    · rcases (mem_insert_iff _ _ _ _).mp ha with he | ha
      · exact absurd he hne
      · exact .inl (.inr ha)
  constructor
  · intro a ha
    by_cases he : a = s.fromHex
    · rw [he]
      exact encode_isAddress s.tx.sender
    · rcases hentry a ha he with hold | ⟨rfl | rfl, -⟩
      · exact h.address a hold
      · exact encode_isAddress s.tx.recipient
      · exact hm
  · intro a ha
    by_cases he : a = s.fromHex
    · rw [he]
      exact .inr hsender
    · rcases hentry a ha he with hold | ⟨-, hpos⟩
      · rcases h.live a hold with hb | hn
        · have hle := le_settleBalances miner hbal he
          left
          simp only [settle, RewardLedger.balance] at hb ⊢
          omega
        · right
          rwa [hnonce a he]
      · exact .inl hpos
  · exact Nat.le_trans (total_settleBalances_le hacc.funded miner) h.supply
  · intro a
    by_cases he : a = s.fromHex
    · simp only [settle, RewardLedger.nonce, getD_insert_eq, if_pos he.symm]
      exact satAdd_le _ _
    · rw [hnonce a he]
      exact h.nonces a

theorem Tidy.call {K : Primitives} {l l' : RewardLedger} {credited : ℕ} {c : LedgerCall}
    (h : Tidy l credited) (hc : c.Addressed) (hfit : credited+c.credited ≤ u64Max)
    (hs : call K l c = some l') : Tidy l' (credited+c.credited) := by
  cases c with
  | credit height miner reward timestamp =>
    have ht : Tidy (l.credit height miner reward timestamp).2 (credited+reward) :=
      h.credit hc hfit height timestamp
    simp only [StateRoot.call] at hs
    split at hs
    · rename_i hcr
      obtain rfl := Option.some.inj hs
      rwa [hcr] at ht
    · simp at hs
  | apply height signed miner timestamp =>
    simp only [StateRoot.call] at hs
    by_cases hacc : Accepted K l signed
    · rw [applyTransaction_accepted hacc] at hs
      split at hs
      · rename_i hrow
        obtain rfl := Option.some.inj hs
        rw [← (Prod.mk.inj hrow).2]
        exact tidy_settle h hfit hacc hc height timestamp
      · simp at hs
    · obtain ⟨e, hrej⟩ := applyTransaction_rejected hacc height miner timestamp
      simp [hrej] at hs

theorem reachable_tidy {K : Primitives} {calls : List LedgerCall}
    (hc : ∀ c ∈ calls, c.Addressed) : ∀ {l l' : RewardLedger} {credited : ℕ}, Tidy l credited →
      credited+totalCredited calls ≤ u64Max → exec (call K) l calls = some l' →
      Tidy l' (credited+totalCredited calls) := by
  induction calls with
  | nil =>
    intro l l' credited h hfit hs
    obtain rfl := Option.some.inj hs
    exact h
  | cons c calls ih =>
    intro l l' credited h hfit hs
    obtain ⟨u, hu, hs⟩ := Option.bind_eq_some_iff.mp hs
    have hsum : totalCredited (c :: calls) = c.credited+totalCredited calls := by
      simp [totalCredited]
    rw [hsum] at hfit ⊢
    rw [← Nat.add_assoc] at hfit ⊢
    exact ih (fun d hd => hc d (List.mem_cons_of_mem _ hd))
      (h.call (hc c List.mem_cons_self) (by omega) hu) hfit hs

def record (e : Str × ℕ × ℕ) : Bytes := strBytes e.1++leBytes 8 e.2.1++leBytes 8 e.2.2

def entries (l : RewardLedger) : List (Str × ℕ × ℕ) :=
  ((l.addresses ∅).map fun addr => (addr, l.overlayRead ∅ addr)).insertionSort
    fun a b => (compare a.1 b.1).isLE

/-- The one input of the root's hash. -/
def rootInput (l : RewardLedger) : Bytes := stateRootTag++(entries l).flatMap record

theorem stateRoot_eq (K : Primitives) (l : RewardLedger) :
    l.stateRoot K = K.blake3 (rootInput l) := rfl

theorem overlayRead_empty (l : RewardLedger) (a : Str) :
    l.overlayRead ∅ a = (l.balance a, l.nonce a) := by
  simp [RewardLedger.overlayRead]

theorem mem_addresses {l : RewardLedger} {a : Str} :
    a ∈ l.addresses ∅ ↔ a ∈ (ledgerBook l).known := by
  simp [RewardLedger.addresses, ledgerBook, bookOf, ExtTreeSet.mem_ofList]

theorem mem_entries {l : RewardLedger} {a : Str} {v : ℕ × ℕ} :
    (a, v) ∈ entries l ↔ a ∈ (ledgerBook l).known ∧ v = (l.balance a, l.nonce a) := by
  unfold entries
  rw [List.mem_insertionSort, List.mem_map]
  constructor
  · rintro ⟨b, hb, he⟩
    obtain ⟨rfl, rfl⟩ := Prod.mk.inj he
    exact ⟨mem_addresses.mp hb, overlayRead_empty l b⟩
  · rintro ⟨ha, rfl⟩
    exact ⟨a, mem_addresses.mpr ha, by rw [overlayRead_empty]⟩

theorem entries_injective {l l' : RewardLedger} {credited credited' : ℕ} (h : Tidy l credited)
    (h' : Tidy l' credited') (hfit : credited ≤ u64Max) (hfit' : credited' ≤ u64Max)
    (he : rootInput l = rootInput l') : entries l = entries l' := by
  have hwidth : ∀ {l : RewardLedger} {credited : ℕ}, Tidy l credited →
      ∀ e ∈ entries l, (record e).length = 56 := by
    intro l credited h e hmem
    obtain ⟨a, v⟩ := e
    simp [record, strBytes_length (h.address a (mem_entries.mp hmem).1)]
  apply records_injective (by decide) (hwidth h) (hwidth h') _ (List.append_cancel_left he)
  rintro ⟨a, v⟩ ha ⟨b, w⟩ hb hrec
  obtain ⟨hka, rfl⟩ := mem_entries.mp ha
  obtain ⟨hkb, rfl⟩ := mem_entries.mp hb
  unfold record at hrec
  obtain ⟨hrest, hnonce⟩ := List.append_inj' hrec (by simp)
  obtain ⟨haddr, hbalance⟩ := List.append_inj' hrest (by simp)
  obtain rfl := strBytes_injective (h.address a hka) (h'.address b hkb) haddr
  rw [leBytes_u64 (h.balance_le hfit a) (h'.balance_le hfit' a) hbalance,
    leBytes_u64 (h.nonces a) (h'.nonces a) hnonce]

theorem absent_zero {l : RewardLedger} {a : Str} (h : a ∉ (ledgerBook l).known) :
    l.balance a = 0 ∧ l.nonce a = 0 := by
  have hb : a ∉ l.balances := fun hm => h (.inl hm)
  have hn : a ∉ l.nonces := fun hm => h (.inr hm)
  exact ⟨ExtTreeMap.getD_eq_fallback hb, ExtTreeMap.getD_eq_fallback hn⟩

theorem entries_agree {l l' : RewardLedger} (he : entries l = entries l') (a : Str) :
    l.balance a = l'.balance a ∧ l.nonce a = l'.nonce a := by
  by_cases hk : a ∈ (ledgerBook l).known
  · have hmem : (a, l.balance a, l.nonce a) ∈ entries l' := by
      rw [← he]
      exact mem_entries.mpr ⟨hk, rfl⟩
    exact Prod.mk.inj (mem_entries.mp hmem).2
  · have hk' : a ∉ (ledgerBook l').known := by
      intro hk'
      have hmem : (a, l'.balance a, l'.nonce a) ∈ entries l := by
        rw [he]
        exact mem_entries.mpr ⟨hk', rfl⟩
      exact hk (mem_entries.mp hmem).1
    rw [(absent_zero hk).1, (absent_zero hk).2, (absent_zero hk').1, (absent_zero hk').2]
    exact ⟨rfl, rfl⟩

def SameAccounts (l l' : RewardLedger) : Prop :=
  ∀ a, IsAddress a → l.balance a = l'.balance a ∧ l.nonce a = l'.nonce a

theorem Tidy.known_subset {l l' : RewardLedger} {credited : ℕ} (h : Tidy l credited)
    (hs : SameAccounts l l') {a : Str} (hk : a ∈ (ledgerBook l).known) :
    a ∈ (ledgerBook l').known := by
  by_contra hk'
  obtain ⟨hb, hn⟩ := hs a (h.address a hk)
  obtain ⟨hzero, hzero'⟩ := absent_zero hk'
  have hlive := h.live a hk
  omega

theorem stateRoot_agree {K : Primitives} {l l' : RewardLedger} {credited credited' : ℕ}
    (h : Tidy l credited) (h' : Tidy l' credited') (hs : SameAccounts l l') :
    l.stateRoot K = l'.stateRoot K := by
  have hs' : SameAccounts l' l := fun a ha => ⟨(hs a ha).1.symm, (hs a ha).2.symm⟩
  have hknown : ∀ a, a ∈ (ledgerBook l).known ↔ a ∈ (ledgerBook l').known :=
    fun a => ⟨h.known_subset hs, h'.known_subset hs'⟩
  have haccount : ∀ a, l.balance a = l'.balance a ∧ l.nonce a = l'.nonce a := by
    intro a
    by_cases hk : a ∈ (ledgerBook l).known
    · exact hs a (h.address a hk)
    · obtain ⟨hb, hn⟩ := absent_zero hk
      obtain ⟨hb', hn'⟩ := absent_zero ((hknown a).not.mp hk)
      exact ⟨hb.trans hb'.symm, hn.trans hn'.symm⟩
  apply stateRoot_congr
  rw [overlayBook_empty, overlayBook_empty]
  ext a
  · exact (haccount a).1
  · exact (haccount a).2
  · exact hknown a

/-- The state roots of two ledgers built by successful calls are equal exactly
when every address has the same balance and the same nonce in both. -/
theorem stateRoot_eq_iff {K : Primitives} {outcomes outcomes' : List AppendOutcome}
    {calls calls' : List LedgerCall} {l l' : RewardLedger}
    (hl : exec (call K) (RewardLedger.create outcomes) calls = some l)
    (hl' : exec (call K) (RewardLedger.create outcomes') calls' = some l')
    (hc : ∀ c ∈ calls, c.Addressed) (hc' : ∀ c ∈ calls', c.Addressed)
    (hfit : totalCredited calls ≤ u64Max) (hfit' : totalCredited calls' ≤ u64Max)
    (hfree : CollisionFree K [rootInput l, rootInput l']) :
    l.stateRoot K = l'.stateRoot K ↔
      ∀ a, IsAddress a → l.balance a = l'.balance a ∧ l.nonce a = l'.nonce a := by
  have ht := reachable_tidy hc (tidy_create outcomes) (by omega) hl
  have ht' := reachable_tidy hc' (tidy_create outcomes') (by omega) hl'
  constructor
  · intro h a _
    rw [stateRoot_eq, stateRoot_eq] at h
    have hinput : rootInput l = rootInput l' := hfree _ (by simp) _ (by simp) h
    exact entries_agree (entries_injective ht ht' (by omega) (by omega) hinput) a
  · exact stateRoot_agree ht ht'

def toyAddress (key : UInt8) : Str := Hex.encode (toySender key).toList

def toyCalls (first second : UInt8) : List LedgerCall :=
  [.credit 1 (toyAddress first) 50 0, .credit 2 (toyAddress second) 50 0,
    .apply 3 (toyTransfer 1 (toySender 2) 30 0 1) (toyAddress 2) 0]

theorem stateRoot_eq_iff_sample : ∃ l l',
    exec (call toyPrimitives) (RewardLedger.create []) (toyCalls 1 2) = some l ∧
      exec (call toyPrimitives) (RewardLedger.create []) (toyCalls 2 1) = some l' ∧
      l.balance (toyAddress 2) = 81 ∧ (l.stateRoot toyPrimitives = l'.stateRoot toyPrimitives ↔
        ∀ a, IsAddress a → l.balance a = l'.balance a ∧ l.nonce a = l'.nonce a) := by
  have hone : (exec (call toyPrimitives) (RewardLedger.create []) (toyCalls 1 2)).any
      fun l => (exec (call toyPrimitives) (RewardLedger.create []) (toyCalls 2 1)).any
        fun l' => l.balance (toyAddress 2) == 81 &&
          decide (CollisionFree toyPrimitives [rootInput l, rootInput l']) := by decide +kernel
  obtain ⟨l, hl, hone⟩ := (Option.any_eq_true _ _).mp hone
  obtain ⟨l', hl', hone⟩ := (Option.any_eq_true _ _).mp hone
  rw [Bool.and_eq_true, beq_iff_eq, decide_eq_true_eq] at hone
  have hcalls : ∀ first second, ∀ c ∈ toyCalls first second, c.Addressed := by
    intro first second c hc
    simp only [toyCalls, List.mem_cons, List.not_mem_nil, or_false] at hc
    rcases hc with rfl | rfl | rfl
    all_goals exact encode_isAddress _
  exact ⟨l, l', hl, hl', hone.1, stateRoot_eq_iff hl hl' (hcalls 1 2) (hcalls 2 1) (by decide)
    (by decide) hone.2⟩

end BinaChain.StateRoot
