import BinaChain.Ledger.Identity
import BinaChain.Ledger.Schedule

/-!
# Conservation of the supply

From the empty ledger on, the balances add up to what the blocks have minted. A
transfer moves balance between three accounts, which may coincide; the capped
schedule bounds the sum, and the bound keeps every addition of an amount exact.
Nonces are not bounded by the supply.
-/

set_option autoImplicit false

namespace BinaChain.Conservation
open BinaChain.Word BinaChain.Text BinaChain.Crypto BinaChain.Transaction BinaChain.Maps
open BinaChain.Rewards BinaChain.Execution BinaChain.Payee BinaChain.Schedule

structure MinedBlock where
  txs : List SignedTransaction
  miner : Str
  timestamp : ℕ

/-- The ledger after a list of blocks, the newest first. -/
def ledgerAfter (K : Primitives) (outcomes : List AppendOutcome) : List MinedBlock → RewardLedger
  | [] => .create outcomes
  | b :: rest =>
    let l := ledgerAfter K outcomes rest
    let height := rest.length+1
    executeBlock K height b.miner (blockReward height l.totalMined) b.timestamp l b.txs

instance (K : Primitives) (l : RewardLedger) (s : SignedTransaction) : Decidable (Accepted K l s) :=
  decidable_of_iff (s.verify K = .ok () ∧ s.tx.nonce = l.nonce s.fromHex ∧
      s.tx.amount+s.tx.fee ≤ u64Max ∧ s.tx.amount+s.tx.fee ≤ l.balance s.fromHex)
    ⟨fun h => ⟨h.1, h.2.1, h.2.2.1, h.2.2.2⟩, fun h => ⟨h.verified, h.nonce, h.fits, h.funded⟩⟩

/-- The operands of an addition. -/
abbrev Addition := ℕ × ℕ

def Addition.Fits (x : Addition) : Prop := x.1+x.2 ≤ u64Max

def transferAdditions (l : RewardLedger) (miner : Str) (s : SignedTransaction) : List Addition :=
  let debited := debit l.balances s.fromHex (s.tx.amount+s.tx.fee)
  let paid := creditBalance debited s.toHex s.tx.amount
  (debited.getD s.toHex 0, s.tx.amount) ::
    if s.tx.fee > 0 ∧ miner ≠ [] then [(paid.getD miner 0, s.tx.fee)] else []

def nonceAdditions (_ : RewardLedger) (_ : Str) (s : SignedTransaction) : List Addition :=
  [(s.tx.nonce, 1)]

def creditAdditions (l : RewardLedger) (miner : Str) (reward : ℕ) : List Addition :=
  if reward = 0 then [] else [(l.totalMined, reward), (l.balance miner, reward)]

section Additions

variable (K : Primitives) (of : RewardLedger → Str → SignedTransaction → List Addition)

def txAdditions (height : ℕ) (miner : Str) (timestamp : ℕ) :
    RewardLedger → List SignedTransaction → List Addition
  | _, [] => []
  | l, s :: txs => (if Accepted K l s then of l miner s else [])++
    txAdditions height miner timestamp (l.applyTransaction K height s miner timestamp).2 txs

def runAdditions (outcomes : List AppendOutcome) : List MinedBlock → List Addition
  | [] => []
  | b :: rest => runAdditions outcomes rest++
    txAdditions K of (rest.length+1) b.miner b.timestamp (ledgerAfter K outcomes rest) b.txs

end Additions

def rewardAdditions (K : Primitives) (outcomes : List AppendOutcome) :
    List MinedBlock → List Addition
  | [] => []
  | b :: rest =>
    let l := ledgerAfter K outcomes rest
    let height := rest.length+1
    rewardAdditions K outcomes rest++
      creditAdditions (applyTransactions K height b.miner b.timestamp l b.txs).2 b.miner
        (blockReward height l.totalMined)

/-- Every addition of an amount that a run makes. -/
def moneyAdditions (K : Primitives) (outcomes : List AppendOutcome) (blocks : List MinedBlock) :
    List Addition :=
  runAdditions K transferAdditions outcomes blocks++rewardAdditions K outcomes blocks

theorem total_creditBalance {m : Accounts} {x : ℕ} (h : total m+x ≤ u64Max) (a : Str) :
    total (creditBalance m a x) = total m+x := by
  have hle := getD_le_total m a
  have hins := total_insert m a (satAdd (m.getD a 0) x)
  rw [satAdd_of_le (by omega)] at hins
  unfold creditBalance
  rw [satAdd_of_le (by omega)]
  omega

theorem settle_conserves {l : RewardLedger} {s : SignedTransaction} {miner : Str}
    (hf : s.tx.amount+s.tx.fee ≤ l.balance s.fromHex) (ht : total l.balances ≤ u64Max)
    (hm : miner ≠ []) : total (settleBalances l.balances s miner) = total l.balances ∧
      ∀ x ∈ transferAdditions l miner s, x.Fits := by
  have hdebit := total_debit hf
  have hto := getD_le_total (debit l.balances s.fromHex (s.tx.amount+s.tx.fee)) s.toHex
  have hpaid := total_creditBalance
    (m := debit l.balances s.fromHex (s.tx.amount+s.tx.fee)) (x := s.tx.amount) (by omega) s.toHex
  have hminer := getD_le_total (creditBalance
    (debit l.balances s.fromHex (s.tx.amount+s.tx.fee)) s.toHex s.tx.amount) miner
  unfold settleBalances transferAdditions Addition.Fits
  dsimp only
  by_cases hfee : s.tx.fee > 0
  · rw [if_pos ⟨hfee, hm⟩, if_pos ⟨hfee, hm⟩]
    have hfeed := total_creditBalance (m := creditBalance
      (debit l.balances s.fromHex (s.tx.amount+s.tx.fee)) s.toHex s.tx.amount) (x := s.tx.fee)
      (by omega) miner
    refine ⟨by omega, fun x hx => ?_⟩
    rcases List.mem_pair.mp hx with rfl | rfl
    · dsimp only
      omega
    · dsimp only
      omega
  · rw [if_neg (fun h => hfee h.1), if_neg (fun h => hfee h.1)]
    refine ⟨by omega, fun x hx => ?_⟩
    obtain rfl := List.mem_singleton.mp hx
    dsimp only
    omega

theorem transactions_conserve (K : Primitives) (height : ℕ) {miner : Str} (hm : miner ≠ [])
    (timestamp : ℕ) (txs : List SignedTransaction) : ∀ l : RewardLedger,
    total l.balances ≤ u64Max →
      total (applyTransactions K height miner timestamp l txs).2.balances = total l.balances ∧
        ∀ x ∈ txAdditions K transferAdditions height miner timestamp l txs, x.Fits := by
  induction txs with
  | nil => exact fun l _ => ⟨rfl, by simp [txAdditions]⟩
  | cons s txs ih =>
    intro l ht
    rw [applyTransactions_cons, txAdditions]
    by_cases hacc : Accepted K l s
    · obtain ⟨htotal, hfits⟩ := settle_conserves hacc.funded ht hm
      rw [if_pos hacc, applyTransaction_accepted hacc]
      obtain ⟨hrest, hall⟩ := ih (settle K l height s miner timestamp) (htotal.trans_le ht)
      refine ⟨hrest.trans htotal, fun x hx => ?_⟩
      rcases List.mem_append.mp hx with hx | hx
      · exact hfits x hx
      · exact hall x hx
    · obtain ⟨e, hrej⟩ := applyTransaction_rejected hacc height miner timestamp
      rw [if_neg hacc, hrej, List.nil_append]
      exact ih l ht

theorem credit_conserves {l : RewardLedger} (h : total l.balances = l.totalMined)
    (hcap : l.totalMined ≤ hardCap) (height : ℕ) (miner : Str) (timestamp : ℕ) :
    let reward := blockReward height l.totalMined
    let l' := (l.credit height miner reward timestamp).2
    total l'.balances = l'.totalMined ∧ l'.totalMined = l.totalMined+reward ∧
      ∀ x ∈ creditAdditions l miner reward, x.Fits := by
  have hle : l.totalMined+blockReward height l.totalMined ≤ hardCap := blockReward_add_le hcap
  have hroom : hardCap < u64Max := by decide
  have hbal := getD_le_total l.balances miner
  generalize blockReward height l.totalMined = reward at hle ⊢
  unfold RewardLedger.credit creditAdditions Addition.Fits
  dsimp only
  by_cases hz : reward = 0
  · rw [if_pos hz, if_pos hz, hz]
    exact ⟨h, rfl, by simp⟩
  · rw [if_neg hz, if_neg hz]
    have hins := total_insert l.balances miner (l.balances.getD miner 0+reward)
    simp only [RewardLedger.balance]
    rw [satAdd_of_le (by omega), wrapAdd_of_le (by omega)]
    refine ⟨by omega, rfl, fun x hx => ?_⟩
    rcases List.mem_pair.mp hx with rfl | rfl
    · dsimp only
      omega
    · dsimp only
      omega

theorem minedAt_linear {height : ℕ} (h : height < halvingInterval) :
    minedAt height = min (50*height) hardCap := by
  induction height with
  | zero => rfl
  | succ height ih =>
    have hera : (height+1)/halvingInterval = 0 := Nat.div_eq_of_lt h
    have hreward : blockReward (height+1) (minedAt height) =
        if minedAt height ≥ hardCap then 0 else min 50 (hardCap-minedAt height) := by
      unfold blockReward
      rw [hera]
      rfl
    rw [minedAt, hreward, ih (by omega)]
    split <;> omega

/-- What a ledger on the run satisfies. -/
structure Conserved (height : ℕ) (l : RewardLedger) : Prop where
  sum : total l.balances = l.totalMined
  mined : l.totalMined = minedAt height

theorem ledgerAfter_conserved (K : Primitives) (outcomes : List AppendOutcome)
    {blocks : List MinedBlock} (hm : ∀ b ∈ blocks, b.miner ≠ []) :
    Conserved blocks.length (ledgerAfter K outcomes blocks) ∧
      ∀ x ∈ moneyAdditions K outcomes blocks, x.Fits := by
  induction blocks with
  | nil => exact ⟨⟨total_empty, rfl⟩, by simp [moneyAdditions, runAdditions, rewardAdditions]⟩
  | cons b rest ih =>
    obtain ⟨hinv, hfits⟩ := ih fun c hc => hm c (List.mem_cons_of_mem _ hc)
    have hcap : minedAt rest.length ≤ hardCap := minedAt_le rest.length
    have hroom : hardCap < u64Max := by decide
    have hsum := hinv.sum
    have hmined := hinv.mined
    obtain ⟨htxs, hmoved⟩ := transactions_conserve K (rest.length+1) (hm b List.mem_cons_self)
      b.timestamp b.txs (ledgerAfter K outcomes rest) (by omega)
    have hsame := transactions_totalMined K (rest.length+1) b.miner b.timestamp b.txs
      (ledgerAfter K outcomes rest)
    obtain ⟨hnew, hpaid, hminted⟩ := credit_conserves (l := (applyTransactions K (rest.length+1)
      b.miner b.timestamp (ledgerAfter K outcomes rest) b.txs).2)
      (by omega) (by omega) (rest.length+1) b.miner b.timestamp
    rw [hsame] at hnew hpaid hminted
    refine ⟨⟨hnew, ?_⟩, fun x hx => ?_⟩
    · refine hpaid.trans ?_
      rw [hmined]
      rfl
    · simp only [moneyAdditions, runAdditions, rewardAdditions, List.mem_append] at hx hfits
      rcases hx with (hx | hx) | hx | hx
      · exact hfits x (.inl hx)
      · exact hmoved x hx
      · exact hfits x (.inr hx)
      · exact hminted x hx

def offered (blocks : List MinedBlock) : ℕ := (blocks.map fun b => b.txs.length).sum

theorem transactions_nonces (K : Primitives) (height : ℕ) (miner : Str) (timestamp : ℕ)
    (txs : List SignedTransaction) : ∀ (l : RewardLedger) (bound : ℕ), (∀ a, l.nonce a ≤ bound) →
      (∀ a, (applyTransactions K height miner timestamp l txs).2.nonce a ≤ bound+txs.length) ∧
        ∀ x ∈ txAdditions K nonceAdditions height miner timestamp l txs,
          x.1+x.2 ≤ bound+txs.length := by
  induction txs with
  | nil => exact fun l bound h => ⟨h, by simp [txAdditions]⟩
  | cons s txs ih =>
    intro l bound h
    rw [applyTransactions_cons, txAdditions, List.length_cons]
    by_cases hacc : Accepted K l s
    · have hnonce : s.tx.nonce ≤ bound := by
        rw [hacc.nonce]
        exact h s.fromHex
      have hnext : ∀ a, (settle K l height s miner timestamp).nonce a ≤ bound+1 := by
        intro a
        have hle := satAdd_le_add s.tx.nonce 1
        have ha := h a
        simp only [settle, RewardLedger.nonce, getD_insert_eq] at ha ⊢
        split <;> omega
      rw [if_pos hacc, applyTransaction_accepted hacc]
      obtain ⟨hrest, hall⟩ := ih (settle K l height s miner timestamp) (bound+1) hnext
      refine ⟨fun a => ?_, fun x hx => ?_⟩
      · have ha := hrest a
        dsimp only
        omega
      · rcases List.mem_append.mp hx with hx | hx
        · obtain rfl := List.mem_singleton.mp hx
          dsimp only
          omega
        · have hx := hall x hx
          omega
    · obtain ⟨e, hrej⟩ := applyTransaction_rejected hacc height miner timestamp
      rw [if_neg hacc, hrej, List.nil_append]
      obtain ⟨hrest, hall⟩ := ih l bound h
      exact ⟨fun a => Nat.le_succ_of_le (hrest a), fun x hx => Nat.le_succ_of_le (hall x hx)⟩

theorem ledgerAfter_nonces (K : Primitives) (outcomes : List AppendOutcome)
    (blocks : List MinedBlock) : (∀ a, (ledgerAfter K outcomes blocks).nonce a ≤ offered blocks) ∧
      ∀ x ∈ runAdditions K nonceAdditions outcomes blocks, x.1+x.2 ≤ offered blocks := by
  induction blocks with
  | nil =>
    refine ⟨fun a => ?_, by simp [runAdditions]⟩
    simp [ledgerAfter, RewardLedger.create, RewardLedger.nonce]
  | cons b rest ih =>
    obtain ⟨hnonces, hadds⟩ := ih
    have hoffered : offered (b :: rest) = offered rest+b.txs.length := by
      simp only [offered, List.map_cons, List.sum_cons]
      omega
    obtain ⟨hnext, hblock⟩ := transactions_nonces K (rest.length+1) b.miner b.timestamp b.txs
      (ledgerAfter K outcomes rest) (offered rest) hnonces
    rw [hoffered]
    constructor
    · intro a
      simp only [ledgerAfter, executeBlock, RewardLedger.credit]
      split
      · exact hnext a
      · exact hnext a
    · intro x hx
      rcases List.mem_append.mp hx with hx | hx
      · exact Nat.le_trans (hadds x hx) (Nat.le_add_right _ _)
      · exact hblock x hx

/-- The balances add up to the supply, the supply follows the schedule under
the cap, and every addition of an amount is exact; additions to nonces are
exact unless a run is given more transactions than a word can count. -/
theorem supply_conserved (K : Primitives) (outcomes : List AppendOutcome)
    {blocks : List MinedBlock} (hm : ∀ b ∈ blocks, b.miner ≠ []) :
    let l := ledgerAfter K outcomes blocks
    total l.balances = l.totalMined ∧
      (blocks.length < halvingInterval → l.totalMined = min (50*blocks.length) hardCap) ∧
      l.totalMined ≤ hardCap ∧ (∀ x ∈ moneyAdditions K outcomes blocks, x.1+x.2 ≤ u64Max) ∧
      (offered blocks ≤ u64Max →
        ∀ x ∈ runAdditions K nonceAdditions outcomes blocks, x.1+x.2 ≤ u64Max) := by
  obtain ⟨⟨hsum, hmined⟩, hfits⟩ := ledgerAfter_conserved K outcomes hm
  refine ⟨hsum, fun hlt => ?_, ?_, hfits, fun hle x hx => ?_⟩
  · rw [hmined, minedAt_linear hlt]
  · rw [hmined]
    exact minedAt_le blocks.length
  · exact Nat.le_trans ((ledgerAfter_nonces K outcomes blocks).2 x hx) hle

def toyBlocks : List MinedBlock :=
  [{ txs := [toyTransfer 1 (toySender 2) 30 0 5, toyTransfer 2 (toySender 1) 40 0 0]
     miner := Hex.encode (toySender 2).toList, timestamp := 1 },
    { txs := [], miner := Hex.encode (toySender 1).toList, timestamp := 0 }]

theorem supply_conserved_sample :
    total (ledgerAfter toyPrimitives [] toyBlocks).balances = 100 ∧
      (moneyAdditions toyPrimitives [] toyBlocks).length = 6 ∧
      ∀ x ∈ moneyAdditions toyPrimitives [] toyBlocks, x.1+x.2 ≤ u64Max := by
  have hm : ∀ b ∈ toyBlocks, b.miner ≠ [] := by decide +kernel
  obtain ⟨hsum, hlinear, -, hfits, -⟩ := supply_conserved toyPrimitives [] hm
  refine ⟨?_, by decide +kernel, hfits⟩
  rw [hsum, hlinear (by decide)]
  rfl

theorem toyTransfer_verified {key : UInt8} {recipient : WalletAddress} {amount : ℕ} (nonce fee : ℕ)
    (ha : amount ≠ 0) (hr : toySender key ≠ recipient) :
    (toyTransfer key recipient amount nonce fee).verify toyPrimitives = .ok () := by
  have hsig : ∀ s : SignedTransaction, s.signature = (s.tx.digest toyPrimitives).toList++s.publicKey →
      toyPrimitives.ed25519Verify s.publicKey (s.tx.digest toyPrimitives).toList s.signature =
        .ok () := by
    intro s hs
    exact if_pos hs
  apply (Identity.verify_ed25519 _).mpr
  · exact ⟨⟨ha, hr⟩, by simp only [toyTransfer], by simp [toyTransfer, ed25519SignatureBytes], rfl,
      hsig _ (by simp only [toyTransfer])⟩
  · simp [toyTransfer, ed25519PublicKeyBytes]

theorem settle_moves {K : Primitives} {l : RewardLedger} {s : SignedTransaction}
    (hfee : s.tx.fee = 0) (hne : s.fromHex ≠ s.toHex)
    (hfit : l.balance s.toHex+s.tx.amount ≤ u64Max) (height : ℕ) (miner : Str) (timestamp : ℕ) :
    let l' := settle K l height s miner timestamp
    l'.balance s.fromHex = l.balance s.fromHex-s.tx.amount ∧
      l'.balance s.toHex = l.balance s.toHex+s.tx.amount ∧
      l'.nonce s.fromHex = satAdd s.tx.nonce 1 ∧ l'.nonce s.toHex = l.nonce s.toHex := by
  have hmoved : settleBalances l.balances s miner =
      creditBalance (debit l.balances s.fromHex s.tx.amount) s.toHex s.tx.amount := by
    simp [settleBalances, hfee]
  have hto : (debit l.balances s.fromHex s.tx.amount).getD s.toHex 0 = l.balance s.toHex := by
    rw [debit, getD_insert_eq, if_neg hne]
    rfl
  have hpaid : creditBalance (debit l.balances s.fromHex s.tx.amount) s.toHex s.tx.amount =
      (debit l.balances s.fromHex s.tx.amount).insert s.toHex (l.balance s.toHex+s.tx.amount) := by
    rw [creditBalance, hto, satAdd_of_le hfit]
  intro l'
  simp only [l', settle, RewardLedger.balance, RewardLedger.nonce, hmoved] at hpaid ⊢
  rw [hpaid]
  simp only [debit, getD_insert_eq, if_pos, if_neg hne, if_neg hne.symm]
  exact ⟨trivial, trivial, trivial, trivial⟩

def toyRounds : ℕ → List SignedTransaction
  | 0 => []
  | n+1 => toyRounds n++
    [toyTransfer 1 (toySender 2) 1 n 0, toyTransfer 2 (toySender 1) 1 n 0]

structure AfterRounds (n : ℕ) (l : RewardLedger) : Prop where
  first : l.balance (Hex.encode (toySender 1).toList) = 50
  second : l.balance (Hex.encode (toySender 2).toList) = 0
  sent : l.nonce (Hex.encode (toySender 1).toList) = n
  returned : l.nonce (Hex.encode (toySender 2).toList) = n

theorem toySenders_differ : toySender 1 ≠ toySender 2 ∧
    Hex.encode (toySender 1).toList ≠ Hex.encode (toySender 2).toList := by
  decide +kernel

theorem applyTransactions_append (K : Primitives) (height : ℕ) (miner : Str) (timestamp : ℕ)
    (xs ys : List SignedTransaction) : ∀ l : RewardLedger,
    (applyTransactions K height miner timestamp l (xs++ys)).2 =
      (applyTransactions K height miner timestamp
        (applyTransactions K height miner timestamp l xs).2 ys).2 := by
  induction xs with
  | nil => exact fun _ => rfl
  | cons s xs ih =>
    intro l
    rw [List.cons_append, applyTransactions_cons, applyTransactions_cons, ih]

theorem txAdditions_append (K : Primitives)
    (of : RewardLedger → Str → SignedTransaction → List Addition) (height : ℕ) (miner : Str)
    (timestamp : ℕ) (xs ys : List SignedTransaction) : ∀ l : RewardLedger,
    txAdditions K of height miner timestamp l (xs++ys) =
      txAdditions K of height miner timestamp l xs++txAdditions K of height miner timestamp
        (applyTransactions K height miner timestamp l xs).2 ys := by
  induction xs with
  | nil => exact fun _ => rfl
  | cons s xs ih =>
    intro l
    rw [List.cons_append, txAdditions, txAdditions, applyTransactions_cons, ih, List.append_assoc]

theorem AfterRounds.send {n : ℕ} {l : RewardLedger} (h : AfterRounds n l) :
    Accepted toyPrimitives l (toyTransfer 1 (toySender 2) 1 n 0) where
  verified := toyTransfer_verified n 0 (by decide) toySenders_differ.1
  nonce := h.sent.symm
  fits := by show 1+0 ≤ u64Max; decide
  funded := by
    show 1+0 ≤ l.balance (Hex.encode (toySender 1).toList)
    rw [h.first]
    decide

theorem AfterRounds.round {n : ℕ} {l : RewardLedger} (h : AfterRounds n l) (hn : n < u64Max)
    (height : ℕ) (miner : Str) (timestamp : ℕ) :
    AfterRounds (n+1) (applyTransactions toyPrimitives height miner timestamp l
      [toyTransfer 1 (toySender 2) 1 n 0, toyTransfer 2 (toySender 1) 1 n 0]).2 := by
  have hsucc : satAdd n 1 = n+1 := satAdd_of_le hn
  obtain ⟨hfrom, hto, hsent, hkept⟩ := settle_moves (K := toyPrimitives) (l := l)
    (s := toyTransfer 1 (toySender 2) 1 n 0) rfl toySenders_differ.2
    (by show l.balance (Hex.encode (toySender 2).toList)+1 ≤ u64Max; rw [h.second]; decide)
    height miner timestamp
  rw [applyTransactions_cons, applyTransaction_accepted h.send]
  generalize settle toyPrimitives l height (toyTransfer 1 (toySender 2) 1 n 0) miner timestamp =
    paid at hfrom hto hsent hkept ⊢
  change paid.balance (Hex.encode (toySender 1).toList) =
    l.balance (Hex.encode (toySender 1).toList)-1 at hfrom
  change paid.balance (Hex.encode (toySender 2).toList) =
    l.balance (Hex.encode (toySender 2).toList)+1 at hto
  change paid.nonce (Hex.encode (toySender 1).toList) = satAdd n 1 at hsent
  change paid.nonce (Hex.encode (toySender 2).toList) =
    l.nonce (Hex.encode (toySender 2).toList) at hkept
  rw [h.first] at hfrom
  rw [h.second] at hto
  rw [h.returned] at hkept
  have hback : Accepted toyPrimitives paid (toyTransfer 2 (toySender 1) 1 n 0) := by
    refine ⟨toyTransfer_verified n 0 (by decide) toySenders_differ.1.symm, hkept.symm, ?_, ?_⟩
    · show 1+0 ≤ u64Max
      decide
    · show 1+0 ≤ paid.balance (Hex.encode (toySender 2).toList)
      rw [hto]
  obtain ⟨hfrom', hto', hsent', hkept'⟩ := settle_moves (K := toyPrimitives) (l := paid)
    (s := toyTransfer 2 (toySender 1) 1 n 0) rfl toySenders_differ.2.symm
    (by show paid.balance (Hex.encode (toySender 1).toList)+1 ≤ u64Max; rw [hfrom]; decide)
    height miner timestamp
  rw [applyTransactions_cons, applyTransaction_accepted hback]
  constructor
  · refine hto'.trans ?_
    show paid.balance (Hex.encode (toySender 1).toList)+1 = 50
    rw [hfrom]
  · refine hfrom'.trans ?_
    show paid.balance (Hex.encode (toySender 2).toList)-1 = 0
    rw [hto]
  · refine hkept'.trans ?_
    rw [← hsucc]
    exact hsent
  · exact hsent'.trans hsucc

theorem toyRounds_after {l : RewardLedger} (h : AfterRounds 0 l) (height : ℕ) (miner : Str)
    (timestamp n : ℕ) (hn : n ≤ u64Max) : AfterRounds n
      (applyTransactions toyPrimitives height miner timestamp l (toyRounds n)).2 := by
  induction n with
  | zero => exact h
  | succ n ih =>
    rw [toyRounds, applyTransactions_append]
    exact (ih (by omega)).round hn height miner timestamp

def toyBlock (txs : List SignedTransaction) : MinedBlock where
  txs
  miner := Hex.encode (toySender 1).toList
  timestamp := 0

def toyEndless (rounds : ℕ) : List MinedBlock :=
  [toyBlock (toyRounds rounds++[toyTransfer 1 (toySender 2) 1 rounds 0]), toyBlock []]

theorem toyEndless_nonce {rounds : ℕ} (h : rounds ≤ u64Max) :
    (rounds, 1) ∈ runAdditions toyPrimitives nonceAdditions [] (toyEndless rounds) := by
  have hstart : AfterRounds 0 (ledgerAfter toyPrimitives [] [toyBlock []]) := by
    constructor <;> decide +kernel
  have hafter := toyRounds_after hstart 2 (Hex.encode (toySender 1).toList) 0 rounds h
  apply List.mem_append_right
  change (rounds, 1) ∈ txAdditions toyPrimitives nonceAdditions 2
    (Hex.encode (toySender 1).toList) 0 (ledgerAfter toyPrimitives [] [toyBlock []])
    (toyRounds rounds++[toyTransfer 1 (toySender 2) 1 rounds 0])
  rw [txAdditions_append]
  apply List.mem_append_right
  rw [txAdditions, if_pos hafter.send]
  exact List.mem_append_left _ (List.mem_singleton.mpr rfl)

theorem nonce_addition_overflows : (∀ b ∈ toyEndless u64Max, b.miner ≠ []) ∧
    ∃ x ∈ runAdditions toyPrimitives nonceAdditions [] (toyEndless u64Max),
      ¬ x.1+x.2 ≤ u64Max := by
  constructor
  · intro b hb
    have hne : Hex.encode (toySender 1).toList ≠ [] := by decide +kernel
    rcases List.mem_pair.mp hb with rfl | rfl <;> exact hne
  · exact ⟨(u64Max, 1), toyEndless_nonce (Nat.le_refl _), by decide⟩

end BinaChain.Conservation
