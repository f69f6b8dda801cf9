import BinaChain.Core.Transaction
import BinaChain.Support.Maps
import Mathlib.Data.List.Sort

/-!
# Emission schedule and reward ledger

The ledger is a pair of maps, a supply counter and an append-only CSV. Every
mutation happens in memory first and is appended to the file afterwards; the
file is read back only when the ledger is opened.
-/

set_option autoImplicit false

namespace BinaChain.Rewards
open BinaChain.Word BinaChain.Text BinaChain.Crypto BinaChain.Transaction BinaChain.Maps Std

def hardCap : ℕ := 2000000000
def initialBlockReward : ℕ := 50
def halvingInterval : ℕ := 1576800000

def blockReward (height totalMined : ℕ) : ℕ :=
  if totalMined ≥ hardCap then 0
  else
    let era := height/halvingInterval
    let reward := if era ≥ 64 then 0 else initialBlockReward >>> era
    min reward (hardCap-totalMined)

theorem blockReward_add_le {height totalMined : ℕ} (h : totalMined ≤ hardCap) :
    totalMined+blockReward height totalMined ≤ hardCap := by
  unfold blockReward
  split
  · omega
  · have := Nat.min_le_right (if height/halvingInterval ≥ 64 then 0
      else initialBlockReward >>> (height/halvingInterval)) (hardCap-totalMined)
    simp only
    omega

def stateRootTag : Bytes := utf8 "BINA-STATE-v1"

def computeStateRoot (K : Primitives) (entries : List (Str × ℕ × ℕ)) : Hash :=
  let sorted := entries.insertionSort fun a b => (compare a.1 b.1).isLE
  K.blake3 (stateRootTag++sorted.flatMap fun e =>
    strBytes e.1++leBytes 8 e.2.1++leBytes 8 e.2.2)

def emptyStateRoot (K : Primitives) : Hash := computeStateRoot K []

/-- What the operating system makes of one append. -/
inductive AppendOutcome where
  | written
  | openFailed
  | torn (kept : ℕ)
  deriving DecidableEq

/-- The ledger file and the outcomes of the appends still to come; an append
past the end of the list succeeds. -/
structure CsvFile where
  text : Str
  outcomes : List AppendOutcome
  deriving DecidableEq

def csvHeader : Str := "height,miner_address,reward_bina,total_mined_bina,timestamp_unix".toList

def CsvFile.create (outcomes : List AppendOutcome) : CsvFile :=
  { text := unlines [csvHeader], outcomes }

def CsvFile.append (f : CsvFile) (context : String) (line : Str) :
    Except String Unit × CsvFile :=
  match f.outcomes with
  | [] => (.ok (), { f with text := f.text++unlines [line] })
  | .written :: rest => (.ok (), { text := f.text++unlines [line], outcomes := rest })
  | .openFailed :: rest => (.error context, { f with outcomes := rest })
  | .torn kept :: rest =>
    (.error "write error", { text := f.text++(unlines [line]).take kept, outcomes := rest })

def rewardLine (height : ℕ) (miner : Str) (reward totalMined timestamp : ℕ) : Str :=
  joinFields [showNat height, miner, showNat reward, showNat totalMined, showNat timestamp]

def txLine (K : Primitives) (height : ℕ) (signed : SignedTransaction) (miner : Str)
    (totalMined timestamp : ℕ) : Str :=
  joinFields ["tx".toList, showNat height, signed.txIdHex K, signed.fromHex, signed.toHex,
    showNat signed.tx.amount, showNat signed.tx.fee, showNat signed.tx.nonce, miner,
    showNat totalMined, showNat timestamp]

abbrev Accounts := Tally Str

def creditBalance (balances : Accounts) (address : Str) (amount : ℕ) : Accounts :=
  balances.insert address (satAdd (balances.getD address 0) amount)

def debit (balances : Accounts) (address : Str) (amount : ℕ) : Accounts :=
  balances.insert address (balances.getD address 0-amount)

/-- The entry is created before the check. -/
def debitChecked (balances : Accounts) (address : Str) (amount : ℕ) :
    Except String Unit × Accounts :=
  let balance := balances.getD address 0
  if balance < amount then
    (.error s!"insufficient balance: have {balance}, need {amount}",
      balances.insert address balance)
  else (.ok (), balances.insert address (balance-amount))

structure RewardLedger where
  balances : Accounts
  nonces : Accounts
  totalMined : ℕ
  csv : CsvFile

namespace RewardLedger

/-- A ledger whose file does not exist yet. -/
def create (outcomes : List AppendOutcome) : RewardLedger :=
  { balances := ∅, nonces := ∅, totalMined := 0, csv := .create outcomes }

def balance (l : RewardLedger) (address : Str) : ℕ := l.balances.getD address 0

def nonce (l : RewardLedger) (address : Str) : ℕ := l.nonces.getD address 0

abbrev Overlay := ExtTreeMap Str (ℕ × ℕ)

def addresses (l : RewardLedger) (overlay : Overlay) : List Str :=
  (ExtTreeSet.ofList (l.balances.keys++l.nonces.keys++overlay.keys)).toList

def overlayRead (l : RewardLedger) (overlay : Overlay) (addr : Str) : ℕ × ℕ :=
  overlay[addr]?.getD (l.balance addr, l.nonce addr)

def stateRootWithOverlay (K : Primitives) (l : RewardLedger) (overlay : Overlay) : Hash :=
  computeStateRoot K ((l.addresses overlay).map fun addr => (addr, l.overlayRead overlay addr))

def stateRoot (K : Primitives) (l : RewardLedger) : Hash := l.stateRootWithOverlay K ∅

/-- `*balance += reward` wraps in a release build. -/
def credit (l : RewardLedger) (height : ℕ) (minerAddress : Str) (reward timestamp : ℕ) :
    Except String ℕ × RewardLedger :=
  if reward = 0 then (.ok (l.balance minerAddress), l)
  else
    let totalMined := satAdd l.totalMined reward
    let newBalance := wrapAdd (l.balance minerAddress) reward
    let (result, csv) := l.csv.append "opening ledger CSV for append"
      (rewardLine height minerAddress reward totalMined timestamp)
    (result.map fun _ => newBalance,
      { l with totalMined, balances := l.balances.insert minerAddress newBalance, csv })

def applyTransaction (K : Primitives) (l : RewardLedger) (height : ℕ)
    (signed : SignedTransaction) (minerAddress : Str) (timestamp : ℕ) :
    Except String Unit × RewardLedger :=
  match signed.verify K with
  | .error e => (.error e, l)
  | .ok () =>
    let sender := signed.fromHex
    let expectedNonce := l.nonce sender
    if signed.tx.nonce ≠ expectedNonce then
      (.error s!"bad transaction nonce: expected {expectedNonce}, got {signed.tx.nonce}", l)
    else
      match checkedAdd signed.tx.amount signed.tx.fee with
      | none => (.error "transaction amount + fee overflow", l)
      | some debitTotal =>
        let balance := l.balance sender
        if balance < debitTotal then
          (.error s!"insufficient balance: have {balance}, need {debitTotal}", l)
        else
          match debitChecked l.balances sender debitTotal with
          | (.error e, balances) => (.error e, { l with balances })
          | (.ok (), debited) =>
            let paid := creditBalance debited signed.toHex signed.tx.amount
            let balances := if signed.tx.fee > 0 ∧ minerAddress ≠ [] then
              creditBalance paid minerAddress signed.tx.fee else paid
            let nonces := l.nonces.insert sender (satAdd signed.tx.nonce 1)
            let (result, csv) := l.csv.append "opening ledger CSV for transaction append"
              (txLine K height signed minerAddress l.totalMined timestamp)
            (result, { l with balances, nonces, csv })

end RewardLedger

open RewardLedger in
def simulateTransaction (K : Primitives) (ledger : RewardLedger) (minerAddress : Str)
    (acc : Overlay × List SignedTransaction) (tx : SignedTransaction) :
    Overlay × List SignedTransaction :=
  match tx.verify K with
  | .error _ => acc
  | .ok () =>
    let (overlay, applied) := acc
    let (fromBalance, fromNonce) := ledger.overlayRead overlay tx.fromHex
    if tx.tx.nonce ≠ fromNonce then acc
    else
      match checkedAdd tx.tx.amount tx.tx.fee with
      | none => acc
      | some debitTotal =>
        if fromBalance < debitTotal then acc
        else
          let debited := overlay.insert tx.fromHex (fromBalance-debitTotal, wrapAdd fromNonce 1)
          let (toBalance, toNonce) := ledger.overlayRead debited tx.toHex
          let paid := debited.insert tx.toHex (satAdd toBalance tx.tx.amount, toNonce)
          let overlay := if tx.tx.fee > 0 ∧ minerAddress ≠ [] then
            let (minerBalance, minerNonce) := ledger.overlayRead paid minerAddress
            paid.insert minerAddress (satAdd minerBalance tx.tx.fee, minerNonce)
          else paid
          (overlay, applied++[tx])

/-- The transactions that apply, in order, and the state root they lead to
together with the reward. -/
def simulateBlockExecution (K : Primitives) (ledger : RewardLedger)
    (txs : List SignedTransaction) (minerAddress : Str) (reward : ℕ) :
    List SignedTransaction × Hash :=
  let (overlay, applied) := txs.foldl (simulateTransaction K ledger minerAddress) (∅, [])
  let overlay := if reward > 0 then
    let (minerBalance, minerNonce) := ledger.overlayRead overlay minerAddress
    overlay.insert minerAddress (satAdd minerBalance reward, minerNonce)
  else overlay
  (applied, ledger.stateRootWithOverlay K overlay)

inductive CsvRow where
  | reward (height : ℕ) (addr : Str) (reward total : ℕ)
  | tx (height : ℕ) (sender recipient : Str) (amount fee nonce : ℕ) (miner : Str)
      (total : Option ℕ)
  deriving DecidableEq

def CsvRow.height : CsvRow → ℕ
  | .reward height .. => height
  | .tx height .. => height

/-- Blank lines and lines with too few columns are skipped. -/
def parseLine (line : Str) : Option CsvRow :=
  if trim line = [] then none
  else
    let cols := fields line
    let col (i : ℕ) : Str := trim (cols.getD i [])
    let number (i : ℕ) : ℕ := (parseU64 (col i)).getD 0
    if cols.head? = some "tx".toList then
      if cols.length < 11 then none
      else some (.tx (number 1) (col 3) (col 4) (number 5) (number 6) (number 7) (col 8)
        (parseU64 (col 9)))
    else if cols.length < 4 then none
    else some (.reward (number 0) (col 1) (number 2) (number 3))

def csvRows (text : Str) : List CsvRow := ((lines text).drop 1).filterMap parseLine

inductive ReplayRow where
  | reward (index height : ℕ) (addr : Str) (reward : ℕ)
  | tx (sender recipient : Str) (amount fee nonce : ℕ) (miner : Str)
  deriving DecidableEq

structure Totals where
  balances : Accounts
  nonces : Accounts
  totalMined : ℕ

def Totals.empty : Totals := { balances := ∅, nonces := ∅, totalMined := 0 }

/-- The effect of a transaction row: the debit saturates and the nonce only
moves forward. -/
def Totals.replayTx (t : Totals) (sender recipient : Str) (amount fee nonce : ℕ)
    (miner : Str) : Totals :=
  let paid := creditBalance (debit t.balances sender (satAdd amount fee)) recipient amount
  { t with
    balances := if fee > 0 ∧ miner ≠ [] then creditBalance paid miner fee else paid
    nonces := t.nonces.insert sender (max (satAdd nonce 1) (t.nonces.getD sender 0)) }

def Totals.replayReward (t : Totals) (addr : Str) (reward : ℕ) : Totals :=
  { t with
    balances := creditBalance t.balances addr reward
    totalMined := satAdd t.totalMined reward }

/-- Collect the rows of the active heights and the index of the last reward
row of each height. -/
def collectRow (activeHeight : ℕ) (acc : List ReplayRow × ExtTreeMap ℕ ℕ) (row : CsvRow) :
    List ReplayRow × ExtTreeMap ℕ ℕ :=
  if row.height > activeHeight then acc
  else
    let (replayRows, latestRewardIndex) := acc
    match row with
    | .reward height addr reward _ =>
      let index := replayRows.length
      (replayRows++[.reward index height addr reward], latestRewardIndex.insert height index)
    | .tx _ sender recipient amount fee nonce miner _ =>
      (replayRows++[.tx sender recipient amount fee nonce miner], latestRewardIndex)

def replayRow (latestRewardIndex : ExtTreeMap ℕ ℕ) (t : Totals) : ReplayRow → Totals
  | .reward index height addr reward =>
    if latestRewardIndex[height]? = some index then t.replayReward addr reward else t
  | .tx sender recipient amount fee nonce miner =>
    t.replayTx sender recipient amount fee nonce miner

def scopedTotals (rows : List CsvRow) (activeHeight : ℕ) : Totals :=
  let (replayRows, latestRewardIndex) := rows.foldl (collectRow activeHeight) ([], ∅)
  replayRows.foldl (replayRow latestRewardIndex) Totals.empty

/-- The unscoped load replays every row and trusts the file's own total. -/
def unscopedRow (t : Totals) : CsvRow → Totals
  | .reward _ addr reward total => { t with
      balances := creditBalance t.balances addr reward, totalMined := total }
  | .tx _ sender recipient amount fee nonce miner total =>
    let t' := t.replayTx sender recipient amount fee nonce miner
    { t' with totalMined := total.getD t'.totalMined }

namespace RewardLedger

def openInner (csv : CsvFile) (activeHeight : Option ℕ) : RewardLedger :=
  let t := match activeHeight with
    | some active => scopedTotals (csvRows csv.text) active
    | none => (csvRows csv.text).foldl unscopedRow Totals.empty
  { balances := t.balances, nonces := t.nonces, totalMined := t.totalMined, csv }

def openLedger (csv : CsvFile) : RewardLedger := openInner csv none

def openScoped (csv : CsvFile) (activeHeight : ℕ) : RewardLedger :=
  openInner csv (some activeHeight)

end RewardLedger

end BinaChain.Rewards
