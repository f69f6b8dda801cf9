import BinaChain.Node.Store
import BinaChain.Support.Machine
import BinaChain.Support.Table

/-!
# The tables behind the block store

A record is one row of `blocks` and a numbered row of `block_transactions` for
each of its transactions, with unsigned fields stored as signed integers. The
tables answer queries as a finite map from heights to records does.
-/

set_option autoImplicit false

namespace BinaChain.Sqlite
open BinaChain.Word BinaChain.Text BinaChain.Transaction BinaChain.Store BinaChain.Maps
open BinaChain.Machine Std

def asI64 (n : ℕ) : ℤ := if n < 0x8000000000000000 then n else n-0x10000000000000000

def asU64 (i : ℤ) : ℕ := (i%0x10000000000000000).toNat

def readU32 (i : ℤ) : Option ℕ := if 0 ≤ i ∧ i < 0x100000000 then some i.toNat else none

theorem asI64_small {n : ℕ} (h : n < 0x8000000000000000) : asI64 n = n := if_pos h

theorem asU64_asI64 {n : ℕ} (h : n ≤ u64Max) : asU64 (asI64 n) = n := by
  unfold u64Max at h
  unfold asU64 asI64
  split <;> omega

theorem asU64_small {n : ℕ} (h : n < 0x8000000000000000) : asU64 n = n := by
  unfold asU64
  omega

theorem readU32_natCast {n : ℕ} (h : n < 0x100000000) : readU32 n = some n := by
  unfold readU32
  rw [if_pos (by omega), Int.toNat_natCast]

/-- The text form of a transaction. -/
structure Json where
  toString : SignedTransaction → Str
  fromStr : Str → Option SignedTransaction

section

variable {ρ : Type}

/-- `ρ` is the hash rates: doubles other than NaN, which a `REAL` column gives
back as they were bound. -/
structure Record (ρ : Type) extends BlockRecord where
  hashrateMhs : ρ

def Record.stored (r : Record ρ) : Record ρ := { r with minedTimestampSecs := r.timestamp/1000 }

structure BlockRow (ρ : Type) where
  height : ℤ
  blockHash : Str
  prevHash : Str
  nonce : ℤ
  timestamp : ℤ
  zeroBits : ℤ
  difficultyBits : ℤ
  hashesTried : ℤ
  elapsedMs : ℤ
  hashrateMhs : ρ
  minerAddress : Str
  minerPublicKey : Str
  minerSignature : Str
  claimDigest : Str
  electionScore : Str
  source : Str
  rewardBina : ℤ
  randomnessOutput : Str
  nullifier : Str
  btcSeed : Str
  btcHeight : ℤ
  merkleRoot : Str
  stateRoot : Str
  chainWorkHex : Str

structure TxRow where
  height : ℤ
  txIndex : ℤ
  txJson : Str
  deriving DecidableEq

structure Database (ρ : Type) where
  blocks : List (BlockRow ρ)
  blockTransactions : List TxRow

def params (r : Record ρ) : BlockRow ρ where
  height := asI64 r.height
  blockHash := r.blockHash
  prevHash := r.prevHash
  nonce := asI64 r.nonce
  timestamp := asI64 r.timestamp
  zeroBits := r.zeroBits
  difficultyBits := r.difficultyBits
  hashesTried := asI64 r.hashesTried
  elapsedMs := asI64 r.elapsedMs
  hashrateMhs := r.hashrateMhs
  minerAddress := r.minerAddress
  minerPublicKey := r.minerPublicKey
  minerSignature := r.minerSignature
  claimDigest := r.claimDigest
  electionScore := r.electionScore
  source := r.source
  rewardBina := asI64 r.rewardBina
  randomnessOutput := r.randomnessOutput
  nullifier := r.nullifier
  btcSeed := r.btcSeed
  btcHeight := asI64 r.btcHeight
  merkleRoot := r.merkleRoot
  stateRoot := r.stateRoot
  chainWorkHex := r.chainWorkHex

def rowToRecord (row : BlockRow ρ) : Option (Record ρ) := do
  let timestamp := asU64 row.timestamp
  let zeroBits ← readU32 row.zeroBits
  let difficultyBits ← readU32 row.difficultyBits
  return {
    height := asU64 row.height
    blockHash := row.blockHash
    prevHash := row.prevHash
    nonce := asU64 row.nonce
    timestamp
    minedTimestampSecs := timestamp/1000
    zeroBits, difficultyBits
    hashesTried := asU64 row.hashesTried
    elapsedMs := asU64 row.elapsedMs
    hashrateMhs := row.hashrateMhs
    minerAddress := row.minerAddress
    minerPublicKey := row.minerPublicKey
    minerSignature := row.minerSignature
    claimDigest := row.claimDigest
    electionScore := row.electionScore
    source := row.source
    rewardBina := asU64 row.rewardBina
    randomnessOutput := row.randomnessOutput
    nullifier := row.nullifier
    btcSeed := row.btcSeed
    btcHeight := asU64 row.btcHeight
    merkleRoot := row.merkleRoot
    stateRoot := row.stateRoot
    chainWorkHex := row.chainWorkHex
    transactions := [] }

def clash (row old : BlockRow ρ) : Bool :=
  row.height = old.height || row.blockHash = old.blockHash

def TxRow.key (row : TxRow) : ℤ × ℤ := (row.height, row.txIndex)

def txRows (J : Json) (r : Record ρ) : List TxRow :=
  r.transactions.mapIdx fun i tx =>
    { height := asI64 r.height, txIndex := asI64 i, txJson := J.toString tx }

namespace Database

def empty : Database ρ := { blocks := [], blockTransactions := [] }

/-- Nothing is returned, and nothing changed, when a statement fails. -/
def insertBlock (J : Json) (t : Database ρ) (r : Record ρ) : Option (Database ρ) := do
  let blocks := Table.insertOrReplace clash t.blocks (params r)
  let kept := t.blockTransactions.filter fun row => row.height ≠ asI64 r.height
  let blockTransactions ← Table.insertAll TxRow.key kept (txRows J r)
  return { blocks, blockTransactions }

def getTransactionsLocked (J : Json) (t : Database ρ) (height : ℕ) :
    Option (List SignedTransaction) :=
  let rows := t.blockTransactions.filter fun row => row.height = asI64 height
  (Table.orderBy TxRow.txIndex rows).mapM fun row => J.fromStr row.txJson

def row (t : Database ρ) (height : ℕ) : Option (BlockRow ρ) :=
  t.blocks.find? fun row => row.height = asI64 height

def fill (J : Json) (t : Database ρ) (height : ℕ) (record : Record ρ) : Option (Record ρ) := do
  let transactions ← t.getTransactionsLocked J height
  return { record with transactions }

def get (J : Json) (t : Database ρ) (height : ℕ) : Option (Option (Record ρ)) :=
  match t.row height with
  | none => some none
  | some row => do
    let record ← rowToRecord row
    return some (← t.fill J height record)

def getRange (J : Json) (t : Database ρ) (start stop limit : ℕ) : Option (List (Record ρ)) :=
  let rows := t.blocks.filter fun row => asI64 start ≤ row.height ∧ row.height ≤ asI64 stop
  (Table.limit (asI64 limit) (Table.orderBy BlockRow.height rows)).mapM fun row => do
    let record ← rowToRecord row
    t.fill J record.height record

def tipHeight (t : Database ρ) : ℕ := asU64 ((Table.maxOf BlockRow.height t.blocks).getD 0)

def blockHashAt (t : Database ρ) (height : ℕ) : Option Str := (t.row height).map BlockRow.blockHash

def rollbackAbove (t : Database ρ) (height : ℕ) : Database ρ where
  blocks := t.blocks.filter fun row => ¬ asI64 height < row.height
  blockTransactions := t.blockTransactions.filter fun row => ¬ asI64 height < row.height

end Database

inductive Op (ρ : Type) where
  | insertBlock (r : Record ρ)
  | rollbackAbove (height : ℕ)

def Database.step (J : Json) (t : Database ρ) : Op ρ → Option (Database ρ)
  | .insertBlock r => t.insertBlock J r
  | .rollbackAbove height => some (t.rollbackAbove height)

abbrev Held (ρ : Type) := ExtTreeMap ℕ (Record ρ)

def Op.apply (m : Held ρ) : Op ρ → Held ρ
  | .insertBlock r => m.insert r.height r.stored
  | .rollbackAbove height => m.filter fun h _ => h ≤ height

def replay (ops : List (Op ρ)) : Held ρ := ops.foldl Op.apply ∅

/-- An insertion that also removes the record that has its hash. -/
def Op.displace (m : Held ρ) : Op ρ → Held ρ
  | .insertBlock r => (m.filter fun _ b => b.blockHash ≠ r.blockHash).insert r.height r.stored
  | .rollbackAbove height => m.filter fun h _ => h ≤ height

/-- The fields are in the range of their types, and the height in that of a key. -/
structure Record.Fits (r : Record ρ) : Prop where
  height : r.height < 0x8000000000000000
  nonce : r.nonce ≤ u64Max
  timestamp : r.timestamp ≤ u64Max
  zeroBits : r.zeroBits < 0x100000000
  difficultyBits : r.difficultyBits < 0x100000000
  hashesTried : r.hashesTried ≤ u64Max
  elapsedMs : r.elapsedMs ≤ u64Max
  rewardBina : r.rewardBina ≤ u64Max
  btcHeight : r.btcHeight ≤ u64Max
  transactions : r.transactions.length < 0x8000000000000000

/-- The transactions of the record are read back from their texts. -/
def Record.ReadsBack (J : Json) (r : Record ρ) : Prop :=
  ∀ tx ∈ r.transactions, J.fromStr (J.toString tx) = some tx

structure Refines (J : Json) (t : Database ρ) (m : Held ρ) : Prop where
  heights : (t.blocks.map BlockRow.height).Nodup
  rows : ∀ row, row ∈ t.blocks ↔ ∃ (h : ℕ) (r : Record ρ), m[h]? = some r ∧ row = params r
  records : ∀ (h : ℕ) (r : Record ρ), m[h]? = some r →
    r.height = h ∧ r.Fits ∧ r.ReadsBack J ∧ r.stored = r
  transactions : ∀ (h : ℕ) (r : Record ρ), m[h]? = some r →
    t.blockTransactions.filter (fun row => row.height = asI64 h) = txRows J r

theorem refines_empty (J : Json) : Refines J (Database.empty : Database ρ) ∅ where
  heights := List.nodup_nil
  rows row := by simp [Database.empty]
  records h r hr := by simp at hr
  transactions h r hr := by simp at hr

theorem asI64_inj {a b : ℕ} (ha : a < 0x8000000000000000) (hb : b < 0x8000000000000000) :
    asI64 a = asI64 b ↔ a = b := by
  rw [asI64_small ha, asI64_small hb, Int.natCast_inj]

theorem asI64_le {a b : ℕ} (ha : a < 0x8000000000000000) (hb : b < 0x8000000000000000) :
    asI64 a ≤ asI64 b ↔ a ≤ b := by
  rw [asI64_small ha, asI64_small hb, Int.ofNat_le]

theorem asI64_lt {a b : ℕ} (ha : a < 0x8000000000000000) (hb : b < 0x8000000000000000) :
    asI64 a < asI64 b ↔ a < b := by
  rw [asI64_small ha, asI64_small hb, Int.ofNat_lt]

theorem mem_txRows {J : Json} {r : Record ρ} {row : TxRow} (h : row ∈ txRows J r) :
    row.height = asI64 r.height := by
  obtain ⟨i, hi, rfl⟩ := List.mem_mapIdx.mp h
  rfl

theorem txRows_ordered {J : Json} {r : Record ρ} (h : r.Fits) :
    (txRows J r).Pairwise fun a b => a.txIndex < b.txIndex := by
  rw [List.pairwise_iff_getElem]
  intro i j hi hj hij
  have hlen := h.transactions
  have hj' : j < r.transactions.length := by simpa [txRows] using hj
  simp only [txRows, List.getElem_mapIdx]
  exact (asI64_lt (by omega) (by omega)).mpr hij

theorem txRows_read {J : Json} {txs : List SignedTransaction} {f : ℕ → SignedTransaction → TxRow}
    (hf : ∀ i tx, (f i tx).txJson = J.toString tx)
    (h : ∀ tx ∈ txs, J.fromStr (J.toString tx) = some tx) :
    (txs.mapIdx f).mapM (fun row => J.fromStr row.txJson) = some txs := by
  induction txs generalizing f with
  | nil => rfl
  | cons tx txs ih =>
    have hrest := ih (f := fun i => f (i+1)) (fun i tx => hf (i+1) tx)
      fun tx' htx => h tx' (List.mem_cons_of_mem _ htx)
    rw [List.mapIdx_cons, List.mapM_cons, hf, h tx List.mem_cons_self, hrest]
    rfl

theorem txRows_inserted {J : Json} {r : Record ρ} (h : r.Fits) {rows : List TxRow}
    (hrows : ∀ row ∈ rows, row.height ≠ asI64 r.height) :
    Table.insertAll TxRow.key rows (txRows J r) = some (rows++txRows J r) := by
  apply Table.insertAll_fresh
  · intro row hrow hmem
    obtain ⟨old, hold, hkey⟩ := List.mem_map.mp hmem
    exact hrows old hold ((congrArg Prod.fst hkey).trans (mem_txRows hrow))
  · rw [List.nodup_iff_pairwise_ne, List.pairwise_map]
    exact (txRows_ordered h).imp fun hlt heq => absurd (congrArg Prod.snd heq) hlt.ne

theorem displace_insert_get (m : Held ρ) (r : Record ρ) (h : ℕ) :
    ((Op.insertBlock r).displace m)[h]? =
      if r.height = h then some r.stored
      else (m[h]?).filter fun b => decide (b.blockHash ≠ r.blockHash) := by
  unfold Op.displace
  rw [getElem?_insert_eq, ExtTreeMap.getElem?_filter']

theorem displace_rollback_get (m : Held ρ) (height h : ℕ) :
    ((Op.rollbackAbove height : Op ρ).displace m)[h]? = if h ≤ height then m[h]? else none := by
  unfold Op.displace
  rw [ExtTreeMap.getElem?_filter']
  cases m[h]? with
  | none => simp
  | some r => by_cases hle : h ≤ height <;> simp [hle]

theorem clash_params (r b : Record ρ) :
    clash (params r) (params b) = false ↔
      asI64 r.height ≠ asI64 b.height ∧ r.blockHash ≠ b.blockHash := by
  rw [clash, Bool.or_eq_false_iff, decide_eq_false_iff_not, decide_eq_false_iff_not]
  exact Iff.rfl

theorem Refines.insertBlock {J : Json} {t : Database ρ} {m : Held ρ} {r : Record ρ}
    (h : Refines J t m) (hr : r.Fits) (hJ : r.ReadsBack J) :
    ∃ t', t.insertBlock J r = some t' ∧ Refines J t' ((Op.insertBlock r).displace m) := by
  have hkept : ∀ row ∈ t.blockTransactions.filter fun row => row.height ≠ asI64 r.height,
      row.height ≠ asI64 r.height := fun row hrow => of_decide_eq_true (List.mem_filter.mp hrow).2
  refine ⟨_, by rw [Database.insertBlock, txRows_inserted hr hkept]; rfl, ?_, ?_, ?_, ?_⟩
  · apply Table.insertOrReplace_nodup h.heights
    intro row hrow
    simp [clash, hrow]
  · intro row
    rw [Table.mem_insertOrReplace, h.rows]
    constructor
    · rintro (rfl | ⟨⟨height, b, hb, rfl⟩, hclash⟩)
      · exact ⟨r.height, r.stored, by rw [displace_insert_get, if_pos rfl], rfl⟩
      · obtain ⟨hheight, hhash⟩ := (clash_params r b).mp hclash
        obtain ⟨rfl, -⟩ := h.records height b hb
        refine ⟨b.height, b, ?_, rfl⟩
        rw [displace_insert_get, if_neg fun e => hheight (congrArg asI64 e), hb]
        simp [Option.filter, hhash.symm]
    · rintro ⟨height, b, hb, rfl⟩
      rw [displace_insert_get] at hb
      split at hb
      · obtain rfl := Option.some.inj hb
        exact Or.inl rfl
      · rename_i hne
        obtain ⟨hold, hhash⟩ := Option.filter_eq_some_iff.mp hb
        obtain ⟨rfl, hb', -⟩ := h.records height b hold
        refine Or.inr ⟨⟨b.height, b, hold, rfl⟩, (clash_params r b).mpr ⟨?_, ?_⟩⟩
        · rwa [Ne, asI64_inj hr.height hb'.height]
        · exact fun e => of_decide_eq_true hhash e.symm
  · intro height b hb
    rw [displace_insert_get] at hb
    split at hb
    · rename_i he
      obtain rfl := Option.some.inj hb
      exact ⟨he, ⟨hr.height, hr.nonce, hr.timestamp, hr.zeroBits, hr.difficultyBits,
        hr.hashesTried, hr.elapsedMs, hr.rewardBina, hr.btcHeight, hr.transactions⟩, hJ, rfl⟩
    · exact h.records height b (Option.filter_eq_some_iff.mp hb).1
  · intro height b hb
    rw [displace_insert_get] at hb
    dsimp only
    rw [List.filter_append, List.filter_filter]
    split at hb
    · rename_i he
      obtain rfl := Option.some.inj hb
      subst he
      have hnone : (t.blockTransactions.filter fun row =>
          decide (row.height = asI64 r.height) && decide (row.height ≠ asI64 r.height)) = [] := by
        simp
      rw [hnone, List.nil_append]
      exact List.filter_eq_self.mpr fun row hrow => decide_eq_true (mem_txRows hrow)
    · rename_i hne
      have hold := (Option.filter_eq_some_iff.mp hb).1
      obtain ⟨rfl, hb', -⟩ := h.records height b hold
      have hdiff : asI64 r.height ≠ asI64 b.height := by
        rwa [Ne, asI64_inj hr.height hb'.height]
      have hsame : (t.blockTransactions.filter fun row =>
          decide (row.height = asI64 b.height) && decide (row.height ≠ asI64 r.height)) =
          t.blockTransactions.filter fun row => row.height = asI64 b.height := by
        apply List.filter_congr
        intro row _
        by_cases hrow : row.height = asI64 b.height
        · simp [hrow, hdiff.symm]
        · simp [hrow]
      have hnew : (txRows J r).filter (fun row => row.height = asI64 b.height) = [] := by
        rw [List.filter_eq_nil_iff]
        intro row hrow
        rw [mem_txRows hrow]
        simpa using hdiff
      rw [hsame, hnew, List.append_nil]
      exact h.transactions _ b hold

theorem Refines.rollbackAbove {J : Json} {t : Database ρ} {m : Held ρ} {height : ℕ}
    (h : Refines J t m) (hh : height < 0x8000000000000000) :
    Refines J (t.rollbackAbove height) ((Op.rollbackAbove height).displace m) where
  heights := (List.filter_sublist.map _).nodup h.heights
  rows := by
    intro row
    unfold Database.rollbackAbove
    rw [List.mem_filter, h.rows]
    constructor
    · rintro ⟨⟨k, b, hb, rfl⟩, hle⟩
      obtain ⟨rfl, hb', -⟩ := h.records k b hb
      have hle' : b.height ≤ height := by
        simpa [params, asI64_lt hh hb'.height] using hle
      exact ⟨b.height, b, by rw [displace_rollback_get, if_pos hle', hb], rfl⟩
    · rintro ⟨k, b, hb, rfl⟩
      rw [displace_rollback_get] at hb
      split at hb
      · rename_i hle
        obtain ⟨rfl, hb', -⟩ := h.records k b hb
        exact ⟨⟨b.height, b, hb, rfl⟩, by simpa [params, asI64_lt hh hb'.height] using hle⟩
      · simp at hb
  records := by
    intro k b hb
    rw [displace_rollback_get] at hb
    split at hb
    · exact h.records k b hb
    · simp at hb
  transactions := by
    intro k b hb
    rw [displace_rollback_get] at hb
    split at hb
    · rename_i hle
      obtain ⟨rfl, hb', -⟩ := h.records k b hb
      rw [← h.transactions _ b hb]
      unfold Database.rollbackAbove
      dsimp only
      rw [List.filter_filter]
      apply List.filter_congr
      intro row _
      by_cases hrow : row.height = asI64 b.height
      · simpa [hrow, asI64_lt hh hb'.height] using hle
      · simp [hrow]
    · simp at hb

theorem rowToRecord_params {r : Record ρ} (h : r.Fits) (hr : r.stored = r) :
    rowToRecord (params r) = some { r with transactions := [] } := by
  have hsecs : r.timestamp/1000 = r.minedTimestampSecs :=
    congrArg (fun r : Record ρ => r.minedTimestampSecs) hr
  unfold rowToRecord params
  dsimp only
  rw [readU32_natCast h.zeroBits, readU32_natCast h.difficultyBits, asU64_asI64 h.nonce,
    asU64_asI64 h.timestamp, asU64_asI64 h.hashesTried, asU64_asI64 h.elapsedMs,
    asU64_asI64 h.rewardBina, asU64_asI64 h.btcHeight, asI64_small h.height,
    asU64_small h.height, hsecs]
  rfl

theorem Refines.fill {J : Json} {t : Database ρ} {m : Held ρ} {height : ℕ} {b : Record ρ}
    (h : Refines J t m) (hb : m[height]? = some b) :
    t.fill J height { b with transactions := [] } = some b := by
  obtain ⟨-, hfits, hreads, -⟩ := h.records height b hb
  have htxs : t.getTransactionsLocked J height = some b.transactions := by
    unfold Database.getTransactionsLocked
    dsimp only
    rw [h.transactions height b hb,
      Table.orderBy_of_pairwise ((txRows_ordered hfits).imp fun hlt => hlt.le)]
    exact txRows_read (fun _ _ => rfl) hreads
  unfold Database.fill
  rw [htxs]
  rfl

theorem Refines.row {J : Json} {t : Database ρ} {m : Held ρ} {height : ℕ} (h : Refines J t m)
    (hh : height < 0x8000000000000000) : t.row height = (m[height]?).map params := by
  unfold Database.row
  cases hm : m[height]? with
  | none =>
    rw [Option.map_none, List.find?_eq_none]
    intro row hrow heq
    obtain ⟨k, b, hb, rfl⟩ := (h.rows row).mp hrow
    obtain ⟨rfl, hfits, -⟩ := h.records k b hb
    rw [(asI64_inj hfits.height hh).mp (of_decide_eq_true heq), hm] at hb
    simp at hb
  | some b =>
    obtain ⟨rfl, -⟩ := h.records height b hm
    have hmem : params b ∈ t.blocks := (h.rows _).mpr ⟨b.height, b, hm, rfl⟩
    cases hf : t.blocks.find? fun row => row.height = asI64 b.height with
    | none => exact absurd (decide_eq_true rfl) (List.find?_eq_none.mp hf _ hmem)
    | some row =>
      have hkey : row.height = asI64 b.height := by simpa using List.find?_some hf
      have heq := List.inj_on_of_nodup_map h.heights (List.mem_of_find?_eq_some hf) hmem hkey
      rw [heq, Option.map_some]

theorem Refines.get {J : Json} {t : Database ρ} {m : Held ρ} {height : ℕ} (h : Refines J t m)
    (hh : height < 0x8000000000000000) : t.get J height = some m[height]? := by
  unfold Database.get
  rw [h.row hh]
  cases hm : m[height]? with
  | none => rfl
  | some b =>
    obtain ⟨-, hfits, -, hstored⟩ := h.records height b hm
    have hread := rowToRecord_params hfits hstored
    change (rowToRecord (params b)).bind (fun record =>
      (t.fill J height record).bind fun filled => some (some filled)) = some (some b)
    rw [hread, Option.bind_some, h.fill hm, Option.bind_some]

theorem Refines.blockHashAt {J : Json} {t : Database ρ} {m : Held ρ} {height : ℕ}
    (h : Refines J t m) (hh : height < 0x8000000000000000) :
    t.blockHashAt height = (m[height]?).map fun b => b.blockHash := by
  unfold Database.blockHashAt
  rw [h.row hh, Option.map_map]
  rfl

/-- The records of the heights from `start` to `stop`, ascending, at most `limit`. -/
def rangeOf (m : Held ρ) (start stop limit : ℕ) : List (Record ρ) :=
  ((m.toList.filter fun p => start ≤ p.1 ∧ p.1 ≤ stop).map Prod.snd).take limit

theorem mapM_some {α β : Type} {f : α → Option β} {g : α → β} {xs : List α}
    (h : ∀ x ∈ xs, f x = some (g x)) : xs.mapM f = some (xs.map g) := by
  induction xs with
  | nil => rfl
  | cons x xs ih =>
    rw [List.mapM_cons, h x List.mem_cons_self, ih fun y hy => h y (List.mem_cons_of_mem _ hy)]
    rfl

theorem Refines.getRange {J : Json} {t : Database ρ} {m : Held ρ} {start stop limit : ℕ}
    (h : Refines J t m) (hstart : start < 0x8000000000000000)
    (hstop : stop < 0x8000000000000000) (hlimit : limit < 0x8000000000000000) :
    t.getRange J start stop limit = some (rangeOf m start stop limit) := by
  have hget (p : ℕ × Record ρ) : p ∈ m.toList ↔ m[p.1]? = some p.2 :=
    ExtTreeMap.mem_toList_iff_getElem?_eq_some
  have hrows : Table.orderBy BlockRow.height
      (t.blocks.filter fun row => asI64 start ≤ row.height ∧ row.height ≤ asI64 stop) =
      (m.toList.filter fun p => start ≤ p.1 ∧ p.1 ≤ stop).map fun p => params p.2 := by
    apply Table.orderBy_eq
    · exact (List.filter_sublist.map _).nodup h.heights
    · rw [List.pairwise_map]
      apply List.Pairwise.filter
      refine m.ordered_keys_toList.imp_of_mem ?_
      intro p q hp hq hlt
      obtain ⟨hph, hpf, -⟩ := h.records p.1 p.2 ((hget p).mp hp)
      obtain ⟨hqh, hqf, -⟩ := h.records q.1 q.2 ((hget q).mp hq)
      refine (asI64_lt hpf.height hqf.height).mpr ?_
      rw [hph, hqh]
      exact Nat.compare_eq_lt.mp hlt
    · intro row
      rw [List.mem_map, List.mem_filter, h.rows]
      constructor
      · rintro ⟨p, hp, rfl⟩
        obtain ⟨hp, hbounds⟩ := List.mem_filter.mp hp
        have hm := (hget p).mp hp
        obtain ⟨hheight, hfits, -⟩ := h.records p.1 p.2 hm
        refine ⟨⟨p.1, p.2, hm, rfl⟩, ?_⟩
        rw [← hheight] at hbounds
        simpa [params, asI64_le hstart hfits.height, asI64_le hfits.height hstop] using hbounds
      · rintro ⟨⟨k, b, hb, rfl⟩, hbounds⟩
        obtain ⟨rfl, hfits, -⟩ := h.records k b hb
        refine ⟨(b.height, b), List.mem_filter.mpr ⟨(hget _).mpr hb, ?_⟩, rfl⟩
        simpa [params, asI64_le hstart hfits.height, asI64_le hfits.height hstop] using hbounds
  unfold Database.getRange rangeOf
  dsimp only
  rw [hrows, asI64_small hlimit, Table.limit_ofNat, ← List.map_take, ← List.map_take,
    List.mapM_map]
  apply mapM_some
  intro p hp
  have hm := (hget p).mp (List.mem_filter.mp (List.mem_of_mem_take hp)).1
  obtain ⟨hheight, hfits, -, hstored⟩ := h.records p.1 p.2 hm
  rw [← hheight] at hm
  have hread := rowToRecord_params hfits hstored
  rw [Function.comp_apply, hread]
  exact h.fill hm

theorem Refines.tipHeight {J : Json} {t : Database ρ} {m : Held ρ} (h : Refines J t m) :
    t.tipHeight = m.maxKey?.getD 0 := by
  unfold Database.tipHeight
  cases hm : m.maxKey? with
  | none =>
    have hempty : m = ∅ := ExtTreeMap.maxKey?_eq_none_iff.mp hm
    have hnil : t.blocks = [] := by
      rw [List.eq_nil_iff_forall_not_mem]
      intro row hrow
      obtain ⟨k, b, hb, -⟩ := (h.rows row).mp hrow
      simp [hempty] at hb
    rw [hnil]
    rfl
  | some top =>
    obtain ⟨hmem, hmax⟩ := ExtTreeMap.maxKey?_eq_some_iff_mem_and_forall.mp hm
    obtain ⟨b, hb⟩ := Option.isSome_iff_exists.mp (ExtTreeMap.mem_iff_isSome_getElem?.mp hmem)
    obtain ⟨rfl, hfits, -⟩ := h.records top b hb
    have htop : Table.maxOf BlockRow.height t.blocks = some (asI64 b.height) := by
      rw [Table.maxOf_eq_some]
      refine ⟨⟨params b, (h.rows _).mpr ⟨b.height, b, hb, rfl⟩, rfl⟩, ?_⟩
      intro row hrow
      obtain ⟨k, c, hc, rfl⟩ := (h.rows row).mp hrow
      obtain ⟨rfl, hcfits, -⟩ := h.records k c hc
      refine (asI64_le hcfits.height hfits.height).mpr ?_
      have hheld : c.height ∈ m := ExtTreeMap.mem_iff_isSome_getElem?.mpr (by simp [hc])
      exact Nat.isLE_compare.mp (hmax c.height hheld)
    rw [htop, Option.getD_some, asI64_small hfits.height, asU64_small hfits.height]
    rfl

end

end BinaChain.Sqlite
