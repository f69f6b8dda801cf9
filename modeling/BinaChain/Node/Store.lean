import BinaChain.Core.Transaction
import BinaChain.Support.Maps
import Std.Data.ExtTreeMap.Lemmas

/-!
# Block records and the block store

One row per height. Inserting a record displaces the row of its height and,
because hashes are unique in the table, the row of its hash.
-/

set_option autoImplicit false

namespace BinaChain.Store
open BinaChain.Word BinaChain.Text BinaChain.Crypto BinaChain.Transaction BinaChain.Maps Std

structure BlockRecord where
  height : ℕ
  blockHash : Str
  prevHash : Str
  nonce : ℕ
  timestamp : ℕ
  minedTimestampSecs : ℕ
  zeroBits : ℕ
  difficultyBits : ℕ
  hashesTried : ℕ
  elapsedMs : ℕ
  minerAddress : Str
  minerPublicKey : Str
  minerSignature : Str
  claimDigest : Str
  electionScore : Str
  source : Str
  rewardBina : ℕ
  randomnessOutput : Str
  nullifier : Str
  btcSeed : Str
  btcHeight : ℕ
  merkleRoot : Str
  stateRoot : Str
  chainWorkHex : Str
  transactions : List SignedTransaction
  deriving DecidableEq

/-- The record as a query returns it: the seconds are computed, not stored. -/
def BlockRecord.stored (r : BlockRecord) : BlockRecord :=
  { r with minedTimestampSecs := r.timestamp/1000 }

structure BlockStore where
  blocks : ExtTreeMap ℕ BlockRecord
  mempool : ExtTreeMap Str SignedTransaction

namespace BlockStore

def empty : BlockStore := { blocks := ∅, mempool := ∅ }

def insertBlock (s : BlockStore) (r : BlockRecord) : BlockStore :=
  let kept := s.blocks.filter fun _ b => b.blockHash ≠ r.blockHash
  { s with blocks := kept.insert r.height r.stored }

def get (s : BlockStore) (height : ℕ) : Option BlockRecord := s.blocks[height]?

def getRange (s : BlockStore) (start stop limit : ℕ) : List BlockRecord :=
  (((s.blocks.toList.map Prod.snd).filter fun r => start ≤ r.height ∧ r.height ≤ stop)).take limit

def blockHashAt (s : BlockStore) (height : ℕ) : Option Str :=
  (s.get height).map BlockRecord.blockHash

def rollbackAbove (s : BlockStore) (height : ℕ) : BlockStore :=
  { s with blocks := s.blocks.filter fun h _ => h ≤ height }

def allNullifiers (s : BlockStore) : List Str :=
  s.blocks.toList.map fun p => p.2.nullifier

def mempoolInsert (K : Primitives) (s : BlockStore) (tx : SignedTransaction) : BlockStore :=
  { s with mempool := s.mempool.insert (tx.txIdHex K) tx }

def mempoolRemove (K : Primitives) (s : BlockStore) (tx : SignedTransaction) : BlockStore :=
  { s with mempool := s.mempool.erase (tx.txIdHex K) }

@[simp] theorem mempoolInsert_blocks (K : Primitives) (s : BlockStore) (tx : SignedTransaction) :
    (s.mempoolInsert K tx).blocks = s.blocks := rfl

@[simp] theorem mempoolRemove_blocks (K : Primitives) (s : BlockStore) (tx : SignedTransaction) :
    (s.mempoolRemove K tx).blocks = s.blocks := rfl

theorem mempoolRemoves_blocks (K : Primitives) (txs : List SignedTransaction) (s : BlockStore) :
    (txs.foldl (mempoolRemove K) s).blocks = s.blocks := by
  induction txs generalizing s with
  | nil => rfl
  | cons tx txs ih => exact ih _

theorem mempoolInserts_blocks (K : Primitives) (txs : List SignedTransaction) (s : BlockStore) :
    (txs.foldl (mempoolInsert K) s).blocks = s.blocks := by
  induction txs generalizing s with
  | nil => rfl
  | cons tx txs ih => exact ih _

theorem get_congr {s s' : BlockStore} (h : s'.blocks = s.blocks) (height : ℕ) :
    s'.get height = s.get height := by
  unfold get
  rw [h]

theorem get_insertBlock_self (s : BlockStore) (r : BlockRecord) :
    (s.insertBlock r).get r.height = some r.stored := by
  unfold get insertBlock
  rw [getElem?_insert_eq, if_pos rfl]

theorem get_insertBlock_other {s : BlockStore} {r b : BlockRecord} {h : ℕ} (hh : h ≠ r.height)
    (hb : b.blockHash ≠ r.blockHash) (hg : s.get h = some b) :
    (s.insertBlock r).get h = some b := by
  unfold get insertBlock at *
  rw [getElem?_insert_eq, if_neg fun e => hh e.symm, ExtTreeMap.getElem?_filter', hg]
  simp [Option.filter, hb]

theorem get_insertBlock {s : BlockStore} {r b : BlockRecord} {h : ℕ}
    (hg : (s.insertBlock r).get h = some b) :
    (h = r.height ∧ b = r.stored) ∨ (h ≠ r.height ∧ s.get h = some b) := by
  unfold get insertBlock at hg
  rw [getElem?_insert_eq] at hg
  split at hg
  · rename_i he
    exact Or.inl ⟨he.symm, (Option.some.inj hg).symm⟩
  · rename_i he
    rw [ExtTreeMap.getElem?_filter'] at hg
    exact Or.inr ⟨fun e => he e.symm, (Option.filter_eq_some_iff.mp hg).1⟩

theorem get_rollbackAbove {s : BlockStore} {height h : ℕ} :
    (s.rollbackAbove height).get h = if h ≤ height then s.get h else none := by
  unfold get rollbackAbove
  rw [ExtTreeMap.getElem?_filter']
  cases s.blocks[h]? with
  | none => simp
  | some r => by_cases hle : h ≤ height <;> simp [hle]

end BlockStore

end BinaChain.Store
