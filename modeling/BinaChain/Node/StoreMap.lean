import BinaChain.Node.Sqlite
import Mathlib.Data.List.Induction

/-!
# Runs of insertions and rollbacks

The tables follow the block store of the node on every run. When records of
distinct heights have distinct hashes, that is the finite map from a height to
the last record inserted there and not rolled back.
-/

set_option autoImplicit false

namespace BinaChain.Sqlite
open BinaChain.Word BinaChain.Text BinaChain.Transaction BinaChain.Store BinaChain.Maps
open BinaChain.Machine Std

section

variable {ρ : Type}

/-- The heights and counts of the call fit, and so does what it inserts. -/
def Op.Fits : Op ρ → Prop
  | .insertBlock r => r.Fits
  | .rollbackAbove height => height < 0x8000000000000000

def Op.ReadsBack (J : Json) : Op ρ → Prop
  | .insertBlock r => r.ReadsBack J
  | .rollbackAbove _ => True

theorem Refines.step {J : Json} {t : Database ρ} {m : Held ρ} {op : Op ρ} (h : Refines J t m)
    (hfits : op.Fits) (hreads : op.ReadsBack J) :
    ∃ t', t.step J op = some t' ∧ Refines J t' (op.displace m) := by
  cases op with
  | insertBlock r => exact h.insertBlock hfits hreads
  | rollbackAbove height => exact ⟨_, rfl, h.rollbackAbove hfits⟩

theorem Refines.run {J : Json} {ops : List (Op ρ)} {t : Database ρ} {m : Held ρ}
    (h : Refines J t m) (hfits : ∀ op ∈ ops, op.Fits) (hreads : ∀ op ∈ ops, op.ReadsBack J) :
    ∃ t', exec (Database.step J) t ops = some t' ∧ Refines J t' (ops.foldl Op.displace m) := by
  induction ops generalizing t m with
  | nil => exact ⟨t, rfl, h⟩
  | cons op ops ih =>
    obtain ⟨u, hu, hm⟩ := h.step (hfits op List.mem_cons_self) (hreads op List.mem_cons_self)
    obtain ⟨t', ht, hrefines⟩ := ih hm (fun o ho => hfits o (List.mem_cons_of_mem _ ho))
      (fun o ho => hreads o (List.mem_cons_of_mem _ ho))
    refine ⟨t', ?_, hrefines⟩
    rw [exec, hu]
    exact ht

def Op.onStore (s : BlockStore) : Op ρ → BlockStore
  | .insertBlock r => s.insertBlock r.toBlockRecord
  | .rollbackAbove height => s.rollbackAbove height

theorem displace_onStore {m : Held ρ} {s : BlockStore} (op : Op ρ)
    (h : ∀ height, (m[height]?).map Record.toBlockRecord = s.get height) (height : ℕ) :
    ((op.displace m)[height]?).map Record.toBlockRecord = (op.onStore s).get height := by
  cases op with
  | insertBlock r =>
    rw [displace_insert_get]
    unfold Op.onStore BlockStore.get BlockStore.insertBlock
    rw [getElem?_insert_eq, ExtTreeMap.getElem?_filter']
    split
    · rfl
    · have hheld := h height
      unfold BlockStore.get at hheld
      rw [← hheld]
      cases m[height]? with
      | none => rfl
      | some b => by_cases hb : b.blockHash = r.blockHash <;> simp [Option.filter, hb]
  | rollbackAbove limit =>
    rw [displace_rollback_get, Op.onStore, BlockStore.get_rollbackAbove]
    split
    · exact h height
    · rfl

/-- The tables answer as the block store of the node does, whatever the hashes. -/
theorem tables_refine_store {J : Json} {ops : List (Op ρ)} (hfits : ∀ op ∈ ops, op.Fits)
    (hreads : ∀ op ∈ ops, op.ReadsBack J) :
    ∃ t, exec (Database.step J) Database.empty ops = some t ∧
      ∀ height < 0x8000000000000000, (t.get J height).map (Option.map Record.toBlockRecord) =
        some ((ops.foldl Op.onStore BlockStore.empty).get height) := by
  obtain ⟨t, ht, hrefines⟩ := (refines_empty J).run hfits hreads
  refine ⟨t, ht, fun height hh => ?_⟩
  rw [hrefines.get hh, Option.map_some]
  congr 1
  have hfold : ∀ (ops : List (Op ρ)) (m : Held ρ) (s : BlockStore),
      (∀ height, (m[height]?).map Record.toBlockRecord = s.get height) →
      ((ops.foldl Op.displace m)[height]?).map Record.toBlockRecord =
        (ops.foldl Op.onStore s).get height := by
    intro ops
    induction ops with
    | nil => exact fun m s hms => hms height
    | cons op ops ih => exact fun m s hms => ih _ _ (displace_onStore op hms)
  exact hfold ops ∅ BlockStore.empty fun height => by simp [BlockStore.get, BlockStore.empty]

/-- Records inserted at distinct heights have distinct hashes. -/
def Distinct (ops : List (Op ρ)) : Prop :=
  ∀ r b, .insertBlock r ∈ ops → .insertBlock b ∈ ops → r.height ≠ b.height →
    r.blockHash ≠ b.blockHash

def Op.Spares (height : ℕ) : Op ρ → Prop
  | .insertBlock r => r.height ≠ height
  | .rollbackAbove limit => height ≤ limit

/-- The record is the last one inserted at the height, and was not rolled back. -/
def Standing (ops : List (Op ρ)) (height : ℕ) (r : Record ρ) : Prop :=
  ∃ before after, ops = before++.insertBlock r :: after ∧ r.height = height ∧
    ∀ op ∈ after, op.Spares height

theorem apply_insert_get (m : Held ρ) (r : Record ρ) (h : ℕ) :
    ((Op.insertBlock r).apply m)[h]? = if r.height = h then some r.stored else m[h]? := by
  unfold Op.apply
  rw [getElem?_insert_eq]

theorem apply_rollback (m : Held ρ) (height : ℕ) :
    (Op.rollbackAbove height : Op ρ).apply m = (Op.rollbackAbove height).displace m := rfl

theorem replay_concat (ops : List (Op ρ)) (op : Op ρ) :
    replay (ops++[op]) = op.apply (replay ops) := by
  simp [replay]

theorem standing_concat {ops : List (Op ρ)} {op : Op ρ} {height : ℕ} {r : Record ρ} :
    Standing (ops++[op]) height r ↔ (op = .insertBlock r ∧ r.height = height) ∨
      (op.Spares height ∧ Standing ops height r) := by
  constructor
  · rintro ⟨before, after, hops, hh, hafter⟩
    rcases List.eq_nil_or_concat' after with rfl | ⟨after, last, rfl⟩
    · obtain ⟨-, hlast⟩ := List.append_inj' hops rfl
      exact Or.inl ⟨(List.cons.inj hlast).1, hh⟩
    · rw [← List.cons_append, ← List.append_assoc] at hops
      obtain ⟨rfl, hlast⟩ := List.append_inj' hops rfl
      obtain rfl := (List.cons.inj hlast).1
      exact Or.inr ⟨hafter op (by simp), before, after, rfl, hh,
        fun o ho => hafter o (List.mem_append_left _ ho)⟩
  · rintro (⟨rfl, hh⟩ | ⟨hspares, before, after, rfl, hh, hafter⟩)
    · exact ⟨ops, [], rfl, hh, fun o ho => nomatch ho⟩
    · refine ⟨before, after++[op], by simp, hh, fun o ho => ?_⟩
      rcases List.mem_append.mp ho with ho | ho
      · exact hafter o ho
      · rwa [List.mem_singleton.mp ho]

theorem replay_get {ops : List (Op ρ)} {height : ℕ} {b : Record ρ} :
    (replay ops)[height]? = some b ↔ ∃ r, Standing ops height r ∧ b = r.stored := by
  induction ops using List.reverseRecOn with
  | nil => simp [replay, Standing]
  | append_singleton ops op ih =>
    rw [replay_concat]
    simp only [standing_concat]
    cases op with
    | insertBlock r =>
      rw [apply_insert_get]
      split
      · rename_i hh
        constructor
        · intro hb
          exact ⟨r, Or.inl ⟨rfl, hh⟩, (Option.some.inj hb).symm⟩
        · rintro ⟨c, ⟨hop, -⟩ | ⟨hspares, -⟩, rfl⟩
          · rw [Op.insertBlock.inj hop]
          · exact absurd hh hspares
      · rename_i hh
        rw [ih]
        constructor
        · rintro ⟨c, hc, rfl⟩
          exact ⟨c, Or.inr ⟨hh, hc⟩, rfl⟩
        · rintro ⟨c, ⟨hop, hch⟩ | ⟨-, hc⟩, rfl⟩
          · rw [← Op.insertBlock.inj hop] at hch
            exact absurd hch hh
          · exact ⟨c, hc, rfl⟩
    | rollbackAbove limit =>
      rw [apply_rollback, displace_rollback_get]
      split
      · rename_i hle
        rw [ih]
        constructor
        · rintro ⟨c, hc, rfl⟩
          exact ⟨c, Or.inr ⟨hle, hc⟩, rfl⟩
        · rintro ⟨c, ⟨hop, -⟩ | ⟨-, hc⟩, rfl⟩
          · cases hop
          · exact ⟨c, hc, rfl⟩
      · rename_i hle
        constructor
        · simp
        · rintro ⟨c, ⟨hop, -⟩ | ⟨hspares, -⟩, rfl⟩
          · cases hop
          · exact absurd hspares hle

theorem displace_eq_apply {ops : List (Op ρ)} {op : Op ρ} (h : Distinct (ops++[op])) :
    op.displace (replay ops) = op.apply (replay ops) := by
  cases op with
  | rollbackAbove limit => rfl
  | insertBlock r =>
    apply ExtTreeMap.ext_getElem?
    intro height
    rw [displace_insert_get, apply_insert_get]
    split
    · rfl
    · rename_i hh
      cases hb : (replay ops)[height]? with
      | none => rfl
      | some b =>
        obtain ⟨c, ⟨before, after, rfl, hc, -⟩, rfl⟩ := replay_get.mp hb
        have hne : c.blockHash ≠ r.blockHash :=
          h c r (by simp) (by simp) fun e => hh (e.symm.trans hc)
        simp [Option.filter, Record.stored, hne]

theorem replay_eq_displaced {ops : List (Op ρ)} (h : Distinct ops) :
    ops.foldl Op.displace ∅ = replay ops := by
  induction ops using List.reverseRecOn with
  | nil => rfl
  | append_singleton ops op ih =>
    have hprefix : Distinct ops := fun r b hr hb =>
      h r b (List.mem_append_left _ hr) (List.mem_append_left _ hb)
    rw [List.foldl_append, ih hprefix, replay_concat]
    exact displace_eq_apply h

/-- After any calls that insert and roll back, the tables answer every query as
the map of the records that stand. -/
theorem tables_refine_map {J : Json} {ops : List (Op ρ)} (hfits : ∀ op ∈ ops, op.Fits)
    (hhashes : Distinct ops) (hreads : ∀ op ∈ ops, op.ReadsBack J) :
    ∃ t, exec (Database.step J) Database.empty ops = some t ∧
      (∀ height < 0x8000000000000000, t.get J height = some (replay ops)[height]? ∧
        t.blockHashAt height = ((replay ops)[height]?).map fun b => b.blockHash) ∧
      (∀ start < 0x8000000000000000, ∀ stop < 0x8000000000000000,
        ∀ limit < 0x8000000000000000,
          t.getRange J start stop limit = some (rangeOf (replay ops) start stop limit)) ∧
      t.tipHeight = (replay ops).maxKey?.getD 0 ∧
      ∀ height b, (replay ops)[height]? = some b ↔
        ∃ r, Standing ops height r ∧ b = { r with minedTimestampSecs := r.timestamp/1000 } := by
  obtain ⟨t, ht, hrefines⟩ := (refines_empty J).run hfits hreads
  rw [replay_eq_displaced hhashes] at hrefines
  exact ⟨t, ht, fun height hh => ⟨hrefines.get hh, hrefines.blockHashAt hh⟩,
    fun start hstart stop hstop limit hlimit => hrefines.getRange hstart hstop hlimit,
    hrefines.tipHeight, fun height b => replay_get⟩

end

def toyTx : SignedTransaction :=
  { tx := { sender := .replicate 20 0, recipient := .replicate 20 1, amount := 5, nonce := 0,
            fee := 1 },
    publicKey := [], signature := [] }

def toyArray (bs : Bytes) : Str :=
  '[' :: [','].intercalate (bs.map fun b => showNat b.toNat)++[']']

def toyText (s : SignedTransaction) : Str :=
  "\x7b\"tx\":\x7b\"from\":".toList++toyArray s.tx.sender.toList++",\"to\":".toList++
    toyArray s.tx.recipient.toList++",\"amount\":".toList++showNat s.tx.amount++
    ",\"nonce\":".toList++showNat s.tx.nonce++",\"fee\":".toList++showNat s.tx.fee++
    "\x7d,\"public_key\":".toList++toyArray s.publicKey++",\"signature\":".toList++
    toyArray s.signature++"\x7d".toList

def toyJson : Json where
  toString := toyText
  fromStr s := if s = toyText toyTx then some toyTx else none

def toyRecord (height : ℕ) (blockHash : Char) (txs : List SignedTransaction) : Record ℕ where
  height
  blockHash := [blockHash]
  prevHash := []
  nonce := u64Max
  timestamp := 1000000+height
  minedTimestampSecs := 0
  zeroBits := 25
  difficultyBits := 25
  hashesTried := 1000
  elapsedMs := 10
  hashrateMhs := 1
  minerAddress := []
  minerPublicKey := []
  minerSignature := []
  claimDigest := []
  electionScore := []
  source := []
  rewardBina := 50
  randomnessOutput := []
  nullifier := []
  btcSeed := []
  btcHeight := 900000
  merkleRoot := []
  stateRoot := []
  chainWorkHex := []
  transactions := txs

theorem toyRecord_fits {height : ℕ} {blockHash : Char} {txs : List SignedTransaction}
    (hh : height < 4) (ht : txs.length < 4) : (toyRecord height blockHash txs).Fits := by
  constructor <;> simp only [toyRecord, u64Max] <;> omega

def toyOps : List (Op ℕ) :=
  [.insertBlock (toyRecord 1 'a' [toyTx]), .insertBlock (toyRecord 2 'b' [toyTx, toyTx]),
    .rollbackAbove 1, .insertBlock (toyRecord 2 'c' [toyTx])]

theorem toyJson_reads : toyJson.fromStr (toyJson.toString toyTx) = some toyTx := by
  simp only [toyJson, if_true]

theorem toyOps_cases {op : Op ℕ} (h : op ∈ toyOps) :
    op.Fits ∧ op.ReadsBack toyJson ∧ ∀ r, op = .insertBlock r →
      (r.height = 1 ∧ r.blockHash = ['a']) ∨ (r.height = 2 ∧ r.blockHash ≠ ['a']) := by
  simp only [toyOps, List.mem_cons, List.not_mem_nil, or_false] at h
  rcases h with rfl | rfl | rfl | rfl
  · refine ⟨toyRecord_fits (by decide) (by decide), ?_, fun r hr => ?_⟩
    · simp [Op.ReadsBack, Record.ReadsBack, toyRecord, toyJson_reads]
    · obtain rfl := Op.insertBlock.inj hr
      exact Or.inl ⟨rfl, rfl⟩
  · refine ⟨toyRecord_fits (by decide) (by decide), ?_, fun r hr => ?_⟩
    · simp [Op.ReadsBack, Record.ReadsBack, toyRecord, toyJson_reads]
    · obtain rfl := Op.insertBlock.inj hr
      exact Or.inr ⟨rfl, by simp [toyRecord]⟩
  · exact ⟨by simp [Op.Fits], trivial, fun r hr => nomatch hr⟩
  · refine ⟨toyRecord_fits (by decide) (by decide), ?_, fun r hr => ?_⟩
    · simp [Op.ReadsBack, Record.ReadsBack, toyRecord, toyJson_reads]
    · obtain rfl := Op.insertBlock.inj hr
      exact Or.inr ⟨rfl, by simp [toyRecord]⟩

theorem toyOps_distinct : Distinct toyOps := by
  intro r b hr hb hne heq
  rcases (toyOps_cases hr).2.2 r rfl with ⟨hr1, hra⟩ | ⟨hr2, hra⟩ <;>
    rcases (toyOps_cases hb).2.2 b rfl with ⟨hb1, hba⟩ | ⟨hb2, hba⟩
  · exact hne (hr1.trans hb1.symm)
  · exact hba (heq.symm.trans hra)
  · exact hra (heq.trans hba)
  · exact hne (hr2.trans hb2.symm)

theorem tables_refine_map_toy : ∃ t,
    exec (Database.step toyJson) Database.empty toyOps = some t ∧ t.blockHashAt 2 = some ['c'] ∧
      t.get toyJson 2 = some (some (toyRecord 2 'c' [toyTx]).stored) := by
  obtain ⟨t, ht, hget, -, -, hlast⟩ := tables_refine_map (fun op h => (toyOps_cases h).1)
    toyOps_distinct (fun op h => (toyOps_cases h).2.1)
  have hstands : Standing toyOps 2 (toyRecord 2 'c' [toyTx]) :=
    ⟨toyOps.take 3, [], rfl, rfl, fun op h => nomatch h⟩
  have hheld := (hlast 2 _).mpr ⟨_, hstands, rfl⟩
  obtain ⟨hrecord, hhash⟩ := hget 2 (by decide)
  rw [hheld] at hrecord hhash
  exact ⟨t, ht, hhash, hrecord⟩

end BinaChain.Sqlite
