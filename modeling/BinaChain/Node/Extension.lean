import BinaChain.Node.Sync
import BinaChain.Support.Machine

/-!
# Blocks on top of a tip

What the next block has to fit is said of the tip alone. Of the records a peer
serves, synchronisation takes the longest part whose blocks fit in turn.
-/

set_option autoImplicit false

namespace BinaChain.Extension
open BinaChain.Word BinaChain.Text BinaChain.Crypto BinaChain.Block BinaChain.Claims
open BinaChain.Transaction BinaChain.BitcoinEntropy BinaChain.Difficulty BinaChain.Rewards
open BinaChain.Randomness
open BinaChain.Execution BinaChain.State BinaChain.Machine BinaChain.Store BinaChain.Mining
open BinaChain.Sync

structure Tip where
  height : ℕ
  hash : Hash
  timestamp : ℕ
  seed : Hash
  adjuster : DifficultyAdjuster
  ledger : RewardLedger

/-- The conditions of one more block. -/
structure Fits (K : Primitives) (t : Tip) (now : ℕ) (r : BlockRecord) (claim : SignedBlockClaim) :
    Prop where
  height : r.height = t.height+1
  parent : r.prevHash = Hex.encode t.hash.toList
  rebuilt : claimFromRecord r t.hash = .ok claim
  later : t.timestamp < claim.header.timestamp
  notFuture : claim.header.timestamp ≤ satAdd now maxFutureMs
  difficulty : claim.header.difficultyBits = t.adjuster.currentBits
  seed : isCheckpointHeight r.height ∨ r.btcSeed = Hex.encode t.seed.toList
  verified : claim.verify K = .ok ()
  hash : claim.blockHashHex K = r.blockHash
  merkle : merkleRoot K r.transactions = claim.header.merkleRoot
  size : r.transactions.length ≤ maxTxsPerBlock
  applied : (simulateBlockExecution K t.ledger r.transactions r.minerAddress r.rewardBina).1.length
    = r.transactions.length
  root : (simulateBlockExecution K t.ledger r.transactions r.minerAddress r.rewardBina).2 =
    claim.header.stateRoot

def Tip.next (K : Primitives) (t : Tip) (r : BlockRecord) (claim : SignedBlockClaim) : Tip where
  height := t.height+1
  hash := claim.blockHash K
  timestamp := r.timestamp
  seed := if isCheckpointHeight r.height then claim.header.bitcoinSeedHash else t.seed
  adjuster := t.adjuster.recordBlock K (t.height+1) r.timestamp
  ledger := executeBlock K r.height r.minerAddress r.rewardBina (r.timestamp/1000) t.ledger
    r.transactions

/-- The records are blocks of one chain on top of the tip. -/
def Extends (K : Primitives) (now : ℕ → ℕ) : Tip → List BlockRecord → Prop
  | _, [] => True
  | t, r :: rs => ∃ claim, Fits K t (now r.height) r claim ∧ Extends K now (t.next K r claim) rs

def tipOf (x : Parts) : Tip where
  height := x.cursor.height
  hash := x.cursor.tipHash
  timestamp := x.cursor.lastBlockTimestampMs
  seed := x.cursor.btcSeedHash
  adjuster := x.cursor.adjuster
  ledger := x.ledger

section Records

variable {K : Primitives} {env : SyncEnv}

theorem checked_iff_fits {x : Parts} {now : ℕ} {r : BlockRecord} {claim : SignedBlockClaim} :
    Checked K x.cursor x.ledger now r claim ↔ Fits K (tipOf x) now r claim := by
  constructor
  · intro h
    exact
      { height := h.height, parent := h.parent, rebuilt := h.rebuilt, later := h.later
        notFuture := h.notFuture, difficulty := h.difficulty, seed := h.seed
        verified := h.verified, hash := h.hash, merkle := h.merkle, size := h.size
        applied := h.applied, root := h.root }
  · intro h
    exact
      { height := h.height, parent := h.parent, rebuilt := h.rebuilt
        header := claimFromRecord_header h.rebuilt, later := h.later
        notFuture := h.notFuture, difficulty := h.difficulty, seed := h.seed
        verified := h.verified, hash := h.hash, merkle := h.merkle, size := h.size
        applied := h.applied, root := h.root }

theorem syncRecord_iff {x y : Parts} {r : BlockRecord} :
    syncRecord K env x r = some y ↔
      ∃ claim, Fits K (tipOf x) (env.now r.height) r claim ∧
        y = publishSynced K (applyRecord K (env.stored r.height) x r claim) r := by
  unfold syncRecord
  rw [Option.map_eq_some_iff]
  constructor
  · rintro ⟨claim, hc, rfl⟩
    exact ⟨claim, checked_iff_fits.mp (checkRecord_iff.mp hc), rfl⟩
  · rintro ⟨claim, hf, rfl⟩
    exact ⟨claim, checkRecord_iff.mpr (checked_iff_fits.mpr hf), rfl⟩

theorem tipOf_synced {x : Parts} {now : ℕ} (stored : Bool) {r : BlockRecord}
    {claim : SignedBlockClaim} (h : Fits K (tipOf x) now r claim) :
    tipOf (publishSynced K (applyRecord K stored x r claim) r) = (tipOf x).next K r claim := by
  have hheight : r.height = x.cursor.height+1 := h.height
  have htimestamp : claim.header.timestamp = r.timestamp :=
    (headerFromRecord_ok (claimFromRecord_header h.rebuilt)).2.2.2.1
  simp only [tipOf, Tip.next, publishSynced, applyRecord, advanceSynced, hheight, htimestamp]

/-- All of the records are taken exactly when they extend the tip. -/
theorem exec_iff_extends (records : List BlockRecord) : ∀ {x : Parts},
    (exec (syncRecord K env) x records).isSome ↔ Extends K env.now (tipOf x) records := by
  induction records with
  | nil => exact fun {x} => ⟨fun _ => trivial, fun _ => rfl⟩
  | cons r rs ih =>
    intro x
    rw [Option.isSome_iff_exists]
    constructor
    · rintro ⟨z, hz⟩
      obtain ⟨y, hy, hz⟩ := Option.bind_eq_some_iff.mp hz
      obtain ⟨claim, hf, rfl⟩ := syncRecord_iff.mp hy
      refine ⟨claim, hf, ?_⟩
      rw [← tipOf_synced _ hf]
      exact ih.mp (Option.isSome_iff_exists.mpr ⟨z, hz⟩)
    · rintro ⟨claim, hf, hrest⟩
      rw [← tipOf_synced (env.stored r.height) hf] at hrest
      obtain ⟨z, hz⟩ := Option.isSome_iff_exists.mp (ih.mpr hrest)
      exact ⟨z, Option.bind_eq_some_iff.mpr ⟨_, syncRecord_iff.mpr ⟨claim, hf, rfl⟩, hz⟩⟩

theorem syncRecord_height {x z : Parts} {r : BlockRecord} (h : syncRecord K env x r = some z) :
    z.cursor.height = x.cursor.height+1 := by
  obtain ⟨claim, hf, rfl⟩ := syncRecord_iff.mp h
  exact hf.height

theorem exec_height {page : List BlockRecord} : ∀ {x z : Parts},
    exec (syncRecord K env) x page = some z →
      z.cursor.height = x.cursor.height+page.length := by
  induction page with
  | nil =>
    intro x z h
    obtain rfl := Option.some.inj h
    rfl
  | cons r rest ih =>
    intro x z h
    obtain ⟨y, hy, hz⟩ := Option.bind_eq_some_iff.mp h
    rw [ih hz, syncRecord_height hy, List.length_cons]
    omega

theorem syncPage_exec {page : List BlockRecord} : ∀ {x z : Parts},
    exec (syncRecord K env) x page = some z → syncPage K env x page = (z, false) := by
  induction page with
  | nil =>
    intro x z h
    obtain rfl := Option.some.inj h
    rfl
  | cons r rest ih =>
    intro x z h
    obtain ⟨y, hy, hz⟩ := Option.bind_eq_some_iff.mp h
    unfold syncPage
    rw [hy]
    exact ih hz

theorem syncPage_stops {page : List BlockRecord} : ∀ {x : Parts},
    exec (syncRecord K env) x page = none → (syncPage K env x page).2 = true := by
  induction page with
  | nil =>
    intro x h
    cases h
  | cons r rest ih =>
    intro x h
    unfold syncPage
    cases hs : syncRecord K env x r with
    | none => rfl
    | some y =>
      rw [exec, hs] at h
      exact ih h

end Records

/-- The records of the peer's replies, one page for each request, up to the
target or to the first reply that is missing or empty. -/
def offered (target : ℕ) : ℕ → List (Option (List BlockRecord)) → List BlockRecord
  | _, [] => []
  | height, reply :: replies =>
    if height ≥ target then []
    else
      match reply with
      | none => []
      | some [] => []
      | some page => page++offered target (height+page.length) replies

end BinaChain.Extension
