import BinaChain.Core.Block
import BinaChain.Support.Ranking

/-!
# Signed block claims and the comparison that elects one

Candidates for one height are ranked by objective work, then by a score over
height, parent, hash and miner, then by the hash itself.
-/

set_option autoImplicit false

namespace BinaChain.Claims
open BinaChain.Word BinaChain.Text BinaChain.Crypto BinaChain.Block BinaChain.Ranking Std

def claimTag : Bytes := utf8 "BINA-BLOCK-CLAIM-v1"

def electionTag : Bytes := utf8 "BINA-ELECTION-v1"

structure SignedBlockClaim where
  header : L1BlockHeader
  publicKey : Bytes
  signature : Bytes
  deriving DecidableEq

def claimMessage (K : Primitives) (header : L1BlockHeader) : Hash :=
  K.blake3 (claimTag++(header.hash K).toList)

def electionScore (K : Primitives) (header : L1BlockHeader) : Hash :=
  K.blake3 (electionTag++leBytes 8 header.height++header.prevHash.toList++
    (header.hash K).toList++header.minerAddress.toList)

namespace SignedBlockClaim

def blockHash (K : Primitives) (c : SignedBlockClaim) : Hash := c.header.hash K

def blockHashHex (K : Primitives) (c : SignedBlockClaim) : Str :=
  Hex.encode (c.blockHash K).toList

def minerAddressHex (c : SignedBlockClaim) : Str := Hex.encode c.header.minerAddress.toList

def workBits (K : Primitives) (c : SignedBlockClaim) : ℕ := leadingZeroBits (c.blockHash K)

def score (K : Primitives) (c : SignedBlockClaim) : Hash := electionScore K c.header

def verify (K : Primitives) (c : SignedBlockClaim) : Except String Unit := do
  let publicKey ← WalletPublicKey.fromBytes K c.publicKey
  if publicKey.address K ≠ c.header.minerAddress then
    .error "claim public key does not derive header miner_address"
  else if meetsDifficulty (c.blockHash K) c.header.difficultyBits = false then
    .error "claim block hash does not meet declared difficulty"
  else do
    let signature ← HybridSignature.fromBytes c.signature
    publicKey.verify K (claimMessage K c.header).toList signature

end SignedBlockClaim

def hashLt (a b : Hash) : Bool := compare a b == .lt

def claimIsBetter (K : Primitives) (candidate incumbent : SignedBlockClaim) : Bool :=
  if candidate.workBits K ≠ incumbent.workBits K then
    candidate.workBits K > incumbent.workBits K
  else if candidate.score K ≠ incumbent.score K then
    hashLt (candidate.score K) (incumbent.score K)
  else hashLt (candidate.blockHash K) (incumbent.blockHash K)

def selectWinningClaim (K : Primitives) (claims : List SignedBlockClaim) :
    Option SignedBlockClaim := elect (claimIsBetter K) claims

theorem hashLt_irrefl (a : Hash) : hashLt a a = false := by
  simp [hashLt, ReflCmp.compare_self]

theorem hashLt_trans {a b c : Hash} (h : hashLt a b) (h' : hashLt b c) : hashLt a c := by
  simp only [hashLt, beq_iff_eq] at *
  exact TransCmp.lt_trans h h'

theorem hashLt_total {a b : Hash} (h : hashLt a b = false) (h' : hashLt b a = false) :
    a = b := by
  simp only [hashLt, beq_eq_false_iff_ne] at h h'
  cases hc : compare a b with
  | lt => exact absurd hc h
  | eq => exact LawfulEqCmp.eq_of_compare hc
  | gt => exact absurd (OrientedCmp.lt_of_gt hc) h'

theorem claimIsBetter_iff (K : Primitives) (c i : SignedBlockClaim) :
    claimIsBetter K c i = true ↔ i.workBits K < c.workBits K ∨
      (c.workBits K = i.workBits K ∧ (hashLt (c.score K) (i.score K) ∨
        (c.score K = i.score K ∧ hashLt (c.blockHash K) (i.blockHash K)))) := by
  unfold claimIsBetter
  by_cases hw : c.workBits K = i.workBits K
  · by_cases hs : c.score K = i.score K
    · simp [hw, hs, hashLt_irrefl]
    · simp [hw, hs]
  · simp [hw]

theorem claimIsBetter_ranking (K : Primitives) : StrictRanking (claimIsBetter K) where
  irrefl c := by simp [claimIsBetter, hashLt_irrefl]
  trans a b c hab hbc := by
    rw [claimIsBetter_iff] at *
    rcases hab with h | ⟨hw, hab⟩ <;> rcases hbc with h' | ⟨hw', hbc⟩
    · exact Or.inl (Nat.lt_trans h' h)
    · exact Or.inl (by omega)
    · exact Or.inl (by omega)
    · refine Or.inr ⟨hw.trans hw', ?_⟩
      rcases hab with hs | ⟨hs, hh⟩ <;> rcases hbc with hs' | ⟨hs', hh'⟩
      · exact Or.inl (hashLt_trans hs hs')
      · exact Or.inl (by rwa [← hs'])
      · exact Or.inl (by rwa [hs])
      · exact Or.inr ⟨hs.trans hs', hashLt_trans hh hh'⟩

theorem claimIsBetter_tie {K : Primitives} {a b : SignedBlockClaim}
    (h : claimIsBetter K a b = false) (h' : claimIsBetter K b a = false) :
    a.blockHash K = b.blockHash K := by
  have hab := (claimIsBetter_iff K a b).not.mp (by simp [h])
  have hba := (claimIsBetter_iff K b a).not.mp (by simp [h'])
  have hw : a.workBits K = b.workBits K := by omega
  have hs : a.score K = b.score K := by
    apply hashLt_total <;> simp_all
  apply hashLt_total <;> simp_all

end BinaChain.Claims
