import BinaChain.Node.Election
import Mathlib.Order.Defs.Unbundled

/-!
# The comparison of claims as a weak order

Claims whose block hashes tell their headers apart are weakly ordered by the
comparison, and the claims of one block are the ones it ties. Both elections
then have one winning header for every order of their candidates.
-/

set_option autoImplicit false

namespace BinaChain.Winner
open BinaChain.Crypto BinaChain.Block BinaChain.Claims BinaChain.Ranking BinaChain.State
open BinaChain.Election BinaChain.Mining BinaChain.Admission BinaChain.Rewards

/-- Among these claims equal block hashes come from equal headers. -/
def HashesTell (K : Primitives) (S : Set SignedBlockClaim) : Prop :=
  ∀ a ∈ S, ∀ b ∈ S, a.blockHash K = b.blockHash K → a.header = b.header

/-- Neither claim is better than the other. -/
def Ties (K : Primitives) (a b : SignedBlockClaim) : Prop :=
  claimIsBetter K a b = false ∧ claimIsBetter K b a = false

theorem ties_iff {K : Primitives} {S : Set SignedBlockClaim} (hS : HashesTell K S)
    {a b : SignedBlockClaim} (ha : a ∈ S) (hb : b ∈ S) :
    Ties K a b ↔ a.blockHash K = b.blockHash K := by
  constructor
  · exact fun h => claimIsBetter_tie h.1 h.2
  · intro h
    have hheader := hS a ha b hb h
    have hsame : ∀ c d : SignedBlockClaim, c.header = d.header → claimIsBetter K c d = false := by
      intro c d hcd
      simp [claimIsBetter, SignedBlockClaim.workBits, SignedBlockClaim.score,
        SignedBlockClaim.blockHash, hcd, hashLt_irrefl]
    exact ⟨hsame a b hheader, hsame b a hheader.symm⟩

theorem claimIsBetter_weakOrder {K : Primitives} {S : Set SignedBlockClaim}
    (hS : HashesTell K S) :
    IsStrictWeakOrder S fun a b => claimIsBetter K a.val b.val = true where
  irrefl a := by simp [(claimIsBetter_ranking K).irrefl a.val]
  trans a b c := (claimIsBetter_ranking K).trans a.val b.val c.val
  incomp_trans := by
    intro a b c hab hbc
    simp only [Bool.not_eq_true] at hab hbc ⊢
    have hhash := ((ties_iff hS a.2 b.2).mp hab).trans ((ties_iff hS b.2 c.2).mp hbc)
    exact (ties_iff hS a.2 c.2).mpr hhash

theorem winner_of_any_order (K : Primitives) (S : Set SignedBlockClaim) (hS : HashesTell K S) :
    (IsStrictWeakOrder S fun a b => claimIsBetter K a.val b.val = true) ∧
    (∀ a ∈ S, ∀ b ∈ S, Ties K a b ↔ a.blockHash K = b.blockHash K) ∧
    (∀ claims order : List SignedBlockClaim, (∀ c ∈ claims, c ∈ S) → order.Perm claims →
      (selectWinningClaim K order).map SignedBlockClaim.header =
        (selectWinningClaim K claims).map SignedBlockClaim.header ∧
      (claims ≠ [] → ∃ w ∈ claims, selectWinningClaim K order = some w ∧
        ∀ c ∈ claims, claimIsBetter K c w = false)) ∧
    (∀ claims order : List PendingClaim, (∀ p ∈ claims, p.claim ∈ S) → order.Perm claims →
      (selectWinningPending K order).map (fun p => p.claim.header) =
        (selectWinningPending K claims).map (fun p => p.claim.header) ∧
      (claims ≠ [] → ∃ w ∈ claims, selectWinningPending K order = some w ∧
        ∀ p ∈ claims, claimIsBetter K p.claim w.claim = false)) := by
  refine ⟨claimIsBetter_weakOrder hS, fun a ha b hb => ties_iff hS ha hb, ?_, ?_⟩
  · intro claims order hin hp
    exact elect_any_order (claimIsBetter_ranking K) (fun _ _ => claimIsBetter_tie) hp
      fun a ha b hb => hS a (hin a ha) b (hin b hb)
  · intro claims order hin hp
    exact elect_any_order (pendingIsBetter_ranking K) (fun _ _ => claimIsBetter_tie) hp
      fun a ha b hb => hS a.claim (hin a ha) b.claim (hin b hb)

theorem winner_of_any_order_sample :
    (selectWinningPending toyPrimitives toyClaims.reverse).map (fun p => p.claim.header) =
      (selectWinningPending toyPrimitives toyClaims).map (fun p => p.claim.header) := by
  have hS : HashesTell toyPrimitives {c | ∃ p ∈ toyClaims, p.claim = c} := by
    rintro _ ⟨p, hp, rfl⟩ _ ⟨q, hq, rfl⟩ h
    exact toyClaims_distinct p hp q hq h
  have hpending := (winner_of_any_order toyPrimitives _ hS).2.2.2
  exact (hpending toyClaims toyClaims.reverse (fun p hp => ⟨p, hp, rfl⟩)
    (List.reverse_perm toyClaims)).1

end BinaChain.Winner
