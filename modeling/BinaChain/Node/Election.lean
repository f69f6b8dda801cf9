import BinaChain.Node.Mining
import BinaChain.Support.Checked

/-!
# The election and the order of arrival

The comparison of two claims is a strict ranking, so an election over a fixed
pool has one outcome. Admission keeps the first claim of a miner, so the pool
itself depends on the order in which claims arrive.
-/

set_option autoImplicit false

namespace BinaChain.Election
open BinaChain.Word BinaChain.Text BinaChain.Crypto BinaChain.Block BinaChain.Claims
open BinaChain.Rewards BinaChain.Ranking BinaChain.Maps BinaChain.State BinaChain.Admission
open BinaChain.Mining BinaChain.Transaction Std

def deliver (K : Primitives) (l : RewardLedger) (now : ℕ) (s : NodeState)
    (claims : List PendingClaim) : NodeState :=
  claims.foldl (fun s p => (acceptSignedClaim K s l now p).2) s

def pendingIsBetter (K : Primitives) (a b : PendingClaim) : Bool :=
  claimIsBetter K a.claim b.claim

def pendingHash (K : Primitives) (p : PendingClaim) : Hash := p.claim.blockHash K

theorem pendingIsBetter_ranking (K : Primitives) : StrictRanking (pendingIsBetter K) where
  irrefl a := (claimIsBetter_ranking K).irrefl a.claim
  trans a b c := (claimIsBetter_ranking K).trans a.claim b.claim c.claim

theorem acceptable_register {K : Primitives} {s : NodeState} {l : RewardLedger} {now : ℕ}
    {p q : PendingClaim} (h : Acceptable K s l now q) : Acceptable K (s.register p) l now q :=
  ⟨h.screened, h.genesis, ⟨h.extends_tip.height, h.extends_tip.parent, h.extends_tip.difficulty,
    h.extends_tip.later⟩, h.notFuture, h.seed, h.executes⟩

theorem deliver_pool (K : Primitives) (l : RewardLedger) (now height : ℕ)
    (claims : List PendingClaim) :
    ∀ s : NodeState, (∀ p ∈ claims, Acceptable K s l now p ∧ p.height = height) →
      ∀ miner : Str, ((deliver K l now s claims).poolAt height)[miner]? =
        ((s.poolAt height)[miner]?).or (claims.find? fun p => p.minerHex = miner) := by
  induction claims with
  | nil =>
    intro s _ miner
    simp [deliver]
  | cons p claims ih =>
    intro s hall miner
    obtain ⟨hacc, hh⟩ := hall p List.mem_cons_self
    have hrest : ∀ q ∈ claims, Acceptable K s l now q ∧ q.height = height := fun q hq =>
      hall q (List.mem_cons_of_mem _ hq)
    have hcons : deliver K l now s (p :: claims) =
        deliver K l now (acceptSignedClaim K s l now p).2 claims := rfl
    rw [hcons]
    by_cases hm : p.minerHex ∈ s.poolAt p.height
    · obtain ⟨e, he⟩ : ∃ e, acceptSignedClaim K s l now p = (.error e, s) :=
        acceptSignedClaim_refused fun h => h.2 hm
      rw [he, ih s hrest miner]
      by_cases hk : p.minerHex = miner
      · subst hk
        rw [hh] at hm
        obtain ⟨q, hq⟩ := Option.isSome_iff_exists.mp (ExtTreeMap.mem_iff_isSome_getElem?.mp hm)
        rw [hq]
        rfl
      · rw [List.find?_cons_of_neg (by simpa using hk)]
    · rw [acceptSignedClaim_accepted hacc hm, ih (s.register p)
        (fun q hq => ⟨acceptable_register (hrest q hq).1, (hrest q hq).2⟩) miner,
        NodeState.poolAt_register, if_pos hh, getElem?_insert_eq]
      rw [hh] at hm
      by_cases hk : p.minerHex = miner
      · subst hk
        have hnone : (s.poolAt height)[p.minerHex]? = none := ExtTreeMap.getElem?_eq_none hm
        rw [if_pos rfl, hnone, List.find?_cons_of_pos (by simp)]
        rfl
      · rw [if_neg hk, List.find?_cons_of_neg (by simpa using hk)]

theorem deliver_electorate {K : Primitives} {l : RewardLedger} {now : ℕ} {s : NodeState}
    {claims order v : List PendingClaim}
    (hall : ∀ p ∈ claims, Acceptable K s l now p ∧ p.minerHex ∉ s.poolAt p.height)
    (ho : order.Perm claims)
    (hv : v.Perm (candidates (deliver K l now s order) (s.chainHeight+1))) :
    Electorate PendingClaim.minerHex (candidates s (s.chainHeight+1)) order v := by
  have hord : ∀ p ∈ order, Acceptable K s l now p ∧ p.height = s.chainHeight+1 := fun p hp =>
    have ha := (hall p (ho.mem_iff.mp hp)).1
    ⟨ha, ha.extends_tip.height⟩
  have hpool := deliver_pool K l now (s.chainHeight+1) order s hord
  intro a
  rw [hv.mem_iff, mem_candidates, mem_candidates]
  constructor
  · rintro ⟨miner, hm⟩
    rw [hpool] at hm
    rcases Option.or_eq_some_iff.mp hm with hs | ⟨-, hf⟩
    · exact Or.inl ⟨miner, hs⟩
    · have hk : a.minerHex = miner := by simpa using List.find?_some hf
      subst hk
      exact Or.inr hf
  · rintro (⟨miner, hm⟩ | hs)
    · exact ⟨miner, by rw [hpool, hm]; rfl⟩
    · refine ⟨a.minerHex, ?_⟩
      have hamem : a ∈ claims := ho.mem_iff.mp hs.mem
      have hnew := (hall a hamem).2
      rw [(hall a hamem).1.extends_tip.height] at hnew
      rw [hpool, ExtTreeMap.getElem?_eq_none hnew]
      exact hs

/-- The same block wins on two nodes in the same state, whatever the two orders
of arrival and the two orders in which the pools are enumerated. -/
def SameWinner (K : Primitives) (s : NodeState) (l : RewardLedger) (now : ℕ)
    (claims : List PendingClaim) : Prop :=
  ∀ o₁ o₂, o₁.Perm claims → o₂.Perm claims →
    ∀ v₁ v₂, v₁.Perm (candidates (deliver K l now s o₁) (s.chainHeight+1)) →
      v₂.Perm (candidates (deliver K l now s o₂) (s.chainHeight+1)) →
      (selectWinningPending K v₁).map (pendingHash K) =
        (selectWinningPending K v₂).map (pendingHash K)

/-- Nobody is a candidate, or no delivered claim of another block comes from the
miner of an unbeaten claim that has yet to be admitted. -/
def FavouriteUnrivalled (K : Primitives) (s : NodeState) (claims : List PendingClaim) : Prop :=
  candidates s (s.chainHeight+1)++claims = [] ∨
    Settled (pendingIsBetter K) PendingClaim.minerHex (pendingHash K)
      (candidates s (s.chainHeight+1)) claims

/-- Claims that are acceptable one by one elect the same block in every order
exactly when the favourite's miner delivered no other block. -/
theorem same_winner_iff (K : Primitives) (s : NodeState) (l : RewardLedger) (now : ℕ)
    (claims : List PendingClaim)
    (hacc : ∀ p ∈ claims, ∃ a, (acceptSignedClaim K s l now p).1 = .ok a)
    (hcol : ∀ p ∈ candidates s (s.chainHeight+1)++claims,
      ∀ q ∈ candidates s (s.chainHeight+1)++claims,
        pendingHash K p = pendingHash K q → p.claim.header = q.claim.header) :
    SameWinner K s l now claims ↔ FavouriteUnrivalled K s claims := by
  have hall : ∀ p ∈ claims, Acceptable K s l now p ∧ p.minerHex ∉ s.poolAt p.height := by
    intro p hp
    obtain ⟨a, ha⟩ := hacc p hp
    exact accepted_acceptable ha
  have hr := pendingIsBetter_ranking K
  have htie : ∀ a b, pendingIsBetter K a b = false → pendingIsBetter K b a = false →
      pendingHash K a = pendingHash K b := fun a b => claimIsBetter_tie
  have hid : ∀ a ∈ candidates s (s.chainHeight+1)++claims,
      ∀ b ∈ candidates s (s.chainHeight+1)++claims, pendingHash K a = pendingHash K b →
        ∀ c, pendingIsBetter K c a = pendingIsBetter K c b := by
    intro a ha b hb hab c
    have hhead := hcol a ha b hb hab
    apply Bool.eq_iff_iff.mpr
    simp only [pendingIsBetter, claimIsBetter_iff, SignedBlockClaim.workBits,
      SignedBlockClaim.score, SignedBlockClaim.blockHash, hhead]
  constructor
  · intro h
    by_cases hne : candidates s (s.chainHeight+1)++claims = []
    · exact Or.inl hne
    refine Or.inr (OrderIndependent.settled hr htie hne hid ?_)
    intro o₁ o₂ h₁ h₂ v₁ v₂ hv₁ hv₂
    have hw₁ := deliver_electorate hall h₁ (List.Perm.refl _)
    have hw₂ := deliver_electorate hall h₂ (List.Perm.refl _)
    rw [elect_ident_congr hr htie fun a => (hv₁ a).trans (hw₁ a).symm,
      elect_ident_congr hr htie fun a => (hv₂ a).trans (hw₂ a).symm]
    exact h o₁ o₂ h₁ h₂ _ _ (List.Perm.refl _) (List.Perm.refl _)
  · intro h
    have hind : OrderIndependent (pendingIsBetter K) PendingClaim.minerHex (pendingHash K)
        (candidates s (s.chainHeight+1)) claims := by
      rcases h with hnil | h
      · intro o₁ o₂ h₁ h₂ v₁ v₂ hv₁ hv₂
        have hempty : ∀ o v, o.Perm claims → Electorate PendingClaim.minerHex
            (candidates s (s.chainHeight+1)) o v → v = [] := by
          intro o v ho hv
          refine List.eq_nil_iff_forall_not_mem.mpr fun a ha => ?_
          have := hv.sub ho ha
          simp [hnil] at this
        rw [hempty o₁ v₁ h₁ hv₁, hempty o₂ v₂ h₂ hv₂]
      · exact Settled.independent hr htie hid h
    intro o₁ o₂ h₁ h₂ v₁ v₂ hv₁ hv₂
    exact hind o₁ o₂ h₁ h₂ v₁ v₂ (deliver_electorate hall h₁ hv₁) (deliver_electorate hall h₂ hv₂)

def toyState : NodeState := genesisState toyPrimitives .mock

def toyNow : ℕ := 1751241600000+60000

def toyClaims : List PendingClaim :=
  [0, 5].map fun nonce =>
    toyCandidate 1 nonce toyState (.create []) (genesisCursor toyPrimitives) []

set_option maxRecDepth 100000 in
theorem toyClaims_accepted : ∀ p ∈ toyClaims,
    (acceptSignedClaim toyPrimitives toyState (.create []) toyNow p).1.isOk := by
  decide +kernel

set_option maxRecDepth 100000 in
theorem toyClaims_distinct : ∀ p ∈ toyClaims, ∀ q ∈ toyClaims,
    pendingHash toyPrimitives p = pendingHash toyPrimitives q → p.claim.header = q.claim.header := by
  decide +kernel

theorem toyState_candidates : candidates toyState (toyState.chainHeight+1) = [] := by
  rw [List.eq_nil_iff_forall_not_mem]
  intro p hp
  obtain ⟨miner, hm⟩ := mem_candidates.mp hp
  simp [toyState, genesisState, NodeState.poolAt] at hm

theorem toyClaims_accept (p : PendingClaim) (hp : p ∈ toyClaims) :
    ∃ a, (acceptSignedClaim toyPrimitives toyState (.create []) toyNow p).1 = .ok a :=
  Checked.isOk_iff.mp (toyClaims_accepted p hp)

theorem same_winner_iff_sample : SameWinner toyPrimitives toyState (.create []) toyNow toyClaims ↔
    FavouriteUnrivalled toyPrimitives toyState toyClaims :=
  same_winner_iff toyPrimitives toyState (.create []) toyNow toyClaims toyClaims_accept
    (by rw [toyState_candidates]; exact toyClaims_distinct)

set_option maxRecDepth 100000 in
theorem first_claim_wins :
    (∀ p ∈ toyClaims, (acceptSignedClaim toyPrimitives toyState (.create []) toyNow p).1.isOk) ∧
      ¬ SameWinner toyPrimitives toyState (.create []) toyNow toyClaims := by
  refine ⟨toyClaims_accepted, fun h => ?_⟩
  have heq := h toyClaims toyClaims.reverse (List.Perm.refl _) (List.reverse_perm _) _ _
    (List.Perm.refl _) (List.Perm.refl _)
  revert heq
  decide +kernel

end BinaChain.Election
