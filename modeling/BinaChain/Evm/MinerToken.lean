import BinaChain.Evm.BinaWork
import BinaChain.Support.Balances
import Mathlib.Data.FinEnum
import Mathlib.Algebra.Group.Action.Defs
import Mathlib.Algebra.Order.BigOperators.Group.Finset

/-!
# A token minted against proofs of work

One block hash mints once, a multiple of the base amount that the stored
randomness decides. Balances and supply can be told from the consumed proofs.
-/

set_option autoImplicit false

namespace BinaChain.MinerToken
open BinaChain.Crypto BinaChain.Machine BinaChain.Checked BinaChain.Oracle BinaChain.BinaWork
open BinaChain.MinedAction (ProofOfBinaWork fetch verifyBinaWork)

def baseMint : ℕ := 100*1000000000000000000

def maxBonus : ℕ := 5

structure BinaMinerToken where
  work : ProofOfBinaWork
  totalSupply : ℕ
  balanceOf : Address → ℕ

def deploy : BinaMinerToken where
  work := construct 22 false
  totalSupply := 0
  balanceOf _ := 0

/-- The product cannot leave the word: it is at most five times the base amount. -/
def mintWithProof (r : Registry) (sender : Address) (blockHash : Bytes32) (binaMiner : Bytes20)
    (t : BinaMinerToken) : Except Revert BinaMinerToken := do
  let work ← (verifyBinaWork r sender t.work blockHash binaMiner).mapError .proof
  let output ← (fetch r blockHash).mapError .proof
  let bonusMultiplier := output.randomnessOutput.toNat%maxBonus+1
  let mintAmount := baseMint*bonusMultiplier
  let balance ← add (t.balanceOf sender) mintAmount
  let totalSupply ← add t.totalSupply mintAmount
  return { work, totalSupply, balanceOf := Function.update t.balanceOf sender balance }

structure Joint where
  registry : Registry
  token : BinaMinerToken

inductive Event where
  | oracle (m : Msg) (c : Call)
  | mintWithProof (sender : Address) (blockHash : Bytes32) (binaMiner : Bytes20)

def step (K : Primitives) (j : Joint) : Event → Option Joint
  | .oracle m c => (Oracle.step K j.registry (m, c)).map fun registry => { j with registry }
  | .mintWithProof sender blockHash binaMiner =>
    (mintWithProof j.registry sender blockHash binaMiner j.token).toOption.map fun token =>
      { j with token }

def mintOf (r : Registry) (blockHash : Bytes32) : ℕ :=
  baseMint*((r.outputsByBlockHash blockHash).randomnessOutput.toNat%maxBonus+1)

theorem mintOf_bounds (r : Registry) (b : Bytes32) :
    baseMint ≤ mintOf r b ∧ mintOf r b ≤ baseMint*maxBonus := by
  have hlt := Nat.mod_lt (r.outputsByBlockHash b).randomnessOutput.toNat
    (show 0 < maxBonus by decide)
  unfold mintOf
  constructor
  · exact Nat.le_mul_of_pos_right _ (Nat.succ_pos _)
  · exact Nat.mul_le_mul_left _ hlt

theorem minted_of_fetch {r : Registry} {blockHash : Bytes32} {output : MinedAction.StoredOutput}
    (h : fetch r blockHash = .ok output) :
    baseMint*(output.randomnessOutput.toNat%maxBonus+1) = mintOf r blockHash := by
  obtain ⟨-, -, heq⟩ := fetch_eq_ok.mp h
  rw [heq]
  rfl

theorem mintWithProof_eq_ok {r : Registry} {sender : Address} {blockHash : Bytes32}
    {binaMiner : Bytes20} {t t' : BinaMinerToken} :
    mintWithProof r sender blockHash binaMiner t = .ok t' ↔
      Passes r t.work blockHash binaMiner ∧
      t.balanceOf sender+mintOf r blockHash < uintEnd ∧
      t.totalSupply+mintOf r blockHash < uintEnd ∧
      t' = { work := consume t.work sender blockHash
             totalSupply := t.totalSupply+mintOf r blockHash
             balanceOf := Function.update t.balanceOf sender
               (t.balanceOf sender+mintOf r blockHash) } := by
  unfold mintWithProof
  simp only [bind_eq_ok, mapError_eq_ok, verifyBinaWork_eq_ok, add_eq_ok, pure_eq_ok]
  constructor
  · rintro ⟨work, ⟨hp, rfl⟩, output, hfetch, balance, ⟨hb, rfl⟩, supply, ⟨hs, rfl⟩, rfl⟩
    rw [minted_of_fetch hfetch] at hb hs ⊢
    exact ⟨hp, hb, hs, rfl⟩
  · rintro ⟨hp, hb, hs, rfl⟩
    obtain ⟨output, hfetch, -⟩ := hp.readable.fetch
    refine ⟨consume t.work sender blockHash, ⟨hp, rfl⟩, output, hfetch, ?_⟩
    rw [minted_of_fetch hfetch]
    exact ⟨_, ⟨hb, rfl⟩, _, ⟨hs, rfl⟩, rfl⟩

structure Minted (j : Joint) (used : Finset Bytes32) : Prop where
  backed : Backed j.registry j.token.work used
  gate : j.token.work.minWorkBits = 22
  balances : ∀ a, j.token.balanceOf a = ∑ b ∈ provedBy j.token.work used a, mintOf j.registry b
  supply : j.token.totalSupply = ∑ b ∈ used, mintOf j.registry b

theorem minted_step {K : Primitives} {j j' : Joint} {e : Event} {used : Finset Bytes32}
    (h : Minted j used) (hs : step K j e = some j') : ∃ used', Minted j' used' := by
  cases e with
  | oracle m c =>
    obtain ⟨r', hr, rfl⟩ := Option.map_eq_some_iff.mp hs
    have hsame : ∀ b ∈ used, mintOf r' b = mintOf j.registry b := by
      intro b hb
      unfold mintOf
      rw [stored_step hr (h.backed.finalised b hb)]
    exact ⟨used,
      { backed := h.backed.oracle hr
        gate := h.gate
        balances := fun a => by
          rw [h.balances a]
          exact (Finset.sum_congr rfl fun b hb => hsame b (Finset.mem_filter.mp hb).1).symm
        supply := by
          rw [h.supply]
          exact (Finset.sum_congr rfl hsame).symm }⟩
  | mintWithProof sender blockHash binaMiner =>
    obtain ⟨t', ht, rfl⟩ := Option.map_eq_some_iff.mp hs
    obtain ⟨hp, -, -, rfl⟩ := mintWithProof_eq_ok.mp (toOption_eq_some.mp ht)
    have hfresh := h.backed.fresh hp
    refine ⟨insert blockHash used,
      { backed := h.backed.consume hp sender
        gate := h.gate
        balances := ?_
        supply := ?_ }⟩
    · intro a
      dsimp only
      rw [provedBy_consume hfresh]
      by_cases ha : a = sender
      · subst ha
        rw [if_pos rfl, Function.update_self, Finset.sum_insert, h.balances a, Nat.add_comm]
        exact fun hmem => hfresh (Finset.mem_filter.mp hmem).1
      · rw [if_neg ha, Function.update_of_ne ha, h.balances a]
    · dsimp only
      rw [Finset.sum_insert hfresh, h.supply, Nat.add_comm]

/-- What every holder has is what the proofs he consumed are worth, in every run
of the token beside its oracle; the supply is the sum of it all. -/
theorem supply_of_proofs {K : Primitives} {r : Registry} {j : Joint}
    (h : Reach (step K) { registry := r, token := deploy } j) : ∃ used : Finset Bytes32,
      (∀ b, j.token.work.proofUsed b = true ↔ b ∈ used) ∧
      (∀ b ∈ used, Finalised j.registry b ∧ 22 ≤ (j.registry.outputsByBlockHash b).workBits) ∧
      (∀ a, j.token.balanceOf a =
        ∑ b ∈ used with j.token.work.proofSubmitter b = a, mintOf j.registry b) ∧
      ∑ a, j.token.balanceOf a = j.token.totalSupply ∧
      used.card*baseMint ≤ j.token.totalSupply ∧
      j.token.totalSupply ≤ used.card*(baseMint*maxBonus) := by
  have hinv : ∃ used, Minted j used := by
    apply h.invariant (P := fun j => ∃ used, Minted j used)
    · exact ⟨∅,
        { backed := Backed.construct r 22 false
          gate := rfl
          balances := fun _ => rfl
          supply := rfl }⟩
    · rintro j e j' ⟨used, hm⟩ - hs
      exact minted_step hm hs
  obtain ⟨used, hm⟩ := hinv
  refine ⟨used, hm.backed.marked, ?_, hm.balances, ?_, ?_, ?_⟩
  · intro b hb
    exact ⟨hm.backed.finalised b hb, hm.gate ▸ hm.backed.enough b hb⟩
  · rw [hm.supply, Finset.sum_congr rfl fun a _ => hm.balances a]
    exact Finset.sum_fiberwise used j.token.work.proofSubmitter (mintOf j.registry)
  · rw [hm.supply, ← smul_eq_mul]
    exact Finset.card_nsmul_le_sum _ _ _ fun b _ => (mintOf_bounds j.registry b).1
  · rw [hm.supply, ← smul_eq_mul]
    exact Finset.sum_le_card_nsmul _ _ _ fun b _ => (mintOf_bounds j.registry b).2

def toyMint : Option Joint :=
  exec (step shortDigests) { registry := MinedAction.toyRegistry, token := deploy }
    [.oracle { sender := 1, timestamp := 0 }
      (.submitOutputForPurposes MinedAction.toySubmission), .mintWithProof 9 7 4]

theorem supply_of_proofs_toy : ∃ j, toyMint = some j ∧
    j.token.balanceOf 9 = baseMint*3 ∧ ∑ a, j.token.balanceOf a = j.token.totalSupply := by
  have hrun : toyMint.map (fun j => j.token.balanceOf 9) = some (baseMint*3) := by decide +kernel
  obtain ⟨j, hj, hbalance⟩ := Option.map_eq_some_iff.mp hrun
  obtain ⟨-, -, -, -, hsum, -⟩ := supply_of_proofs (exec_reach hj)
  exact ⟨j, hj, hbalance, hsum⟩

end BinaChain.MinerToken
