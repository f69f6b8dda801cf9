import Mathlib.Algebra.BigOperators.Group.Finset.Piecewise
import Mathlib.Algebra.Order.BigOperators.Group.Finset

/-!
# Balances over a finite set of holders

A holder's balance changes by what is credited to it or debited from it, and
the total changes by the same amount.
-/

set_option autoImplicit false

namespace BinaChain.Balances

variable {α : Type} [Fintype α] [DecidableEq α]

theorem total_update (f : α → ℕ) (a : α) (n : ℕ) :
    ∑ b, Function.update f a n b+f a = ∑ b, f b+n := by
  rw [Finset.sum_update_of_mem (Finset.mem_univ a), Finset.sdiff_singleton_eq_erase,
    ← Finset.add_sum_erase Finset.univ f (Finset.mem_univ a)]
  omega

theorem total_credit (f : α → ℕ) (a : α) (n : ℕ) :
    ∑ b, Function.update f a (f a+n) b = ∑ b, f b+n := by
  have h := total_update f a (f a+n)
  omega

theorem total_debit {f : α → ℕ} {a : α} {n : ℕ} (hn : n ≤ f a) :
    ∑ b, Function.update f a (f a-n) b+n = ∑ b, f b := by
  have h := total_update f a (f a-n)
  omega

omit [DecidableEq α] in
theorem le_total (f : α → ℕ) (a : α) : f a ≤ ∑ b, f b :=
  Finset.single_le_sum (fun _ _ => Nat.zero_le _) (Finset.mem_univ a)

end BinaChain.Balances
