import BinaChain.Support.Machine
import Mathlib.Data.Finset.Lattice.Fold
import Mathlib.Data.Fintype.Basic

/-!
# Infinite schedules

A schedule names the step that is tried at each turn; one that fails changes
nothing. What brings a goal about is a rank that turns of one kind lower and
no other turn raises, when turns of that kind come again and again.
-/

set_option autoImplicit false

namespace BinaChain.Schedule
open BinaChain.Machine

variable {σ ε γ : Type} {step : σ → ε → Option σ} {turns : ℕ → ε}

def states (step : σ → ε → Option σ) (s : σ) (turns : ℕ → ε) : ℕ → σ
  | 0 => s
  | t+1 => (step (states step s turns t) (turns t)).getD (states step s turns t)

theorem states_succ (s : σ) (t : ℕ) : states step s turns (t+1) =
    (step (states step s turns t) (turns t)).getD (states step s turns t) := rfl

theorem states_reach (s : σ) (t : ℕ) : Reach step s (states step s turns t) := by
  induction t with
  | zero => exact .refl s
  | succ t ih =>
    rw [states_succ]
    cases h : step (states step s turns t) (turns t) with
    | none => exact ih
    | some u => exact ih.tail trivial h

theorem states_keep {P : σ → Prop} (hstep : ∀ s e u, P s → step s e = some u → P u)
    {s : σ} {t t' : ℕ} (h : t ≤ t') (hP : P (states step s turns t)) :
    P (states step s turns t') := by
  induction h with
  | refl => exact hP
  | step _ ih =>
    rw [states_succ]
    cases hs : step (states step s turns _) (turns _) with
    | none => exact ih
    | some u => exact hstep _ _ _ ih hs

theorem states_recording {note : σ → ε → σ → γ → γ} (s : σ) (g : γ) (t : ℕ) :
    (states (recording step note) (s, g) turns t).1 = states step s turns t := by
  induction t with
  | zero => rfl
  | succ t ih =>
    rw [states_succ, states_succ, ← ih]
    cases h : step (states (recording step note) (s, g) turns t).1 (turns t) with
    | none => simp [recording, h]
    | some u => simp [recording, h]

section Rank

variable {run : ℕ → σ} {turn : ℕ → Prop} {start : ℕ}

theorem eventually_of_rank (goal : σ → Prop) (rank : σ → ℕ) (often : ∀ t, ∃ t' ≥ t, turn t')
    (up : ∀ t ≥ start, ¬ goal (run t) → rank (run (t+1)) ≤ rank (run t))
    (down : ∀ t ≥ start, ¬ goal (run t) → turn t → rank (run (t+1)) < rank (run t)) :
    ∃ t ≥ start, goal (run t) := by
  by_contra hnever
  have hno (t : ℕ) (ht : start ≤ t) : ¬ goal (run t) := fun hg => hnever ⟨t, ht, hg⟩
  have hle {t t' : ℕ} (ht : start ≤ t) (h : t ≤ t') : rank (run t') ≤ rank (run t) := by
    induction h with
    | refl => exact le_rfl
    | step h ih => exact (up _ (ht.trans h) (hno _ (ht.trans h))).trans ih
  have hpos (r : ℕ) : ∀ t ≥ start, r ≤ rank (run t) := by
    induction r with
    | zero => exact fun t _ => Nat.zero_le _
    | succ r ih =>
      intro t ht
      obtain ⟨t', ht', hturn⟩ := often t
      have hlow := ih (t'+1) (ht.trans ht' |>.trans (Nat.le_succ t'))
      have hdrop := down t' (ht.trans ht') (hno t' (ht.trans ht')) hturn
      have hhigh := hle ht ht'
      omega
  exact absurd (hpos (rank (run start)+1) start le_rfl) (by omega)

end Rank

theorem eventually_all {n : ℕ} {run : ℕ → σ} (goal : Fin n → σ → Prop)
    (lasting : ∀ i t t', t ≤ t' → goal i (run t) → goal i (run t'))
    (reached : ∀ i, ∃ t, goal i (run t)) : ∃ t, ∀ i, goal i (run t) := by
  choose time htime using reached
  exact ⟨Finset.univ.sup time, fun i =>
    lasting i _ _ (Finset.le_sup (Finset.mem_univ i)) (htime i)⟩

end BinaChain.Schedule
