import Mathlib.Data.List.Basic

/-!
# Numbered lists read in pages

The entries of a log carry consecutive numbers. The ones in a range of numbers
are then a slice of the log.
-/

set_option autoImplicit false

namespace BinaChain.Paging

variable {ρ : Type} {number : ρ → ℕ}

/-- The entries are numbered upwards from the successor of `k`. -/
def Numbered (number : ρ → ℕ) : ℕ → List ρ → Prop
  | _, [] => True
  | k, r :: rest => number r = k+1 ∧ Numbered number (k+1) rest

theorem numbered_append {k : ℕ} {log log' : List ρ} : Numbered number k (log++log') ↔
    Numbered number k log ∧ Numbered number (k+log.length) log' := by
  induction log generalizing k with
  | nil => simp [Numbered]
  | cons r rest ih =>
    rw [List.cons_append, Numbered, Numbered, ih, and_assoc, List.length_cons,
      Nat.add_right_comm, Nat.add_assoc]

theorem Numbered.bounds {k : ℕ} {log : List ρ} (h : Numbered number k log) :
    ∀ r ∈ log, k < number r ∧ number r ≤ k+log.length := by
  induction log generalizing k with
  | nil => simp
  | cons r rest ih =>
    intro q hq
    rw [List.length_cons]
    rcases List.mem_cons.mp hq with rfl | hq
    · have hr := h.1
      omega
    · have hrest := ih h.2 q hq
      omega

theorem Numbered.pairwise {k : ℕ} {log : List ρ} (h : Numbered number k log) :
    log.Pairwise fun a b => number a < number b := by
  induction log generalizing k with
  | nil => exact List.Pairwise.nil
  | cons r rest ih =>
    rw [List.pairwise_cons]
    refine ⟨fun q hq => ?_, ih h.2⟩
    have hr := h.1
    have hq := (h.2.bounds q hq).1
    omega

theorem eq_of_ordered {log log' : List ρ} (h : log.Pairwise fun a b => number a < number b)
    (h' : log'.Pairwise fun a b => number a < number b) (hm : ∀ r, r ∈ log ↔ r ∈ log') :
    log = log' := by
  have hnodup : ∀ {l : List ρ}, (l.Pairwise fun a b => number a < number b) → l.Nodup := by
    intro l hl
    exact List.Pairwise.imp (fun hab he => Nat.ne_of_lt hab (congrArg number he)) hl
  have hperm := (List.perm_ext_iff_of_nodup (hnodup h) (hnodup h')).mpr hm
  exact hperm.eq_of_pairwise (fun a b _ _ hab hba => absurd hab (Nat.lt_asymm hba)) h h'

theorem Numbered.up_to {k : ℕ} {log : List ρ} (h : Numbered number k log) (stop : ℕ) :
    (log.filter fun r => number r ≤ stop) = log.take (stop-k) := by
  induction log generalizing k with
  | nil => simp
  | cons r rest ih =>
    have hr := h.1
    by_cases hle : k+1 ≤ stop
    · rw [List.filter_cons_of_pos (by simpa [hr] using hle), ih h.2,
        show stop-k = (stop-(k+1))+1 by omega, List.take_succ_cons]
    · rw [List.filter_cons_of_neg (by simpa [hr] using hle), ih h.2,
        show stop-(k+1) = 0 by omega, show stop-k = 0 by omega, List.take_zero, List.take_zero]

theorem Numbered.slice {k : ℕ} {log : List ρ} (h : Numbered number k log) (start stop : ℕ)
    (hk : k ≤ start) : (log.filter fun r => start+1 ≤ number r ∧ number r ≤ stop) =
      (log.drop (start-k)).take (stop-start) := by
  induction log generalizing k with
  | nil => simp
  | cons r rest ih =>
    have hr := h.1
    rcases Nat.lt_or_ge k start with hlt | hge
    · rw [List.filter_cons_of_neg (by simp only [hr, decide_eq_true_eq]; omega), ih h.2 (by omega),
        show start-k = (start-(k+1))+1 by omega, List.drop_succ_cons]
    · obtain rfl : k = start := Nat.le_antisymm hk hge
      rw [Nat.sub_self, List.drop_zero, ← h.up_to]
      apply List.filter_congr
      intro q hq
      have hq := (h.bounds q hq).1
      simp only [decide_eq_decide]
      omega

end BinaChain.Paging
