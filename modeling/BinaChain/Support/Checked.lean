import Mathlib.Data.List.Basic

/-!
# Checked arithmetic and reverts

Contract code stops with an error at a failed requirement, at an arithmetic
result outside of its word and at an index outside of its array. Of each check
there is a lemma for what its success says and one for the errors it avoids.
-/

set_option autoImplicit false

namespace BinaChain.Checked

variable {ε α β : Type}

/-- The errors the language itself raises. -/
class Panics (ε : Type) where
  overflow : ε
  underflow : ε
  outOfBounds : ε

def uintEnd : ℕ := 1 <<< 256

def require (c : Prop) [Decidable c] (e : ε) : Except ε Unit := if c then .ok () else .error e

section Operations

variable [Panics ε]

def add (a b : ℕ) : Except ε ℕ := if a+b < uintEnd then .ok (a+b) else .error Panics.overflow

def sub (a b : ℕ) : Except ε ℕ := if b ≤ a then .ok (a-b) else .error Panics.underflow

def read (xs : List α) (i : ℕ) : Except ε α :=
  match xs[i]? with
  | some a => .ok a
  | none => .error Panics.outOfBounds

def assign (xs : List α) (i : ℕ) (a : α) : Except ε (List α) :=
  if i < xs.length then .ok (xs.set i a) else .error Panics.outOfBounds

end Operations

theorem pure_eq_ok {a b : α} : (pure a : Except ε α) = .ok b ↔ a = b := by
  simp [pure, Except.pure]

theorem bind_eq_ok {x : Except ε α} {f : α → Except ε β} {b : β} :
    (x >>= f) = .ok b ↔ ∃ a, x = .ok a ∧ f a = .ok b := by
  cases x <;> simp [bind, Except.bind]

theorem toOption_eq_some {x : Except ε α} {a : α} : x.toOption = some a ↔ x = .ok a := by
  cases x <;> simp [Except.toOption]

theorem mapError_eq_ok {ε' : Type} {f : ε → ε'} {x : Except ε α} {a : α} :
    x.mapError f = .ok a ↔ x = .ok a := by
  cases x <;> simp [Except.mapError]

theorem isOk_iff {x : Except ε α} : x.isOk = true ↔ ∃ a, x = .ok a := by
  cases x <;> simp [Except.isOk, Except.toBool]

theorem require_eq_ok {c : Prop} [Decidable c] {e : ε} {u : Unit} :
    require c e = .ok u ↔ c := by
  unfold require
  by_cases hc : c <;> simp [hc]

theorem reject_eq_ok {c : Prop} [Decidable c] {e : ε} {x : Except ε α} {a : α} :
    (if c then .error e else x) = .ok a ↔ ¬c ∧ x = .ok a := by
  by_cases h : c <;> simp [h]

theorem ite_eq_ok {c : Prop} [Decidable c] {x y : Except ε α} {a : α} :
    (if c then x else y) = .ok a ↔ (c ∧ x = .ok a) ∨ (¬ c ∧ y = .ok a) := by
  by_cases hc : c <;> simp [hc]

section Operations

variable [Panics ε]

theorem add_eq_ok {a b r : ℕ} : (add a b : Except ε ℕ) = .ok r ↔ a+b < uintEnd ∧ a+b = r := by
  unfold add
  by_cases h : a+b < uintEnd <;> simp [h]

theorem sub_eq_ok {a b r : ℕ} : (sub a b : Except ε ℕ) = .ok r ↔ b ≤ a ∧ a-b = r := by
  unfold sub
  by_cases h : b ≤ a <;> simp [h]

theorem read_eq_ok {xs : List α} {i : ℕ} {a : α} :
    (read xs i : Except ε α) = .ok a ↔ xs[i]? = some a := by
  unfold read
  cases xs[i]? <;> simp

theorem assign_eq_ok {xs ys : List α} {i : ℕ} {a : α} :
    (assign xs i a : Except ε (List α)) = .ok ys ↔ i < xs.length ∧ xs.set i a = ys := by
  unfold assign
  by_cases h : i < xs.length <;> simp [h]

end Operations

/-- If the computation fails, its error is not a bad one. -/
def Avoids (bad : ε → Prop) (x : Except ε α) : Prop := ∀ e, x = .error e → ¬ bad e

variable {bad : ε → Prop}

theorem Avoids.ok (a : α) : Avoids bad (.ok a : Except ε α) := fun _ h => nomatch h

theorem Avoids.pure (a : α) : Avoids bad (pure a : Except ε α) := .ok a

theorem Avoids.error {e : ε} (h : ¬ bad e) : Avoids bad (.error e : Except ε α) := by
  intro e' he
  obtain rfl := Except.error.inj he
  exact h

theorem Avoids.bind {x : Except ε α} {f : α → Except ε β} (hx : Avoids bad x)
    (hf : ∀ a, x = .ok a → Avoids bad (f a)) : Avoids bad (x >>= f) := by
  cases x with
  | error e => exact .error (hx e rfl)
  | ok a => exact hf a rfl

theorem Avoids.require {c : Prop} [Decidable c] {e : ε} (h : ¬ bad e) :
    Avoids bad (require c e) := by
  unfold Checked.require
  split
  · exact .ok ()
  · exact .error h

theorem Avoids.ite {c : Prop} [Decidable c] {x y : Except ε α} (hx : c → Avoids bad x)
    (hy : ¬ c → Avoids bad y) : Avoids bad (if c then x else y) := by
  split
  · exact hx ‹_›
  · exact hy ‹_›

section Operations

variable [Panics ε]

theorem Avoids.add {a b : ℕ} (h : ¬ bad Panics.overflow) : Avoids bad (add a b : Except ε ℕ) := by
  unfold Checked.add
  split
  · exact .ok _
  · exact .error h

theorem Avoids.sub {a b : ℕ} (h : b ≤ a) : Avoids bad (sub a b : Except ε ℕ) := by
  unfold Checked.sub
  rw [if_pos h]
  exact .ok _

theorem Avoids.read {xs : List α} {i : ℕ} (h : i < xs.length) :
    Avoids bad (read xs i : Except ε α) := by
  unfold Checked.read
  rw [List.getElem?_eq_getElem h]
  exact .ok _

theorem Avoids.assign {xs : List α} {i : ℕ} {a : α} (h : i < xs.length) :
    Avoids bad (assign xs i a : Except ε (List α)) := by
  unfold Checked.assign
  rw [if_pos h]
  exact .ok _

end Operations

end BinaChain.Checked
