import Mathlib.Data.Set.Function
import Mathlib.Logic.Function.Basic

/-!
# Maps that name each other's arguments

Storage that assigns values to keys reads a blank where nothing is assigned.
Two such maps, one in each direction, stay inverse to each other when they are
updated together.
-/

set_option autoImplicit false

namespace BinaChain.Pairing

variable {α β : Type} {u : α} {v : β}

/-- Every assigned value names the key that it is assigned to; the blanks are
`u` and `v`. -/
def Names (u : α) (v : β) (f : α → β) (g : β → α) : Prop := ∀ a, f a ≠ v → a ≠ u ∧ g (f a) = a

def Paired (u : α) (v : β) (f : α → β) (g : β → α) : Prop := Names u v f g ∧ Names v u g f

variable {f : α → β} {g : β → α}

theorem names_blank : Names u v (fun _ => v) g := fun _ h => absurd rfl h

theorem Names.injOn (h : Names u v f g) : Set.InjOn f {a | f a ≠ v} := by
  intro a ha a' ha' heq
  rw [← (h a ha).2, heq, (h a' ha').2]

theorem Paired.iff (h : Paired u v f g) {a : α} {b : β} (ha : a ≠ u) (hb : b ≠ v) :
    g b = a ↔ f a = b := by
  constructor
  · rintro rfl
    exact (h.2 b ha).2
  · rintro rfl
    exact (h.1 a hb).2

variable [DecidableEq α] [DecidableEq β]

theorem Names.link (h : Names u v f g) {a : α} {b : β} (ha : a ≠ u) (hb : g b = u) :
    Names u v (Function.update f a b) (Function.update g b a) := by
  intro x hx
  by_cases hxa : x = a
  · subst hxa
    rw [Function.update_self, Function.update_self]
    exact ⟨ha, rfl⟩
  · rw [Function.update_of_ne hxa] at hx ⊢
    obtain ⟨hne, hname⟩ := h x hx
    have hother : f x ≠ b := by
      intro heq
      rw [heq, hb] at hname
      exact hne hname.symm
    rw [Function.update_of_ne hother]
    exact ⟨hne, hname⟩

theorem Paired.link (h : Paired u v f g) {a : α} {b : β} (ha : a ≠ u) (hb : b ≠ v) (hfa : f a = v)
    (hgb : g b = u) : Paired u v (Function.update f a b) (Function.update g b a) :=
  ⟨h.1.link ha hgb, h.2.link hb hfa⟩

theorem Paired.unlink (h : Paired u v f g) (a : α) :
    Paired u v (Function.update f a v) (Function.update g (f a) u) := by
  constructor
  · intro x hx
    by_cases hxa : x = a
    · subst hxa
      exact absurd (Function.update_self _ _ _) hx
    · rw [Function.update_of_ne hxa] at hx ⊢
      have hother : f x ≠ f a := by
        intro heq
        have ha : f a ≠ v := by rwa [← heq]
        exact hxa (h.1.injOn hx ha heq)
      rw [Function.update_of_ne hother]
      exact h.1 x hx
  · intro y hy
    by_cases hya : y = f a
    · subst hya
      exact absurd (Function.update_self _ _ _) hy
    · rw [Function.update_of_ne hya] at hy ⊢
      obtain ⟨hne, hname⟩ := h.2 y hy
      have hother : g y ≠ a := by
        rintro rfl
        exact hya hname.symm
      rw [Function.update_of_ne hother]
      exact ⟨hne, hname⟩

end BinaChain.Pairing
