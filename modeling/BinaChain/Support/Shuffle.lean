import Mathlib.Data.List.FinRange
import Mathlib.Data.List.Nodup
import Mathlib.Tactic.Common

/-!
# Shuffling by exchanges

From the last position down, each element changes places with one drawn at or
before it. The draws do not look at the elements, so a shuffle is a permutation
of positions, whatever the list repeats.
-/

set_option autoImplicit false

namespace BinaChain.Shuffle

variable {α β : Type}

def swapped (xs : List α) (i j : ℕ) : List α :=
  match xs[i]?, xs[j]? with
  | some a, some b => (xs.set j a).set i b
  | _, _ => xs

def descend (draw : ℕ → ℕ) : ℕ → List α → List α
  | 0, xs => xs
  | i+1, xs => descend draw i (swapped xs (i+1) (draw (i+1)))

theorem swapped_perm (xs : List α) (i j : ℕ) : (swapped xs i j).Perm xs := by
  unfold swapped
  split
  · rename_i a b ha hb
    obtain ⟨hi, rfl⟩ := List.getElem?_eq_some_iff.mp ha
    obtain ⟨hj, rfl⟩ := List.getElem?_eq_some_iff.mp hb
    exact List.set_set_perm hj hi
  · exact List.Perm.refl xs

theorem swapped_map (f : α → β) (xs : List α) (i j : ℕ) :
    swapped (xs.map f) i j = (swapped xs i j).map f := by
  unfold swapped
  rw [List.getElem?_map, List.getElem?_map]
  rcases xs[i]? with _ | a <;> rcases xs[j]? with _ | b <;> simp

theorem descend_perm (draw : ℕ → ℕ) (i : ℕ) (xs : List α) : (descend draw i xs).Perm xs := by
  induction i generalizing xs with
  | zero => exact List.Perm.refl xs
  | succ i ih => exact (ih _).trans (swapped_perm xs _ _)

theorem descend_map (f : α → β) (draw : ℕ → ℕ) (i : ℕ) (xs : List α) :
    descend draw i (xs.map f) = (descend draw i xs).map f := by
  induction i generalizing xs with
  | zero => rfl
  | succ i ih => rw [descend, swapped_map, ih, descend]

def Rearranged (xs ys : List α) : Prop :=
  ∃ places : List (Fin xs.length), places.Perm (List.finRange xs.length) ∧ ys = places.map xs.get

/-- Elements from distinct positions. -/
def Drawn (xs ys : List α) : Prop :=
  ∃ places : List (Fin xs.length), places.Nodup ∧ ys = places.map xs.get

theorem rearranged_refl (xs : List α) : Rearranged xs xs :=
  ⟨List.finRange xs.length, List.Perm.refl _, (List.map_get_finRange xs).symm⟩

theorem descend_rearranged (draw : ℕ → ℕ) (i : ℕ) (xs : List α) :
    Rearranged xs (descend draw i xs) := by
  refine ⟨descend draw i (List.finRange xs.length), descend_perm draw i _, ?_⟩
  rw [← descend_map, List.map_get_finRange]

theorem Rearranged.perm {xs ys : List α} (h : Rearranged xs ys) : ys.Perm xs := by
  obtain ⟨places, hperm, rfl⟩ := h
  have := hperm.map xs.get
  rwa [List.map_get_finRange] at this

theorem Rearranged.take {xs ys : List α} (h : Rearranged xs ys) (n : ℕ) :
    Drawn xs (ys.take n) := by
  obtain ⟨places, hperm, rfl⟩ := h
  have hnodup : places.Nodup := hperm.nodup_iff.mpr (List.nodup_finRange _)
  exact ⟨places.take n, hnodup.sublist (List.take_sublist n places), List.map_take.symm⟩

end BinaChain.Shuffle
