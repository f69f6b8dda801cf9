import Mathlib.Data.List.Nodup
import Mathlib.Logic.Function.Basic
import Mathlib.Tactic.Common

/-!
# Lists with an index of their elements

The index holds the place of every element, counted from one, and zero for what
is not listed. Elements are added at the end; the last one fills a gap.
-/

set_option autoImplicit false

namespace BinaChain.Listing

variable {α : Type}

def Indexed (xs : List α) (index1 : α → ℕ) : Prop := ∀ a i, index1 a = i+1 ↔ xs[i]? = some a

theorem indexed_nil : Indexed ([] : List α) fun _ => 0 := by
  intro a i
  simp

variable {xs : List α} {index1 : α → ℕ}

theorem Indexed.mem (h : Indexed xs index1) {a : α} : a ∈ xs ↔ index1 a ≠ 0 := by
  rw [List.mem_iff_getElem?]
  constructor
  · rintro ⟨i, hi⟩
    rw [(h a i).mpr hi]
    exact Nat.succ_ne_zero i
  · intro hne
    obtain ⟨i, hi⟩ := Nat.exists_eq_succ_of_ne_zero hne
    exact ⟨i, (h a i).mp hi⟩

theorem Indexed.lt (h : Indexed xs index1) {a : α} {i : ℕ} (ha : index1 a = i+1) :
    i < xs.length := by
  have hget := (h a i).mp ha
  exact (List.getElem?_eq_some_iff.mp hget).1

theorem Indexed.nodup (h : Indexed xs index1) : xs.Nodup := by
  apply List.nodup_iff_getElem?_ne_getElem?.mpr
  intro i j hij hj heq
  have hget : xs[j]? = some xs[j] := List.getElem?_eq_getElem hj
  have hi := (h xs[j] i).mpr (heq.trans hget)
  have hj' := (h xs[j] j).mpr hget
  omega

variable [DecidableEq α]

theorem Indexed.push (h : Indexed xs index1) {a : α} (ha : index1 a = 0) :
    Indexed (xs++[a]) (Function.update index1 a (xs.length+1)) := by
  have hout : a ∉ xs := fun hmem => h.mem.mp hmem ha
  intro b i
  by_cases hb : b = a
  · subst hb
    rw [Function.update_self, List.getElem?_append]
    split
    · rename_i hi
      constructor
      · intro heq
        omega
      · intro hget
        exact absurd (List.mem_of_getElem? hget) hout
    · rename_i hi
      rw [List.getElem?_singleton]
      split
      · constructor <;> intro _
        · rfl
        · omega
      · constructor
        · intro heq
          omega
        · intro hget
          cases hget
  · rw [Function.update_of_ne hb, List.getElem?_append]
    split
    · exact h b i
    · rename_i hi
      constructor
      · intro heq
        exact absurd (h.lt heq) hi
      · intro hget
        rw [List.getElem?_singleton] at hget
        split at hget
        · exact absurd (Option.some.inj hget).symm hb
        · cases hget

theorem Indexed.remove (h : Indexed xs index1) {a last : α} {k : ℕ} (ha : index1 a = k+1)
    (hlast : xs[xs.length-1]? = some last) :
    Indexed (xs.set k last).dropLast
      (Function.update (Function.update index1 last (k+1)) a 0) := by
  have hk := h.lt ha
  have hl : index1 last = xs.length := by
    rw [(h last (xs.length-1)).mpr hlast]
    omega
  intro b i
  rw [List.getElem?_dropLast, List.length_set, List.getElem?_set]
  by_cases hb : b = a
  · subst hb
    rw [Function.update_self]
    constructor
    · intro heq
      cases heq
    · intro hget
      split at hget
      · rename_i hi
        split at hget
        · rename_i hki
          obtain rfl : last = b := by simpa [hk] using hget
          omega
        · rename_i hki
          have := (h b i).mpr hget
          omega
      · cases hget
  · rw [Function.update_of_ne hb]
    by_cases hbl : b = last
    · subst hbl
      rw [Function.update_self]
      have hne : k ≠ xs.length-1 := by
        intro hkl
        subst hkl
        have hsame := (h a (xs.length-1)).mp ha
        rw [hlast] at hsame
        exact hb (Option.some.inj hsame)
      constructor
      · intro heq
        obtain rfl : k = i := by omega
        rw [if_pos (by omega), if_pos rfl, if_pos hk]
      · intro hget
        split at hget
        · rename_i hi
          split at hget
          · rename_i hki
            omega
          · have := (h b i).mpr hget
            omega
        · cases hget
    · rw [Function.update_of_ne hbl]
      constructor
      · intro heq
        have hi := h.lt heq
        have hget := (h b i).mp heq
        have hik : k ≠ i := by
          rintro rfl
          have hsame := (h a k).mp ha
          rw [hget] at hsame
          exact hb (Option.some.inj hsame)
        have hil : i ≠ xs.length-1 := by
          rintro rfl
          rw [hlast] at hget
          exact hbl (Option.some.inj hget).symm
        rw [if_pos (by omega), if_neg hik]
        exact hget
      · intro hget
        split at hget
        · split at hget
          · exact absurd (by simpa [hk] using hget : last = b).symm hbl
          · exact (h b i).mpr hget
        · cases hget

theorem Indexed.mem_of_mem_remove (h : Indexed xs index1) {a b last : α} {k : ℕ}
    (ha : index1 a = k+1) (hlast : xs[xs.length-1]? = some last)
    (hb : b ∈ (xs.set k last).dropLast) : b ∈ xs ∧ b ≠ a := by
  constructor
  · rcases List.mem_or_eq_of_mem_set (List.dropLast_subset _ hb) with hold | rfl
    · exact hold
    · exact List.mem_of_getElem? hlast
  · rintro rfl
    exact (h.remove ha hlast).mem.mp hb (Function.update_self ..)

end BinaChain.Listing
