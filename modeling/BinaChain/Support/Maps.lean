import BinaChain.Support.Word
import Std.Data.ExtTreeMap.Lemmas
import Std.Data.ExtTreeSet.Lemmas
import Mathlib.Algebra.BigOperators.Group.List.Lemmas
import Mathlib.Algebra.GroupWithZero.Nat
import Mathlib.Data.List.Perm.Basic
import Mathlib.Data.List.Nodup

/-!
# Finite maps of natural numbers and their totals

The total of a map is the sum of its values. Inserting at a key replaces that
key's share of the total and touches no other.
-/

set_option autoImplicit false

namespace BinaChain.Maps
open Std

variable {κ : Type} [Ord κ] [TransOrd κ] [LawfulEqOrd κ]

abbrev Tally (κ : Type) [Ord κ] := ExtTreeMap κ ℕ

def total (m : Tally κ) : ℕ := (m.toList.map Prod.snd).sum

theorem getElem?_insert_eq {β : Type} (m : ExtTreeMap κ β) (k a : κ) (v : β) [DecidableEq κ] :
    (m.insert k v)[a]? = if k = a then some v else m[a]? := by
  rw [ExtTreeMap.getElem?_insert]
  simp [LawfulEqCmp.compare_eq_iff_eq]

theorem getElem?_erase_eq {β : Type} (m : ExtTreeMap κ β) (k a : κ) [DecidableEq κ] :
    (m.erase k)[a]? = if k = a then none else m[a]? := by
  rw [ExtTreeMap.getElem?_erase]
  simp [LawfulEqCmp.compare_eq_iff_eq]

theorem getElem?_erase_some {β : Type} {m : ExtTreeMap κ β} {k a : κ} {v : β} [DecidableEq κ] :
    (m.erase k)[a]? = some v ↔ k ≠ a ∧ m[a]? = some v := by
  rw [getElem?_erase_eq]
  split <;> simp_all

theorem getElem?_insert_fresh {β : Type} {m : ExtTreeMap κ β} {k a : κ} {v w : β} [DecidableEq κ]
    (h : m[k]? = none) : (m.insert k v)[a]? = some w ↔ k = a ∧ v = w ∨ m[a]? = some w := by
  rw [getElem?_insert_eq]
  split <;> simp_all

theorem size_erase_of_some {β : Type} {m : ExtTreeMap κ β} {k : κ} {v : β}
    (h : m[k]? = some v) : (m.erase k).size+1 = m.size := by
  have hpos : 0 < m.size := by
    rw [← ExtTreeMap.length_toList]
    exact List.length_pos_of_mem (ExtTreeMap.mem_toList_iff_getElem?_eq_some.mpr h)
  have hcontains : m.contains k = true := by
    rw [ExtTreeMap.contains_eq_isSome_getElem?, h]
    rfl
  rw [ExtTreeMap.size_erase, if_pos hcontains]
  omega

omit [LawfulEqOrd κ] in
theorem size_insert_of_none {β : Type} {m : ExtTreeMap κ β} {k : κ} (h : m[k]? = none) (v : β) :
    (m.insert k v).size = m.size+1 := by
  have hcontains : ¬ m.contains k = true := by
    rw [ExtTreeMap.contains_eq_isSome_getElem?, h]
    simp
  rw [ExtTreeMap.size_insert, if_neg hcontains]

theorem getD_insert_eq (m : Tally κ) (k a : κ) (v : ℕ) [DecidableEq κ] :
    (m.insert k v).getD a 0 = if k = a then v else m.getD a 0 := by
  rw [ExtTreeMap.getD_insert]
  simp [LawfulEqCmp.compare_eq_iff_eq]

theorem toList_nodup (m : Tally κ) : m.toList.Nodup := by
  have h := m.distinct_keys_toList
  exact h.imp fun {a b} hab heq => hab (by rw [heq]; exact ReflCmp.compare_self)

theorem toList_insert_perm (m : Tally κ) (k : κ) (v : ℕ) [DecidableEq κ] :
    (m.insert k v).toList.Perm ((k, v) :: m.toList.filter (fun p => p.1 ≠ k)) := by
  rw [List.perm_ext_iff_of_nodup (toList_nodup _)]
  · rintro ⟨a, w⟩
    rw [ExtTreeMap.mem_toList_iff_getElem?_eq_some, getElem?_insert_eq, List.mem_cons,
      List.mem_filter, ExtTreeMap.mem_toList_iff_getElem?_eq_some]
    by_cases h : k = a
    · subst h; simp [eq_comm]
    · have h' : a ≠ k := fun e => h e.symm
      simp [h, h']
  · rw [List.nodup_cons]
    exact ⟨by simp, (toList_nodup m).filter _⟩

theorem perm_of_mem (m : Tally κ) {k : κ} {v : ℕ} (h : m[k]? = some v) [DecidableEq κ] :
    m.toList.Perm ((k, v) :: m.toList.filter (fun p => p.1 ≠ k)) := by
  have hins : m.insert k v = m := by
    apply ExtTreeMap.ext_getElem?
    intro a
    rw [getElem?_insert_eq]
    by_cases ha : k = a
    · subst ha; simp [h]
    · simp [ha]
  simpa [hins] using toList_insert_perm m k v

theorem total_split (m : Tally κ) (k : κ) [DecidableEq κ] :
    total m = m.getD k 0+((m.toList.filter (fun p => p.1 ≠ k)).map Prod.snd).sum := by
  cases h : m[k]? with
  | some v =>
    unfold total
    rw [((perm_of_mem m h).map Prod.snd).sum_eq, List.map_cons, List.sum_cons,
      ExtTreeMap.getD_eq_getD_getElem?, h]
    rfl
  | none =>
    have hf : m.toList.filter (fun p => p.1 ≠ k) = m.toList := by
      apply List.filter_eq_self.mpr
      rintro ⟨a, w⟩ hp
      rw [ExtTreeMap.mem_toList_iff_getElem?_eq_some] at hp
      have hne : a ≠ k := by rintro rfl; simp [h] at hp
      simp [hne]
    rw [hf, ExtTreeMap.getD_eq_getD_getElem?, h]
    simp [total]

theorem total_insert (m : Tally κ) (k : κ) (v : ℕ) [DecidableEq κ] :
    total (m.insert k v)+m.getD k 0 = total m+v := by
  rw [total_split m k]
  unfold total
  rw [((toList_insert_perm m k v).map Prod.snd).sum_eq, List.map_cons, List.sum_cons]
  omega

theorem getD_le_total (m : Tally κ) (k : κ) [DecidableEq κ] : m.getD k 0 ≤ total m := by
  rw [total_split m k]
  omega

omit [LawfulEqOrd κ] in
theorem total_empty : total (∅ : Tally κ) = 0 := by
  rw [total, ExtTreeMap.toList_eq_nil_iff.mpr rfl]
  rfl

end BinaChain.Maps
