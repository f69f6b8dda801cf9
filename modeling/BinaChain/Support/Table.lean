import Mathlib.Data.Int.Order.Basic
import Mathlib.Data.List.Nodup
import Mathlib.Data.List.Perm.Basic
import Mathlib.Data.List.Pairwise
import Mathlib.Order.Lattice
import Mathlib.Tactic.Common

/-!
# Tables of rows

A table is the list of its rows in the order in which they were written. An
insertion fails on a key that is taken, or replaces the rows it clashes with.
A query sorts by an integer key and so does not depend on the order of writing.
-/

set_option autoImplicit false

namespace BinaChain.Table

variable {α κ : Type} [DecidableEq κ]

def insertOrReplace (clash : α → α → Bool) (rows : List α) (row : α) : List α :=
  rows.filter (fun old => !clash row old)++[row]

def insert (key : α → κ) (rows : List α) (row : α) : Option (List α) :=
  if key row ∈ rows.map key then none else some (rows++[row])

def insertAll (key : α → κ) (rows new : List α) : Option (List α) := new.foldlM (insert key) rows

def orderBy (key : α → ℤ) (rows : List α) : List α := rows.mergeSort fun a b => key a ≤ key b

/-- A negative limit is none. -/
def limit (n : ℤ) (rows : List α) : List α := if n < 0 then rows else rows.take n.toNat

def maxOf (key : α → ℤ) (rows : List α) : Option ℤ := (rows.map key).max?

theorem insertAll_fresh {key : α → κ} {rows new : List α}
    (hfresh : ∀ row ∈ new, key row ∉ rows.map key) (hnew : (new.map key).Nodup) :
    insertAll key rows new = some (rows++new) := by
  induction new generalizing rows with
  | nil => simp [insertAll]
  | cons row new ih =>
    rw [List.map_cons, List.nodup_cons] at hnew
    have hrest : ∀ r ∈ new, key r ∉ (rows++[row]).map key := by
      intro r hr hmem
      rw [List.map_append, List.mem_append] at hmem
      rcases hmem with hmem | hmem
      · exact hfresh r (List.mem_cons_of_mem _ hr) hmem
      · rw [List.map_singleton, List.mem_singleton] at hmem
        exact hnew.1 (List.mem_map.mpr ⟨r, hr, hmem⟩)
    have hstep : insert key rows row = some (rows++[row]) :=
      if_neg (hfresh row List.mem_cons_self)
    rw [insertAll, List.foldlM_cons, hstep]
    refine (ih hrest hnew.2).trans ?_
    rw [List.append_assoc, List.singleton_append]

theorem mem_insertOrReplace {clash : α → α → Bool} {rows : List α} {row r : α} :
    r ∈ insertOrReplace clash rows row ↔ r = row ∨ (r ∈ rows ∧ clash row r = false) := by
  simp [insertOrReplace, or_comm]

omit [DecidableEq κ] in
theorem insertOrReplace_nodup {clash : α → α → Bool} {key : α → κ} {rows : List α} {row : α}
    (h : (rows.map key).Nodup) (hclash : ∀ r, key r = key row → clash row r = true) :
    ((insertOrReplace clash rows row).map key).Nodup := by
  unfold insertOrReplace
  rw [List.map_append, List.map_singleton, List.nodup_append]
  refine ⟨(List.filter_sublist.map key).nodup h, List.nodup_singleton _, ?_⟩
  rintro k hk k' hk' rfl
  obtain ⟨r, hr, hkey⟩ := List.mem_map.mp hk
  have hkeep := (List.mem_filter.mp hr).2
  rw [hclash r (hkey.trans (List.mem_singleton.mp hk'))] at hkeep
  exact Bool.noConfusion hkeep

theorem orderBy_of_pairwise {key : α → ℤ} {rows : List α}
    (h : rows.Pairwise fun a b => key a ≤ key b) : orderBy key rows = rows :=
  List.mergeSort_of_pairwise (h.imp fun hab => decide_eq_true hab)

theorem orderBy_eq {key : α → ℤ} {rows sorted : List α} (hkeys : (rows.map key).Nodup)
    (hsorted : sorted.Pairwise fun a b => key a < key b) (hmem : ∀ r, r ∈ sorted ↔ r ∈ rows) :
    orderBy key rows = sorted := by
  have hnodup : sorted.Nodup := hsorted.imp fun hab heq => by
    rw [heq] at hab
    exact lt_irrefl _ hab
  have hperm : sorted.Perm rows := (List.perm_ext_iff_of_nodup hnodup hkeys.of_map).mpr hmem
  have hle : sorted.Pairwise fun a b => decide (key a ≤ key b) = true :=
    hsorted.imp fun hab => decide_eq_true hab.le
  have hordered : (orderBy key rows).Pairwise fun a b => decide (key a ≤ key b) = true := by
    apply List.pairwise_mergeSort
    · intro a b c hab hbc
      exact decide_eq_true ((of_decide_eq_true hab).trans (of_decide_eq_true hbc))
    · intro a b
      simpa using le_total (key a) (key b)
  apply List.Perm.eq_of_pairwise _ hordered hle ((List.mergeSort_perm rows _).trans hperm.symm)
  intro a b ha hb hab hba
  have hkey : key a = key b := le_antisymm (of_decide_eq_true hab) (of_decide_eq_true hba)
  exact List.inj_on_of_nodup_map hkeys (List.mem_mergeSort.mp ha) ((hmem b).mp hb) hkey

theorem limit_ofNat (n : ℕ) (rows : List α) : limit n rows = rows.take n := by
  unfold limit
  rw [if_neg (by omega), Int.toNat_natCast]

theorem maxOf_eq_some {key : α → ℤ} {rows : List α} {k : ℤ} :
    maxOf key rows = some k ↔ (∃ r ∈ rows, key r = k) ∧ ∀ r ∈ rows, key r ≤ k := by
  unfold maxOf
  rw [List.max?_eq_some_iff, List.mem_map]
  simp

end BinaChain.Table
