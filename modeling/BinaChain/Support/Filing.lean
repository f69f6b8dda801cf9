import Std.Data.ExtTreeMap.Lemmas
import Mathlib.Data.Finset.Card
import Mathlib.Data.Finset.Dedup
import Mathlib.Data.List.Nodup

/-!
# Items filed under their own keys

Filing a list puts each item under its key, the last one of a key staying;
removing a list clears the keys of its items. The size after filing counts the
keys that were free.
-/

set_option autoImplicit false

namespace BinaChain.Filing
open Std

variable {κ α : Type} [Ord κ] [TransOrd κ] [LawfulEqOrd κ] [DecidableEq κ]

def fileAll (key : α → κ) (items : List α) (m : ExtTreeMap κ α) : ExtTreeMap κ α :=
  items.foldl (fun m x => m.insert (key x) x) m

def removeAll (key : α → κ) (items : List α) (m : ExtTreeMap κ α) : ExtTreeMap κ α :=
  items.foldl (fun m x => m.erase (key x)) m

def Filed (key : α → κ) (m : ExtTreeMap κ α) (x : α) : Prop :=
  ∃ y, m[key x]? = some y ∧ key y = key x

variable {key : α → κ}

omit [DecidableEq κ] in
theorem Filed.insert {m : ExtTreeMap κ α} {x : α} (h : Filed key m x) (y : α) :
    Filed key (m.insert (key y) y) x := by
  unfold Filed
  by_cases hk : key y = key x
  · exact ⟨y, by simp [hk], hk⟩
  · obtain ⟨z, hz, hkey⟩ := h
    refine ⟨z, ?_, hkey⟩
    rw [ExtTreeMap.getElem?_insert, if_neg (by simpa using hk)]
    exact hz

omit [DecidableEq κ] in
theorem filed_insert (m : ExtTreeMap κ α) (x : α) : Filed key (m.insert (key x) x) x :=
  ⟨x, by simp, rfl⟩

omit [DecidableEq κ] in
theorem Filed.fileAll {x : α} (items : List α) : ∀ m : ExtTreeMap κ α, Filed key m x →
    Filed key (fileAll key items m) x := by
  induction items with
  | nil => exact fun _ h => h
  | cons y items ih => exact fun m h => ih _ (h.insert y)

omit [DecidableEq κ] in
theorem filed_fileAll {x : α} {items : List α} (hx : x ∈ items) :
    ∀ m : ExtTreeMap κ α, Filed key (fileAll key items m) x := by
  induction items with
  | nil => exact absurd hx (List.not_mem_nil)
  | cons y items ih =>
    intro m
    rcases List.mem_cons.mp hx with rfl | hx
    · exact Filed.fileAll items _ (filed_insert m x)
    · exact ih hx _

omit [DecidableEq κ] in
theorem Filed.removeAll {x : α} (items : List α) : ∀ m : ExtTreeMap κ α, Filed key m x →
    (∃ y ∈ items, key y = key x) ∨ Filed key (removeAll key items m) x := by
  induction items with
  | nil => exact fun _ h => Or.inr h
  | cons y items ih =>
    intro m h
    by_cases hk : key y = key x
    · exact Or.inl ⟨y, List.mem_cons_self, hk⟩
    · have hkept : Filed key (m.erase (key y)) x := by
        obtain ⟨z, hz, hkey⟩ := h
        refine ⟨z, ?_, hkey⟩
        rw [ExtTreeMap.getElem?_erase, if_neg (by simpa using hk)]
        exact hz
      rcases ih _ hkept with ⟨w, hw, he⟩ | hin
      · exact Or.inl ⟨w, List.mem_cons_of_mem _ hw, he⟩
      · exact Or.inr hin

theorem getElem?_removeAll (items : List α) (k : κ) : ∀ m : ExtTreeMap κ α,
    (removeAll key items m)[k]? = if k ∈ items.map key then none else m[k]? := by
  induction items with
  | nil => intro m; simp [Filing.removeAll]
  | cons x items ih =>
    intro m
    show (Filing.removeAll key items (m.erase (key x)))[k]? = _
    rw [ih, ExtTreeMap.getElem?_erase, List.map_cons]
    simp only [LawfulEqCmp.compare_eq_iff_eq, List.mem_cons]
    by_cases hx : key x = k
    · simp [hx]
    · have hx' : k ≠ key x := fun e => hx e.symm
      simp [hx, hx']

theorem mem_removeAll {items : List α} {k : κ} {m : ExtTreeMap κ α} :
    k ∈ removeAll key items m ↔ k ∉ items.map key ∧ k ∈ m := by
  rw [ExtTreeMap.mem_iff_isSome_getElem?, ExtTreeMap.mem_iff_isSome_getElem?, getElem?_removeAll]
  split <;> simp_all

omit [DecidableEq κ] in
theorem getElem?_fileAll {x : α} (items : List α) (k : κ) : ∀ m : ExtTreeMap κ α,
    (fileAll key items m)[k]? = some x → (x ∈ items ∧ key x = k) ∨ m[k]? = some x := by
  induction items with
  | nil => exact fun _ h => Or.inr h
  | cons y items ih =>
    intro m h
    rcases ih _ h with ⟨hx, hk⟩ | hin
    · exact Or.inl ⟨List.mem_cons_of_mem _ hx, hk⟩
    · rw [ExtTreeMap.getElem?_insert] at hin
      by_cases hy : key y = k
      · rw [if_pos (by simpa using hy)] at hin
        obtain rfl := Option.some.inj hin
        exact Or.inl ⟨List.mem_cons_self, hy⟩
      · rw [if_neg (by simpa using hy)] at hin
        exact Or.inr hin

omit [DecidableEq κ] in
theorem mem_fileAll {k : κ} (items : List α) : ∀ m : ExtTreeMap κ α,
    k ∈ fileAll key items m ↔ k ∈ items.map key ∨ k ∈ m := by
  induction items with
  | nil => intro m; simp [Filing.fileAll]
  | cons x items ih =>
    intro m
    show k ∈ Filing.fileAll key items (m.insert (key x) x) ↔ _
    rw [ih, ExtTreeMap.mem_insert, LawfulEqCmp.compare_eq_iff_eq, List.map_cons, List.mem_cons,
      eq_comm, ← or_assoc, or_comm (b := k = key x)]

/-- The keys of the items that the map does not have. -/
def freeKeys (key : α → κ) (items : List α) (m : ExtTreeMap κ α) : Finset κ :=
  (items.map key).toFinset.filter fun k => k ∉ m

theorem size_fileAll (items : List α) : ∀ m : ExtTreeMap κ α,
    (fileAll key items m).size = m.size+(freeKeys key items m).card := by
  induction items with
  | nil =>
    intro m
    simp [fileAll, freeKeys]
  | cons x items ih =>
    intro m
    have hrest : freeKeys key items (m.insert (key x) x) = (freeKeys key items m).erase (key x) := by
      ext k
      simp only [freeKeys, Finset.mem_filter, Finset.mem_erase, ExtTreeMap.mem_insert,
        LawfulEqCmp.compare_eq_iff_eq, not_or]
      exact ⟨fun h => ⟨fun e => h.2.1 e.symm, h.1, h.2.2⟩, fun h => ⟨h.2.1, fun e => h.1 e.symm,
        h.2.2⟩⟩
    show (fileAll key items (m.insert (key x) x)).size = _
    rw [ih, hrest, ExtTreeMap.size_insert]
    by_cases hx : key x ∈ m
    · have hsame : freeKeys key (x :: items) m = freeKeys key items m := by
        ext k
        simp only [freeKeys, List.map_cons, List.toFinset_cons, Finset.mem_filter,
          Finset.mem_insert]
        exact ⟨fun h => ⟨h.1.resolve_left fun e => h.2 (e ▸ hx), h.2⟩, fun h => ⟨Or.inr h.1, h.2⟩⟩
      have hout : key x ∉ freeKeys key items m := by
        simp [freeKeys, hx]
      rw [if_pos (ExtTreeMap.contains_iff_mem.mpr hx), hsame, Finset.erase_eq_of_notMem hout]
    · have hmore : freeKeys key (x :: items) m =
          insert (key x) ((freeKeys key items m).erase (key x)) := by
        ext k
        simp only [freeKeys, List.map_cons, List.toFinset_cons, Finset.mem_filter,
          Finset.mem_insert, Finset.mem_erase]
        constructor
        · rintro ⟨he | hk, hm⟩
          · exact Or.inl he
          · by_cases he : k = key x
            · exact Or.inl he
            · exact Or.inr ⟨he, hk, hm⟩
        · rintro (rfl | ⟨-, hk, hm⟩)
          · exact ⟨Or.inl rfl, hx⟩
          · exact ⟨Or.inr hk, hm⟩
      rw [if_neg (mt ExtTreeMap.contains_iff_mem.mp hx), hmore,
        Finset.card_insert_of_notMem (Finset.notMem_erase (key x) _)]
      omega

omit [LawfulEqOrd κ] [DecidableEq κ] in
theorem size_removeAll_le (items : List α) : ∀ m : ExtTreeMap κ α,
    (removeAll key items m).size ≤ m.size := by
  induction items with
  | nil => exact fun _ => Nat.le_refl _
  | cons x items ih => exact fun m => Nat.le_trans (ih _) ExtTreeMap.size_erase_le

theorem size_le_of_embedding {ι β : Type} [Ord ι] [TransOrd ι] [LawfulEqOrd ι]
    {m : ExtTreeMap ι β} {m' : ExtTreeMap κ α} {f : ι × β → κ}
    (hin : ∀ i b, m[i]? = some b → f (i, b) ∈ m')
    (hinj : ∀ i b i' b', m[i]? = some b → m[i']? = some b' → f (i, b) = f (i', b') → i = i') :
    m.size ≤ m'.size := by
  have hmem : ∀ p ∈ m.toList, m[p.1]? = some p.2 := fun p hp =>
    ExtTreeMap.mem_toList_iff_getElem?_eq_some.mp hp
  have hnodup : (m.toList.map f).Nodup := by
    rw [List.Nodup, List.pairwise_map]
    refine (List.Pairwise.imp_of_mem ?_ m.distinct_keys_toList)
    rintro ⟨i, b⟩ ⟨i', b'⟩ hp hp' hne he
    exact hne (by rw [hinj i b i' b' (hmem _ hp) (hmem _ hp') he]; exact ReflCmp.compare_self)
  have hsub : (m.toList.map f).toFinset ⊆ m'.keys.toFinset := by
    intro k hk
    obtain ⟨⟨i, b⟩, hp, rfl⟩ := List.mem_map.mp (List.mem_toFinset.mp hk)
    exact List.mem_toFinset.mpr (ExtTreeMap.mem_keys.mpr (hin i b (hmem _ hp)))
  have hcard := Finset.card_le_card hsub
  rw [List.toFinset_card_of_nodup hnodup, List.length_map, ExtTreeMap.length_toList] at hcard
  have hkeys : m'.keys.toFinset.card ≤ m'.size := by
    rw [← ExtTreeMap.length_keys]
    exact List.toFinset_card_le _
  exact Nat.le_trans hcard hkeys

end BinaChain.Filing
