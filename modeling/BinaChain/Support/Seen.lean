import Mathlib.Data.List.Nodup
import Mathlib.Data.List.Perm.Subperm
import Mathlib.Tactic.Common

/-!
# A bounded memory of what was seen

A full memory drops half of what it holds before it takes a new element. As
long as fewer distinct elements than its bound were ever marked, it has dropped
nothing and tells exactly which elements are new.
-/

set_option autoImplicit false

namespace BinaChain.Seen

variable {α : Type}

structure SeenSet (α : Type) where
  ids : List α
  maxSize : ℕ
  nodup : ids.Nodup

def SeenSet.empty (maxSize : ℕ) : SeenSet α := { ids := [], maxSize, nodup := List.nodup_nil }

/-- A memory holds some of what was marked, and all of it below its bound. -/
structure Remembers (s : SeenSet α) (marked : List α) : Prop where
  subset : s.ids ⊆ marked
  nodup : marked.Nodup
  complete : marked.length < s.maxSize → marked ⊆ s.ids

theorem remembers_empty (maxSize : ℕ) : Remembers (SeenSet.empty (α := α) maxSize) [] where
  subset := List.Subset.refl _
  nodup := List.nodup_nil
  complete _ := List.Subset.refl _

variable [DecidableEq α]

/-- What stays when an element is added; `order` is the order of an iteration. -/
def SeenSet.kept (s : SeenSet α) (order : List α) : List α :=
  if s.maxSize ≤ s.ids.length then s.ids.filter fun a => a ∉ order.take (s.maxSize/2) else s.ids

theorem SeenSet.kept_subset (s : SeenSet α) (order : List α) : s.kept order ⊆ s.ids := by
  unfold kept
  split
  · exact List.filter_sublist.subset
  · exact List.Subset.refl _

theorem SeenSet.kept_nodup (s : SeenSet α) (order : List α) : (s.kept order).Nodup := by
  unfold kept
  split
  · exact s.nodup.filter _
  · exact s.nodup

def SeenSet.mark (s : SeenSet α) (order : List α) (a : α) : Bool × SeenSet α :=
  if h : a ∈ s.ids then (false, s)
  else (true, { s with
    ids := a :: s.kept order
    nodup := List.nodup_cons.mpr ⟨fun hk => h (s.kept_subset order hk), s.kept_nodup order⟩ })

theorem SeenSet.mark_old {s : SeenSet α} {a : α} (order : List α) (h : a ∈ s.ids) :
    s.mark order a = (false, s) := by
  unfold mark
  rw [dif_pos h]

theorem SeenSet.mark_fst (s : SeenSet α) (order : List α) (a : α) :
    (s.mark order a).1 = true ↔ a ∉ s.ids := by
  unfold mark
  split <;> simp_all

theorem SeenSet.mark_ids {s : SeenSet α} {a : α} (order : List α) (h : a ∉ s.ids) :
    (s.mark order a).2.ids = a :: s.kept order := by
  unfold mark
  rw [dif_neg h]

@[simp] theorem SeenSet.mark_maxSize (s : SeenSet α) (order : List α) (a : α) :
    (s.mark order a).2.maxSize = s.maxSize := by
  unfold mark
  split <;> rfl

def noteMark (a : α) (marked : List α) : List α := if a ∈ marked then marked else a :: marked

theorem mem_noteMark {a b : α} {marked : List α} :
    b ∈ noteMark a marked ↔ b = a ∨ b ∈ marked := by
  unfold noteMark
  split
  · rename_i ha
    constructor
    · exact Or.inr
    · rintro (rfl | hb)
      · exact ha
      · exact hb
  · exact List.mem_cons

theorem length_le_noteMark (a : α) (marked : List α) :
    marked.length ≤ (noteMark a marked).length := by
  unfold noteMark
  split
  · exact Nat.le_refl _
  · exact Nat.le_succ _

theorem Remembers.kept_eq {s : SeenSet α} {marked : List α} (h : Remembers s marked)
    (hlt : marked.length < s.maxSize) (order : List α) : s.kept order = s.ids := by
  have hle : s.ids.length ≤ marked.length := (s.nodup.subperm h.subset).length_le
  unfold SeenSet.kept
  rw [if_neg (by omega)]

theorem Remembers.mark {s : SeenSet α} {marked : List α} (h : Remembers s marked)
    (order : List α) (a : α) : Remembers (s.mark order a).2 (noteMark a marked) := by
  by_cases ha : a ∈ s.ids
  · have hm : noteMark a marked = marked := if_pos (h.subset ha)
    rw [SeenSet.mark_old order ha, hm]
    exact h
  · constructor
    · rw [SeenSet.mark_ids order ha]
      intro b hb
      rcases List.mem_cons.mp hb with rfl | hb
      · exact mem_noteMark.mpr (Or.inl rfl)
      · exact mem_noteMark.mpr (Or.inr (h.subset (s.kept_subset order hb)))
    · unfold noteMark
      split
      · exact h.nodup
      · rename_i hm
        exact List.nodup_cons.mpr ⟨hm, h.nodup⟩
    · intro hlt
      rw [SeenSet.mark_maxSize] at hlt
      have hold : marked.length < s.maxSize := Nat.lt_of_le_of_lt (length_le_noteMark a marked) hlt
      rw [SeenSet.mark_ids order ha, h.kept_eq hold]
      intro b hb
      rcases mem_noteMark.mp hb with rfl | hb
      · exact List.mem_cons_self
      · exact List.mem_cons_of_mem _ (h.complete hold hb)

theorem Remembers.mark_fst {s : SeenSet α} {marked : List α} (h : Remembers s marked)
    (hlt : marked.length < s.maxSize) (order : List α) (a : α) :
    (s.mark order a).1 = true ↔ a ∉ marked := by
  rw [SeenSet.mark_fst]
  exact ⟨fun hn hm => hn (h.complete hlt hm), fun hn hm => hn (h.subset hm)⟩

end BinaChain.Seen
