import BinaChain.Node.Store
import Mathlib.Order.Interval.Finset.Nat
import Mathlib.Data.Finset.Dedup

/-!
# Rows in a range of heights

A row lies under its own height. A query for a range that leaves room for each
of its heights returns the rows of the range, no height twice.
-/

set_option autoImplicit false

namespace BinaChain.Range
open BinaChain.Store Std

def Keyed (s : BlockStore) : Prop := ∀ (height : ℕ) (b : BlockRecord),
  s.get height = some b → b.height = height

theorem keyed_empty : Keyed .empty := by
  intro height b h
  simp [BlockStore.get, BlockStore.empty] at h

theorem Keyed.congr {s s' : BlockStore} (h : Keyed s) (hb : s'.blocks = s.blocks) : Keyed s' := by
  intro height b hg
  rw [BlockStore.get_congr hb] at hg
  exact h height b hg

theorem Keyed.insertBlock {s : BlockStore} (h : Keyed s) (r : BlockRecord) :
    Keyed (s.insertBlock r) := by
  intro height b hg
  rcases BlockStore.get_insertBlock hg with ⟨hh, rfl⟩ | ⟨-, hk⟩
  · exact hh.symm
  · exact h height b hk

theorem Keyed.rollbackAbove {s : BlockStore} (h : Keyed s) (top : ℕ) :
    Keyed (s.rollbackAbove top) := by
  intro height b hg
  rw [BlockStore.get_rollbackAbove] at hg
  split at hg
  · exact h height b hg
  · cases hg

/-- The rows a query ranges over before its limit cuts them off. -/
def between (s : BlockStore) (start stop : ℕ) : List BlockRecord :=
  (s.blocks.toList.map Prod.snd).filter fun r => start ≤ r.height ∧ r.height ≤ stop

theorem heights_toList {s : BlockStore} (h : Keyed s) :
    (s.blocks.toList.map Prod.snd).map BlockRecord.height = s.blocks.toList.map Prod.fst := by
  rw [List.map_map]
  apply List.map_congr_left
  rintro ⟨height, b⟩ hb
  exact h height b (ExtTreeMap.mem_toList_iff_getElem?_eq_some.mp hb)

theorem between_nodup {s : BlockStore} (h : Keyed s) (start stop : ℕ) :
    ((between s start stop).map BlockRecord.height).Nodup := by
  have hkeys : (s.blocks.toList.map Prod.fst).Nodup := by
    rw [List.Nodup, List.pairwise_map]
    exact s.blocks.distinct_keys_toList.imp fun hab he => hab (by rw [he]; exact ReflCmp.compare_self)
  rw [← heights_toList h] at hkeys
  exact hkeys.sublist (List.filter_sublist.map _)

theorem mem_between {s : BlockStore} (h : Keyed s) {start stop : ℕ} {b : BlockRecord} :
    b ∈ between s start stop ↔ s.get b.height = some b ∧ start ≤ b.height ∧ b.height ≤ stop := by
  simp only [between, List.mem_filter, decide_eq_true_eq, List.mem_map, Prod.exists,
    exists_eq_right, ExtTreeMap.mem_toList_iff_getElem?_eq_some]
  constructor
  · rintro ⟨⟨height, hb⟩, hrange⟩
    have he : b.height = height := h height b hb
    rw [he]
    rw [he] at hrange
    exact ⟨hb, hrange⟩
  · rintro ⟨hb, hrange⟩
    exact ⟨⟨b.height, hb⟩, hrange⟩

theorem between_length {s : BlockStore} (h : Keyed s) (start stop : ℕ) :
    (between s start stop).length ≤ stop+1-start := by
  have hsub : ((between s start stop).map BlockRecord.height).toFinset ⊆ Finset.Icc start stop := by
    intro height hin
    obtain ⟨b, hb, rfl⟩ := List.mem_map.mp (List.mem_toFinset.mp hin)
    exact Finset.mem_Icc.mpr ((mem_between h).mp hb).2
  have hcard := Finset.card_le_card hsub
  rwa [List.toFinset_card_of_nodup (between_nodup h start stop), List.length_map,
    Nat.card_Icc] at hcard

theorem getRange_eq {s : BlockStore} (h : Keyed s) {start stop limit : ℕ}
    (hl : stop+1-start ≤ limit) : s.getRange start stop limit = between s start stop :=
  List.take_of_length_le (Nat.le_trans (between_length h start stop) hl)

end BinaChain.Range
