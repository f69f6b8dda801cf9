import Mathlib.Data.List.Basic
import Mathlib.Tactic.Common

/-!
# Chains and their truncation

A chain lists its blocks from the newest to the oldest; each block has the next
height and is valid on the blocks below it. Truncation at a height keeps what
was built up to there, and any state folded along the chain that last changed
at or below that height.
-/

set_option autoImplicit false

namespace BinaChain.Chain

variable {α β : Type} {height : β → ℕ} {Valid : List β → β → Prop}

def Linked (height : β → ℕ) (Valid : List β → β → Prop) : List β → Prop
  | [] => True
  | b :: rest => height b = rest.length+1 ∧ Valid rest b ∧ Linked height Valid rest

def cut (height : β → ℕ) (top : ℕ) (chain : List β) : List β :=
  chain.dropWhile fun b => top < height b

theorem cut_of_le {top : ℕ} {b : β} {rest : List β} (h : height b ≤ top) :
    cut height top (b :: rest) = b :: rest := by
  simp [cut, h]

theorem cut_of_lt {top : ℕ} {b : β} {rest : List β} (h : top < height b) :
    cut height top (b :: rest) = cut height top rest := by
  simp [cut, h]

theorem Linked.height_le {chain : List β} (h : Linked height Valid chain) {b : β}
    (hb : b ∈ chain) : 1 ≤ height b ∧ height b ≤ chain.length := by
  induction chain with
  | nil => simp at hb
  | cons a rest ih =>
    rcases List.mem_cons.mp hb with rfl | hb
    · rw [h.1, List.length_cons]
      omega
    · have := ih h.2.2 hb
      rw [List.length_cons]
      omega

theorem Linked.height_inj {chain : List β} (h : Linked height Valid chain) {a b : β}
    (ha : a ∈ chain) (hb : b ∈ chain) (he : height a = height b) : a = b := by
  induction chain with
  | nil => simp at ha
  | cons c rest ih =>
    have htop := h.1
    rcases List.mem_cons.mp ha with hac | ha' <;> rcases List.mem_cons.mp hb with hbc | hb'
    · rw [hac, hbc]
    · have := (h.2.2.height_le hb').2
      rw [hac] at he
      omega
    · have := (h.2.2.height_le ha').2
      rw [hbc] at he
      omega
    · exact ih h.2.2 ha' hb'

theorem Linked.heights {chain : List β} (h : Linked height Valid chain) :
    chain.map height = (List.range' 1 chain.length).reverse := by
  induction chain with
  | nil => rfl
  | cons a rest ih =>
    rw [List.map_cons, ih h.2.2, h.1, List.length_cons, List.range'_1_concat, List.reverse_append,
      List.reverse_singleton, List.singleton_append, Nat.add_comm]

theorem Linked.exists_height {chain : List β} (h : Linked height Valid chain) {k : ℕ}
    (hpos : 1 ≤ k) (hle : k ≤ chain.length) : ∃ b ∈ chain, height b = k := by
  have hk : k ∈ chain.map height := by
    rw [h.heights, List.mem_reverse, List.mem_range'_1]
    omega
  exact List.mem_map.mp hk

theorem Linked.cut_eq_filter {chain : List β} (h : Linked height Valid chain) (top : ℕ) :
    Chain.cut height top chain = chain.filter fun b => height b ≤ top := by
  induction chain with
  | nil => rfl
  | cons a rest ih =>
    by_cases ha : height a ≤ top
    · rw [cut_of_le ha]
      refine (List.filter_eq_self.mpr fun b hb => ?_).symm
      have hle := (h.height_le hb).2
      have htop := h.1
      rw [List.length_cons] at hle
      exact decide_eq_true (by omega)
    · rw [cut_of_lt (by omega), ih h.2.2, List.filter_cons_of_neg (by simpa using ha)]

theorem Linked.cut {chain : List β} (h : Linked height Valid chain) (top : ℕ) :
    Linked height Valid (cut height top chain) := by
  induction chain with
  | nil => trivial
  | cons a rest ih =>
    by_cases ha : height a ≤ top
    · rwa [cut_of_le ha]
    · rw [cut_of_lt (by omega)]
      exact ih h.2.2

theorem Linked.cut_length {chain : List β} (h : Linked height Valid chain) {top : ℕ}
    (hle : top ≤ chain.length) : (Chain.cut height top chain).length = top := by
  induction chain with
  | nil => simp_all [Chain.cut]
  | cons a rest ih =>
    have ha := h.1
    rw [List.length_cons] at hle
    by_cases htop : top = rest.length+1
    · rw [cut_of_le (by omega), List.length_cons, htop]
    · rw [cut_of_lt (by omega)]
      exact ih h.2.2 (by omega)

theorem Linked.cut_at {chain : List β} (h : Linked height Valid chain) {b : β} (hb : b ∈ chain) :
    ∃ rest, Chain.cut height (height b) chain = b :: rest := by
  induction chain with
  | nil => simp at hb
  | cons a rest ih =>
    rcases List.mem_cons.mp hb with rfl | hb
    · exact ⟨rest, cut_of_le (Nat.le_refl _)⟩
    · have hle := (h.2.2.height_le hb).2
      rw [cut_of_lt (by rw [h.1]; omega)]
      exact ih h.2.2 hb

theorem mem_cut {top : ℕ} {chain : List β} {b : β} (hb : b ∈ chain) (hle : height b ≤ top) :
    b ∈ cut height top chain := by
  induction chain with
  | nil => simp at hb
  | cons a rest ih =>
    by_cases ha : height a ≤ top
    · rwa [cut_of_le ha]
    · rw [cut_of_lt (by omega)]
      rcases List.mem_cons.mp hb with rfl | hb
      · exact absurd hle ha
      · exact ih hb

/-- A state folded along the chain from its oldest block on. -/
def follow (absorb : α → β → α) (start : α) : List β → α
  | [] => start
  | b :: rest => absorb (follow absorb start rest) b

theorem follow_cut {absorb : α → β → α} {since : α → ℕ}
    (hsince : ∀ a b, absorb a b = a ∨ since (absorb a b) = height b) {start : α} {top : ℕ}
    {chain : List β} (h : since (follow absorb start chain) ≤ top) :
    follow absorb start (cut height top chain) = follow absorb start chain := by
  induction chain with
  | nil => rfl
  | cons b rest ih =>
    by_cases hb : height b ≤ top
    · rw [cut_of_le hb]
    · rw [cut_of_lt (by omega)]
      rcases hsince (follow absorb start rest) b with hsame | hmoved
      · rw [follow, hsame] at h ⊢
        exact ih h
      · rw [follow, hmoved] at h
        exact absurd h hb

section Tips

variable {δ κ : Type} {ident : β → δ} {start : δ} {key : β → κ} (parent : κ → δ)
variable {chain chain' : List β}

def tip (ident : β → δ) (start : δ) : List β → δ
  | [] => start
  | b :: _ => ident b

theorem Linked.parent_tip (hv : ∀ rest b, Valid rest b → parent (key b) = tip ident start rest)
    {b : β} {rest : List β} (h : Linked height Valid (b :: rest)) :
    parent (key b) = tip ident start rest := hv _ _ h.2.1

/-- Where identities tell blocks apart, a tip has one past. -/
theorem Linked.same_tip (hv : ∀ rest b, Valid rest b → parent (key b) = tip ident start rest)
    (h : Linked height Valid chain) (h' : Linked height Valid chain')
    (hinj : ∀ b ∈ chain, ∀ b' ∈ chain', ident b = ident b' → key b = key b')
    (hstart : ∀ b ∈ chain, ident b ≠ start) (hstart' : ∀ b ∈ chain', ident b ≠ start)
    (htip : tip ident start chain = tip ident start chain') : chain.map key = chain'.map key := by
  induction chain generalizing chain' with
  | nil =>
    cases chain' with
    | nil => rfl
    | cons b' rest' => exact absurd htip.symm (hstart' b' List.mem_cons_self)
  | cons b rest ih =>
    cases chain' with
    | nil => exact absurd htip (hstart b List.mem_cons_self)
    | cons b' rest' =>
      have hkey : key b = key b' := hinj b List.mem_cons_self b' List.mem_cons_self htip
      have hrest : tip ident start rest = tip ident start rest' := by
        rw [← h.parent_tip parent hv, ← h'.parent_tip parent hv, hkey]
      rw [List.map_cons, List.map_cons, hkey]
      apply congrArg (key b' :: ·)
      exact ih h.2.2 h'.2.2
        (fun c hc c' hc' => hinj c (List.mem_cons_of_mem _ hc) c' (List.mem_cons_of_mem _ hc'))
        (fun c hc => hstart c (List.mem_cons_of_mem _ hc))
        (fun c hc => hstart' c (List.mem_cons_of_mem _ hc)) hrest

theorem mem_of_mem_cut {top : ℕ} {b : β} (hb : b ∈ cut height top chain) : b ∈ chain :=
  (List.dropWhile_sublist _).subset hb

theorem Linked.same_block (hv : ∀ rest b, Valid rest b → parent (key b) = tip ident start rest)
    (h : Linked height Valid chain) (h' : Linked height Valid chain')
    (hinj : ∀ b ∈ chain, ∀ b' ∈ chain', ident b = ident b' → key b = key b')
    (hstart : ∀ b ∈ chain, ident b ≠ start) (hstart' : ∀ b ∈ chain', ident b ≠ start)
    {b b' : β} (hb : b ∈ chain) (hb' : b' ∈ chain') (hident : ident b = ident b') :
    (Chain.cut height (height b) chain).map key =
      (Chain.cut height (height b') chain').map key := by
  obtain ⟨rest, hcut⟩ := h.cut_at hb
  obtain ⟨rest', hcut'⟩ := h'.cut_at hb'
  apply (h.cut (height b)).same_tip parent hv (h'.cut (height b'))
  · exact fun c hc c' hc' => hinj c (mem_of_mem_cut hc) c' (mem_of_mem_cut hc')
  · exact fun c hc => hstart c (mem_of_mem_cut hc)
  · exact fun c hc => hstart' c (mem_of_mem_cut hc)
  · rw [hcut, hcut']
    exact hident

end Tips

end BinaChain.Chain
