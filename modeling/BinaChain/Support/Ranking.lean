import Mathlib.Data.List.Perm.Basic
import Mathlib.Tactic.Common

/-!
# Elections by a strict order

The winner of a list is found in one pass that keeps the incumbent unless the
challenger is better. With a strict order nobody in the list beats the winner,
so two arrival orders can only elect candidates that tie.
-/

set_option autoImplicit false

namespace BinaChain.Ranking

variable {α : Type} {better : α → α → Bool}

structure StrictRanking (better : α → α → Bool) : Prop where
  irrefl : ∀ a, better a a = false
  trans : ∀ a b c, better a b → better b c → better a c

/-- `Iterator::reduce` with the comparison of the election. -/
def elect (better : α → α → Bool) : List α → Option α
  | [] => none
  | a :: l => some (l.foldl (fun winner c => if better c winner then c else winner) a)

theorem fold_unbeaten (hr : StrictRanking better) (l : List α) (a : α) :
    let w := l.foldl (fun winner c => if better c winner then c else winner) a
    w ∈ a :: l ∧ (∀ c ∈ a :: l, better c w = false) ∧ (w = a ∨ better w a) := by
  induction l generalizing a with
  | nil => simp [hr.irrefl]
  | cons b l ih =>
    simp only [List.foldl_cons]
    by_cases hb : better b a
    · obtain ⟨hmem, hmax, hup⟩ := ih b
      simp only [hb, if_true]
      refine ⟨List.mem_cons_of_mem a hmem, ?_, ?_⟩
      · intro c hc
        rcases List.mem_cons.mp hc with rfl | hc
        · rcases hup with he | hw
          · rw [he]
            by_contra hcb
            have := hr.trans _ _ _ hb (by simpa using hcb)
            simp [hr.irrefl] at this
          · by_contra hcw
            have := hr.trans _ _ _ (hr.trans _ _ _ hw hb) (by simpa using hcw)
            simp [hr.irrefl] at this
        · exact hmax c hc
      · rcases hup with he | hw
        · rw [he]; exact Or.inr hb
        · exact Or.inr (hr.trans _ _ _ hw hb)
    · obtain ⟨hmem, hmax, hup⟩ := ih a
      have hb' : better b a = false := by simpa using hb
      simp only [hb', Bool.false_eq_true, if_false]
      refine ⟨?_, ?_, hup⟩
      · rcases List.mem_cons.mp hmem with h | h
        · rw [h]; simp
        · exact List.mem_cons_of_mem a (List.mem_cons_of_mem b h)
      · intro c hc
        rcases List.mem_cons.mp hc with rfl | hc
        · exact hmax c (by simp)
        rcases List.mem_cons.mp hc with rfl | hc
        · rcases hup with he | hw
          · rw [he]; exact hb'
          · by_contra hcw
            have := hr.trans _ _ _ (by simpa using hcw) hw
            simp [hb'] at this
        · exact hmax c (List.mem_cons_of_mem a hc)

theorem elect_mem (hr : StrictRanking better) {l : List α} {w : α}
    (h : elect better l = some w) : w ∈ l := by
  cases l with
  | nil => simp [elect] at h
  | cons a l =>
    obtain rfl := Option.some.inj h
    exact (fold_unbeaten hr l a).1

theorem elect_unbeaten (hr : StrictRanking better) {l : List α} {w c : α}
    (h : elect better l = some w) (hc : c ∈ l) : better c w = false := by
  cases l with
  | nil => simp [elect] at h
  | cons a l =>
    obtain rfl := Option.some.inj h
    exact (fold_unbeaten hr l a).2.1 c hc

theorem elect_isSome (better : α → α → Bool) {l : List α} (h : l ≠ []) : ∃ w, elect better l = some w := by
  cases l with
  | nil => exact absurd rfl h
  | cons a l => exact ⟨_, rfl⟩

/-- Any order of the list elects somebody of the list whom nobody in it beats,
and always with the same label, if candidates of one identity have one label. -/
theorem elect_any_order {ι η : Type} {ident : α → ι} {label : α → η} (hr : StrictRanking better)
    (htie : ∀ a b, better a b = false → better b a = false → ident a = ident b)
    {l order : List α} (hp : order.Perm l)
    (hlabel : ∀ a ∈ l, ∀ b ∈ l, ident a = ident b → label a = label b) :
    (elect better order).map label = (elect better l).map label ∧
      (l ≠ [] → ∃ w ∈ l, elect better order = some w ∧ ∀ c ∈ l, better c w = false) := by
  by_cases hne : l = []
  · subst hne
    obtain rfl := hp.eq_nil
    exact ⟨rfl, fun h => absurd rfl h⟩
  · obtain ⟨v, hv⟩ := elect_isSome better hne
    obtain ⟨w, hw⟩ := elect_isSome better fun h => hne (List.Perm.nil_eq (h ▸ hp)).symm
    have hvl : v ∈ l := elect_mem hr hv
    have hwl : w ∈ l := hp.subset (elect_mem hr hw)
    have hunbeaten : ∀ c ∈ l, better c w = false := fun c hc =>
      elect_unbeaten hr hw (hp.symm.subset hc)
    have hident : ident w = ident v := htie w v (elect_unbeaten hr hv hwl) (hunbeaten v hvl)
    refine ⟨?_, fun _ => ⟨w, hwl, hw, hunbeaten⟩⟩
    rw [hw, hv]
    exact congrArg some (hlabel w hwl v hvl hident)

section Admission

variable {κ ι : Type} [DecidableEq κ] {key : α → κ} {ident : α → ι}

def Survives (key : α → κ) (order : List α) (a : α) : Prop :=
  order.find? (fun b => key b = key a) = some a

def Electorate (key : α → κ) (standing order v : List α) : Prop :=
  ∀ a, a ∈ v ↔ a ∈ standing ∨ Survives key order a

def OrderIndependent (better : α → α → Bool) (key : α → κ) (ident : α → ι)
    (standing arrivals : List α) : Prop :=
  ∀ o₁ o₂, o₁.Perm arrivals → o₂.Perm arrivals → ∀ v₁ v₂, Electorate key standing o₁ v₁ →
    Electorate key standing o₂ v₂ → (elect better v₁).map ident = (elect better v₂).map ident

/-- Somebody unbeaten already stands, or shares its key with nobody of another
identity. -/
def Settled (better : α → α → Bool) (key : α → κ) (ident : α → ι)
    (standing arrivals : List α) : Prop :=
  ∃ b ∈ standing++arrivals, (∀ c ∈ standing++arrivals, better c b = false) ∧
    (b ∈ standing ∨ ∀ c ∈ arrivals, key c = key b → ident c = ident b)

theorem Survives.mem {order : List α} {a : α} (h : Survives key order a) : a ∈ order :=
  List.mem_of_find?_eq_some h

theorem exists_survivor (key : α → κ) {order : List α} {a : α} (h : a ∈ order) :
    ∃ f, Survives key order f ∧ key f = key a := by
  cases hf : order.find? (fun b => key b = key a) with
  | none => simpa using List.find?_eq_none.mp hf a h
  | some f =>
    have hk : key f = key a := by simpa using List.find?_some hf
    refine ⟨f, ?_, hk⟩
    unfold Survives
    rw [hk]
    exact hf

theorem elect_ident (hr : StrictRanking better)
    (htie : ∀ a b, better a b = false → better b a = false → ident a = ident b)
    {v : List α} {b : α} (hb : b ∈ v) (hmax : ∀ c ∈ v, better c b = false) :
    (elect better v).map ident = some (ident b) := by
  obtain ⟨w, hw⟩ := elect_isSome better (List.ne_nil_of_mem hb)
  rw [hw]
  exact congrArg some (htie w b (hmax w (elect_mem hr hw)) (elect_unbeaten hr hw hb))

theorem elect_ident_congr (hr : StrictRanking better)
    (htie : ∀ a b, better a b = false → better b a = false → ident a = ident b)
    {v v' : List α} (h : ∀ a, a ∈ v ↔ a ∈ v') :
    (elect better v).map ident = (elect better v').map ident := by
  by_cases hne : v' = []
  · have hv : v = [] := List.eq_nil_iff_forall_not_mem.mpr fun a ha => by
      simpa [hne] using (h a).mp ha
    rw [hv, hne]
  · obtain ⟨w, hw⟩ := elect_isSome better hne
    rw [hw]
    exact elect_ident hr htie ((h w).mpr (elect_mem hr hw)) fun c hc =>
      elect_unbeaten hr hw ((h c).mp hc)

theorem Electorate.sub {standing order arrivals v : List α} (h : Electorate key standing order v)
    (ho : order.Perm arrivals) {c : α} (hc : c ∈ v) : c ∈ standing++arrivals := by
  rcases (h c).mp hc with hs | hs
  · exact List.mem_append_left _ hs
  · exact List.mem_append_right _ (ho.mem_iff.mp hs.mem)

theorem electorate_of_filter (key : α → κ) (standing order : List α) [DecidableEq α] :
    Electorate key standing order
      (standing++order.filter fun a => decide (order.find? (fun b => key b = key a) = some a)) := by
  intro a
  rw [List.mem_append, List.mem_filter, decide_eq_true_eq]
  exact ⟨fun h => h.imp id And.right, fun h => h.imp id fun hs => ⟨List.mem_of_find?_eq_some hs, hs⟩⟩

theorem Settled.independent (hr : StrictRanking better)
    (htie : ∀ a b, better a b = false → better b a = false → ident a = ident b)
    {standing arrivals : List α}
    (hid : ∀ a ∈ standing++arrivals, ∀ b ∈ standing++arrivals, ident a = ident b →
      ∀ c, better c a = better c b)
    (h : Settled better key ident standing arrivals) :
    OrderIndependent better key ident standing arrivals := by
  obtain ⟨b, hb, hmax, hcase⟩ := h
  have hfix : ∀ o v, o.Perm arrivals → Electorate key standing o v →
      (elect better v).map ident = some (ident b) := by
    intro o v ho hv
    rcases hcase with hs | hsame
    · exact elect_ident hr htie ((hv b).mpr (Or.inl hs)) fun c hc => hmax c (hv.sub ho hc)
    · rcases List.mem_append.mp hb with hs | ha
      · exact elect_ident hr htie ((hv b).mpr (Or.inl hs)) fun c hc => hmax c (hv.sub ho hc)
      · obtain ⟨f, hf, hk⟩ := exists_survivor key (ho.mem_iff.mpr ha)
        have hfa : f ∈ arrivals := ho.mem_iff.mp hf.mem
        have hident := hsame f hfa hk
        rw [← hident]
        refine elect_ident hr htie ((hv f).mpr (Or.inr hf)) fun c hc => ?_
        rw [hid f (List.mem_append_right _ hfa) b hb hident]
        exact hmax c (hv.sub ho hc)
  intro o₁ o₂ h₁ h₂ v₁ v₂ hv₁ hv₂
  rw [hfix o₁ v₁ h₁ hv₁, hfix o₂ v₂ h₂ hv₂]

theorem OrderIndependent.settled [DecidableEq α] [DecidableEq ι] (hr : StrictRanking better)
    (htie : ∀ a b, better a b = false → better b a = false → ident a = ident b)
    {standing arrivals : List α} (hne : standing++arrivals ≠ [])
    (hid : ∀ a ∈ standing++arrivals, ∀ b ∈ standing++arrivals, ident a = ident b →
      ∀ c, better c a = better c b)
    (h : OrderIndependent better key ident standing arrivals) :
    Settled better key ident standing arrivals := by
  obtain ⟨b, hb⟩ := elect_isSome better hne
  have hbmem := elect_mem hr hb
  have hbmax : ∀ c ∈ standing++arrivals, better c b = false := fun c hc => elect_unbeaten hr hb hc
  rcases List.mem_append.mp hbmem with hs | ha
  · exact ⟨b, hbmem, hbmax, Or.inl hs⟩
  -- one order lets the favourite in first, the other everybody else
  have ho₁ : (b :: arrivals.erase b).Perm arrivals := (List.perm_cons_erase ha).symm
  have ho₂ : (arrivals.filter (fun c => !decide (ident c = ident b))++
      arrivals.filter (fun c => decide (ident c = ident b))).Perm arrivals :=
    (List.perm_append_comm).trans (List.filter_append_perm _ _)
  have hv₁ := electorate_of_filter key standing (b :: arrivals.erase b)
  have hv₂ := electorate_of_filter key standing
    (arrivals.filter (fun c => !decide (ident c = ident b))++
      arrivals.filter (fun c => decide (ident c = ident b)))
  have heq := h _ _ ho₁ ho₂ _ _ hv₁ hv₂
  have hfirst : Survives key (b :: arrivals.erase b) b := by simp [Survives]
  rw [elect_ident hr htie ((hv₁ b).mpr (Or.inr hfirst)) fun c hc => hbmax c (hv₁.sub ho₁ hc)] at heq
  obtain ⟨w, hw, hwid⟩ := Option.map_eq_some_iff.mp heq.symm
  have hwv := elect_mem hr hw
  have hwall := hv₂.sub ho₂ hwv
  refine ⟨w, hwall, fun c hc => ?_, ?_⟩
  · rw [hid w hwall b hbmem hwid]
    exact hbmax c hc
  rcases (hv₂ w).mp hwv with hs | hsurv
  · exact Or.inl hs
  refine Or.inr fun c hc hk => ?_
  by_contra hne
  rw [hwid] at hne
  unfold Survives at hsurv
  rw [List.find?_append] at hsurv
  cases hf : (arrivals.filter (fun c => !decide (ident c = ident b))).find?
      (fun c => key c = key w) with
  | none =>
    have := List.find?_eq_none.mp hf c (List.mem_filter.mpr ⟨hc, by simpa using hne⟩)
    simp [hk] at this
  | some f =>
    rw [hf, Option.some_or] at hsurv
    obtain rfl := Option.some.inj hsurv
    have := (List.mem_filter.mp (List.mem_of_find?_eq_some hf)).2
    simp [hwid] at this

end Admission

end BinaChain.Ranking
