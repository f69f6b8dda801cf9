import Mathlib.Data.List.Basic
import Mathlib.Data.List.Induction
import Mathlib.Algebra.Order.Group.Nat
import Mathlib.Tactic.Common

/-!
# Fixed windows of time

Requests are counted in windows that open at their first request. How many are
let in during an arbitrary interval depends on two adjacent windows, and is
settled at each admission by the times that are still recent there.
-/

set_option autoImplicit false

namespace BinaChain.Windows

/-- No interval of this width, closed below and open above, holds more. -/
def Budgeted (width most : ℕ) (times : List ℕ) : Prop :=
  ∀ a, times.countP (fun t => decide (a ≤ t ∧ t < a+width)) ≤ most

def recent (width t : ℕ) (times : List ℕ) : ℕ := times.countP fun s => decide (t < s+width)

structure Pane where
  before : List ℕ
  times : List ℕ
  deriving DecidableEq

namespace Pane

def empty : Pane := ⟨[], []⟩

def next (width : ℕ) (p : Pane) (t : ℕ) : Pane :=
  match p.times with
  | [] => ⟨[], [t]⟩
  | start :: _ => if start+width ≤ t then ⟨p.times, [t]⟩ else ⟨p.before, p.times++[t]⟩

/-- The count of the open window has not come round to zero, and a request among
its first ones leaves room for those of the window before that are recent. -/
def Fits (width most size t : ℕ) (p : Pane) : Prop :=
  p.times.length < size ∧
    (p.times.length ≤ most → recent width t (p.before.take most)+p.times.length ≤ most)

instance (width most size t : ℕ) (p : Pane) : Decidable (p.Fits width most size t) :=
  inferInstanceAs (Decidable (_ ∧ _))

end Pane

def pane (width : ℕ) (times : List ℕ) : Pane := times.foldl (Pane.next width) Pane.empty

def letIn (width most size : ℕ) (acc : Pane × List ℕ) (t : ℕ) : Pane × List ℕ :=
  let p := acc.1.next width t
  (p, if p.times.length%size ≤ most then acc.2++[t] else acc.2)

def admitted (width most size : ℕ) (times : List ℕ) : List ℕ :=
  (times.foldl (letIn width most size) (Pane.empty, [])).2

def Spaced (width most size : ℕ) (times : List ℕ) : Prop :=
  ∀ pre t, pre++[t] <+: times → (pane width (pre++[t])).Fits width most size t

section
variable {width most size : ℕ}

theorem pane_append (times : List ℕ) (t : ℕ) :
    pane width (times++[t]) = (pane width times).next width t := by
  simp [pane]

theorem foldl_letIn (times : List ℕ) :
    times.foldl (letIn width most size) (Pane.empty, []) =
      (pane width times, admitted width most size times) := by
  induction times using List.reverseRecOn with
  | nil => rfl
  | append_singleton times t ih =>
    rw [admitted, pane_append, List.foldl_append, ih]
    rfl

theorem admitted_append (times : List ℕ) (t : ℕ) :
    admitted width most size (times++[t]) =
      if (pane width (times++[t])).times.length%size ≤ most then
        admitted width most size times++[t]
      else admitted width most size times := by
  rw [admitted, List.foldl_append, foldl_letIn, pane_append]
  rfl

theorem recent_append (t : ℕ) (xs ys : List ℕ) :
    recent width t (xs++ys) = recent width t xs+recent width t ys :=
  List.countP_append ..

theorem recent_eq_zero {t : ℕ} {xs : List ℕ} (h : ∀ s ∈ xs, s+width ≤ t) :
    recent width t xs = 0 := by
  apply List.countP_eq_zero.mpr
  intro s hs
  have := h s hs
  simpa using this

theorem recent_eq_length {t : ℕ} {xs : List ℕ} (h : ∀ s ∈ xs, t < s+width) :
    recent width t xs = xs.length := by
  apply List.countP_eq_length.mpr
  intro s hs
  simpa using h s hs

theorem Budgeted.of_append {xs ys : List ℕ} (h : Budgeted width most (xs++ys)) :
    Budgeted width most xs := by
  intro a
  have := h a
  rw [List.countP_append] at this
  omega

theorem budgeted_append {times : List ℕ} {t : ℕ} (hw : 0 < width) (h : ∀ s ∈ times, s ≤ t) :
    Budgeted width most (times++[t]) ↔
      Budgeted width most times ∧ recent width t times+1 ≤ most := by
  constructor
  · intro hb
    refine ⟨hb.of_append, ?_⟩
    have hlast := hb (t+1-width)
    have hsame : times.countP (fun s => decide (t+1-width ≤ s ∧ s < t+1-width+width)) =
        recent width t times := by
      apply List.countP_congr
      intro s hs
      have := h s hs
      simp only [decide_eq_true_eq]
      omega
    have hone : [t].countP (fun s => decide (t+1-width ≤ s ∧ s < t+1-width+width)) = 1 := by
      rw [List.countP_singleton, if_pos]
      simp only [decide_eq_true_eq]
      omega
    rw [List.countP_append, hsame, hone] at hlast
    exact hlast
  · rintro ⟨hb, hlast⟩ a
    rw [List.countP_append, List.countP_singleton]
    by_cases ht : a ≤ t ∧ t < a+width
    · rw [if_pos (by simpa using ht)]
      have hle : times.countP (fun s => decide (a ≤ s ∧ s < a+width)) ≤ recent width t times := by
        apply List.countP_mono_left
        intro s _
        simp only [decide_eq_true_eq]
        omega
      omega
    · rw [if_neg (by simpa using ht)]
      exact hb a

theorem admitted_subset (times : List ℕ) : admitted width most size times ⊆ times := by
  induction times using List.reverseRecOn with
  | nil => simp [admitted]
  | append_singleton times t ih =>
    rw [admitted_append]
    intro s hs
    by_cases hk : (pane width (times++[t])).times.length%size ≤ most
    · rw [if_pos hk] at hs
      rcases List.mem_append.mp hs with hs | hs
      · exact List.mem_append_left _ (ih hs)
      · exact List.mem_append_right _ hs
    · rw [if_neg hk] at hs
      exact List.mem_append_left _ (ih hs)

/-- What has been let in: some that no request of the open window finds recent,
then the first ones of the last two windows. -/
structure Layered (width most size : ℕ) (times : List ℕ) : Prop where
  layers : ∃ older, admitted width most size times =
    older++(pane width times).before.take most++(pane width times).times.take most ∧
    ∀ s ∈ older, ∀ u ∈ (pane width times).times, s+width ≤ u
  spread : ∀ start ∈ (pane width times).times.head?, ∀ u ∈ (pane width times).times,
    start ≤ u ∧ u < start+width
  before_le : ∀ s ∈ (pane width times).before, ∀ u ∈ (pane width times).times, s ≤ u
  mem_times : ∀ s ∈ (pane width times).times, s ∈ times
  opened : times ≠ [] → (pane width times).times ≠ []

theorem next_new {p : Pane} {t : ℕ} (h : ∀ start ∈ p.times.head?, start+width ≤ t) :
    p.next width t = ⟨p.times, [t]⟩ ∨ p.times = [] ∧ p.next width t = ⟨[], [t]⟩ := by
  rcases hp : p.times with _ | ⟨start, rest⟩
  · exact .inr ⟨rfl, by simp only [Pane.next, hp]⟩
  · left
    have := h start (by simp [hp])
    simp only [Pane.next, hp, if_pos this]

theorem next_same {p : Pane} {t start : ℕ} (h : start ∈ p.times.head?) (ht : t < start+width) :
    p.next width t = ⟨p.before, p.times++[t]⟩ := by
  rcases hp : p.times with _ | ⟨first, rest⟩
  · simp [hp] at h
  · obtain rfl : first = start := by simpa [hp] using h
    simp only [Pane.next, hp, if_neg (show ¬ first+width ≤ t by omega)]

theorem Layered.first (hw : 0 < width) (hm : 1 ≤ most) (hs : most < size) (t : ℕ) :
    Layered width most size [t] := by
  have hp : pane width [t] = ⟨[], [t]⟩ := rfl
  have ha : admitted width most size [t] = [t] := by
    have happend : admitted width most size ([]++[t]) = _ := admitted_append [] t
    rw [List.nil_append, hp] at happend
    rw [happend, List.length_singleton, Nat.mod_eq_of_lt (by omega), if_pos hm]
    rfl
  refine ⟨⟨[], ?_, by simp⟩, ?_, ?_, ?_, ?_⟩
  · rw [ha, hp, List.take_nil, List.take_of_length_le (by simpa using hm)]
    rfl
  · rw [hp]
    simpa using hw
  all_goals simp [hp]

theorem Layered.open_window {times : List ℕ} {t : ℕ} (h : Layered width most size times)
    (hw : 0 < width) (hm : 1 ≤ most) (hs : most < size) (hne : times ≠ [])
    (hle : ∀ s ∈ times, s ≤ t)
    (hp : pane width (times++[t]) = ⟨(pane width times).times, [t]⟩)
    (hnew : ∀ start ∈ (pane width times).times.head?, start+width ≤ t) :
    Layered width most size (times++[t]) := by
  obtain ⟨older, hadm, hold⟩ := h.layers
  have ha : admitted width most size (times++[t]) = admitted width most size times++[t] := by
    rw [admitted_append, hp, List.length_singleton, Nat.mod_eq_of_lt (by omega), if_pos hm]
  have hfirst : ∃ start, start ∈ (pane width times).times.head? ∧
      start ∈ (pane width times).times := by
    rcases hx : (pane width times).times with _ | ⟨start, rest⟩
    · exact absurd hx (h.opened hne)
    · exact ⟨start, by simp, by simp⟩
  obtain ⟨start, hhead, hmem⟩ := hfirst
  have hstart := hnew start hhead
  refine ⟨⟨older++(pane width times).before.take most, ?_, ?_⟩, ?_, ?_, ?_, ?_⟩
  · rw [ha, hadm, hp, List.take_of_length_le (l := [t]) (by simpa using hm)]
  · rw [hp]
    intro s hsm u hu
    obtain rfl : u = t := by simpa using hu
    rcases List.mem_append.mp hsm with hsm | hsm
    · have := hold s hsm start hmem
      omega
    · have := h.before_le s (List.mem_of_mem_take hsm) start hmem
      omega
  · rw [hp]
    simpa using hw
  · rw [hp]
    intro s hsm u hu
    obtain rfl : u = t := by simpa using hu
    exact hle s (h.mem_times s hsm)
  · simp [hp]
  · simp [hp]

theorem Layered.same_window {times : List ℕ} {t start : ℕ} (h : Layered width most size times)
    (hle : ∀ s ∈ times, s ≤ t) (hhead : start ∈ (pane width times).times.head?)
    (ht : t < start+width)
    (hp : pane width (times++[t]) = ⟨(pane width times).before, (pane width times).times++[t]⟩)
    (hlen : (pane width (times++[t])).times.length < size) :
    Layered width most size (times++[t]) := by
  obtain ⟨older, hadm, hold⟩ := h.layers
  have hmem : start ∈ (pane width times).times := List.mem_of_mem_head? hhead
  have hst := hle start (h.mem_times start hmem)
  refine ⟨⟨older, ?_, ?_⟩, ?_, ?_, ?_, ?_⟩
  · rw [admitted_append, Nat.mod_eq_of_lt hlen, hp, List.length_append, List.length_singleton]
    by_cases hk : (pane width times).times.length+1 ≤ most
    · rw [if_pos hk, hadm, List.take_of_length_le (l := (pane width times).times) (by omega),
        List.take_of_length_le (l := (pane width times).times++[t]) (by simpa using hk)]
      simp only [List.append_assoc]
    · rw [if_neg hk, hadm, List.take_append_of_le_length (by omega)]
  · rw [hp]
    intro s hsm u hu
    rcases List.mem_append.mp hu with hu | hu
    · exact hold s hsm u hu
    · have := hold s hsm start hmem
      have : u = t := by simpa using hu
      omega
  · rw [hp]
    intro first hfirst u hu
    obtain rfl : first = start := by
      rw [List.head?_append, Option.mem_def.mp hhead] at hfirst
      simpa [eq_comm] using hfirst
    rcases List.mem_append.mp hu with hu | hu
    · exact h.spread first hhead u hu
    · have : u = t := by simpa using hu
      omega
  · rw [hp]
    intro s hsm u hu
    rcases List.mem_append.mp hu with hu | hu
    · exact h.before_le s hsm u hu
    · have := h.before_le s hsm start hmem
      have : u = t := by simpa using hu
      omega
  · rw [hp]
    intro s hsm
    rcases List.mem_append.mp hsm with hsm | hsm
    · exact List.mem_append_left _ (h.mem_times s hsm)
    · exact List.mem_append_right _ hsm
  · simp [hp]

theorem layered_append {times : List ℕ} {t : ℕ} (h : times ≠ [] → Layered width most size times)
    (hw : 0 < width) (hm : 1 ≤ most) (hs : most < size) (hle : ∀ s ∈ times, s ≤ t)
    (hlen : (pane width (times++[t])).times.length < size) :
    Layered width most size (times++[t]) := by
  by_cases hne : times = []
  · subst hne
    exact Layered.first hw hm hs t
  · have h := h hne
    by_cases hsame : ∃ start ∈ (pane width times).times.head?, t < start+width
    · obtain ⟨start, hhead, ht⟩ := hsame
      have hp := (pane_append times t).trans (next_same hhead ht)
      exact h.same_window hle hhead ht hp hlen
    · have hnew : ∀ start ∈ (pane width times).times.head?, start+width ≤ t := by
        intro start hhead
        by_contra hlt
        exact hsame ⟨start, hhead, by omega⟩
      have hp : pane width (times++[t]) = ⟨(pane width times).times, [t]⟩ := by
        rw [pane_append]
        exact (next_new hnew).resolve_right fun he => h.opened hne he.1
      exact h.open_window hw hm hs hne hle hp hnew

theorem last_mem_times (times : List ℕ) (t : ℕ) : t ∈ (pane width (times++[t])).times := by
  rw [pane_append]
  rcases hp : (pane width times).times with _ | ⟨start, rest⟩
  · simp [Pane.next, hp]
  · simp only [Pane.next, hp]
    split <;> simp

theorem Layered.recent_admitted {times : List ℕ} {t : ℕ}
    (h : Layered width most size (times++[t])) :
    recent width t (admitted width most size (times++[t])) =
      recent width t ((pane width (times++[t])).before.take most)+
        min most (pane width (times++[t])).times.length := by
  obtain ⟨older, hadm, hold⟩ := h.layers
  have ht : t ∈ (pane width (times++[t])).times := last_mem_times times t
  have hlast : ∀ s ∈ (pane width (times++[t])).times, t < s+width := by
    intro s hs
    have hstart : ∃ start, start ∈ (pane width (times++[t])).times.head? := by
      rcases hx : (pane width (times++[t])).times with _ | ⟨first, rest⟩
      · simp [hx] at ht
      · exact ⟨first, by simp⟩
    obtain ⟨first, hfirst⟩ := hstart
    have := (h.spread first hfirst s hs).1
    have := (h.spread first hfirst t ht).2
    omega
  have hzero : recent width t older = 0 := recent_eq_zero fun s hs => hold s hs t ht
  have hall : recent width t ((pane width (times++[t])).times.take most) =
      min most (pane width (times++[t])).times.length := by
    rw [recent_eq_length fun s hs => hlast s (List.mem_of_mem_take hs), List.length_take]
  rw [hadm, recent_append, recent_append, hzero, hall, Nat.zero_add]

theorem recent_self (hw : 0 < width) (t : ℕ) : recent width t [t] = 1 := by
  rw [recent_eq_length (by simpa using hw), List.length_singleton]

theorem spaced_append {times : List ℕ} {t : ℕ} :
    Spaced width most size (times++[t]) ↔
      Spaced width most size times ∧ (pane width (times++[t])).Fits width most size t := by
  constructor
  · intro h
    exact ⟨fun pre s hpre => h pre s (hpre.trans (List.prefix_append _ _)),
      h times t List.prefix_rfl⟩
  · rintro ⟨h, hlast⟩ pre s hpre
    rcases List.prefix_concat_iff.mp hpre with he | hpre
    · obtain ⟨rfl, he'⟩ := List.append_inj' he rfl
      obtain rfl : s = t := by simpa using he'
      exact hlast
    · exact h pre s hpre

theorem Spaced.layered (hw : 0 < width) (hm : 1 ≤ most) (hs : most < size) {times : List ℕ}
    (hsorted : times.Pairwise (· ≤ ·)) (h : Spaced width most size times) (hne : times ≠ []) :
    Layered width most size times := by
  induction times using List.reverseRecOn with
  | nil => exact absurd rfl hne
  | append_singleton times t ih =>
    obtain ⟨hbefore, hlast⟩ := spaced_append.mp h
    obtain ⟨hpre, -, hle⟩ := List.pairwise_append.mp hsorted
    exact layered_append (ih hpre hbefore) hw hm hs (fun s hs' => hle s hs' t (by simp)) hlast.1

theorem Spaced.layered_append (hw : 0 < width) (hm : 1 ≤ most) (hs : most < size)
    {times : List ℕ} {t : ℕ} (hsorted : (times++[t]).Pairwise (· ≤ ·))
    (h : Spaced width most size times)
    (hlen : (pane width (times++[t])).times.length < size) :
    Layered width most size (times++[t]) := by
  obtain ⟨hpre, -, hle⟩ := List.pairwise_append.mp hsorted
  have hle' : ∀ s ∈ times, s ≤ t := fun s hs' => hle s hs' t (by simp)
  exact Windows.layered_append (h.layered hw hm hs hpre) hw hm hs hle' hlen

theorem Spaced.length_lt (hm : 1 ≤ most) (hs : most < size) {times : List ℕ}
    (h : Spaced width most size times) : (pane width times).times.length < size := by
  rcases List.eq_nil_or_concat' times with rfl | ⟨pre, t, rfl⟩
  · simp only [pane, Pane.empty, List.foldl_nil, List.length_nil]
    omega
  · exact (h pre t List.prefix_rfl).1

theorem Layered.not_budgeted {times : List ℕ} {t start : ℕ} (h : Layered width most size times)
    (hw : 0 < width) (hle : ∀ s ∈ times, s ≤ t)
    (hhead : start ∈ (pane width times).times.head?) (ht : t < start+width)
    (hlen : most ≤ (pane width times).times.length) :
    ¬ Budgeted width most (admitted width most size times++[t]) := by
  intro hb
  obtain ⟨older, hadm, -⟩ := h.layers
  have hlast := (budgeted_append hw fun s hs => hle s (admitted_subset times hs)).mp hb
  have hall : recent width t ((pane width times).times.take most) = most := by
    have hrecent : ∀ s ∈ (pane width times).times.take most, t < s+width := by
      intro s hs
      have := (h.spread start hhead s (List.mem_of_mem_take hs)).1
      omega
    rw [recent_eq_length hrecent, List.length_take, Nat.min_eq_left hlen]
  rw [hadm, recent_append, hall] at hlast
  omega

theorem length_lt_of_budgeted (hw : 0 < width) (hm : 1 ≤ most) (hs : most < size)
    {times : List ℕ} {t : ℕ} (hsorted : times.Pairwise (· ≤ ·)) (hle : ∀ s ∈ times, s ≤ t)
    (hbefore : Spaced width most size times)
    (hb : Budgeted width most (admitted width most size (times++[t]))) :
    (pane width (times++[t])).times.length < size := by
  by_contra hlen
  have hprev := hbefore.length_lt hm hs
  by_cases hsame : ∃ start ∈ (pane width times).times.head?, t < start+width
  · obtain ⟨start, hhead, ht⟩ := hsame
    have hp := (pane_append times t).trans (next_same hhead ht)
    have hk : (pane width (times++[t])).times.length = size := by
      rw [hp, List.length_append, List.length_singleton] at hlen ⊢
      omega
    rw [admitted_append, hk, Nat.mod_self, if_pos (Nat.zero_le _)] at hb
    have hne : times ≠ [] := by
      rintro rfl
      simp [pane, Pane.empty] at hhead
    have hlayers := hbefore.layered hw hm hs hsorted hne
    rw [hp, List.length_append, List.length_singleton] at hk
    exact hlayers.not_budgeted hw hle hhead ht (by omega) hb
  · have hnew : ∀ start ∈ (pane width times).times.head?, start+width ≤ t := by
      intro start hhead
      by_contra hlt
      exact hsame ⟨start, hhead, by omega⟩
    rw [pane_append] at hlen
    rcases next_new hnew with hp | ⟨-, hp⟩
    all_goals
      rw [hp, List.length_singleton] at hlen
      omega

theorem budgeted_step (hw : 0 < width) (hm : 1 ≤ most) (hs : most < size) {times : List ℕ} {t : ℕ}
    (hsorted : (times++[t]).Pairwise (· ≤ ·)) (hbefore : Spaced width most size times)
    (hlen : (pane width (times++[t])).times.length < size) :
    Budgeted width most (admitted width most size (times++[t])) ↔
      Budgeted width most (admitted width most size times) ∧
        ((pane width (times++[t])).times.length ≤ most →
          recent width t ((pane width (times++[t])).before.take most)+
            (pane width (times++[t])).times.length ≤ most) := by
  obtain ⟨hpre, -, hall⟩ := List.pairwise_append.mp hsorted
  have hle : ∀ s ∈ admitted width most size times, s ≤ t :=
    fun s hs' => hall s (admitted_subset times hs') t (by simp)
  have hrecent := (hbefore.layered_append hw hm hs hsorted hlen).recent_admitted
  rw [admitted_append, Nat.mod_eq_of_lt hlen] at hrecent ⊢
  by_cases hk : (pane width (times++[t])).times.length ≤ most
  · rw [if_pos hk, recent_append, recent_self hw, Nat.min_eq_right hk] at hrecent
    rw [if_pos hk, budgeted_append hw hle, hrecent]
    exact and_congr_right fun _ => ⟨fun h _ => h, fun h => h hk⟩
  · rw [if_neg hk]
    exact ⟨fun h => ⟨h, fun h' => absurd h' hk⟩, fun h => h.1⟩

/-- What is let in keeps the budget exactly when the requests are spaced. -/
theorem budgeted_admitted (hw : 0 < width) (hm : 1 ≤ most) (hs : most < size) (times : List ℕ)
    (hsorted : times.Pairwise (· ≤ ·)) :
    Budgeted width most (admitted width most size times) ↔ Spaced width most size times := by
  induction times using List.reverseRecOn with
  | nil => simp [Budgeted, Spaced, admitted, Pane.empty]
  | append_singleton times t ih =>
    obtain ⟨hpre, -, hall⟩ := List.pairwise_append.mp hsorted
    have hle : ∀ s ∈ times, s ≤ t := fun s hs' => hall s hs' t (by simp)
    constructor
    · intro hb
      have hbefore : Spaced width most size times := by
        rw [admitted_append] at hb
        split at hb
        · exact (ih hpre).mp hb.of_append
        · exact (ih hpre).mp hb
      have hlen := length_lt_of_budgeted hw hm hs hpre hle hbefore hb
      exact spaced_append.mpr
        ⟨hbefore, hlen, ((budgeted_step hw hm hs hsorted hbefore hlen).mp hb).2⟩
    · intro h
      obtain ⟨hbefore, hlen, hroom⟩ := spaced_append.mp h
      exact (budgeted_step hw hm hs hsorted hbefore hlen).mpr ⟨(ih hpre).mpr hbefore, hroom⟩

end

end BinaChain.Windows
