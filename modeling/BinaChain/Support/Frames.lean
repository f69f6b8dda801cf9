import BinaChain.Support.Machine
import Mathlib.Data.List.Basic

/-!
# Machines that call out

A step may hand control to code outside of the machine before it ends. That
code takes any further steps, in frames of its own, and returns or reverts; a
revert restores the state in which the frame was opened.
-/

set_option autoImplicit false

namespace BinaChain.Frames
open BinaChain.Machine

variable {σ ε γ : Type}

structure Service (σ ε : Type) where
  step : σ → ε → Option σ
  /-- Whether the step hands control over. -/
  opens : σ → ε → Bool
  /-- What the step still does once control is back. -/
  finish : ε → σ → σ
  /-- Whether the event happens only outside of every frame. -/
  outermost : ε → Bool

/-- The state, and of every open frame the state before it and the step it
belongs to; a frame without a step is one of the outside. -/
structure Framed (σ ε : Type) where
  current : σ
  frames : List (σ × Option ε)

def Framed.start (s : σ) : Framed σ ε := { current := s, frames := [] }

inductive Move (ε : Type) where
  | take (e : ε)
  | enter
  | leave (ok : Bool)

def Service.resume (M : Service σ ε) : Option ε → σ → σ
  | some e, s => M.finish e s
  | none, s => s

def Service.move (M : Service σ ε) (x : Framed σ ε) : Move ε → Option (Framed σ ε)
  | .take e =>
    if M.outermost e && !x.frames.isEmpty then none
    else (M.step x.current e).map fun t =>
      { current := t
        frames := if M.opens x.current e then (x.current, some e) :: x.frames else x.frames }
  | .enter => some { x with frames := (x.current, none) :: x.frames }
  | .leave ok =>
    match x.frames with
    | [] => none
    | (before, e) :: rest =>
      some { current := if ok then M.resume e x.current else before, frames := rest }

def onTakes (ok : σ → ε → Prop) (x : Framed σ ε) : Move ε → Prop
  | .take e => ok x.current e
  | _ => True

abbrev Service.RunsIn (M : Service σ ε) (ok : σ → ε → Prop) (s : σ) (x : Framed σ ε) : Prop :=
  Run M.move (onTakes ok) (.start s) x

abbrev Service.Runs (M : Service σ ε) (s : σ) (x : Framed σ ε) : Prop :=
  Reach M.move (.start s) x

theorem Service.Runs.unrestricted {M : Service σ ε} {s : σ} {x : Framed σ ε} (h : M.Runs s x) :
    M.RunsIn (fun _ _ => True) s x :=
  h.mono fun _ v _ => by cases v <;> trivial

theorem Service.take_eq_some {M : Service σ ε} {x y : Framed σ ε} {e : ε}
    (h : M.move x (.take e) = some y) :
    M.step x.current e = some y.current ∧
      y.frames = if M.opens x.current e then (x.current, some e) :: x.frames else x.frames := by
  simp only [Service.move] at h
  split at h
  · cases h
  obtain ⟨t, ht, rfl⟩ := Option.map_eq_some_iff.mp h
  exact ⟨ht, rfl⟩

/-- A property of the current state and of every state a revert can restore. -/
def Everywhere (P : σ → Prop) (x : Framed σ ε) : Prop :=
  P x.current ∧ ∀ f ∈ x.frames, P f.1

theorem Service.everywhere_move {M : Service σ ε} {P : σ → Prop} {ok : σ → ε → Prop}
    (hstep : ∀ s e t, P s → ok s e → M.step s e = some t → P t)
    (hfinish : ∀ e s, P s → P (M.finish e s))
    {x y : Framed σ ε} {v : Move ε} (h : Everywhere P x) (hok : onTakes ok x v)
    (hm : M.move x v = some y) : Everywhere P y := by
  cases v with
  | take e =>
    obtain ⟨hs, hf⟩ := Service.take_eq_some hm
    constructor
    · exact hstep _ _ _ h.1 hok hs
    · intro f hmem
      rw [hf] at hmem
      by_cases ho : M.opens x.current e
      · rw [if_pos ho] at hmem
        rcases List.mem_cons.mp hmem with rfl | hmem
        · exact h.1
        · exact h.2 f hmem
      · rw [if_neg ho] at hmem
        exact h.2 f hmem
  | enter =>
    obtain rfl := Option.some.inj hm
    constructor
    · exact h.1
    · intro f hmem
      rcases List.mem_cons.mp hmem with rfl | hmem
      · exact h.1
      · exact h.2 f hmem
  | leave ok =>
    simp only [Service.move] at hm
    split at hm
    · cases hm
    rename_i before e rest hframes
    obtain rfl := Option.some.inj hm
    have hold : ∀ f ∈ (before, e) :: rest, P f.1 := by
      rw [← hframes]
      exact h.2
    constructor
    · cases ok with
      | false => exact hold _ List.mem_cons_self
      | true =>
        cases e with
        | none => exact h.1
        | some e => exact hfinish e _ h.1
    · intro f hmem
      exact hold f (List.mem_cons_of_mem _ hmem)

/-- What the admitted steps and their ends preserve holds among outside code. -/
theorem Service.RunsIn.invariant {M : Service σ ε} {P : σ → Prop} {ok : σ → ε → Prop} {s : σ}
    {x : Framed σ ε} (h : M.RunsIn ok s x) (h0 : P s)
    (hstep : ∀ s e t, P s → ok s e → M.step s e = some t → P t)
    (hfinish : ∀ e s, P s → P (M.finish e s)) : P x.current := by
  have hall : Everywhere P x := by
    apply Run.invariant (P := Everywhere P) h
    · exact ⟨h0, fun _ hmem => nomatch hmem⟩
    · intro y v z hy hok hm
      exact Service.everywhere_move hstep hfinish hy hok hm
  exact hall.1

theorem Service.invariant {M : Service σ ε} {P : σ → Prop} {s : σ} {x : Framed σ ε}
    (h : M.Runs s x) (h0 : P s)
    (hstep : ∀ s e t, P s → M.step s e = some t → P t)
    (hfinish : ∀ e s, P s → P (M.finish e s)) : P x.current :=
  (Service.Runs.unrestricted h).invariant h0 (fun s e t hs _ => hstep s e t hs) hfinish

theorem Service.RunsIn.flat {M : Service σ ε} {ok : σ → ε → Prop}
    (hid : ∀ e s, M.finish e s = s) {s : σ} {x : Framed σ ε} (h : M.RunsIn ok s x) :
    Run M.step ok s x.current := by
  apply h.invariant (P := Run M.step ok s)
  · exact .refl s
  · intro u e t hu hok ht
    exact hu.tail hok ht
  · intro e u hu
    rwa [hid]

theorem Service.Runs.flat {M : Service σ ε} (hid : ∀ e s, M.finish e s = s) {s : σ}
    {x : Framed σ ε} (h : M.Runs s x) : Reach M.step s x.current :=
  Service.RunsIn.flat hid (Service.Runs.unrestricted h)

/-- The service with a record that its steps write; a revert restores the
record too. -/
def Service.recorded (M : Service σ ε) (note : σ → ε → σ → γ → γ) : Service (σ × γ) ε where
  step := recording M.step note
  opens x e := M.opens x.1 e
  finish e x := (M.finish e x.1, x.2)
  outermost := M.outermost

section Locks

variable {M : Service σ ε} {held : σ → Bool} {guarded : ε → Bool}

/-- A guarded step needs the lock, keeps it while control is outside and gives
it back at its end; no other step touches it. -/
structure Locks (M : Service σ ε) (held : σ → Bool) (guarded : ε → Bool) : Prop where
  free : ∀ s e t, M.step s e = some t → guarded e = true → held s = false
  taken : ∀ s e t, M.step s e = some t → held t = (held s || (M.opens s e && guarded e))
  given : ∀ e s, held (M.finish e s) = (held s && !guarded e)

def Nested (held : σ → Bool) (guarded : ε → Bool) : σ → List (σ × Option ε) → Prop
  | s, [] => held s = false
  | s, (before, e) :: rest =>
    held s = (held before || e.any guarded) ∧ (e.any guarded = true → held before = false) ∧
      Nested held guarded before rest

theorem Nested.congr {s t : σ} {fs : List (σ × Option ε)} (h : Nested held guarded s fs)
    (heq : held t = held s) : Nested held guarded t fs := by
  cases fs with
  | nil => exact heq.trans h
  | cons f fs => exact ⟨heq.trans h.1, h.2⟩

theorem Nested.held_eq {s : σ} {fs : List (σ × Option ε)} (h : Nested held guarded s fs) :
    held s = fs.any fun f => f.2.any guarded := by
  induction fs generalizing s with
  | nil => exact h
  | cons f fs ih =>
    obtain ⟨hs, -, hrest⟩ := h
    rw [List.any_cons, hs, ih hrest, Bool.or_comm]

theorem Locks.nested_move (hM : Locks M held guarded) {x y : Framed σ ε} {v : Move ε}
    (h : Nested held guarded x.current x.frames) (hm : M.move x v = some y) :
    Nested held guarded y.current y.frames := by
  cases v with
  | take e =>
    obtain ⟨hs, hf⟩ := Service.take_eq_some hm
    have htaken := hM.taken _ _ _ hs
    rw [hf]
    by_cases ho : M.opens x.current e
    · rw [if_pos ho]
      rw [ho, Bool.true_and] at htaken
      exact ⟨htaken, hM.free _ _ _ hs, h⟩
    · rw [if_neg ho]
      apply h.congr
      simpa [ho] using htaken
  | enter =>
    obtain rfl := Option.some.inj hm
    exact ⟨by simp, by simp, h⟩
  | leave ok =>
    simp only [Service.move] at hm
    split at hm
    · cases hm
    rename_i before e rest hframes
    obtain rfl := Option.some.inj hm
    rw [hframes] at h
    obtain ⟨hs, hfree, hrest⟩ := h
    apply hrest.congr
    cases ok with
    | false => rfl
    | true =>
      cases e with
      | none => simpa [Service.resume] using hs
      | some e =>
        change held (M.finish e x.current) = held before
        rw [hM.given, hs]
        by_cases hg : guarded e
        · rw [hfree hg]
          simp [hg]
        · simp [hg]

/-- The lock is held exactly while a guarded step is under way. -/
theorem Locks.held_eq (hM : Locks M held guarded) {s : σ} {x : Framed σ ε} (h : M.Runs s x)
    (h0 : held s = false) : held x.current = x.frames.any fun f => f.2.any guarded := by
  apply Nested.held_eq
  apply Run.invariant (P := fun y => Nested held guarded y.current y.frames) h
  · exact h0
  · intro y v z hy _ hm
    exact hM.nested_move hy hm

end Locks

end BinaChain.Frames
