import BinaChain.Support.Frames

/-!
# Calls out whose rest may fail

A step hands control over before it ends, and what it still does when control is
back may fail; then only a revert can close its frame. Each run is one of a
service whose rest never fails, so the rules for services apply.
-/

set_option autoImplicit false

namespace BinaChain.Callbacks
open BinaChain.Machine BinaChain.Frames

variable {σ ε γ : Type}

structure Caller (σ ε : Type) where
  step : σ → ε → Option σ
  /-- Whether the step hands control over. -/
  opens : σ → ε → Bool
  /-- What the step still does once control is back. -/
  rest : ε → σ → Option σ
  /-- Whether the event happens only outside of every frame. -/
  outermost : ε → Bool

/-- The service that goes on from a given state where the rest fails. -/
def Caller.service (M : Caller σ ε) (fallback : σ) : Service σ ε where
  step := M.step
  opens := M.opens
  finish e s := (M.rest e s).getD fallback
  outermost := M.outermost

def Caller.resume (M : Caller σ ε) : Option ε → σ → Option σ
  | some e, s => M.rest e s
  | none, s => some s

def Caller.move (M : Caller σ ε) (x : Framed σ ε) : Move ε → Option (Framed σ ε)
  | .leave true =>
    match x.frames with
    | [] => none
    | (_, e) :: frames => (M.resume e x.current).map fun current => { current, frames }
  | v => (M.service x.current).move x v

abbrev Caller.Runs (M : Caller σ ε) (s : σ) (x : Framed σ ε) : Prop :=
  Reach M.move (.start s) x

theorem Caller.move_service {M : Caller σ ε} (fallback : σ) {x y : Framed σ ε} {v : Move ε}
    (h : M.move x v = some y) : (M.service fallback).move x v = some y := by
  cases v with
  | take e => exact h
  | enter => exact h
  | leave ok =>
    cases ok with
    | false => exact h
    | true =>
      obtain ⟨current, frames⟩ := x
      cases frames with
      | nil => cases h
      | cons frame rest =>
        obtain ⟨before, e⟩ := frame
        obtain ⟨t, ht, rfl⟩ := Option.map_eq_some_iff.mp h
        cases e with
        | none =>
          obtain rfl := Option.some.inj ht
          rfl
        | some e =>
          have hrest : M.rest e current = some t := ht
          show some (Framed.mk ((M.rest e current).getD fallback) rest) = _
          rw [hrest]
          rfl

theorem Caller.runs_service {M : Caller σ ε} (fallback : σ) {s : σ} {x : Framed σ ε}
    (h : M.Runs s x) : (M.service fallback).Runs s x :=
  h.invariant (P := (M.service fallback).Runs s) (.refl _)
    fun _ _ _ hy _ hm => hy.tail trivial (Caller.move_service fallback hm)

theorem Caller.invariant {M : Caller σ ε} {P : σ → Prop} {s : σ} {x : Framed σ ε}
    (h : M.Runs s x) (h0 : P s) (hstep : ∀ s e t, P s → M.step s e = some t → P t)
    (hrest : ∀ e s t, P s → M.rest e s = some t → P t) : P x.current := by
  apply Service.invariant (Caller.runs_service s h) h0 hstep
  intro e t ht
  cases hr : M.rest e t with
  | none => simpa [Caller.service, hr] using h0
  | some u => simpa [Caller.service, hr] using hrest e t u ht hr

section Locks

variable {M : Caller σ ε} {held : σ → Bool} {guarded : ε → Bool}

/-- A guarded step needs the lock, keeps it while control is outside, and its
rest gives it back; no other step touches it. -/
structure Locks (M : Caller σ ε) (held : σ → Bool) (guarded : ε → Bool) : Prop where
  free : ∀ s e t, M.step s e = some t → guarded e = true → held s = false
  taken : ∀ s e t, M.step s e = some t → held t = (held s || (M.opens s e && guarded e))
  given : ∀ e s t, M.rest e s = some t → held t = (held s && !guarded e)
  unguarded : ∀ e s, M.rest e s = none → guarded e = true

theorem Locks.service (hM : Locks M held guarded) {s : σ} (h0 : held s = false) :
    Frames.Locks (M.service s) held guarded where
  free := hM.free
  taken := hM.taken
  given e t := by
    cases hr : M.rest e t with
    | none => simp [Caller.service, hr, h0, hM.unguarded e t hr]
    | some u => simpa [Caller.service, hr] using hM.given e t u hr

theorem Locks.held_eq (hM : Locks M held guarded) {s : σ} {x : Framed σ ε} (h : M.Runs s x)
    (h0 : held s = false) : held x.current = x.frames.any fun f => f.2.any guarded :=
  (hM.service h0).held_eq (Caller.runs_service s h) h0

theorem Locks.invariant (hM : Locks M held guarded) {P : σ → Prop} {s : σ} {x : Framed σ ε}
    (h : M.Runs s x) (hfree : held s = false) (h0 : P s)
    (hstep : ∀ s e t, P s → M.step s e = some t → P t)
    (hrest : ∀ e s t, P s → (guarded e = true → held s = true) → M.rest e s = some t → P t) :
    P x.current := by
  have hall : Everywhere P x ∧ Nested held guarded x.current x.frames := by
    apply h.invariant (P := fun y => Everywhere P y ∧ Nested held guarded y.current y.frames)
    · exact ⟨⟨h0, by simp [Framed.start]⟩, hfree⟩
    · rintro y v z ⟨hy, hn⟩ - hm
      refine ⟨?_, (hM.service hfree).nested_move hn (Caller.move_service s hm)⟩
      let plain : Service σ ε :=
        { step := M.step, opens := M.opens, finish := fun _ s => s, outermost := M.outermost }
      have hplain (v : Move ε) (hp : plain.move y v = some z) : Everywhere P z := by
        have hok : onTakes (fun _ _ => True) y v := by cases v <;> trivial
        exact Service.everywhere_move (fun s e t hs _ => hstep s e t hs) (fun _ _ hs => hs) hy hok
          hp
      cases v with
      | take e => exact hplain (.take e) hm
      | enter => exact hplain .enter hm
      | leave ok =>
        cases ok with
        | false => exact hplain (.leave false) hm
        | true =>
          simp only [Caller.move] at hm
          split at hm
          · cases hm
          · rename_i before e frames hframes
            obtain ⟨t, ht, rfl⟩ := Option.map_eq_some_iff.mp hm
            rw [hframes] at hn
            refine ⟨?_, fun f hf => hy.2 f (hframes ▸ List.mem_cons_of_mem _ hf)⟩
            cases e with
            | none =>
              obtain rfl := Option.some.inj ht
              exact hy.1
            | some e => exact hrest e _ t hy.1 (fun hg => by rw [hn.1]; simp [hg]) ht
  exact hall.1.1

end Locks

def Caller.recorded (M : Caller σ ε) (note : σ → ε → σ → γ → γ) : Caller (σ × γ) ε where
  step := recording M.step note
  opens x e := M.opens x.1 e
  rest e x := (M.rest e x.1).map fun s => (s, x.2)
  outermost := M.outermost

theorem Locks.recorded {M : Caller σ ε} {held : σ → Bool} {guarded : ε → Bool}
    (hM : Locks M held guarded) (note : σ → ε → σ → γ → γ) :
    Locks (M.recorded note) (fun x => held x.1) guarded where
  free x e y hs := hM.free _ _ _ (recording_eq_some.mp hs).1
  taken x e y hs := hM.taken _ _ _ (recording_eq_some.mp hs).1
  given e x y hr := by
    obtain ⟨t, ht, rfl⟩ := Option.map_eq_some_iff.mp hr
    exact hM.given _ _ _ ht
  unguarded e x hr := hM.unguarded e x.1 (Option.map_eq_none_iff.mp hr)

end BinaChain.Callbacks
