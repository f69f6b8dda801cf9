import Mathlib.Tactic.Common

/-!
# Labelled machines and their runs

A machine is a partial step function. A run may restrict the steps it takes;
an invariant has to survive only the steps the restriction admits.
-/

set_option autoImplicit false

namespace BinaChain.Machine

variable {σ ε : Type} {step : σ → ε → Option σ} {ok allowed : σ → ε → Prop}

inductive Run (step : σ → ε → Option σ) (ok : σ → ε → Prop) : σ → σ → Prop
  | refl (s : σ) : Run step ok s s
  | tail {s t u : σ} {e : ε} : Run step ok s t → ok t e → step t e = some u → Run step ok s u

abbrev Reach (step : σ → ε → Option σ) : σ → σ → Prop := Run step fun _ _ => True

theorem Run.trans {s t u : σ} (h : Run step ok s t) (h' : Run step ok t u) :
    Run step ok s u := by
  induction h' with
  | refl => exact h
  | tail _ ho hs ih => exact ih.tail ho hs

theorem Run.single {s t : σ} {e : ε} (ho : ok s e) (hs : step s e = some t) :
    Run step ok s t := (Run.refl s).tail ho hs

theorem Run.mono (himp : ∀ s e, ok s e → allowed s e) {s t : σ} (h : Run step ok s t) :
    Run step allowed s t := by
  induction h with
  | refl => exact .refl _
  | tail _ ho hs ih => exact ih.tail (himp _ _ ho) hs

/-- The induction over runs: what a step preserves, a run preserves. -/
theorem Run.invariant {P : σ → Prop} {s t : σ} (h : Run step ok s t) (h0 : P s)
    (hstep : ∀ t e u, P t → ok t e → step t e = some u → P u) : P t := by
  induction h with
  | refl => exact h0
  | tail _ ho hs ih => exact hstep _ _ _ ih ho hs

def exec (step : σ → ε → Option σ) : σ → List ε → Option σ
  | s, [] => some s
  | s, e :: es => (step s e).bind fun t => exec step t es

theorem exec_append (s : σ) (es es' : List ε) :
    exec step s (es++es') = (exec step s es).bind fun t => exec step t es' := by
  induction es generalizing s with
  | nil => rfl
  | cons e es ih =>
    rw [List.cons_append, exec, exec, Option.bind_assoc]
    exact Option.bind_congr fun u _ => ih u

theorem exec_reach {s t : σ} {es : List ε} (h : exec step s es = some t) :
    Reach step s t := by
  induction es generalizing s with
  | nil =>
    obtain rfl := Option.some.inj h
    exact .refl s
  | cons e es ih =>
    obtain ⟨u, hu, ht⟩ := Option.bind_eq_some_iff.mp h
    exact (Run.single trivial hu).trans (ih ht)

/-- The longest part of a schedule that can be carried out. -/
def carried (step : σ → ε → Option σ) : σ → List ε → List ε
  | _, [] => []
  | s, e :: es =>
    match step s e with
    | none => []
    | some t => e :: carried step t es

theorem carried_append {s t : σ} {es : List ε} (h : exec step s es = some t) (es' : List ε) :
    carried step s (es++es') = es++carried step t es' := by
  induction es generalizing s with
  | nil =>
    obtain rfl := Option.some.inj h
    rfl
  | cons e es ih =>
    obtain ⟨u, hu, ht⟩ := Option.bind_eq_some_iff.mp h
    rw [List.cons_append, carried, hu, List.cons_append, ← ih ht]

theorem carried_stopped {s : σ} {es : List ε} (h : exec step s es = none) (es' : List ε) :
    carried step s (es++es') = carried step s es := by
  induction es generalizing s with
  | nil => cases h
  | cons e es ih =>
    rw [List.cons_append, carried, carried]
    cases hu : step s e with
    | none => rfl
    | some u =>
      rw [exec, hu] at h
      simp only [ih h]

theorem carried_begins (s : σ) (es : List ε) : carried step s es <+: es := by
  induction es generalizing s with
  | nil => exact List.nil_prefix
  | cons e es ih =>
    rw [carried]
    cases step s e with
    | none => exact List.nil_prefix
    | some t => exact List.cons_prefix_cons.mpr ⟨rfl, ih t⟩

theorem exec_carried (s : σ) (es : List ε) : (exec step s (carried step s es)).isSome := by
  induction es generalizing s with
  | nil => rfl
  | cons e es ih =>
    rw [carried]
    cases hu : step s e with
    | none => rfl
    | some t =>
      rw [exec, hu]
      exact ih t

theorem carried_longest {s : σ} {es es' : List ε} (hp : es' <+: es)
    (h : (exec step s es').isSome) : es' <+: carried step s es := by
  obtain ⟨t, ht⟩ := Option.isSome_iff_exists.mp h
  obtain ⟨rest, rfl⟩ := hp
  rw [carried_append ht]
  exact List.prefix_append _ _

/-- The steps of a schedule one after the other; one that fails changes nothing. -/
def attempts (step : σ → ε → Option σ) (s : σ) (es : List ε) : σ :=
  es.foldl (fun s e => (step s e).getD s) s

theorem attempts_cons (s : σ) (e : ε) (es : List ε) :
    attempts step s (e :: es) = attempts step ((step s e).getD s) es := rfl

theorem attempts_reach (s : σ) (es : List ε) : Reach step s (attempts step s es) := by
  induction es generalizing s with
  | nil => exact .refl s
  | cons e es ih =>
    rw [attempts_cons]
    cases h : step s e with
    | none => exact ih s
    | some t => exact (Run.single trivial h).trans (ih t)

theorem attempts_stuck {s : σ} {es : List ε} (h : ∀ e ∈ es, step s e = none) :
    attempts step s es = s := by
  induction es with
  | nil => rfl
  | cons e es ih =>
    rw [attempts_cons, h e List.mem_cons_self]
    exact ih fun e' he => h e' (List.mem_cons_of_mem _ he)

/-- Every step of a schedule is admitted where it is taken. -/
def Admitted (step : σ → ε → Option σ) (ok : σ → ε → Prop) : σ → List ε → Prop
  | _, [] => True
  | s, e :: es => ok s e ∧ ∀ t ∈ step s e, Admitted step ok t es

instance Admitted.decidable [∀ s e, Decidable (ok s e)] :
    ∀ (s : σ) (es : List ε), Decidable (Admitted step ok s es)
  | _, [] => .isTrue trivial
  | s, e :: es =>
    match h : step s e with
    | none => decidable_of_iff (ok s e) (by simp [Admitted, h])
    | some t =>
      haveI := Admitted.decidable t es
      decidable_of_iff (ok s e ∧ Admitted step ok t es) (by simp [Admitted, h])

theorem Admitted.of_forall {es : List ε} (h : ∀ e ∈ es, ∀ s, ok s e) (s : σ) :
    Admitted step ok s es := by
  induction es generalizing s with
  | nil => trivial
  | cons e es ih =>
    exact ⟨h e List.mem_cons_self s,
      fun t _ => ih (fun e' he => h e' (List.mem_cons_of_mem _ he)) t⟩

theorem Admitted.of_invariant {P : σ → Prop} (hP : ∀ s e t, P s → step s e = some t → P t)
    (hok : ∀ s e, P s → ok s e) {s : σ} (hs : P s) (es : List ε) : Admitted step ok s es := by
  induction es generalizing s with
  | nil => trivial
  | cons e es ih => exact ⟨hok s e hs, fun t ht => ih (hP s e t hs ht)⟩

theorem Admitted.run {s t : σ} {es : List ε} (ha : Admitted step ok s es)
    (h : exec step s es = some t) : Run step ok s t := by
  induction es generalizing s with
  | nil =>
    obtain rfl := Option.some.inj h
    exact .refl s
  | cons e es ih =>
    obtain ⟨u, hu, ht⟩ := Option.bind_eq_some_iff.mp h
    exact (Run.single ha.1 hu).trans (ih (ha.2 u hu) ht)

/-- A property that no step takes away is gained in a schedule exactly when some
step of it crosses over. -/
theorem exec_crossing_iff {P Q : σ → Prop} {crosses : σ → ε → Prop}
    (hP : ∀ s e t, P s → step s e = some t → P t)
    (hQ : ∀ s e t, P s → step s e = some t → Q s → Q t)
    (hcross : ∀ s e t, P s → step s e = some t → ¬ Q s → (crosses s e ↔ Q t))
    {s t : σ} {es : List ε} (hs : P s) (h : exec step s es = some t) (hn : ¬ Q s) :
    ¬ Q t ↔ Admitted step (fun s e => ¬ crosses s e) s es := by
  induction es generalizing s with
  | nil =>
    obtain rfl := Option.some.inj h
    exact ⟨fun _ => trivial, fun _ => hn⟩
  | cons e es ih =>
    obtain ⟨u, hu, ht⟩ := Option.bind_eq_some_iff.mp h
    have hPu := hP _ _ _ hs hu
    by_cases hc : Q u
    · have hlast : Q t := by
        have hall : P t ∧ Q t := by
          apply (exec_reach ht).invariant (P := fun v => P v ∧ Q v) ⟨hPu, hc⟩
          rintro v e' v' ⟨hPv, hQv⟩ - hv
          exact ⟨hP _ _ _ hPv hv, hQ _ _ _ hPv hv hQv⟩
        exact hall.2
      constructor
      · intro hnot
        exact absurd hlast hnot
      · intro hadm
        exact absurd ((hcross _ _ _ hs hu hn).mpr hc) hadm.1
    · rw [ih hPu ht hc]
      constructor
      · intro hadm
        refine ⟨fun hcr => hc ((hcross _ _ _ hs hu hn).mp hcr), ?_⟩
        intro v hv
        obtain rfl := Option.some.inj (hu.symm.trans hv)
        exact hadm
      · intro hadm
        exact hadm.2 u hu

section Recording

variable {γ : Type} {note : σ → ε → σ → γ → γ} {allow : σ × γ → ε → Prop}

/-- The machine together with a record that its steps write and never read. -/
def recording (step : σ → ε → Option σ) (note : σ → ε → σ → γ → γ) (x : σ × γ) (e : ε) :
    Option (σ × γ) :=
  (step x.1 e).map fun t => (t, note x.1 e t x.2)

theorem recording_eq_some {x y : σ × γ} {e : ε} : recording step note x e = some y ↔
    step x.1 e = some y.1 ∧ y.2 = note x.1 e y.1 x.2 := by
  unfold recording
  rw [Option.map_eq_some_iff]
  constructor
  · rintro ⟨t, ht, rfl⟩
    exact ⟨ht, rfl⟩
  · rintro ⟨ht, hg⟩
    exact ⟨y.1, ht, by rw [← hg]⟩

theorem Run.unrecorded (himp : ∀ x e, allow x e → ok x.1 e) {s : σ} {g : γ} {x : σ × γ}
    (h : Run (recording step note) allow (s, g) x) : Run step ok s x.1 :=
  h.invariant (P := fun x => Run step ok s x.1) (.refl s)
    fun _ _ _ hx ho hs => hx.tail (himp _ _ ho) (recording_eq_some.mp hs).1

theorem Run.recorded {s t : σ} (h : Run step ok s t) (note : σ → ε → σ → γ → γ) (g : γ) :
    ∃ g', Run (recording step note) (fun x e => ok x.1 e) (s, g) (t, g') := by
  induction h with
  | refl => exact ⟨g, .refl _⟩
  | @tail u v e _ ho hs ih =>
    obtain ⟨g', hg⟩ := ih
    have hrec : recording step note (u, g') e = some (v, note u e v g') :=
      recording_eq_some.mpr ⟨hs, rfl⟩
    exact ⟨_, hg.tail ho hrec⟩

theorem exec_recorded {s t : σ} {es : List ε} (h : exec step s es = some t)
    (note : σ → ε → σ → γ → γ) (g : γ) :
    ∃ g', exec (recording step note) (s, g) es = some (t, g') := by
  induction es generalizing s g with
  | nil =>
    obtain rfl := Option.some.inj h
    exact ⟨g, rfl⟩
  | cons e es ih =>
    obtain ⟨u, hu, ht⟩ := Option.bind_eq_some_iff.mp h
    obtain ⟨g', hg⟩ := ih ht (note s e u g)
    refine ⟨g', Option.bind_eq_some_iff.mpr ⟨(u, note s e u g), ?_, hg⟩⟩
    exact recording_eq_some.mpr ⟨hu, rfl⟩

end Recording

end BinaChain.Machine
