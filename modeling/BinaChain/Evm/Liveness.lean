import BinaChain.Evm.Ingestion

/-!
# Commitments, deadlines and slashing

A resolution looks at the height of the purpose when it is called. Where that is
the height of the chain, only a target that the chain has missed costs the
publisher its lock; and the outcome is the one at the deadline unless a
publication takes the purpose to its target in between.
-/

set_option autoImplicit false

namespace BinaChain.BinaOracle
open BinaChain.Crypto BinaChain.Machine BinaChain.Frames BinaChain.Checked BinaChain.Oracle

def latest (w : World) (c : FutureCommitment) : BitVec 64 :=
  w.contract.registry.latestHeightByPurpose c.purpose

theorem resolve_outcome {K : Primitives} {site : Site} {w w' : World} {caller : Address} {id : ℕ}
    {slashed : Bool} (hw : Backed w)
    (h : w.call K site caller (.resolveFutureCommitment id) = .ok (w', slashed)) :
    ∃ c, w.contract.futureCommitments id = c ∧ c.deadline ≠ 0 ∧ c.resolved = false ∧
      (slashed = true ↔ latest w c < c.targetHeight) ∧
      (slashed = true → c.deadline.toNat ≤ w.now) ∧
      ∀ p, w'.contract.publisherBonds p+
        (if slashed = true ∧ p = c.assignedPublisher then commitmentSlashAmount else 0) =
          w.contract.publisherBonds p := by
  obtain ⟨out, hout, -, heq⟩ := World.call_ok h
  have heffect := perform_effect hw.bonded hout
  obtain ⟨rfl, rfl⟩ := Prod.mk.inj heq
  cases heffect with
  | @unslashed _ c hc hd hr hreached =>
    refine ⟨c, hc.symm, hd, hr, ?_, ?_, ?_⟩
    · simp [latest, BitVec.not_lt.mpr hreached]
    · simp
    · simp
  | @slashed _ c xs index1 hc hd hr hlow hdue hx =>
    refine ⟨c, hc.symm, hd, hr, ?_, fun _ => hdue, ?_⟩
    · simpa [latest] using hlow
    · intro p
      have hlock := hw.bonded.lock_le (by rw [← hc]; exact hd) (by rw [← hc]; exact hr)
      have hcovered := hw.bonded.covered c.assignedPublisher
      rw [← hc] at hlock
      dsimp only
      by_cases hp : p = c.assignedPublisher
      · rw [if_pos ⟨rfl, hp⟩, hp, Function.update_self]
        omega
      · rw [if_neg (fun hb => hp hb.2), Function.update_of_ne hp, Nat.add_zero]

theorem Effect.commitment {K : Primitives} {m : Msg} {s : Storage} {entry : Entry} {out : Outcome}
    {id : ℕ} (he : Effect K m s entry out) (hs : Bonded s)
    (hd : (s.futureCommitments id).deadline ≠ 0) :
    out.1.futureCommitments id = s.futureCommitments id ∨
      out.1.futureCommitments id = { s.futureCommitments id with resolved := true } := by
  have hlt : id < s.nextCommitmentId := by
    by_contra hge
    exact hd (hs.fresh id (by omega))
  cases he with
  | ingestion | depositBond | withdrawBond | requestUtility | fulfillUtility => exact Or.inl rfl
  | requestFuturePublication =>
    left
    exact Function.update_of_ne (Nat.ne_of_lt hlt) _ _
  | @unslashed id' _ hc =>
    by_cases hid : id = id'
    · subst hid
      subst hc
      exact Or.inr (Function.update_self _ _ _)
    · exact Or.inl (Function.update_of_ne hid _ _)
  | @slashed id' _ _ _ hc =>
    by_cases hid : id = id'
    · subst hid
      subst hc
      exact Or.inr (Function.update_self _ _ _)
    · exact Or.inl (Function.update_of_ne hid _ _)

/-- The commitment is as it was made, or resolved. -/
def Stands (c : FutureCommitment) (id : ℕ) (w : World) : Prop :=
  w.contract.futureCommitments id = c ∨
    w.contract.futureCommitments id = { c with resolved := true }

theorem stands_step {K : Primitives} {site : Site} {w w' : World} {e : Event} {id : ℕ}
    {c : FutureCommitment} (hw : Backed w) (hs : w.step K site e = some w') (hd : c.deadline ≠ 0)
    (hc : Stands c id w) : Stands c id w' := by
  rcases World.step_effect hw hs with ⟨-, hsame, -⟩ | ⟨_, _, _, -, -, heffect⟩
  · unfold Stands
    rwa [hsame]
  · have hdeadline : (w.contract.futureCommitments id).deadline ≠ 0 := by
      rcases hc with hc | hc <;> rw [hc] <;> exact hd
    unfold Stands
    rcases heffect.commitment hw.bonded hdeadline with hkept | hdone
    · dsimp only at hkept
      rw [hkept]
      exact hc
    · right
      dsimp only at hdone
      rw [hdone]
      rcases hc with hc | hc <;> rw [hc]

/-- The publisher is asked only for heights that the chain reaches by the deadline. -/
def Fair (height : ℕ → BitVec 64) (p : Address) (w : World) : Event → Prop
  | .call _ (.requestFuturePublication _ targetHeight deadline) =>
    w.contract.activePublishers[targetHeight.toNat%w.contract.activePublishers.length]? = some p →
      targetHeight ≤ height deadline.toNat
  | _ => True

def Reachable (height : ℕ → BitVec 64) (p : Address) (s : Storage) : Prop :=
  ∀ id, (s.futureCommitments id).assignedPublisher = p → (s.futureCommitments id).deadline ≠ 0 →
    (s.futureCommitments id).targetHeight ≤ height (s.futureCommitments id).deadline.toNat

theorem Effect.reachable {K : Primitives} {m : Msg} {s : Storage} {entry : Entry} {out : Outcome}
    {height : ℕ → BitVec 64} {p : Address} (he : Effect K m s entry out) (hs : Reachable height p s)
    (hfair : ∀ purpose targetHeight deadline,
      entry = .requestFuturePublication purpose targetHeight deadline →
      s.activePublishers[targetHeight.toNat%s.activePublishers.length]? = some p →
      targetHeight ≤ height deadline.toNat) : Reachable height p out.1 := by
  cases he with
  | ingestion | depositBond | withdrawBond | requestUtility | fulfillUtility => exact hs
  | requestFuturePublication hdeadline hp hfree =>
    intro id ha hd
    dsimp only at ha hd ⊢
    by_cases hid : id = s.nextCommitmentId
    · subst hid
      rw [Function.update_self] at ha ⊢
      subst ha
      exact hfair _ _ _ rfl hp
    · rw [Function.update_of_ne hid] at ha hd ⊢
      exact hs id ha hd
  | @unslashed id' _ hc | @slashed id' _ _ _ hc =>
    intro id ha hd
    dsimp only at ha hd ⊢
    by_cases hid : id = id'
    · subst hid
      subst hc
      rw [Function.update_self] at ha hd ⊢
      exact hs id ha hd
    · rw [Function.update_of_ne hid] at ha hd ⊢
      exact hs id ha hd

theorem reachable_of_runs {K : Primitives} {site : Site} {deployer initialPublisher : Address}
    {balance now : ℕ} {height : ℕ → BitVec 64} {p : Address} {x : Framed World Event}
    (h : (service K site).RunsIn (Fair height p)
      (World.deploy deployer initialPublisher balance now) x) :
    Reachable height p x.current.contract := by
  have hall : Backed x.current ∧ Reachable height p x.current.contract := by
    apply Service.RunsIn.invariant (P := fun w => Backed w ∧ Reachable height p w.contract) h
    · exact ⟨backed_deploy _ _ _ _, fun _ _ hd => absurd rfl hd⟩
    · rintro w e w' ⟨hw, hreach⟩ hfair hs
      refine ⟨hw.step hs, ?_⟩
      rcases World.step_effect hw hs with ⟨-, hsame, -⟩ | ⟨sender, entry, _, rfl, -, heffect⟩
      · rwa [hsame]
      · apply heffect.reachable hreach
        rintro purpose targetHeight deadline rfl
        exact hfair
    · intro _ w hw
      exact hw
  exact hall.2

/-- Where the purpose is at the height of the chain, a resolution takes from a
bond exactly what a missed target costs; so a publisher that is asked only for
heights which the chain reaches by their deadlines is never slashed. -/
theorem slashed_iff_missed (K : Primitives) (site : Site) {deployer initialPublisher : Address}
    {balance now : ℕ} {height : ℕ → BitVec 64} (hmono : ∀ s t, s ≤ t → height s ≤ height t)
    {x : Framed World Event}
    (h : (service K site).Runs (World.deploy deployer initialPublisher balance now) x)
    {caller : Address} {id : ℕ} {w : World}
    (hs : x.current.step K site (.call caller (.resolveFutureCommitment id)) = some w)
    (htrack : latest x.current (x.current.contract.futureCommitments id) = height x.current.now) :
    (∀ p, w.contract.publisherBonds p < x.current.contract.publisherBonds p ↔
      (x.current.contract.futureCommitments id).assignedPublisher = p ∧
      (x.current.contract.futureCommitments id).deadline.toNat ≤ x.current.now ∧
      height x.current.now < (x.current.contract.futureCommitments id).targetHeight) ∧
    ∀ p, (service K site).RunsIn (Fair height p)
        (World.deploy deployer initialPublisher balance now) x →
      w.contract.publisherBonds p = x.current.contract.publisherBonds p := by
  have hw := backed_of_runs h
  obtain ⟨slashed, hcall⟩ := World.step_call hs
  obtain ⟨c, hc, hd, -, hiff, hdue, hbonds⟩ := resolve_outcome hw hcall
  have hpos : 0 < commitmentSlashAmount := by decide
  rw [hc] at htrack ⊢
  rw [htrack] at hiff
  constructor
  · intro p
    have hbond := hbonds p
    constructor
    · intro hless
      by_cases hp : slashed = true ∧ p = c.assignedPublisher
      · exact ⟨hp.2.symm, hdue hp.1, hiff.mp hp.1⟩
      · rw [if_neg hp] at hbond
        omega
    · rintro ⟨hp, -, hlow⟩
      rw [if_pos ⟨hiff.mpr hlow, hp.symm⟩] at hbond
      omega
  · intro p hfair
    have hbond := hbonds p
    have hnot : ¬ (slashed = true ∧ p = c.assignedPublisher) := by
      rintro ⟨hslash, hp⟩
      have hreach := reachable_of_runs hfair id
      rw [hc] at hreach
      have hearly := hreach hp.symm hd
      have hlate := hmono _ _ (hdue hslash)
      exact absurd (hiff.mp hslash) (BitVec.not_lt.mpr (BitVec.le_trans hearly hlate))
    rw [if_neg hnot] at hbond
    omega

/-- Every purpose is at the height of the chain. -/
def Tracks (height : ℕ → BitVec 64) (w : World) : Prop :=
  ∀ p, w.contract.registry.latestHeightByPurpose p = height w.now

theorem quiet_run {K : Primitives} {site : Site} {ok : World → Event → Prop} {r : Registry}
    (hok : ∀ w e, w.contract.registry = r → ok w e) {w w' : World} {es : List Event}
    (hw : Backed w) (hr : w.contract.registry = r) (hes : ∀ e ∈ es, e.ingested = none)
    (h : exec (World.step K site) w es = some w') :
    Run (World.step K site) ok w w' ∧ w'.contract.registry = r := by
  induction es generalizing w with
  | nil =>
    obtain rfl := Option.some.inj h
    exact ⟨.refl _, hr⟩
  | cons e es ih =>
    obtain ⟨u, hu, ht⟩ := Option.bind_eq_some_iff.mp h
    have hsame : u.contract.registry = w.contract.registry := by
      rcases World.step_registry hw hu with ⟨-, hsame⟩ | ⟨_, _, hc, -⟩
      · exact hsame
      · rw [hes e List.mem_cons_self] at hc
        cases hc
    obtain ⟨hrun, hlast⟩ := ih (hw.step hu) (hsame.trans hr)
      (fun e' he => hes e' (List.mem_cons_of_mem _ he)) ht
    exact ⟨(Run.single (hok w e hr) hu).trans hrun, hlast⟩

def toyMissed : List Event :=
  [.call 1 (.depositBond ether), .call 9 (.requestFuturePublication 7 1 10), .tick 10]

theorem tracking_publisher_slashed : ∃ w w',
    Run (World.step toyPrimitives toySite) (fun w _ => Tracks (fun _ => 0) w) toyStart w ∧
    Tracks (fun _ => 0) w ∧
    w.step toyPrimitives toySite (.call 9 (.resolveFutureCommitment 1)) = some w' ∧
    w'.contract.publisherBonds 1 < w.contract.publisherBonds 1 := by
  have hrun : (exec (World.step toyPrimitives toySite) toyStart toyMissed).any fun w =>
      (w.step toyPrimitives toySite (.call 9 (.resolveFutureCommitment 1))).any fun w' =>
      decide (w'.contract.publisherBonds 1 < w.contract.publisherBonds 1) := by decide +kernel
  obtain ⟨w, hw, hrun⟩ := (Option.any_eq_true _ _).mp hrun
  obtain ⟨w', hw', hless⟩ := (Option.any_eq_true _ _).mp hrun
  have htracks : ∀ w, w.contract.registry = Oracle.deploy 1 0 → Tracks (fun _ => 0) w := by
    intro w hr p
    rw [hr]
    rfl
  have hquiet : ∀ e ∈ toyMissed, e.ingested = none := by
    intro e he
    simp only [toyMissed, List.mem_cons, List.not_mem_nil, or_false] at he
    rcases he with rfl | rfl | rfl <;> rfl
  obtain ⟨hr, hlast⟩ := quiet_run (fun w _ => htracks w) (backed_deploy 1 0 0 5) rfl hquiet hw
  exact ⟨w, w', hr, htracks w hlast, hw', of_decide_eq_true hless⟩

def toyReached : Option (Framed World Event) :=
  exec (service toyPrimitives toySite).move (.start toyStart)
    [.take (.call 1 (.depositBond ether)), .take (.call 9 (.requestFuturePublication 7 1 10)),
      .take (.tick 10), .take (toyPublish 1 (toyBlock 1 21 31 41) 7)]

def toyHeight (t : ℕ) : BitVec 64 := if t < 10 then 0 else 1

theorem toyHeight_mono (s t : ℕ) (h : s ≤ t) : toyHeight s ≤ toyHeight t := by
  unfold toyHeight
  split
  · exact BitVec.le_def.mpr (Nat.zero_le _)
  · rw [if_neg (by omega)]
    exact BitVec.le_refl _

theorem slashed_iff_missed_toy : ∃ x w, toyReached = some x ∧
    x.current.step toyPrimitives toySite (.call 9 (.resolveFutureCommitment 1)) = some w ∧
    w.contract.publisherBonds 1 = x.current.contract.publisherBonds 1 := by
  have hrun : toyReached.any fun x =>
      (x.current.step toyPrimitives toySite (.call 9 (.resolveFutureCommitment 1))).isSome &&
      latest x.current (x.current.contract.futureCommitments 1) == toyHeight x.current.now := by
    decide +kernel
  obtain ⟨x, hx, hrun⟩ := (Option.any_eq_true _ _).mp hrun
  obtain ⟨hs, htrack⟩ := Bool.and_eq_true_iff.mp hrun
  obtain ⟨w, hw⟩ := Option.isSome_iff_exists.mp hs
  have hadmitted : Admitted (service toyPrimitives toySite).move (onTakes (Fair toyHeight 1))
      (.start toyStart) [.take (.call 1 (.depositBond ether)),
        .take (.call 9 (.requestFuturePublication 7 1 10)), .take (.tick 10),
        .take (toyPublish 1 (toyBlock 1 21 31 41) 7)] := by
    apply Admitted.of_forall
    intro v hv y
    simp only [List.mem_cons, List.not_mem_nil, or_false] at hv
    rcases hv with rfl | rfl | rfl | rfl
    · trivial
    · intro _
      decide
    · trivial
    · trivial
  exact ⟨x, w, hx, hw, (slashed_iff_missed toyPrimitives toySite toyHeight_mono (exec_reach hx) hw
    (eq_of_beq htrack)).2 1 (hadmitted.run hx)⟩

/-- The event completes the quorum of an output that takes the purpose of the
commitment from below its target to it. -/
def Reaches (K : Primitives) (c : FutureCommitment) (w : World) (e : Event) : Prop :=
  ∃ sender call x, e.ingested = some (sender, call) ∧ call.submission = some x ∧
    Completes w.contract.registry x ∧ c.purpose ∈ named K x.purposes ∧
    latest w c < c.targetHeight ∧ c.targetHeight ≤ x.output.height

theorem latest_step {K : Primitives} {site : Site} {w w' : World} {e : Event} (hw : Backed w)
    (hs : w.step K site e = some w') (c : FutureCommitment) : latest w c ≤ latest w' c :=
  reach_latestHeight (registry_reach hw (Run.single trivial hs)).2 c.purpose

theorem reaches_iff {K : Primitives} {site : Site} {w w' : World} {e : Event} (hw : Backed w)
    (hs : w.step K site e = some w') {c : FutureCommitment} (hlow : ¬ c.targetHeight ≤ latest w c) :
    Reaches K c w e ↔ c.targetHeight ≤ latest w' c := by
  have hbelow : latest w c < c.targetHeight := BitVec.not_le.mp hlow
  rcases World.step_registry hw hs with ⟨hnone, hsame⟩ | ⟨sender, call, hc, hstep⟩
  · constructor
    · rintro ⟨_, _, _, hc, -⟩
      rw [hnone] at hc
      cases hc
    · unfold latest
      rw [hsame]
      intro hreached
      exact absurd hreached hlow
  rcases call_cases (step_ok.mp hstep) with ⟨hnone, _, _, _, _, hout⟩ | ⟨x, hx, -, -, hattest⟩
  · constructor
    · rintro ⟨_, _, x, hc', hx, -⟩
      obtain ⟨-, rfl⟩ := Prod.mk.inj (Option.some.inj (hc.symm.trans hc'))
      rw [hnone] at hx
      cases hx
    · unfold latest
      rw [hout]
      intro hreached
      exact absurd hreached hlow
  have hsub : Reaches K c w e ↔ Completes w.contract.registry x ∧ c.purpose ∈ named K x.purposes ∧
      c.targetHeight ≤ x.output.height := by
    constructor
    · rintro ⟨_, _, x', hc', hx', hcomplete, hp, -, hreached⟩
      obtain ⟨-, rfl⟩ := Prod.mk.inj (Option.some.inj (hc.symm.trans hc'))
      obtain rfl := Option.some.inj (hx.symm.trans hx')
      exact ⟨hcomplete, hp, hreached⟩
    · rintro ⟨hcomplete, hp, hreached⟩
      exact ⟨sender, call, x, hc, hx, hcomplete, hp, hbelow, hreached⟩
  rw [hsub]
  obtain ⟨-, ⟨hpending, hout⟩ | ⟨hcomplete, -, hout⟩⟩ := attest_ok.mp hattest
  · unfold latest
    rw [hout]
    constructor
    · rintro ⟨hcomplete, -⟩
      exact absurd hcomplete hpending
    · intro hreached
      exact absurd hreached hlow
  · have hnew := finalize_latest K { sender, timestamp := w.now } x
      ((w.contract.registry.attestations x.output.blockHash).count+1)
      (attested K { sender, timestamp := w.now } x w.contract.registry) c.purpose
    unfold latest
    rw [hout]
    by_cases hp : c.purpose ∈ named K x.purposes
    · simp only [hp, if_true] at hnew
      rw [hnew.2.1]
      exact ⟨fun h => h.2.2, fun h => ⟨hcomplete, hp, h⟩⟩
    · simp only [hp, if_false] at hnew
      rw [hnew.2.1]
      constructor
      · rintro ⟨-, hin, -⟩
        exact absurd hin hp
      · intro hreached
        exact absurd hreached hlow

/-- A resolution before the deadline never slashes. After it the outcome is the
one at the deadline exactly when no publication since took the purpose to the
target. -/
theorem outcome_at_deadline_iff (K : Primitives) (site : Site) {deployer initialPublisher : Address}
    {balance now : ℕ} {x : Framed World Event}
    (h : (service K site).Runs (World.deploy deployer initialPublisher balance now) x)
    {id : ℕ} {c : FutureCommitment} (hc : x.current.contract.futureCommitments id = c)
    (hd : c.deadline ≠ 0) (hbefore : x.current.now < c.deadline.toNat) :
    (∀ caller w slashed,
      x.current.call K site caller (.resolveFutureCommitment id) = .ok (w, slashed) →
      slashed = false ∧ c.targetHeight ≤ latest x.current c) ∧
    ∀ t es v, c.deadline.toNat ≤ t →
      exec (World.step K site) x.current (.tick t :: es) = some v →
      ∀ caller w slashed, v.call K site caller (.resolveFutureCommitment id) = .ok (w, slashed) →
        ((slashed = true ↔ latest x.current c < c.targetHeight) ↔
          Admitted (World.step K site) (fun w e => ¬ Reaches K c w e) x.current (.tick t :: es)) := by
  have hw := backed_of_runs h
  constructor
  · intro caller w slashed hcall
    obtain ⟨c', hc', -, -, hiff, hdue, -⟩ := resolve_outcome hw hcall
    obtain rfl := hc.symm.trans hc'
    have hunslashed : ¬ slashed = true := fun hslash => absurd (hdue hslash) (by omega)
    exact ⟨by simpa using hunslashed, BitVec.not_lt.mp fun hlow => hunslashed (hiff.mpr hlow)⟩
  · intro t es v _ hexec caller w slashed hcall
    have hall : Backed v ∧ Stands c id v ∧
        (c.targetHeight ≤ latest x.current c → c.targetHeight ≤ latest v c) := by
      apply (exec_reach hexec).invariant (P := fun v => Backed v ∧ Stands c id v ∧
        (c.targetHeight ≤ latest x.current c → c.targetHeight ≤ latest v c))
        ⟨hw, Or.inl hc, fun hr => hr⟩
      rintro u e u' ⟨hu, hstands, hreached⟩ - hs
      exact ⟨hu.step hs, stands_step hu hs hd hstands,
        fun hr => BitVec.le_trans (hreached hr) (latest_step hu hs c)⟩
    obtain ⟨hv, hstands, hmono⟩ := hall
    obtain ⟨c', hc', -, hopen, hiff, -, -⟩ := resolve_outcome hv hcall
    have hsame : c' = c := by
      rcases hstands with hkept | hdone
      · exact hc'.symm.trans hkept
      · rw [← hc', hdone] at hopen
        cases hopen
    subst hsame
    rw [hiff]
    by_cases hreached : c'.targetHeight ≤ latest x.current c'
    · have hadmitted : Admitted (World.step K site) (fun w e => ¬ Reaches K c' w e) x.current
          (.tick t :: es) := by
        apply Admitted.of_invariant (P := fun w => Backed w ∧ c'.targetHeight ≤ latest w c')
        · rintro u e u' ⟨hu, hr⟩ hs
          exact ⟨hu.step hs, BitVec.le_trans hr (latest_step hu hs c')⟩
        · rintro u e ⟨-, hr⟩ ⟨_, _, _, -, -, -, -, hlow, -⟩
          exact absurd hr (BitVec.not_le.mpr hlow)
        · exact ⟨hw, hreached⟩
      have hv' := BitVec.not_lt.mpr (hmono hreached)
      have hx' := BitVec.not_lt.mpr hreached
      exact ⟨fun _ => hadmitted, fun _ => iff_of_false hv' hx'⟩
    · have hcross : ¬ c'.targetHeight ≤ latest v c' ↔ Admitted (World.step K site)
          (fun w e => ¬ Reaches K c' w e) x.current (.tick t :: es) := exec_crossing_iff
        (P := Backed) (Q := fun w => c'.targetHeight ≤ latest w c')
        (fun _ _ _ hu hs => hu.step hs)
        (fun _ _ _ hu hs hr => BitVec.le_trans hr (latest_step hu hs c'))
        (fun _ _ _ hu hs hlow => reaches_iff hu hs hlow) hw hexec hreached
      rw [← hcross, ← BitVec.not_le, ← BitVec.not_le]
      tauto

def toyDue : Option (Framed World Event) :=
  exec (service toyPrimitives toySite).move (.start toyStart)
    [.take (.call 1 (.depositBond ether)), .take (.call 9 (.requestFuturePublication 7 1 10))]

def toyResolve (w : World) : Option Bool :=
  (w.call toyPrimitives toySite 9 (.resolveFutureCommitment 1)).toOption.map Prod.snd

theorem outcome_after_deadline : ∃ x v v', toyDue = some x ∧
    (service toyPrimitives toySite).Runs toyStart x ∧
    x.current.now < (x.current.contract.futureCommitments 1).deadline.toNat ∧
    exec (World.step toyPrimitives toySite) x.current [.tick 10, .tick 20] = some v ∧
    exec (World.step toyPrimitives toySite) x.current
      [.tick 10, .tick 20, toyPublish 1 (toyBlock 1 21 31 41) 7] = some v' ∧
    toyResolve v = some true ∧ toyResolve v' = some false := by
  have hrun : toyDue.any fun x =>
      decide (x.current.now < (x.current.contract.futureCommitments 1).deadline.toNat) &&
      (exec (World.step toyPrimitives toySite) x.current [.tick 10, .tick 20]).any fun v =>
      (exec (World.step toyPrimitives toySite) x.current
        [.tick 10, .tick 20, toyPublish 1 (toyBlock 1 21 31 41) 7]).any fun v' =>
      toyResolve v == some true && toyResolve v' == some false := by decide +kernel
  obtain ⟨x, hx, hrun⟩ := (Option.any_eq_true _ _).mp hrun
  obtain ⟨hnow, hrun⟩ := Bool.and_eq_true_iff.mp hrun
  obtain ⟨v, hv, hrun⟩ := (Option.any_eq_true _ _).mp hrun
  obtain ⟨v', hv', hrun⟩ := (Option.any_eq_true _ _).mp hrun
  obtain ⟨hslash, hspare⟩ := Bool.and_eq_true_iff.mp hrun
  exact ⟨x, v, v', hx, exec_reach hx, of_decide_eq_true hnow, hv, hv', eq_of_beq hslash,
    eq_of_beq hspare⟩

theorem outcome_at_deadline_iff_toy : ∃ x v w, toyDue = some x ∧
    exec (World.step toyPrimitives toySite) x.current [.tick 10, .tick 20] = some v ∧
    v.call toyPrimitives toySite 9 (.resolveFutureCommitment 1) = .ok (w, true) ∧
    Admitted (World.step toyPrimitives toySite)
      (fun w e => ¬ Reaches toyPrimitives (x.current.contract.futureCommitments 1) w e)
      x.current [.tick 10, .tick 20] := by
  have hrun : toyDue.any fun x =>
      decide (x.current.now < (x.current.contract.futureCommitments 1).deadline.toNat) &&
      decide ((x.current.contract.futureCommitments 1).deadline = 10) &&
      decide (latest x.current (x.current.contract.futureCommitments 1) <
        (x.current.contract.futureCommitments 1).targetHeight) &&
      (exec (World.step toyPrimitives toySite) x.current [.tick 10, .tick 20]).any fun v =>
      toyResolve v == some true := by decide +kernel
  obtain ⟨x, hx, hrun⟩ := (Option.any_eq_true _ _).mp hrun
  simp only [Bool.and_eq_true, decide_eq_true_eq] at hrun
  obtain ⟨⟨⟨hnow, hdeadline⟩, hlow⟩, hrun⟩ := hrun
  obtain ⟨v, hv, hslash⟩ := (Option.any_eq_true _ _).mp hrun
  obtain ⟨⟨w, slashed⟩, hcall, hsnd⟩ := Option.map_eq_some_iff.mp (eq_of_beq hslash)
  obtain rfl : slashed = true := hsnd
  have hcall' := toOption_eq_some.mp hcall
  have hiff := (outcome_at_deadline_iff toyPrimitives toySite (exec_reach hx) rfl
    (by rw [hdeadline]; decide) hnow).2 10 [.tick 20] v (by rw [hdeadline]; decide) hv 9 w true
    hcall'
  exact ⟨x, v, w, hx, hv, hcall', hiff.mp ⟨fun _ => hlow, fun _ => rfl⟩⟩

end BinaChain.BinaOracle
