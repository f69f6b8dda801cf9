import BinaChain.Evm.Ingestion

/-!
# The words of utility requests

A request is answered from the latest seed of its purpose. The word is bound to
an output of the future when the purpose was not ready as the request was made,
and it stays the same as long as no other randomness is published for the
purpose while the request is open.
-/

set_option autoImplicit false

namespace BinaChain.BinaOracle
open BinaChain.Crypto BinaChain.Machine BinaChain.Frames BinaChain.Checked BinaChain.Oracle

/-- What `fulfillUtility` would return. -/
def utilityWord (K : Primitives) (site : Site) (s : Storage) (id : ℕ) : Option Bytes32 :=
  (fulfillUtility K site id s).toOption.map Prod.snd

theorem utilityWord_eq_some {K : Primitives} {site : Site} {s : Storage} {id : ℕ}
    {word : Bytes32} : utilityWord K site s id = some word ↔
      ∃ r, s.requests id = r ∧ r.requester ≠ 0 ∧ r.fulfilled = false ∧
        s.registry.latestSeedByPurpose r.purpose ≠ 0 ∧
        r.minHeight ≤ s.registry.latestHeightByPurpose r.purpose ∧
        word = derive K site (s.registry.latestSeedByPurpose r.purpose) r.purpose r.salt
          r.requester id := by
  unfold utilityWord
  cases hf : fulfillUtility K site id s with
  | error e =>
    simp only [Except.toOption, Option.map_none, reduceCtorEq, false_iff]
    rintro ⟨r, rfl, hrequester, hopen, hseed, hheight, -⟩
    have hnot := BitVec.not_lt.mpr hheight
    simp only [fulfillUtility, require, if_pos hrequester, if_pos hopen,
      if_pos (not_or.mpr ⟨hseed, hnot⟩), bind, Except.bind, pure, Except.pure] at hf
    cases hf
  | ok out =>
    unfold fulfillUtility at hf
    simp only [bind_eq_ok, require_eq_ok, pure_eq_ok, not_or] at hf
    obtain ⟨-, hrequester, -, hopen, -, ⟨hseed, hheight⟩, rfl⟩ := hf
    simp only [Except.toOption, Option.map_some, Option.some.injEq]
    constructor
    · rintro rfl
      exact ⟨_, rfl, hrequester, hopen, hseed, BitVec.not_lt.mp hheight, rfl⟩
    · rintro ⟨r, rfl, -, -, -, -, rfl⟩
      rfl

/-- The purpose could not answer a request for the height yet. -/
def Unready (K : Primitives) (s : Registry) (purpose : Bytes32) (minHeight : BitVec 64) : Prop :=
  s.latestSeedByPurpose (effectivePurpose K purpose) = 0 ∨
    s.latestHeightByPurpose (effectivePurpose K purpose) < minHeight

/-- The event completes the quorum of an output that gives the purpose of the
request another seed. -/
def Disturbs (K : Primitives) (id : ℕ) (w : World) (e : Event) : Prop :=
  ∃ sender c x, e.ingested = some (sender, c) ∧ c.submission = some x ∧
    Completes w.contract.registry x ∧
    (w.contract.requests id).purpose ∈ named K x.purposes ∧
    x.output.randomnessOutput ≠
      w.contract.registry.latestSeedByPurpose (w.contract.requests id).purpose

def Holds (r : UtilityRequest) (id : ℕ) (s : Storage) : Prop :=
  id < s.nextRequestId ∧ (s.requests id = r ∨ s.requests id = { r with fulfilled := true })

theorem Effect.holds {K : Primitives} {m : Msg} {s : Storage} {entry : Entry} {out : Outcome}
    {r : UtilityRequest} {id : ℕ} (he : Effect K m s entry out) (h : Holds r id s) :
    Holds r id out.1 := by
  obtain ⟨hlt, hr⟩ := h
  cases he with
  | ingestion | depositBond | withdrawBond | requestFuturePublication | unslashed | slashed =>
    exact ⟨hlt, hr⟩
  | requestUtility =>
    refine ⟨Nat.lt_succ_of_lt hlt, ?_⟩
    dsimp only
    rw [Function.update_of_ne (Nat.ne_of_lt hlt)]
    exact hr
  | @fulfillUtility id' _ hr' =>
    refine ⟨hlt, ?_⟩
    dsimp only
    by_cases hid : id = id'
    · subst hid
      rw [Function.update_self]
      right
      rcases hr with hr | hr <;> rw [hr', hr]
    · rw [Function.update_of_ne hid]
      exact hr

theorem Effect.requests {K : Primitives} {m : Msg} {s : Storage} {entry : Entry} {out : Outcome}
    {id : ℕ} (he : Effect K m s entry out) (hlt : id < s.nextRequestId)
    (hne : entry ≠ .fulfillUtility id) : out.1.requests id = s.requests id := by
  cases he with
  | ingestion | depositBond | withdrawBond | requestFuturePublication | unslashed | slashed => rfl
  | requestUtility => exact Function.update_of_ne (Nat.ne_of_lt hlt) _ _
  | @fulfillUtility id' =>
    apply Function.update_of_ne
    rintro rfl
    exact hne rfl

theorem reach_holds {K : Primitives} {site : Site} {w w' : World} {r : UtilityRequest} {id : ℕ}
    (hw : Backed w) (h : Reach (World.step K site) w w') (hr : Holds r id w.contract) :
    Holds r id w'.contract := by
  have hall : Backed w' ∧ Holds r id w'.contract := by
    apply h.invariant (P := fun v => Backed v ∧ Holds r id v.contract) ⟨hw, hr⟩
    rintro v e u ⟨hv, hk⟩ - hs
    refine ⟨hv.step hs, ?_⟩
    rcases World.step_effect hv hs with ⟨-, hsame, -⟩ | ⟨_, _, _, -, -, heffect⟩
    · rwa [hsame]
    · exact heffect.holds hk
  exact hall.2

theorem requestUtility_step {K : Primitives} {site : Site} {w w' : World} {sender : Address}
    {purpose salt : Bytes32} {minHeight : BitVec 64} (hw : Backed w)
    (h : w.step K site (.call sender (.requestUtility purpose salt minHeight)) = some w') :
    w'.contract.registry = w.contract.registry ∧
    w'.contract.requests w.contract.nextRequestId =
      UtilityRequest.mk sender (effectivePurpose K purpose) salt minHeight false ∧
    w'.contract.nextRequestId = w.contract.nextRequestId+1 := by
  rcases World.step_effect hw h with ⟨hcall, -⟩ | ⟨_, _, _, heq, -, heffect⟩
  · exact absurd rfl (hcall _ _)
  · obtain ⟨rfl, rfl⟩ := Event.call.inj heq
    generalize hs : w'.contract = s at *
    cases heffect with
    | requestUtility => exact ⟨rfl, Function.update_self _ _ _, rfl⟩

theorem latest_since {K : Primitives} {s t : Registry} (hs : Sound s)
    (h : Reach (Oracle.step K) s t) (p : Bytes32) :
    (t.latestSeedByPurpose p = s.latestSeedByPurpose p ∧
      t.latestHeightByPurpose p = s.latestHeightByPurpose p) ∨
    t.latestBlockByPurpose p ∉ s.blockHashes := by
  have hall : Reach (Oracle.step K) s t ∧
      ((t.latestSeedByPurpose p = s.latestSeedByPurpose p ∧
        t.latestHeightByPurpose p = s.latestHeightByPurpose p) ∨
      t.latestBlockByPurpose p ∉ s.blockHashes) := by
    apply h.invariant (P := fun t => Reach (Oracle.step K) s t ∧
      ((t.latestSeedByPurpose p = s.latestSeedByPurpose p ∧
        t.latestHeightByPurpose p = s.latestHeightByPurpose p) ∨
      t.latestBlockByPurpose p ∉ s.blockHashes)) ⟨.refl s, Or.inl ⟨rfl, rfl⟩⟩
    rintro u ⟨m, c⟩ v ⟨hu, hlatest⟩ - hstep
    refine ⟨hu.tail trivial hstep, ?_⟩
    rcases call_cases (step_ok.mp hstep) with ⟨-, _, _, _, _, rfl⟩ | ⟨x, -, -, -, hattest⟩
    · exact hlatest
    obtain ⟨hacc, ⟨-, rfl⟩ | ⟨-, -, rfl⟩⟩ := attest_ok.mp hattest
    · exact hlatest
    have hnew := finalize_latest K m x ((u.attestations x.output.blockHash).count+1) (attested K m x u) p
    by_cases hp : p ∈ named K x.purposes
    · right
      simp only [hp, if_true] at hnew
      rw [hnew.2.2.2]
      intro hin
      have hfin := (hs.listed _).mp hin
      apply hacc.fresh
      unfold Finalised
      rw [finalised_persists hu hfin]
      exact hfin
    · simp only [hp, if_false] at hnew
      rw [hnew.1, hnew.2.1, hnew.2.2.2]
      exact hlatest
  exact hall.2

theorem undisturbed_step {K : Primitives} {site : Site} {w w' : World} {e : Event} {id : ℕ}
    (hw : Backed w) (hs : w.step K site e = some w') (hd : ¬ Disturbs K id w e) :
    w'.contract.registry.latestSeedByPurpose (w.contract.requests id).purpose =
      w.contract.registry.latestSeedByPurpose (w.contract.requests id).purpose := by
  rcases World.step_registry hw hs with ⟨-, hsame⟩ | ⟨sender, c, hc, hstep⟩
  · rw [hsame]
  rcases call_cases (step_ok.mp hstep) with ⟨-, _, _, _, _, hout⟩ | ⟨x, hx, -, -, hattest⟩
  · rw [hout]
  obtain ⟨-, ⟨-, hout⟩ | ⟨hcomplete, -, hout⟩⟩ := attest_ok.mp hattest
  · rw [hout]
    rfl
  rw [hout]
  have hnew := finalize_latest K { sender, timestamp := w.now } x
    ((w.contract.registry.attestations x.output.blockHash).count+1)
    (attested K { sender, timestamp := w.now } x w.contract.registry)
    (w.contract.requests id).purpose
  by_cases hp : (w.contract.requests id).purpose ∈ named K x.purposes
  · simp only [hp, if_true] at hnew
    rw [hnew.1]
    by_contra hne
    exact hd ⟨sender, c, x, hc, hx, hcomplete, hp, hne⟩
  · simp only [hp, if_false] at hnew
    exact hnew.1

section Words

variable {K : Primitives} {site : Site} {w₀ w₁ w₂ : World} {sender : Address}
  {purpose salt word : Bytes32} {minHeight : BitVec 64}

theorem utilityWord_of_request (hw : Backed w₀)
    (hreq : w₀.step K site (.call sender (.requestUtility purpose salt minHeight)) = some w₁)
    (h : Reach (World.step K site) w₁ w₂)
    (hword : utilityWord K site w₂.contract w₀.contract.nextRequestId = some word) :
    w₂.contract.registry.latestSeedByPurpose (effectivePurpose K purpose) ≠ 0 ∧
      minHeight ≤ w₂.contract.registry.latestHeightByPurpose (effectivePurpose K purpose) ∧
      word = derive K site (w₂.contract.registry.latestSeedByPurpose (effectivePurpose K purpose))
        (effectivePurpose K purpose) salt sender w₀.contract.nextRequestId := by
  obtain ⟨-, hmade, hnext⟩ := requestUtility_step hw hreq
  have hheld := reach_holds (hw.step hreq) h ⟨by omega, Or.inl hmade⟩
  obtain ⟨r, hr, -, hopen, hseed, hheight, rfl⟩ := utilityWord_eq_some.mp hword
  rcases hheld.2 with hsame | hdone
  · rw [hsame] at hr
    subst hr
    exact ⟨hseed, hheight, rfl⟩
  · rw [hdone] at hr
    subst hr
    cases hopen

theorem word_is_fresh (hw : Backed w₀) (hs : Sound w₀.contract.registry)
    (hreq : w₀.step K site (.call sender (.requestUtility purpose salt minHeight)) = some w₁)
    (hunready : Unready K w₀.contract.registry purpose minHeight)
    (h : Reach (World.step K site) w₁ w₂)
    (hword : utilityWord K site w₂.contract w₀.contract.nextRequestId = some word) :
    ∃ b, b ∉ w₀.contract.registry.blockHashes ∧ b ∈ w₂.contract.registry.blockHashes ∧
      word = derive K site (w₂.contract.registry.outputsByBlockHash b).randomnessOutput
        (effectivePurpose K purpose) salt sender w₀.contract.nextRequestId := by
  obtain ⟨hseed, hheight, rfl⟩ := utilityWord_of_request hw hreq h hword
  have hreg := (requestUtility_step hw hreq).1
  have hreach : Reach (Oracle.step K) w₀.contract.registry w₂.contract.registry := by
    rw [← hreg]
    exact (registry_reach (hw.step hreq) h).2
  have hs₂ : Sound w₂.contract.registry :=
    hreach.invariant hs fun s e t hs _ hstep => hs.step hstep
  obtain ⟨o, hfin, ho, hrandom, -⟩ := hs₂.latest _ hseed
  refine ⟨_, ?_, (hs₂.listed _).mpr hfin, by rw [ho, hrandom]⟩
  rcases latest_since hs hreach (effectivePurpose K purpose) with ⟨hseed', hheight'⟩ | hnew
  · exfalso
    rw [hseed'] at hseed
    rw [hheight'] at hheight
    rcases hunready with hzero | hlow
    · exact hseed hzero
    · exact absurd hheight (BitVec.not_le.mpr hlow)
  · exact hnew

theorem word_is_known (hw : Backed w₀) (hsender : sender ≠ 0)
    (hreq : w₀.step K site (.call sender (.requestUtility purpose salt minHeight)) = some w₁)
    (hready : ¬ Unready K w₀.contract.registry purpose minHeight) :
    ∃ word, utilityWord K site w₁.contract w₀.contract.nextRequestId = some word := by
  obtain ⟨hreg, hmade, -⟩ := requestUtility_step hw hreq
  obtain ⟨hseed, hheight⟩ := not_or.mp hready
  refine ⟨_, utilityWord_eq_some.mpr ⟨_, hmade, hsender, rfl, ?_, ?_, rfl⟩⟩
  · rw [hreg]
    exact hseed
  · rw [hreg]
    exact BitVec.not_lt.mp hheight

theorem word_is_stable {id : ℕ} (hw : Backed w₁) (hlt : id < w₁.contract.nextRequestId)
    (hword : utilityWord K site w₁.contract id = some word)
    (h : Run (World.step K site) (fun w e =>
      (∀ caller, e ≠ .call caller (.fulfillUtility id)) ∧ ¬ Disturbs K id w e) w₁ w₂) :
    utilityWord K site w₂.contract id = some word := by
  have hall : Backed w₂ ∧ id < w₂.contract.nextRequestId ∧
      utilityWord K site w₂.contract id = some word := by
    apply h.invariant (P := fun w => Backed w ∧ id < w.contract.nextRequestId ∧
      utilityWord K site w.contract id = some word) ⟨hw, hlt, hword⟩
    rintro w e w' ⟨hw, hlt, hword⟩ ⟨hother, hcalm⟩ hs
    obtain ⟨r, hr, hrequester, hopen, hseed, hheight, rfl⟩ := utilityWord_eq_some.mp hword
    have hseed' := undisturbed_step hw hs hcalm
    have hheight' := reach_latestHeight
      (registry_reach hw (Run.single trivial hs)).2 (w.contract.requests id).purpose
    have hkept : w'.contract.requests id = w.contract.requests id ∧
        id < w'.contract.nextRequestId := by
      rcases World.step_effect hw hs with ⟨-, hsame, -⟩ | ⟨caller, entry, _, rfl, -, heffect⟩
      · rw [hsame]
        exact ⟨rfl, hlt⟩
      · refine ⟨heffect.requests hlt ?_, (heffect.holds ⟨hlt, Or.inl rfl⟩).1⟩
        rintro rfl
        exact hother caller rfl
    rw [hr] at hseed' hheight'
    refine ⟨hw.step hs, hkept.2, utilityWord_eq_some.mpr ⟨r, hkept.1.trans hr, hrequester, hopen,
      ?_, BitVec.le_trans hheight hheight', ?_⟩⟩
    · rw [hseed']
      exact hseed
    · rw [hseed']
  exact hall.2.2

end Words

/-- A word always comes from an output finalised after its request exactly when
the purpose was not ready for the request as it was made; and it stays the same
in every run that does not fulfil the request nor publish other randomness. -/
theorem utility_word_bound (K : Primitives) (site : Site) {deployer initialPublisher : Address}
    {balance now : ℕ} {x : Framed World Event}
    (h : (service K site).Runs (World.deploy deployer initialPublisher balance now) x)
    {sender : Address} {purpose salt : Bytes32} {minHeight : BitVec 64} {w₁ : World}
    (hsender : sender ≠ 0)
    (hreq : x.current.step K site (.call sender (.requestUtility purpose salt minHeight)) =
      some w₁) :
    ((∀ w₂ word, Reach (World.step K site) w₁ w₂ →
        utilityWord K site w₂.contract x.current.contract.nextRequestId = some word →
        ∃ b, b ∉ x.current.contract.registry.blockHashes ∧
          b ∈ w₂.contract.registry.blockHashes ∧
          word = derive K site (w₂.contract.registry.outputsByBlockHash b).randomnessOutput
            (effectivePurpose K purpose) salt sender x.current.contract.nextRequestId) ↔
      Unready K x.current.contract.registry purpose minHeight) ∧
    ∀ w₂ w₃ word, Reach (World.step K site) w₁ w₂ →
      utilityWord K site w₂.contract x.current.contract.nextRequestId = some word →
      Run (World.step K site) (fun w e =>
        (∀ caller, e ≠ .call caller (.fulfillUtility x.current.contract.nextRequestId)) ∧
          ¬ Disturbs K x.current.contract.nextRequestId w e) w₂ w₃ →
      utilityWord K site w₃.contract x.current.contract.nextRequestId = some word := by
  have hw := backed_of_runs h
  obtain ⟨hreg, hmade, hnext⟩ := requestUtility_step hw hreq
  refine ⟨⟨fun hfresh => ?_, fun hunready w₂ word hreach hword =>
    word_is_fresh hw (sound_of_runs h) hreq hunready hreach hword⟩, ?_⟩
  · by_contra hready
    obtain ⟨word, hword⟩ := word_is_known hw hsender hreq hready
    obtain ⟨b, hout, hin, -⟩ := hfresh w₁ word (.refl w₁) hword
    rw [hreg] at hin
    exact hout hin
  · intro w₂ w₃ word hreach hword hrun
    have hheld := reach_holds (hw.step hreq) hreach ⟨by omega, Or.inl hmade⟩
    exact word_is_stable (registry_reach (hw.step hreq) hreach).1 hheld.1 hword hrun

def toyAsk : Event := .call 9 (.requestUtility 7 5 1)

def toyKnown : Option (Framed World Event) :=
  exec (service toyPrimitives toySite).move (.start toyStart)
    [.take (toyPublish 1 (toyBlock 1 21 31 41) 7)]

theorem utility_word_chosen : ∃ x w₁ w₂ a b, toyKnown = some x ∧
    (service toyPrimitives toySite).Runs toyStart x ∧
    x.current.step toyPrimitives toySite toyAsk = some w₁ ∧
    w₁.step toyPrimitives toySite (toyPublish 1 (toyBlock 2 22 32 42) 7) = some w₂ ∧
    utilityWord toyPrimitives toySite w₁.contract x.current.contract.nextRequestId = some a ∧
    utilityWord toyPrimitives toySite w₂.contract x.current.contract.nextRequestId = some b ∧
    a ≠ b ∧
    a = derive toyPrimitives toySite (x.current.contract.registry.latestSeedByPurpose 7) 7 5 9
      x.current.contract.nextRequestId := by
  have hrun : toyKnown.any fun x =>
      (x.current.step toyPrimitives toySite toyAsk).any fun w₁ =>
      (w₁.step toyPrimitives toySite (toyPublish 1 (toyBlock 2 22 32 42) 7)).any fun w₂ =>
      (utilityWord toyPrimitives toySite w₁.contract x.current.contract.nextRequestId).any fun a =>
      (utilityWord toyPrimitives toySite w₂.contract x.current.contract.nextRequestId).any fun b =>
        a != b && a == derive toyPrimitives toySite
          (x.current.contract.registry.latestSeedByPurpose 7) 7 5 9
          x.current.contract.nextRequestId := by decide +kernel
  obtain ⟨x, hx, hrun⟩ := (Option.any_eq_true _ _).mp hrun
  obtain ⟨w₁, h₁, hrun⟩ := (Option.any_eq_true _ _).mp hrun
  obtain ⟨w₂, h₂, hrun⟩ := (Option.any_eq_true _ _).mp hrun
  obtain ⟨a, ha, hrun⟩ := (Option.any_eq_true _ _).mp hrun
  obtain ⟨b, hb, hrun⟩ := (Option.any_eq_true _ _).mp hrun
  obtain ⟨hne, hknown⟩ := Bool.and_eq_true_iff.mp hrun
  exact ⟨x, w₁, w₂, a, b, hx, exec_reach hx, h₁, h₂, ha, hb, by simpa using hne,
    eq_of_beq hknown⟩

theorem utility_word_bound_toy : ∃ w₁ w₂ w₃ word,
    toyStart.step toyPrimitives toySite toyAsk = some w₁ ∧
    w₁.step toyPrimitives toySite (toyPublish 1 (toyBlock 1 21 31 41) 7) = some w₂ ∧
    w₂.step toyPrimitives toySite (.tick 9) = some w₃ ∧
    utilityWord toyPrimitives toySite w₃.contract 1 = some word ∧
    ∃ b ∈ w₂.contract.registry.blockHashes, word = derive toyPrimitives toySite
      (w₂.contract.registry.outputsByBlockHash b).randomnessOutput 7 5 9 1 := by
  have hrun : (toyStart.step toyPrimitives toySite toyAsk).any fun w₁ =>
      (w₁.step toyPrimitives toySite (toyPublish 1 (toyBlock 1 21 31 41) 7)).any fun w₂ =>
      (w₂.step toyPrimitives toySite (.tick 9)).isSome &&
        (utilityWord toyPrimitives toySite w₂.contract 1).isSome := by decide +kernel
  obtain ⟨w₁, h₁, hrun⟩ := (Option.any_eq_true _ _).mp hrun
  obtain ⟨w₂, h₂, hrun⟩ := (Option.any_eq_true _ _).mp hrun
  obtain ⟨h₃, hword⟩ := Bool.and_eq_true_iff.mp hrun
  obtain ⟨w₃, h₃⟩ := Option.isSome_iff_exists.mp h₃
  obtain ⟨word, hword⟩ := Option.isSome_iff_exists.mp hword
  have hbound := utility_word_bound toyPrimitives toySite (.refl (Framed.start toyStart))
    (by decide) h₁
  have hcalm : ¬ Disturbs toyPrimitives 1 w₂ (.tick 9) := by
    rintro ⟨_, _, _, heq, -⟩
    cases heq
  have hfresh := hbound.1.mpr (Or.inl rfl) w₂ word (Run.single trivial h₂) hword
  have hstable := hbound.2 w₂ w₃ word (Run.single trivial h₂) hword
    (Run.single ⟨(fun _ heq => by cases heq), hcalm⟩ h₃)
  obtain ⟨b, -, hb, hderive⟩ := hfresh
  exact ⟨w₁, w₂, w₃, word, h₁, h₂, h₃, hstable, b, hb, hderive⟩

end BinaChain.BinaOracle
