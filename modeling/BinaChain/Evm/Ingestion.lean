import BinaChain.Evm.Bonds

/-!
# What ingestion stores

A submission counts once for its sender or finalises the output, and a finalised
output is the latest of each purpose it names. Blocks, nullifiers and latest
values stay consistent in every state, and the heights of purposes never fall.
-/

set_option autoImplicit false

namespace BinaChain.BinaOracle
open BinaChain.Crypto BinaChain.Machine BinaChain.Frames BinaChain.Checked BinaChain.Listing
open BinaChain.Oracle

/-- The purposes that a submission names, zero standing for the generic one. -/
def named (K : Primitives) (purposes : List Bytes32) : List Bytes32 :=
  purposes.map (effectivePurpose K)

def advanced (K : Primitives) (o : BinaOutput) (purposes : List Bytes32) (s : Registry) :
    Registry :=
  { s with
    latestSeedByPurpose p :=
      if p ∈ named K purposes then o.randomnessOutput else s.latestSeedByPurpose p
    latestHeightByPurpose p :=
      if p ∈ named K purposes then o.height else s.latestHeightByPurpose p
    latestBTCHeightByPurpose p :=
      if p ∈ named K purposes then o.btcHeight else s.latestBTCHeightByPurpose p
    latestBlockByPurpose p :=
      if p ∈ named K purposes then o.blockHash else s.latestBlockByPurpose p }

theorem ite_update {α β : Type} [DecidableEq α] (f : α → β) (a : α) (v : β) (as : List α) :
    (fun b => if b ∈ as then v else Function.update f a v b) =
      fun b => if b ∈ a :: as then v else f b := by
  funext b
  by_cases hb : b = a
  · simp [hb]
  · simp [hb]

theorem updatePurposeSeeds_eq (K : Primitives) (o : BinaOutput) (purposes : List Bytes32)
    (s : Registry) : purposes.foldl (updatePurposeSeed K o) s = advanced K o purposes s := by
  induction purposes generalizing s with
  | nil => rfl
  | cons p rest ih =>
    rw [List.foldl_cons, ih]
    simp only [advanced, updatePurposeSeed, ite_update]
    rfl

def attested (K : Primitives) (m : Msg) (x : Submission) (s : Registry) : Registry :=
  { s with
    hasAttested := Function.update s.hasAttested x.output.blockHash
      (Function.update (s.hasAttested x.output.blockHash) m.sender true)
    attestations := Function.update s.attestations x.output.blockHash
      { fingerprint := fingerprint K x.output x.purposes
        count := (s.attestations x.output.blockHash).count+1 } }

structure Accepted (K : Primitives) (m : Msg) (s : Registry) (x : Submission) : Prop where
  valid : validateOutput m s x.output = .ok ()
  fresh : ¬ Finalised s x.output.blockHash
  unused : s.usedNullifiers x.output.nullifier = false
  agrees : (s.attestations x.output.blockHash).count ≠ 0 →
    (s.attestations x.output.blockHash).fingerprint = fingerprint K x.output x.purposes
  first : s.hasAttested x.output.blockHash m.sender = false
  room : (s.attestations x.output.blockHash).count ≠ BitVec.allOnes 32

/-- One more attestation makes the quorum of the block. -/
def Completes (s : Registry) (x : Submission) : Prop :=
  s.quorumThreshold ≤ (s.attestations x.output.blockHash).count+1

instance (s : Registry) (x : Submission) : Decidable (Completes s x) :=
  inferInstanceAs (Decidable (_ ≤ _))

/-- No named purpose is ahead of the output. -/
def Current (K : Primitives) (s : Registry) (o : BinaOutput) (purposes : List Bytes32) : Prop :=
  ∀ p ∈ named K purposes, s.latestHeightByPurpose p ≤ o.height

theorem attest_ok {K : Primitives} {m : Msg} {s s' : Registry} {x : Submission} :
    attestAndMaybeFinalize K m s x = .ok s' ↔ Accepted K m s x ∧
      (¬ Completes s x ∧ s' = attested K m x s ∨
        Completes s x ∧ Current K s x.output x.purposes ∧
          s' = finalize K m x ((s.attestations x.output.blockHash).count+1)
            (attested K m x s)) := by
  have hstale : (x.purposes.any fun p =>
      x.output.height < s.latestHeightByPurpose (effectivePurpose K p)) = true ↔
      ¬ Current K s x.output x.purposes := by
    simp [Current, named]
  constructor
  · intro h
    unfold attestAndMaybeFinalize at h
    cases hvalid : validateOutput m s x.output with
    | error e => simp [hvalid] at h
    | ok u =>
      simp only [hvalid, reject_eq_ok] at h
      obtain ⟨hfresh, hunused, hagrees, hfirst, hroom, h⟩ := h
      have hacc : Accepted K m s x :=
        ⟨hvalid, hfresh, by simpa using hunused, fun hc => by_contra fun hne => hagrees ⟨hc, hne⟩,
          by simpa using hfirst, hroom⟩
      rcases ite_eq_ok.mp h with ⟨hbelow, h⟩ | ⟨hreached, h⟩
      · obtain rfl := Except.ok.inj h
        exact ⟨hacc, Or.inl ⟨BitVec.not_le.mpr hbelow, rfl⟩⟩
      · obtain ⟨hcurrent, h⟩ := reject_eq_ok.mp h
        obtain rfl := Except.ok.inj h
        exact ⟨hacc, Or.inr ⟨BitVec.not_lt.mp hreached,
          by_contra fun hn => hcurrent (hstale.mpr hn), rfl⟩⟩
  · rintro ⟨hacc, hout⟩
    unfold attestAndMaybeFinalize
    dsimp only
    have hfresh : ¬ (s.outputsByBlockHash x.output.blockHash).randomnessOutput ≠ 0 := hacc.fresh
    rw [hacc.valid]
    dsimp only
    rw [if_neg hfresh, if_neg (by simp [hacc.unused]),
      if_neg (fun hc => hc.2 (hacc.agrees hc.1)), if_neg (by simp [hacc.first]),
      if_neg hacc.room]
    rcases hout with ⟨hbelow, rfl⟩ | ⟨hreached, hcurrent, rfl⟩
    · rw [if_pos (BitVec.not_le.mp hbelow)]
      rfl
    · rw [if_neg (BitVec.not_lt.mpr hreached), if_neg (fun h => hstale.mp h hcurrent)]
      rfl

def Administers (s s' : Registry) : Prop :=
  ∃ owner publishers requireFalconVerification quorumThreshold,
    s' = { s with owner, publishers, requireFalconVerification, quorumThreshold }

theorem call_cases {K : Primitives} {m : Msg} {s s' : Registry} {c : Call}
    (h : Oracle.call K m s c = .ok s') :
    (c.submission = none ∧ Administers s s') ∨
      ∃ x, c.submission = some x ∧ s.publishers m.sender = true ∧ x.purposes ≠ [] ∧
        attestAndMaybeFinalize K m s x = .ok s' := by
  cases c with
  | transferOwnership | setPublisher | setQuorumThreshold =>
    left
    simp only [Oracle.call] at h
    split at h
    · cases h
    split at h
    · cases h
    obtain rfl := Except.ok.inj h
    exact ⟨rfl, _, _, _, _, rfl⟩
  | setRequireFalcon required =>
    left
    simp only [Oracle.call] at h
    split at h
    · cases h
    obtain rfl := Except.ok.inj h
    exact ⟨rfl, _, _, _, _, rfl⟩
  | submitOutput output purpose proofBundle proofURI =>
    right
    simp only [Oracle.call] at h
    split at h
    · cases h
    rename_i hp
    exact ⟨_, rfl, by simpa using hp, by simp, h⟩
  | submitOutputForPurposes x =>
    right
    simp only [Oracle.call] at h
    split at h
    · cases h
    rename_i hp
    split at h
    · cases h
    rename_i hne
    exact ⟨x, rfl, by simpa using hp, hne, h⟩

theorem step_ok {K : Primitives} {m : Msg} {s s' : Registry} {c : Call} :
    Oracle.step K s (m, c) = some s' ↔ Oracle.call K m s c = .ok s' := toOption_eq_some

structure Sound (s : Registry) : Prop where
  nodup : s.blockHashes.Nodup
  listed : ∀ b, b ∈ s.blockHashes ↔ Finalised s b
  distinct : ∀ b c, Finalised s b → Finalised s c →
    (s.outputsByBlockHash b).nullifier = (s.outputsByBlockHash c).nullifier → b = c
  used : ∀ n, s.usedNullifiers n = true ↔
    ∃ b, Finalised s b ∧ (s.outputsByBlockHash b).nullifier = n
  latest : ∀ p, s.latestSeedByPurpose p ≠ 0 → ∃ o, Finalised s (s.latestBlockByPurpose p) ∧
    s.outputsByBlockHash (s.latestBlockByPurpose p) = o ∧
    o.randomnessOutput = s.latestSeedByPurpose p ∧ o.height = s.latestHeightByPurpose p ∧
    o.btcHeight = s.latestBTCHeightByPurpose p

theorem sound_deploy (sender initialPublisher : Address) :
    Sound (Oracle.deploy sender initialPublisher) where
  nodup := List.nodup_nil
  listed b := by simp [Oracle.deploy, Finalised, StoredOutput.zero]
  distinct b c hb := absurd rfl hb
  used n := by simp [Oracle.deploy, Finalised, StoredOutput.zero]
  latest p hp := absurd rfl hp

theorem Sound.administers {s s' : Registry} (hs : Sound s) (h : Administers s s') : Sound s' := by
  obtain ⟨_, _, _, _, rfl⟩ := h
  exact ⟨hs.nodup, hs.listed, hs.distinct, hs.used, hs.latest⟩

theorem Sound.attested {K : Primitives} {m : Msg} {x : Submission} {s : Registry} (hs : Sound s) :
    Sound (attested K m x s) :=
  ⟨hs.nodup, hs.listed, hs.distinct, hs.used, hs.latest⟩

theorem valid_fields {m : Msg} {s : Registry} {o : BinaOutput}
    (h : validateOutput m s o = .ok ()) : o.randomnessOutput ≠ 0 ∧ o.height ≠ 0 := by
  unfold validateOutput at h
  obtain ⟨hheight, h⟩ := Checked.reject_eq_ok.mp h
  obtain ⟨-, h⟩ := Checked.reject_eq_ok.mp h
  obtain ⟨hrandom, -⟩ := Checked.reject_eq_ok.mp h
  exact ⟨hrandom, hheight⟩

section Finalising

variable {K : Primitives} {m : Msg} {x : Submission} {count : BitVec 32} {s : Registry}

theorem finalize_outputs : (finalize K m x count s).outputsByBlockHash =
    Function.update s.outputsByBlockHash x.output.blockHash
      (storedOutput K m x.output x.proofBundle count) := by
  unfold finalize
  rw [updatePurposeSeeds_eq]
  rfl

theorem finalize_finalised (hx : x.output.randomnessOutput ≠ 0) (b : Bytes32) :
    Finalised (finalize K m x count s) b ↔ b = x.output.blockHash ∨ Finalised s b := by
  unfold Finalised
  rw [finalize_outputs]
  by_cases hb : b = x.output.blockHash
  · subst hb
    simpa [storedOutput] using hx
  · simp [hb]

theorem finalize_blockHashes :
    (finalize K m x count s).blockHashes = s.blockHashes++[x.output.blockHash] := by
  unfold finalize
  rw [updatePurposeSeeds_eq]
  rfl

theorem finalize_nullifiers : (finalize K m x count s).usedNullifiers =
    Function.update s.usedNullifiers x.output.nullifier true := by
  unfold finalize
  rw [updatePurposeSeeds_eq]
  rfl

variable (K m x count s) in
theorem finalize_latest (p : Bytes32) :
    let t := finalize K m x count s
    if p ∈ named K x.purposes then
      t.latestSeedByPurpose p = x.output.randomnessOutput ∧
      t.latestHeightByPurpose p = x.output.height ∧
      t.latestBTCHeightByPurpose p = x.output.btcHeight ∧
      t.latestBlockByPurpose p = x.output.blockHash
    else
      t.latestSeedByPurpose p = s.latestSeedByPurpose p ∧
      t.latestHeightByPurpose p = s.latestHeightByPurpose p ∧
      t.latestBTCHeightByPurpose p = s.latestBTCHeightByPurpose p ∧
      t.latestBlockByPurpose p = s.latestBlockByPurpose p := by
  unfold finalize
  rw [updatePurposeSeeds_eq]
  by_cases hp : p ∈ named K x.purposes <;> simp [advanced, hp]

theorem Sound.finalize (hs : Sound s) (hx : x.output.randomnessOutput ≠ 0)
    (hfresh : ¬ Finalised s x.output.blockHash)
    (hunused : s.usedNullifiers x.output.nullifier = false) :
    Sound (finalize K m x count s) := by
  have hfin : ∀ b, Finalised (Oracle.finalize K m x count s) b ↔
      b = x.output.blockHash ∨ Finalised s b := finalize_finalised hx
  have hout : (Oracle.finalize K m x count s).outputsByBlockHash x.output.blockHash =
      storedOutput K m x.output x.proofBundle count := by
    rw [finalize_outputs, Function.update_self]
  have hold : ∀ b, b ≠ x.output.blockHash →
      (Oracle.finalize K m x count s).outputsByBlockHash b = s.outputsByBlockHash b := by
    intro b hb
    rw [finalize_outputs, Function.update_of_ne hb]
  have hother : ∀ b, Finalised s b → b ≠ x.output.blockHash := by
    rintro _ hb rfl
    exact hfresh hb
  have hclash : ∀ b, Finalised s b → (s.outputsByBlockHash b).nullifier ≠ x.output.nullifier := by
    intro b hb heq
    have := (hs.used x.output.nullifier).mpr ⟨b, hb, heq⟩
    simp [hunused] at this
  constructor
  · rw [finalize_blockHashes]
    apply hs.nodup.append (List.nodup_singleton _)
    intro b hb hmem
    obtain rfl := List.mem_singleton.mp hmem
    exact hfresh ((hs.listed _).mp hb)
  · intro b
    rw [finalize_blockHashes, List.mem_append, hs.listed, List.mem_singleton, hfin, or_comm]
  · intro b c hb hc heq
    rcases (hfin b).mp hb with rfl | hb <;> rcases (hfin c).mp hc with rfl | hc
    · rfl
    · rw [hout, hold c (hother c hc)] at heq
      exact absurd heq.symm (hclash c hc)
    · rw [hout, hold b (hother b hb)] at heq
      exact absurd heq (hclash b hb)
    · rw [hold b (hother b hb), hold c (hother c hc)] at heq
      exact hs.distinct b c hb hc heq
  · intro n
    rw [finalize_nullifiers]
    by_cases hn : n = x.output.nullifier
    · subst hn
      rw [Function.update_self]
      refine ⟨fun _ => ⟨x.output.blockHash, (hfin _).mpr (Or.inl rfl), ?_⟩, fun _ => rfl⟩
      rw [hout]
      rfl
    · rw [Function.update_of_ne hn, hs.used]
      constructor
      · rintro ⟨b, hb, hbn⟩
        refine ⟨b, (hfin b).mpr (Or.inr hb), ?_⟩
        rw [hold b (hother b hb)]
        exact hbn
      · rintro ⟨b, hb, hbn⟩
        rcases (hfin b).mp hb with rfl | hb
        · rw [hout] at hbn
          exact absurd hbn.symm hn
        · rw [hold b (hother b hb)] at hbn
          exact ⟨b, hb, hbn⟩
  · intro p hseed
    have hlatest := finalize_latest K m x count s p
    by_cases hp : p ∈ named K x.purposes
    · simp only [hp, if_true] at hlatest
      obtain ⟨h1, h2, h3, h4⟩ := hlatest
      rw [h1, h2, h3, h4]
      exact ⟨_, (hfin _).mpr (Or.inl rfl), hout, rfl, rfl, rfl⟩
    · simp only [hp, if_false] at hlatest
      obtain ⟨h1, h2, h3, h4⟩ := hlatest
      rw [h1] at hseed
      rw [h1, h2, h3, h4]
      obtain ⟨o, hb, ho, hrest⟩ := hs.latest p hseed
      exact ⟨o, (hfin _).mpr (Or.inr hb), by rw [hold _ (hother _ hb), ho], hrest⟩

end Finalising

theorem Sound.step {K : Primitives} {s s' : Registry} {e : Msg × Call} (hs : Sound s)
    (h : Oracle.step K s e = some s') : Sound s' := by
  obtain ⟨m, c⟩ := e
  rcases call_cases (step_ok.mp h) with ⟨-, hadmin⟩ | ⟨x, -, -, -, hattest⟩
  · exact hs.administers hadmin
  · obtain ⟨hacc, ⟨-, rfl⟩ | ⟨-, -, rfl⟩⟩ := attest_ok.mp hattest
    · exact hs.attested
    · exact hs.attested.finalize (valid_fields hacc.valid).1 hacc.fresh hacc.unused

theorem step_latestHeight {K : Primitives} {s s' : Registry} {e : Msg × Call}
    (h : Oracle.step K s e = some s') (p : Bytes32) :
    s.latestHeightByPurpose p ≤ s'.latestHeightByPurpose p := by
  obtain ⟨m, c⟩ := e
  rcases call_cases (step_ok.mp h) with ⟨-, _, _, _, _, rfl⟩ | ⟨x, -, -, -, hattest⟩
  · exact BitVec.le_refl _
  obtain ⟨hacc, ⟨-, rfl⟩ | ⟨-, hcurrent, rfl⟩⟩ := attest_ok.mp hattest
  · exact BitVec.le_refl _
  have hlatest := finalize_latest K m x ((s.attestations x.output.blockHash).count+1)
    (attested K m x s) p
  by_cases hp : p ∈ named K x.purposes
  · simp only [hp, if_true] at hlatest
    rw [hlatest.2.1]
    exact hcurrent p hp
  · simp only [hp, if_false] at hlatest
    rw [hlatest.2.1]
    exact BitVec.le_refl _

theorem reach_latestHeight {K : Primitives} {s s' : Registry} (h : Reach (Oracle.step K) s s')
    (p : Bytes32) : s.latestHeightByPurpose p ≤ s'.latestHeightByPurpose p := by
  apply h.invariant (P := fun t => s.latestHeightByPurpose p ≤ t.latestHeightByPurpose p)
  · exact BitVec.le_refl _
  · intro t e u ht _ hs
    exact BitVec.le_trans ht (step_latestHeight hs p)

def Event.ingested : Event → Option (Address × Call)
  | .call sender (.ingestion c) => some (sender, c)
  | _ => none

theorem Event.ingested_eq {e : Event} {sender : Address} {c : Call} :
    e.ingested = some (sender, c) ↔ e = .call sender (.ingestion c) := by
  constructor
  · intro h
    unfold Event.ingested at h
    split at h
    · obtain ⟨rfl, rfl⟩ := Prod.mk.inj (Option.some.inj h)
      rfl
    · cases h
  · rintro rfl
    rfl

theorem Effect.registry {K : Primitives} {m : Msg} {s : Storage} {entry : Entry} {out : Outcome}
    (he : Effect K m s entry out) :
    ((∀ c, entry ≠ .ingestion c) ∧ out.1.registry = s.registry) ∨
      ∃ c, entry = .ingestion c ∧ Oracle.step K s.registry (m, c) = some out.1.registry := by
  cases he with
  | ingestion hc _ => exact Or.inr ⟨_, rfl, step_ok.mpr hc⟩
  | depositBond | withdrawBond | requestFuturePublication | unslashed | slashed | requestUtility
    | fulfillUtility => exact Or.inl ⟨(fun _ h => nomatch h), rfl⟩

theorem World.step_effect {K : Primitives} {site : Site} {w w' : World} {e : Event}
    (hw : Backed w) (h : w.step K site e = some w') :
    ((∀ sender entry, e ≠ .call sender entry) ∧ w'.contract = w.contract ∧ w.now ≤ w'.now) ∨
      ∃ sender entry paid, e = .call sender entry ∧ w'.now = w.now ∧
        Effect K { sender, timestamp := w.now } w.contract entry (w'.contract, paid) := by
  cases e with
  | call sender entry =>
    obtain ⟨paying, hc⟩ := World.step_call h
    obtain ⟨out, hout, -, hr⟩ := World.call_ok hc
    obtain rfl := congrArg Prod.fst hr
    exact Or.inr ⟨sender, entry, out.2, rfl, rfl, perform_effect hw.bonded hout⟩
  | force amount =>
    obtain rfl := Option.some.inj h
    left
    constructor
    · intro _ _ heq
      cases heq
    · exact ⟨rfl, Nat.le_refl _⟩
  | tick timestamp =>
    simp only [World.step] at h
    split at h
    · rename_i hle
      obtain rfl := Option.some.inj h
      left
      constructor
      · intro _ _ heq
        cases heq
      · exact ⟨rfl, hle⟩
    · cases h

theorem World.step_registry {K : Primitives} {site : Site} {w w' : World} {e : Event}
    (hw : Backed w) (h : w.step K site e = some w') :
    (e.ingested = none ∧ w'.contract.registry = w.contract.registry) ∨
      ∃ sender c, e.ingested = some (sender, c) ∧
        Oracle.step K w.contract.registry ({ sender, timestamp := w.now }, c) =
          some w'.contract.registry := by
  rcases World.step_effect hw h with ⟨hcall, hsame, -⟩ | ⟨sender, entry, paid, rfl, -, heffect⟩
  · left
    refine ⟨?_, by rw [hsame]⟩
    rw [Option.eq_none_iff_forall_ne_some]
    rintro ⟨sender, c⟩ hc
    exact hcall _ _ (Event.ingested_eq.mp hc)
  · rcases heffect.registry with ⟨hentry, hsame⟩ | ⟨c, rfl, hs⟩
    · left
      refine ⟨?_, hsame⟩
      rw [Option.eq_none_iff_forall_ne_some]
      rintro ⟨sender', c⟩ hc
      have heq := Event.ingested_eq.mp hc
      exact hentry c (Event.call.inj heq).2
    · exact Or.inr ⟨sender, c, rfl, hs⟩

theorem registry_reach {K : Primitives} {site : Site} {w w' : World} (hw : Backed w)
    (h : Reach (World.step K site) w w') :
    Backed w' ∧ Reach (Oracle.step K) w.contract.registry w'.contract.registry := by
  apply h.invariant (P := fun v =>
    Backed v ∧ Reach (Oracle.step K) w.contract.registry v.contract.registry)
  · exact ⟨hw, .refl _⟩
  · rintro v e u ⟨hv, hr⟩ - hs
    refine ⟨hv.step hs, ?_⟩
    rcases World.step_registry hv hs with ⟨-, hsame⟩ | ⟨_, _, -, hstep⟩
    · rwa [hsame]
    · exact hr.tail trivial hstep

theorem runs_reach {K : Primitives} {site : Site} {w : World} {x : Framed World Event}
    (h : (service K site).Runs w x) : Reach (World.step K site) w x.current :=
  h.flat fun _ _ => rfl

theorem sound_of_runs {K : Primitives} {site : Site} {sender initialPublisher : Address}
    {balance now : ℕ} {x : Framed World Event}
    (h : (service K site).Runs (World.deploy sender initialPublisher balance now) x) :
    Sound x.current.contract.registry := by
  have hreach := (registry_reach (backed_deploy _ _ _ _) (runs_reach h)).2
  apply hreach.invariant (sound_deploy sender initialPublisher)
  intro s e s' hs _ hstep
  exact hs.step hstep

/-- Every reachable registry is sound, and from there no height of a purpose
ever falls. -/
theorem registry_consistent (K : Primitives) (site : Site) {sender initialPublisher : Address}
    {balance now : ℕ} {x : Framed World Event}
    (h : (service K site).Runs (World.deploy sender initialPublisher balance now) x) :
    Sound x.current.contract.registry ∧
    ∀ w, Reach (World.step K site) x.current w → ∀ p,
      x.current.contract.registry.latestHeightByPurpose p ≤
        w.contract.registry.latestHeightByPurpose p := by
  refine ⟨sound_of_runs h, ?_⟩
  intro w hw p
  exact reach_latestHeight (registry_reach (backed_of_runs h) hw).2 p

def toyBlock (height : BitVec 64) (blockHash nullifier randomnessOutput : Bytes32) : BinaOutput :=
  { height, blockHash, randomnessOutput, nullifier, binaMiner := 5, btcHeight := 800, btcSeed := 6,
    minedTimestamp := 0, workBits := 30, claimDigest := 8, electionScore := 9,
    falconVerified := true }

def toyPublish (sender : Address) (o : BinaOutput) (purpose : Bytes32) : Event :=
  .call sender (.ingestion (.submitOutput o purpose [] []))

def toyIngestion : Option (Framed World Event) :=
  exec (service toyPrimitives toySite).move (.start toyStart)
    [.take (toyPublish 1 (toyBlock 1 21 31 41) 7), .take (toyPublish 1 (toyBlock 2 22 32 42) 7)]

theorem registry_consistent_toy : ∃ x, toyIngestion = some x ∧
    Sound x.current.contract.registry ∧
    x.current.contract.registry.blockHashes = [21, 22] ∧
    x.current.contract.registry.latestSeedByPurpose 7 = 42 := by
  have hrun : toyIngestion.any fun x =>
      decide (x.current.contract.registry.blockHashes = [21, 22]) &&
      decide (x.current.contract.registry.latestSeedByPurpose 7 = 42) := by decide +kernel
  obtain ⟨x, hx, hp⟩ := (Option.any_eq_true _ _).mp hrun
  obtain ⟨hblocks, hseed⟩ := Bool.and_eq_true_iff.mp hp
  exact ⟨x, hx, (registry_consistent toyPrimitives toySite (exec_reach hx)).1,
    of_decide_eq_true hblocks, of_decide_eq_true hseed⟩

end BinaChain.BinaOracle
