import BinaChain.Evm.Ingestion

/-!
# Attestations and the quorum

The counter of a block is the number of addresses that attested it, whether or
not they are still publishers. The first attestation fixes the fingerprint; what
follows decides when a set of publishers can finalise an output, and when the
quorum that finalises one is a quorum of current publishers.
-/

set_option autoImplicit false

namespace BinaChain.BinaOracle
open BinaChain.Word BinaChain.Abi BinaChain.Crypto BinaChain.Machine BinaChain.Frames
open BinaChain.Checked BinaChain.Oracle

def attesters (s : Registry) (b : Bytes32) : Finset Address :=
  Finset.univ.filter fun a => s.hasAttested b a = true

theorem mem_attesters {s : Registry} {b : Bytes32} {a : Address} :
    a ∈ attesters s b ↔ s.hasAttested b a = true := by
  simp [attesters]

structure Counted (s : Registry) : Prop where
  count : ∀ b, (s.attestations b).count.toNat = (attesters s b).card
  /-- A pending counter has room for one more. -/
  room : ∀ b, ¬ Finalised s b → (s.attestations b).count ≠ BitVec.allOnes 32

theorem counted_deploy (sender initialPublisher : Address) :
    Counted (Oracle.deploy sender initialPublisher) where
  count b := by
    have hnone : attesters (Oracle.deploy sender initialPublisher) b = ∅ := by
      apply Finset.filter_eq_empty_iff.mpr
      intro a _
      simp [Oracle.deploy]
    rw [hnone]
    rfl
  room b _ := by
    change (0 : BitVec 32) ≠ BitVec.allOnes 32
    decide

theorem Counted.administers {s s' : Registry} (hs : Counted s) (h : Administers s s') :
    Counted s' := by
  obtain ⟨_, _, _, _, rfl⟩ := h
  exact ⟨hs.count, hs.room⟩

theorem count_succ {c : BitVec 32} (h : c ≠ BitVec.allOnes 32) : (c+1).toNat = c.toNat+1 := by
  have hlt := c.isLt
  have hne : c.toNat ≠ 4294967295 := by
    intro heq
    apply h
    apply BitVec.eq_of_toNat_eq
    rw [heq]
    decide
  simp only [BitVec.toNat_add, BitVec.ofNat_eq_ofNat, BitVec.toNat_ofNat]
  omega

section Attesting

variable {K : Primitives} {m : Msg} {x : Submission} {s : Registry}

theorem attesters_attested : attesters (attested K m x s) x.output.blockHash =
    insert m.sender (attesters s x.output.blockHash) := by
  ext a
  rw [Finset.mem_insert, mem_attesters, mem_attesters]
  by_cases ha : a = m.sender <;> simp [attested, ha]

theorem attesters_other {b : Bytes32} (hb : b ≠ x.output.blockHash) :
    attesters (attested K m x s) b = attesters s b := by
  ext a
  rw [mem_attesters, mem_attesters]
  simp [attested, hb]

theorem Counted.attested_count (hs : Counted s) (hacc : Accepted K m s x) (b : Bytes32) :
    ((attested K m x s).attestations b).count.toNat = (attesters (attested K m x s) b).card := by
  by_cases hb : b = x.output.blockHash
  · subst hb
    have hout : m.sender ∉ attesters s x.output.blockHash := by
      simp [mem_attesters, hacc.first]
    rw [attesters_attested, Finset.card_insert_of_notMem hout, ← hs.count, ← count_succ hacc.room]
    simp [attested]
  · rw [attesters_other hb, ← hs.count]
    simp [attested, hb]

theorem Counted.attested (hs : Counted s) (hacc : Accepted K m s x) (hc : ¬ Completes s x) :
    Counted (attested K m x s) where
  count := hs.attested_count hacc
  room b hb := by
    by_cases heq : b = x.output.blockHash
    · subst heq
      intro hfull
      apply hc
      have hsame : ((BinaOracle.attested K m x s).attestations x.output.blockHash).count =
          (s.attestations x.output.blockHash).count+1 := by
        simp [BinaOracle.attested]
      unfold Completes
      rw [← hsame, hfull]
      apply BitVec.le_def.mpr
      have hlt := s.quorumThreshold.isLt
      rw [BitVec.toNat_allOnes]
      omega
    · have hold := hs.room b hb
      simpa [BinaOracle.attested, heq] using hold

theorem finalize_attestations (count : BitVec 32) :
    (finalize K m x count s).attestations = s.attestations ∧
      (finalize K m x count s).hasAttested = s.hasAttested ∧
      (finalize K m x count s).publishers = s.publishers ∧
      (finalize K m x count s).quorumThreshold = s.quorumThreshold := by
  unfold finalize
  rw [updatePurposeSeeds_eq]
  exact ⟨rfl, rfl, rfl, rfl⟩

theorem Counted.finalize (hs : Counted s) (hacc : Accepted K m s x) (count : BitVec 32) :
    Counted (finalize K m x count (BinaOracle.attested K m x s)) where
  count b := by
    obtain ⟨hatt, hhas, -, -⟩ :=
      finalize_attestations (K := K) (m := m) (x := x) (s := BinaOracle.attested K m x s) count
    rw [hatt, hs.attested_count hacc]
    unfold attesters
    rw [hhas]
  room b hb := by
    obtain ⟨hatt, -, -, -⟩ :=
      finalize_attestations (K := K) (m := m) (x := x) (s := BinaOracle.attested K m x s) count
    rw [finalize_finalised (valid_fields hacc.valid).1, not_or] at hb
    have hold := hs.room b hb.2
    rw [hatt]
    simpa [BinaOracle.attested, hb.1] using hold

end Attesting

theorem Counted.step {K : Primitives} {s s' : Registry} {e : Msg × Call} (hs : Counted s)
    (h : Oracle.step K s e = some s') : Counted s' := by
  obtain ⟨m, c⟩ := e
  rcases call_cases (step_ok.mp h) with ⟨-, hadmin⟩ | ⟨x, -, -, -, hattest⟩
  · exact hs.administers hadmin
  · obtain ⟨hacc, ⟨hbelow, rfl⟩ | ⟨-, -, rfl⟩⟩ := attest_ok.mp hattest
    · exact hs.attested hacc hbelow
    · exact hs.finalize hacc _

theorem counted_of_runs {K : Primitives} {site : Site} {sender initialPublisher : Address}
    {balance now : ℕ} {x : Framed World Event}
    (h : (service K site).Runs (World.deploy sender initialPublisher balance now) x) :
    Counted x.current.contract.registry := by
  have hreach := (registry_reach (backed_deploy _ _ _ _) (runs_reach h)).2
  apply hreach.invariant (counted_deploy sender initialPublisher)
  intro s e s' hs _ hstep
  exact hs.step hstep

/-- The call submits the output for the purposes, with any proof. -/
def Submits (o : BinaOutput) (purposes : List Bytes32) (c : Call) : Prop :=
  ∃ x, c.submission = some x ∧ x.output = o ∧ x.purposes = purposes

/-- Nothing else was attested first for the block of the output. -/
def Unrivalled (K : Primitives) (s : Registry) (o : BinaOutput) (purposes : List Bytes32) : Prop :=
  (s.attestations o.blockHash).count = 0 ∨
    (s.attestations o.blockHash).fingerprint = fingerprint K o purposes

theorem validateOutput_congr {m : Msg} {s s' : Registry}
    (h : s'.requireFalconVerification = s.requireFalconVerification) (o : BinaOutput) :
    validateOutput m s' o = validateOutput m s o := by
  unfold validateOutput
  rw [h]

theorem call_submission {K : Primitives} {m : Msg} {s : Registry} {c : Call} {x : Submission}
    (hc : c.submission = some x) (hp : s.publishers m.sender = true) (hne : x.purposes ≠ []) :
    Oracle.call K m s c = attestAndMaybeFinalize K m s x := by
  cases c with
  | transferOwnership | setPublisher | setQuorumThreshold | setRequireFalcon => cases hc
  | submitOutput output purpose proofBundle proofURI =>
    obtain rfl := Option.some.inj hc
    simp [Oracle.call, hp]
  | submitOutputForPurposes x' =>
    obtain rfl := Option.some.inj hc
    simp [Oracle.call, hp, hne]

/-- Where the submissions `done` have led while the output is still pending. -/
structure Pending (K : Primitives) (r : Registry) (o : BinaOutput) (purposes : List Bytes32)
    (done : List Address) (s : Registry) : Prop where
  publishers : s.publishers = r.publishers
  threshold : s.quorumThreshold = r.quorumThreshold
  falcon : s.requireFalconVerification = r.requireFalconVerification
  heights : s.latestHeightByPurpose = r.latestHeightByPurpose
  nullifiers : s.usedNullifiers = r.usedNullifiers
  fresh : ¬ Finalised s o.blockHash
  counted : Counted s
  unrivalled : Unrivalled K s o purposes
  heard : ∀ a, s.hasAttested o.blockHash a = true ↔
    r.hasAttested o.blockHash a = true ∨ a ∈ done
  below : (∃ a ∈ done, r.hasAttested o.blockHash a = false) →
    (s.attestations o.blockHash).count < s.quorumThreshold

section Submitting

variable {K : Primitives} {r : Registry} {o : BinaOutput} {purposes : List Bytes32}

theorem Pending.start (hfresh : ¬ Finalised r o.blockHash) (hcounted : Counted r)
    (hrival : Unrivalled K r o purposes) : Pending K r o purposes [] r where
  publishers := rfl
  threshold := rfl
  falcon := rfl
  heights := rfl
  nullifiers := rfl
  fresh := hfresh
  counted := hcounted
  unrivalled := hrival
  heard a := by simp
  below := by simp

theorem Pending.again {s : Registry} {done : List Address} (h : Pending K r o purposes done s)
    {a : Address} (ha : s.hasAttested o.blockHash a = true) :
    Pending K r o purposes (a :: done) s where
  publishers := h.publishers
  threshold := h.threshold
  falcon := h.falcon
  heights := h.heights
  nullifiers := h.nullifiers
  fresh := h.fresh
  counted := h.counted
  unrivalled := h.unrivalled
  heard b := by
    rw [h.heard, List.mem_cons]
    constructor
    · rintro (hb | hb)
      · exact Or.inl hb
      · exact Or.inr (Or.inr hb)
    · rintro (hb | rfl | hb)
      · exact Or.inl hb
      · exact (h.heard _).mp ha
      · exact Or.inr hb
  below := by
    rintro ⟨b, hb, hold⟩
    rcases List.mem_cons.mp hb with rfl | hb
    · rcases (h.heard _).mp ha with hold' | hdone
      · rw [hold] at hold'
        cases hold'
      · exact h.below ⟨_, hdone, hold⟩
    · exact h.below ⟨b, hb, hold⟩

theorem Pending.submit {s : Registry} {done : List Address} (h : Pending K r o purposes done s)
    (hne : purposes ≠ []) (hunused : r.usedNullifiers o.nullifier = false)
    (hcurrent : Current K r o purposes) {e : Msg × Call} (hp : r.publishers e.1.sender = true)
    (hc : Submits o purposes e.2) (hv : validateOutput e.1 r o = .ok ()) :
    Finalised ((Oracle.step K s e).getD s) o.blockHash ∨
      Pending K r o purposes (e.1.sender :: done) ((Oracle.step K s e).getD s) := by
  obtain ⟨m, c⟩ := e
  obtain ⟨x, hx, rfl, rfl⟩ := hc
  have hcall : Oracle.call K m s c = attestAndMaybeFinalize K m s x :=
    call_submission hx (by rwa [h.publishers]) hne
  by_cases hfirst : s.hasAttested x.output.blockHash m.sender = true
  · right
    have hrevert : Oracle.step K s (m, c) = none := by
      rw [Option.eq_none_iff_forall_ne_some]
      intro t ht
      have hattest := step_ok.mp ht
      rw [hcall] at hattest
      have hnot := (attest_ok.mp hattest).1.first
      rw [hfirst] at hnot
      cases hnot
    rw [hrevert]
    exact h.again hfirst
  · have hacc : Accepted K m s x :=
      { valid := by rw [validateOutput_congr h.falcon]; exact hv
        fresh := h.fresh
        unused := by rw [h.nullifiers]; exact hunused
        agrees := fun hn => h.unrivalled.resolve_left hn
        first := by simpa using hfirst
        room := h.counted.room _ h.fresh }
    by_cases hcomplete : Completes s x
    · left
      have hcur : Current K s x.output x.purposes := by
        intro p hmem
        rw [h.heights]
        exact hcurrent p hmem
      have hstep : Oracle.step K s (m, c) = some (finalize K m x
          ((s.attestations x.output.blockHash).count+1) (attested K m x s)) := by
        rw [step_ok, hcall]
        exact attest_ok.mpr ⟨hacc, Or.inr ⟨hcomplete, hcur, rfl⟩⟩
      rw [hstep]
      exact (finalize_finalised (valid_fields hacc.valid).1 _).mpr (Or.inl rfl)
    · right
      have hstep : Oracle.step K s (m, c) = some (attested K m x s) := by
        rw [step_ok, hcall]
        exact attest_ok.mpr ⟨hacc, Or.inl ⟨hcomplete, rfl⟩⟩
      rw [hstep]
      exact
        { publishers := h.publishers
          threshold := h.threshold
          falcon := h.falcon
          heights := h.heights
          nullifiers := h.nullifiers
          fresh := h.fresh
          counted := h.counted.attested hacc hcomplete
          unrivalled := Or.inr (by simp [attested])
          heard := by
            intro a
            rw [← mem_attesters, Option.getD_some, attesters_attested, Finset.mem_insert,
              mem_attesters, h.heard, List.mem_cons]
            tauto
          below := by
            intro _
            have hlow := BitVec.not_le.mp hcomplete
            simpa [attested] using hlow }

theorem Pending.submissions {s : Registry} {done : List Address}
    (h : Pending K r o purposes done s) (hne : purposes ≠ [])
    (hunused : r.usedNullifiers o.nullifier = false) (hcurrent : Current K r o purposes)
    {es : List (Msg × Call)} (hp : ∀ e ∈ es, r.publishers e.1.sender = true)
    (hc : ∀ e ∈ es, Submits o purposes e.2) (hv : ∀ e ∈ es, validateOutput e.1 r o = .ok ()) :
    Finalised (attempts (Oracle.step K) s es) o.blockHash ∨
      Pending K r o purposes ((es.map fun e => e.1.sender).reverse++done)
        (attempts (Oracle.step K) s es) := by
  induction es generalizing s done with
  | nil => exact Or.inr h
  | cons e es ih =>
    rw [attempts_cons]
    have hmem : e ∈ e :: es := List.mem_cons_self
    rcases h.submit hne hunused hcurrent (hp e hmem) (hc e hmem) (hv e hmem) with hfin | hpend
    · left
      have hreach : Reach (Oracle.step K) _ _ := attempts_reach ((Oracle.step K s e).getD s) es
      unfold Finalised
      rw [finalised_persists hreach hfin]
      exact hfin
    · have hrest := ih hpend (fun e he => hp e (List.mem_cons_of_mem _ he))
        (fun e he => hc e (List.mem_cons_of_mem _ he))
        (fun e he => hv e (List.mem_cons_of_mem _ he))
      simpa [List.append_assoc] using hrest

theorem submission_reverts {e : Msg × Call} (hc : Submits o purposes e.2)
    (h : ¬ Unrivalled K r o purposes ∨ r.hasAttested o.blockHash e.1.sender = true) :
    Oracle.step K r e = none := by
  obtain ⟨m, c⟩ := e
  obtain ⟨x, hx, rfl, rfl⟩ := hc
  rw [Option.eq_none_iff_forall_ne_some]
  intro t ht
  rcases call_cases (step_ok.mp ht) with ⟨hnone, -⟩ | ⟨x', hx', -, -, hattest⟩
  · rw [hx] at hnone
    cases hnone
  · obtain rfl := Option.some.inj (hx.symm.trans hx')
    have hacc := (attest_ok.mp hattest).1
    rcases h with hrival | hagain
    · apply hrival
      by_cases hzero : (r.attestations x.output.blockHash).count = 0
      · exact Or.inl hzero
      · exact Or.inr (hacc.agrees hzero)
    · rw [hacc.first] at hagain
      cases hagain

end Submitting

/-- A quorum of publishers that submits a valid output finalises it exactly when
nothing else was attested first for its block and one of them had not attested. -/
theorem quorum_finalises (K : Primitives) (site : Site) {sender initialPublisher : Address}
    {balance now : ℕ} {x : Framed World Event}
    (h : (service K site).Runs (World.deploy sender initialPublisher balance now) x)
    {o : BinaOutput} {purposes : List Bytes32} (hne : purposes ≠ [])
    (hfresh : ¬ Finalised x.current.contract.registry o.blockHash)
    (hunused : x.current.contract.registry.usedNullifiers o.nullifier = false)
    (hcurrent : Current K x.current.contract.registry o purposes) {quorum : Finset Address}
    (hquorum : ∀ p ∈ quorum, x.current.contract.registry.publishers p = true)
    (hcard : x.current.contract.registry.quorumThreshold.toNat ≤ quorum.card)
    {es : List (Msg × Call)}
    (hes : ∀ e ∈ es, e.1.sender ∈ quorum ∧ Submits o purposes e.2 ∧
      validateOutput e.1 x.current.contract.registry o = .ok ())
    (hall : ∀ p ∈ quorum, x.current.contract.registry.hasAttested o.blockHash p = false →
      ∃ e ∈ es, e.1.sender = p) :
    Finalised (attempts (Oracle.step K) x.current.contract.registry es) o.blockHash ↔
      Unrivalled K x.current.contract.registry o purposes ∧
        ∃ p ∈ quorum, x.current.contract.registry.hasAttested o.blockHash p = false := by
  generalize hr : x.current.contract.registry = r at *
  have hcounted : Counted r := by
    rw [← hr]
    exact counted_of_runs h
  constructor
  · intro hfin
    by_contra hn
    apply hfresh
    have hstuck : ∀ e ∈ es, Oracle.step K r e = none := by
      intro e he
      obtain ⟨hin, hc, -⟩ := hes e he
      apply submission_reverts hc
      by_cases hrival : Unrivalled K r o purposes
      · right
        by_contra hfirst
        exact hn ⟨hrival, _, hin, by simpa using hfirst⟩
      · exact Or.inl hrival
    rwa [attempts_stuck hstuck] at hfin
  · rintro ⟨hrival, p, hp, hfirst⟩
    rcases (Pending.start hfresh hcounted hrival).submissions hne hunused hcurrent
      (fun e he => hquorum _ (hes e he).1) (fun e he => (hes e he).2.1)
      (fun e he => (hes e he).2.2) with hfin | hpend
    · exact hfin
    exfalso
    generalize attempts (Oracle.step K) r es = s at hpend
    have hdone : ∀ q ∈ quorum, r.hasAttested o.blockHash q = false →
        q ∈ (es.map fun e => e.1.sender).reverse++[] := by
      intro q hq hnew
      obtain ⟨e, he, rfl⟩ := hall q hq hnew
      simpa using ⟨e.1, ⟨_, he⟩, rfl⟩
    have hbelow := BitVec.lt_def.mp (hpend.below ⟨p, hdone p hp hfirst, hfirst⟩)
    have hsub : quorum ⊆ attesters s o.blockHash := by
      intro q hq
      rw [mem_attesters, hpend.heard]
      by_cases hold : r.hasAttested o.blockHash q = true
      · exact Or.inl hold
      · exact Or.inr (hdone q hq (by simpa using hold))
    have hle := Finset.card_le_card hsub
    rw [hpend.counted.count, hpend.threshold] at hbelow
    omega

def toyTrio : List (Move Event) :=
  [.take (.call 1 (.ingestion (.setPublisher 3 true))),
    .take (.call 1 (.ingestion (.setQuorumThreshold 2)))]

def toyTrioStart : World := World.deploy 1 2 0 5

def toyRivalled : Option (Framed World Event) :=
  exec (service toyPrimitives toySite).move (.start toyTrioStart)
    (toyTrio++[.take (toyPublish 3 (toyBlock 1 21 31 99) 7)])

def toySubmissions : List (Msg × Call) :=
  [({ sender := 1, timestamp := 5 }, .submitOutput (toyBlock 1 21 31 41) 7 [] []),
    ({ sender := 2, timestamp := 5 }, .submitOutput (toyBlock 1 21 31 41) 7 [] [])]

theorem toyBlock_valid {m : Msg} (h : m.timestamp ≤ 5) (s : Registry) :
    validateOutput m s (toyBlock 1 21 31 41) = .ok () := by
  have hage : ¬ maxTimestampAge < m.timestamp := by
    unfold maxTimestampAge
    omega
  simp [validateOutput, toyBlock, minWorkBits, maxWorkBits, hage]

theorem toySubmissions_submit : ∀ e ∈ toySubmissions, e.1.sender ∈ ({1, 2} : Finset Address) ∧
    Submits (toyBlock 1 21 31 41) [7] e.2 ∧ ∀ s, validateOutput e.1 s (toyBlock 1 21 31 41) =
      .ok () := by
  intro e he
  simp only [toySubmissions, List.mem_cons, List.not_mem_nil, or_false] at he
  rcases he with rfl | rfl
  · exact ⟨by simp, ⟨_, rfl, rfl, rfl⟩, toyBlock_valid (Nat.le_refl 5)⟩
  · exact ⟨by simp, ⟨_, rfl, rfl, rfl⟩, toyBlock_valid (Nat.le_refl 5)⟩

def toyOpen (r : Registry) : Bool :=
  !decide (Finalised r 21) && !r.usedNullifiers 31 && r.latestHeightByPurpose 7 == 0 &&
    r.publishers 1 && r.publishers 2 && r.quorumThreshold == 2

theorem toyOpen_spec {r : Registry} (h : toyOpen r = true) :
    ¬ Finalised r 21 ∧ r.usedNullifiers 31 = false ∧
      Current toyPrimitives r (toyBlock 1 21 31 41) [7] ∧
      (∀ p ∈ ({1, 2} : Finset Address), r.publishers p = true) ∧
      r.quorumThreshold.toNat ≤ ({1, 2} : Finset Address).card := by
  simp only [toyOpen, Bool.and_eq_true, Bool.not_eq_true', decide_eq_false_iff_not,
    beq_iff_eq] at h
  obtain ⟨⟨⟨⟨⟨hfresh, hunused⟩, hheight⟩, h1⟩, h2⟩, ht⟩ := h
  refine ⟨hfresh, hunused, ?_, ?_, ?_⟩
  · intro p hp
    simp only [named, List.map_cons, List.map_nil, List.mem_singleton] at hp
    have hp' : p = 7 := by simpa [effectivePurpose] using hp
    subst hp'
    rw [hheight]
    exact BitVec.le_def.mpr (Nat.zero_le _)
  · intro p hp
    simp only [Finset.mem_insert, Finset.mem_singleton] at hp
    rcases hp with rfl | rfl
    · exact h1
    · exact h2
  · rw [ht]
    decide

theorem quorum_too_late : ∃ x, toyRivalled = some x ∧
    (service toyPrimitives toySite).Runs toyTrioStart x ∧
    ¬ Finalised x.current.contract.registry 21 ∧
    x.current.contract.registry.usedNullifiers 31 = false ∧
    Current toyPrimitives x.current.contract.registry (toyBlock 1 21 31 41) [7] ∧
    (∀ p ∈ ({1, 2} : Finset Address), x.current.contract.registry.publishers p = true) ∧
    x.current.contract.registry.quorumThreshold.toNat ≤ ({1, 2} : Finset Address).card ∧
    (∀ p ∈ ({1, 2} : Finset Address), ∃ e ∈ toySubmissions, e.1.sender = p ∧
      Submits (toyBlock 1 21 31 41) [7] e.2 ∧
      validateOutput e.1 x.current.contract.registry (toyBlock 1 21 31 41) = .ok ()) ∧
    ¬ Finalised (attempts (Oracle.step toyPrimitives) x.current.contract.registry toySubmissions)
      21 := by
  have hrun : toyRivalled.any fun x => toyOpen x.current.contract.registry &&
      !decide (Finalised (attempts (Oracle.step toyPrimitives) x.current.contract.registry
        toySubmissions) 21) := by decide +kernel
  obtain ⟨x, hx, hp⟩ := (Option.any_eq_true _ _).mp hrun
  obtain ⟨hopen, hstuck⟩ := Bool.and_eq_true_iff.mp hp
  obtain ⟨hfresh, hunused, hcurrent, hquorum, hcard⟩ := toyOpen_spec hopen
  refine ⟨x, hx, exec_reach hx, hfresh, hunused, hcurrent, hquorum, hcard, ?_,
    by simpa using hstuck⟩
  intro p hmem
  simp only [Finset.mem_insert, Finset.mem_singleton] at hmem
  rcases hmem with rfl | rfl
  · refine ⟨_, List.mem_cons_self, rfl, ⟨_, rfl, rfl, rfl⟩, toyBlock_valid (Nat.le_refl 5) _⟩
  · refine ⟨_, List.mem_cons_of_mem _ List.mem_cons_self, rfl, ⟨_, rfl, rfl, rfl⟩,
      toyBlock_valid (Nat.le_refl 5) _⟩

def toyAgreed : Option (Framed World Event) :=
  exec (service toyPrimitives toySite).move (.start toyTrioStart)
    (toyTrio++[.take (toyPublish 3 (toyBlock 1 21 31 41) 7)])

theorem quorum_finalises_toy : ∃ x, toyAgreed = some x ∧
    Finalised (attempts (Oracle.step toyPrimitives) x.current.contract.registry toySubmissions)
      21 := by
  have hrun : toyAgreed.any fun x => toyOpen x.current.contract.registry &&
      ((x.current.contract.registry.attestations 21).fingerprint ==
        fingerprint toyPrimitives (toyBlock 1 21 31 41) [7] &&
      !x.current.contract.registry.hasAttested 21 1) := by decide +kernel
  obtain ⟨x, hx, hp⟩ := (Option.any_eq_true _ _).mp hrun
  obtain ⟨hopen, hp⟩ := Bool.and_eq_true_iff.mp hp
  obtain ⟨hsame, hnew⟩ := Bool.and_eq_true_iff.mp hp
  have hfirst : x.current.contract.registry.hasAttested 21 1 = false := by simpa using hnew
  obtain ⟨hfresh, hunused, hcurrent, hquorum, hcard⟩ := toyOpen_spec hopen
  refine ⟨x, hx, (quorum_finalises toyPrimitives toySite (exec_reach hx) (by simp) hfresh hunused
    hcurrent hquorum hcard ?_ ?_).mpr ⟨Or.inr (eq_of_beq hsame), 1, by simp, hfirst⟩⟩
  · intro e he
    obtain ⟨hin, hsub, hvalid⟩ := toySubmissions_submit e he
    exact ⟨hin, hsub, hvalid _⟩
  · intro p hmem _
    simp only [Finset.mem_insert, Finset.mem_singleton] at hmem
    rcases hmem with rfl | rfl
    · exact ⟨_, List.mem_cons_self, rfl⟩
    · exact ⟨_, List.mem_cons_of_mem _ List.mem_cons_self, rfl⟩

end BinaChain.BinaOracle
