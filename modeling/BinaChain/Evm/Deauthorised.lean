import BinaChain.Evm.Quorum

/-!
# Attestations of removed publishers

The counter of a block keeps the attestations of publishers that were removed
since. A record of the accepted submissions beside the state tells who submitted
what; a quorum of current publishers stands behind an output exactly when the
counter exceeds the threshold by the number of removed attesters.
-/

set_option autoImplicit false

namespace BinaChain.BinaOracle
open BinaChain.Word BinaChain.Abi BinaChain.Crypto BinaChain.Machine BinaChain.Frames
open BinaChain.Oracle

def packed (o : BinaOutput) (purposes : List Bytes32) : Bytes :=
  (fingerprintWords o purposes).flatMap wordBytes

theorem wordBytes_eq (w : EvmWord) : wordBytes w = (leBytes 32 w.toNat).reverse := by
  simp only [wordBytes, leBytes, List.range_succ, List.range_zero, List.map_cons, List.map_nil,
    List.reverse_cons, List.reverse_nil, List.nil_append, List.cons_append]

theorem wordBytes_length (w : EvmWord) : (wordBytes w).length = 32 := by
  simp [wordBytes_eq]

theorem wordBytes_injective {w v : EvmWord} (h : wordBytes w = wordBytes v) : w = v := by
  rw [wordBytes_eq, wordBytes_eq, List.reverse_inj] at h
  apply BitVec.eq_of_toNat_eq
  apply leBytes_injective h
  have hw := w.isLt
  have hv := v.isLt
  rw [Nat.shiftRight_eq_div_pow, Nat.shiftRight_eq_div_pow, Nat.div_eq_of_lt hw,
    Nat.div_eq_of_lt hv]

theorem encode_injective {α : Type} {c : Codec α} {a b : α} (h : c.encode a = c.encode b) :
    a = b := by
  have ha := c.decode_iff.mpr (List.append_nil (c.encode a)).symm
  have hb := c.decode_iff.mpr (List.append_nil (c.encode b)).symm
  rw [h, hb] at ha
  exact (congrArg Prod.fst (Option.some.inj ha)).symm

theorem fingerprintWords_eq (o : BinaOutput) (ps : List Bytes32) :
    fingerprintWords o ps = o.height.setWidth 256 :: o.blockHash :: o.randomnessOutput ::
      o.nullifier :: o.binaMiner.setWidth 256 <<< 96 :: o.btcHeight.setWidth 256 :: o.btcSeed ::
      o.minedTimestamp.setWidth 256 :: o.workBits.setWidth 256 :: o.claimDigest ::
      o.electionScore :: (if o.falconVerified then 1 else 0) :: BitVec.ofNat 256 (13*32) ::
      BitVec.ofNat 256 ps.length :: ps := by
  simp only [fingerprintWords, List.append_assoc, List.cons_append, List.nil_append]
  rfl

theorem fingerprintWords_injective {o o' : BinaOutput} {ps ps' : List Bytes32}
    (h : fingerprintWords o ps = fingerprintWords o' ps') : o = o' ∧ ps = ps' := by
  simp only [fingerprintWords_eq, List.cons.injEq] at h
  obtain ⟨h1, h2, h3, h4, h5, h6, h7, h8, h9, h10, h11, h12, -, -, h⟩ := h
  have e1 := encode_injective (c := uint64) (congrArg ([·]) h1)
  have e5 := encode_injective (c := Codec.bytes20) (congrArg ([·]) h5)
  have e6 := encode_injective (c := uint64) (congrArg ([·]) h6)
  have e8 := encode_injective (c := uint64) (congrArg ([·]) h8)
  have e9 := encode_injective (c := uint8) (congrArg ([·]) h9)
  have e12 := encode_injective (c := Codec.bool) (congrArg ([·]) h12)
  refine ⟨?_, h⟩
  cases o
  cases o'
  simp only [BinaOutput.mk.injEq]
  exact ⟨e1, h2, h3, h4, e5, e6, h7, e8, e9, h10, h11, e12⟩

theorem packed_injective {o o' : BinaOutput} {ps ps' : List Bytes32}
    (h : packed o ps = packed o' ps') : o = o' ∧ ps = ps' := by
  apply fingerprintWords_injective
  exact records_injective (by decide : 0 < 32) (fun w _ => wordBytes_length w)
    (fun w _ => wordBytes_length w) (fun _ _ _ _ => wordBytes_injective) h

abbrev Submitted := List (Address × BinaOutput × List Bytes32)

def Event.submitted (e : Event) : Submitted :=
  match e.ingested with
  | some (sender, c) => c.submission.toList.map fun x => (sender, x.output, x.purposes)
  | none => []

def noteSubmission (_ : World) (e : Event) (_ : World) (g : Submitted) : Submitted := e.submitted++g

/-- The encodings of the recorded submissions do not collide. -/
def Collisionless (K : Primitives) (g : Submitted) : Prop :=
  ∀ p ∈ g, ∀ q ∈ g, keccak K (packed p.2.1 p.2.2) = keccak K (packed q.2.1 q.2.2) →
    packed p.2.1 p.2.2 = packed q.2.1 q.2.2

/-- The record is who attested which block, and to what. -/
structure Heard (K : Primitives) (s : Registry) (g : Submitted) : Prop where
  recorded : ∀ b a, s.hasAttested b a = true → ∃ o ps, (a, o, ps) ∈ g ∧ o.blockHash = b ∧
    fingerprint K o ps = (s.attestations b).fingerprint
  attested : ∀ a o ps, (a, o, ps) ∈ g → s.hasAttested o.blockHash a = true

theorem heard_deploy (K : Primitives) (sender initialPublisher : Address) :
    Heard K (Oracle.deploy sender initialPublisher) [] where
  recorded b a h := by
    simp [Oracle.deploy] at h
  attested a o ps h := nomatch h

theorem Heard.administers {K : Primitives} {s s' : Registry} {g : Submitted} (hg : Heard K s g)
    (h : Administers s s') : Heard K s' g := by
  obtain ⟨_, _, _, _, rfl⟩ := h
  exact ⟨hg.recorded, hg.attested⟩

theorem Counted.count_ne_zero {s : Registry} (hs : Counted s) {b : Bytes32} {a : Address}
    (ha : a ∈ attesters s b) : (s.attestations b).count ≠ 0 := by
  have hpos : 0 < (attesters s b).card := Finset.card_pos.mpr ⟨a, ha⟩
  intro hzero
  rw [← hs.count, hzero] at hpos
  exact absurd hpos (by decide)

theorem Heard.attest {K : Primitives} {m : Msg} {s : Registry} {x : Submission} {g : Submitted}
    (hg : Heard K s g) (hs : Counted s) (hacc : Accepted K m s x) :
    Heard K (BinaOracle.attested K m x s) ((m.sender, x.output, x.purposes) :: g) where
  recorded b a h := by
    by_cases hb : b = x.output.blockHash
    · subst hb
      have hfp : ((BinaOracle.attested K m x s).attestations x.output.blockHash).fingerprint =
          fingerprint K x.output x.purposes := by
        simp [BinaOracle.attested]
      rw [hfp]
      rw [← mem_attesters, attesters_attested, Finset.mem_insert] at h
      rcases h with rfl | h
      · exact ⟨_, _, List.mem_cons_self, rfl, rfl⟩
      · obtain ⟨o, ps, hmem, ho, hprint⟩ := hg.recorded _ a (mem_attesters.mp h)
        have hcount := hs.count_ne_zero h
        exact ⟨o, ps, List.mem_cons_of_mem _ hmem, ho, hprint.trans (hacc.agrees hcount)⟩
    · have hold : s.hasAttested b a = true := by
        simpa [BinaOracle.attested, hb] using h
      obtain ⟨o, ps, hmem, ho, hprint⟩ := hg.recorded b a hold
      refine ⟨o, ps, List.mem_cons_of_mem _ hmem, ho, ?_⟩
      simpa [BinaOracle.attested, hb] using hprint
  attested a o ps h := by
    rw [← mem_attesters]
    rcases List.mem_cons.mp h with heq | h
    · obtain ⟨rfl, rfl, rfl⟩ := by simpa only [Prod.mk.injEq] using heq
      rw [attesters_attested]
      exact Finset.mem_insert_self _ _
    · have hold := mem_attesters.mpr (hg.attested a o ps h)
      by_cases hb : o.blockHash = x.output.blockHash
      · rw [hb] at hold ⊢
        rw [attesters_attested]
        exact Finset.mem_insert_of_mem hold
      · rwa [attesters_other hb]

theorem Heard.congr {K : Primitives} {s s' : Registry} {g : Submitted} (hg : Heard K s g)
    (hatt : s'.attestations = s.attestations) (hhas : s'.hasAttested = s.hasAttested) :
    Heard K s' g where
  recorded := by
    rw [hatt, hhas]
    exact hg.recorded
  attested := by
    rw [hhas]
    exact hg.attested

structure Recorded (K : Primitives) (y : World × Submitted) : Prop where
  backed : Backed y.1
  counted : Counted y.1.contract.registry
  heard : Heard K y.1.contract.registry y.2

theorem Event.submitted_none {e : Event} (h : e.ingested = none) : e.submitted = [] := by
  simp only [Event.submitted, h]

theorem Event.submitted_call {e : Event} {sender : Address} {c : Call}
    (h : e.ingested = some (sender, c)) :
    e.submitted = c.submission.toList.map fun x => (sender, x.output, x.purposes) := by
  simp only [Event.submitted, h]

theorem Recorded.step {K : Primitives} {site : Site} {y z : World × Submitted} {e : Event}
    (hy : Recorded K y) (h : recording (World.step K site) noteSubmission y e = some z) :
    Recorded K z := by
  obtain ⟨hs, hz⟩ := recording_eq_some.mp h
  have hbacked := hy.backed.step hs
  unfold noteSubmission at hz
  rcases World.step_registry hy.backed hs with ⟨hnone, hsame⟩ | ⟨sender, c, hc, hstep⟩
  · rw [Event.submitted_none hnone, List.nil_append] at hz
    refine ⟨hbacked, ?_, ?_⟩
    · rw [hsame]
      exact hy.counted
    · rw [hsame, hz]
      exact hy.heard
  · rw [Event.submitted_call hc] at hz
    refine ⟨hbacked, hy.counted.step hstep, ?_⟩
    rcases call_cases (step_ok.mp hstep) with ⟨hnone, hadmin⟩ | ⟨x, hx, -, -, hattest⟩
    · rw [hnone] at hz
      rw [hz]
      exact hy.heard.administers hadmin
    · rw [hx] at hz
      rw [hz]
      obtain ⟨hacc, ⟨-, hout⟩ | ⟨-, -, hout⟩⟩ := attest_ok.mp hattest
      · rw [hout]
        exact hy.heard.attest hy.counted hacc
      · obtain ⟨hatt, hhas, -, -⟩ := finalize_attestations (K := K) (x := x)
          (m := { sender, timestamp := y.1.now })
          (s := BinaOracle.attested K { sender, timestamp := y.1.now } x y.1.contract.registry)
          ((y.1.contract.registry.attestations x.output.blockHash).count+1)
        rw [hout]
        exact (hy.heard.attest hy.counted hacc).congr hatt hhas

theorem recorded_of_runs {K : Primitives} {site : Site} {sender initialPublisher : Address}
    {balance now : ℕ} {y : Framed (World × Submitted) Event}
    (h : ((service K site).recorded noteSubmission).Runs
      (World.deploy sender initialPublisher balance now, []) y) : Recorded K y.current := by
  apply Service.invariant h
  · exact ⟨backed_deploy _ _ _ _, counted_deploy _ _, heard_deploy K _ _⟩
  · intro s e t hs hstep
    exact Recorded.step hs hstep
  · intro _ s hs
    exact hs

/-- The attesters of a block that are no publishers any more. -/
def removedAttesters (s : Registry) (b : Bytes32) : Finset Address :=
  (attesters s b).filter fun a => s.publishers a = false

theorem current_card {s : Registry} {b : Bytes32} {a : Address} (ha : s.publishers a = true)
    (hnew : s.hasAttested b a = false) :
    ((insert a (attesters s b)).filter fun p => s.publishers p = true).card+
      (removedAttesters s b).card = (attesters s b).card+1 := by
  have hout : a ∉ attesters s b := by
    simp [mem_attesters, hnew]
  have hremoved : removedAttesters s b =
      (insert a (attesters s b)).filter fun p => ¬ s.publishers p = true := by
    ext p
    by_cases hp : p = a
    · subst hp
      simp [removedAttesters, ha]
    · simp [removedAttesters, hp]
  rw [hremoved, Finset.card_filter_add_card_filter_not, Finset.card_insert_of_notMem hout]

/-- What finalises a block is a submission of its output that completes the quorum. -/
theorem finalising_submission {K : Primitives} {m : Msg} {s s' : Registry} {c : Call} {b : Bytes32}
    (h : Oracle.step K s (m, c) = some s') (hold : ¬ Finalised s b) (hnew : Finalised s' b) :
    ∃ x, c.submission = some x ∧ x.output.blockHash = b ∧ s.publishers m.sender = true ∧
      Accepted K m s x ∧ Completes s x := by
  rcases call_cases (step_ok.mp h) with ⟨-, _, _, _, _, rfl⟩ | ⟨x, hx, hp, -, hattest⟩
  · exact absurd hnew hold
  obtain ⟨hacc, ⟨-, rfl⟩ | ⟨hcomplete, -, rfl⟩⟩ := attest_ok.mp hattest
  · exact absurd hnew hold
  · rcases (finalize_finalised (valid_fields hacc.valid).1 b).mp hnew with rfl | hfin
    · exact ⟨x, hx, rfl, hp, hacc, hcomplete⟩
    · exact absurd hfin hold

theorem submitters_iff {K : Primitives} {m : Msg} {s : Registry} {x : Submission} {g : Submitted}
    (hs : Counted s) (hg : Heard K s g) (hacc : Accepted K m s x)
    (hK : Collisionless K ((m.sender, x.output, x.purposes) :: g)) (p : Address) :
    (p, x.output, x.purposes) ∈ (m.sender, x.output, x.purposes) :: g ↔
      p ∈ insert m.sender (attesters s x.output.blockHash) := by
  rw [Finset.mem_insert]
  constructor
  · intro hmem
    rcases List.mem_cons.mp hmem with heq | hmem
    · exact Or.inl (Prod.mk.inj heq).1
    · exact Or.inr (mem_attesters.mpr (hg.attested _ _ _ hmem))
  · rintro (rfl | hp)
    · exact List.mem_cons_self
    · obtain ⟨o, ps, hmem, -, hprint⟩ := hg.recorded _ p (mem_attesters.mp hp)
      have hkeccak : keccak K (packed o ps) = keccak K (packed x.output x.purposes) :=
        hprint.trans (hacc.agrees (hs.count_ne_zero hp))
      have hsame := hK (p, o, ps) (List.mem_cons_of_mem _ hmem) (m.sender, x.output, x.purposes)
        List.mem_cons_self hkeccak
      obtain ⟨rfl, rfl⟩ := packed_injective hsame
      exact List.mem_cons_of_mem _ hmem

/-- An output that becomes final has a quorum of current publishers behind it
exactly when its counter makes up for the attesters that were removed. -/
theorem current_quorum_iff (K : Primitives) (site : Site) {sender initialPublisher : Address}
    {balance now : ℕ} {y : Framed (World × Submitted) Event}
    (h : ((service K site).recorded noteSubmission).Runs
      (World.deploy sender initialPublisher balance now, []) y)
    {e : Event} {w : World} {b : Bytes32} (hs : y.current.1.step K site e = some w)
    (hold : ¬ Finalised y.current.1.contract.registry b) (hnew : Finalised w.contract.registry b)
    (hK : Collisionless K (e.submitted++y.current.2)) :
    ∃ a o purposes, e.submitted = [(a, o, purposes)] ∧ o.blockHash = b ∧
      ((∃ quorum : Finset Address,
          y.current.1.contract.registry.quorumThreshold.toNat ≤ quorum.card ∧
          ∀ p ∈ quorum, y.current.1.contract.registry.publishers p = true ∧
            (p, o, purposes) ∈ e.submitted++y.current.2) ↔
        y.current.1.contract.registry.quorumThreshold.toNat+
            (removedAttesters y.current.1.contract.registry b).card ≤
          (y.current.1.contract.registry.attestations b).count.toNat+1) := by
  obtain ⟨hbacked, hcounted, hheard⟩ := recorded_of_runs h
  generalize y.current.2 = g at *
  rcases World.step_registry hbacked hs with ⟨-, hsame⟩ | ⟨a, c, hc, hstep⟩
  · rw [hsame] at hnew
    exact absurd hnew hold
  generalize y.current.1.contract.registry = r at *
  obtain ⟨x, hx, rfl, hp, hacc, -⟩ := finalising_submission hstep hold hnew
  have hsub : e.submitted = [(a, x.output, x.purposes)] := by
    rw [Event.submitted_call hc, hx]
    rfl
  rw [hsub, List.singleton_append] at hK ⊢
  have hmem := submitters_iff hcounted hheard hacc hK
  have hcard := current_card (b := x.output.blockHash) hp hacc.first
  rw [← hcounted.count] at hcard
  dsimp only at hmem hcard
  refine ⟨a, _, _, rfl, rfl, ?_⟩
  constructor
  · rintro ⟨quorum, hle, hquorum⟩
    have hsubset : quorum ⊆ (insert a (attesters r x.output.blockHash)).filter
        fun p => r.publishers p = true := by
      intro p hin
      obtain ⟨hpub, hrec⟩ := hquorum p hin
      exact Finset.mem_filter.mpr ⟨(hmem p).mp hrec, hpub⟩
    have hle' := Finset.card_le_card hsubset
    omega
  · intro hle
    refine ⟨(insert a (attesters r x.output.blockHash)).filter fun p => r.publishers p = true,
      by omega, ?_⟩
    intro p hin
    obtain ⟨hatt, hpub⟩ := Finset.mem_filter.mp hin
    exact ⟨hpub, (hmem p).mpr hatt⟩

def toyAttested : Option (Framed (World × Submitted) Event) :=
  exec ((service toyPrimitives toySite).recorded noteSubmission).move (.start (toyTrioStart, []))
    (toyTrio++[.take (toyPublish 2 (toyBlock 1 21 31 41) 7)])

theorem current_quorum_iff_toy : ∃ y w, toyAttested = some y ∧
    y.current.1.step toyPrimitives toySite (toyPublish 1 (toyBlock 1 21 31 41) 7) = some w ∧
    ∃ quorum : Finset Address, 2 ≤ quorum.card ∧
      ∀ p ∈ quorum, y.current.1.contract.registry.publishers p = true ∧
        (p, toyBlock 1 21 31 41, [7]) ∈
          (toyPublish 1 (toyBlock 1 21 31 41) 7).submitted++y.current.2 := by
  have hrun : toyAttested.any fun y => y.current.2 == [(2, toyBlock 1 21 31 41, [7])] &&
      y.current.1.contract.registry.quorumThreshold == 2 &&
      y.current.1.contract.registry.publishers 2 &&
      (y.current.1.contract.registry.attestations 21).count == 1 &&
      !decide (Finalised y.current.1.contract.registry 21) &&
      (y.current.1.step toyPrimitives toySite (toyPublish 1 (toyBlock 1 21 31 41) 7)).any
        fun w => decide (Finalised w.contract.registry 21) := by decide +kernel
  obtain ⟨y, hy, hp⟩ := (Option.any_eq_true _ _).mp hrun
  simp only [Bool.and_eq_true, Bool.not_eq_true', beq_iff_eq, decide_eq_false_iff_not] at hp
  obtain ⟨⟨⟨⟨⟨hg, ht⟩, hpub⟩, hcount⟩, hold⟩, hstep⟩ := hp
  obtain ⟨w, hw, hnew⟩ := (Option.any_eq_true _ _).mp hstep
  have hnone : removedAttesters y.current.1.contract.registry 21 = ∅ := by
    apply Finset.filter_eq_empty_iff.mpr
    intro a ha
    obtain ⟨o, ps, hmem, -⟩ :=
      (recorded_of_runs (exec_reach hy)).heard.recorded 21 a (mem_attesters.mp ha)
    rw [hg] at hmem
    rw [(Prod.mk.inj (List.mem_singleton.mp hmem)).1, hpub]
    decide
  have hK : Collisionless toyPrimitives
      ((toyPublish 1 (toyBlock 1 21 31 41) 7).submitted++y.current.2) := by
    rw [hg]
    intro p hp q hq _
    simp only [Event.submitted, Event.ingested, toyPublish, Call.submission, Option.toList_some,
      List.map_cons, List.map_nil, List.cons_append, List.nil_append, List.mem_cons,
      List.not_mem_nil, or_false] at hp hq
    rcases hp with rfl | rfl <;> rcases hq with rfl | rfl <;> rfl
  obtain ⟨a, o, ps, hsub, -, hiff⟩ := current_quorum_iff toyPrimitives toySite (exec_reach hy) hw
    hold (of_decide_eq_true hnew) hK
  obtain ⟨rfl, rfl, rfl⟩ : 1 = a ∧ toyBlock 1 21 31 41 = o ∧ [7] = ps := by
    have heq := List.cons.inj hsub
    simpa only [Prod.mk.injEq] using heq.1
  obtain ⟨quorum, hle, hquorum⟩ := hiff.mpr (by rw [hnone, hcount, ht]; decide)
  exact ⟨y, w, hy, hw, quorum, by rw [ht] at hle; exact hle, hquorum⟩

def toyRemoved : Option (Framed (World × Submitted) Event) :=
  exec ((service toyPrimitives toySite).recorded noteSubmission).move (.start (toyTrioStart, []))
    (toyTrio++[.take (toyPublish 2 (toyBlock 1 21 31 41) 7),
      .take (.call 1 (.ingestion (.setPublisher 2 false)))])

theorem removed_publisher_counts : ∃ y w, toyRemoved = some y ∧
    ((service toyPrimitives toySite).recorded noteSubmission).Runs (toyTrioStart, []) y ∧
    y.current.1.step toyPrimitives toySite (toyPublish 1 (toyBlock 1 21 31 41) 7) = some w ∧
    ¬ Finalised y.current.1.contract.registry 21 ∧ Finalised w.contract.registry 21 ∧
    ¬ ∃ quorum : Finset Address,
      y.current.1.contract.registry.quorumThreshold.toNat ≤ quorum.card ∧
      ∀ p ∈ quorum, y.current.1.contract.registry.publishers p = true ∧
        ∃ o purposes, o.blockHash = 21 ∧ (p, o, purposes) ∈
          (toyPublish 1 (toyBlock 1 21 31 41) 7).submitted++y.current.2 := by
  have hrun : toyRemoved.any fun y => y.current.2 == [(2, toyBlock 1 21 31 41, [7])] &&
      y.current.1.contract.registry.quorumThreshold == 2 &&
      !y.current.1.contract.registry.publishers 2 &&
      !decide (Finalised y.current.1.contract.registry 21) &&
      (y.current.1.step toyPrimitives toySite (toyPublish 1 (toyBlock 1 21 31 41) 7)).any
        fun w => decide (Finalised w.contract.registry 21) := by decide +kernel
  obtain ⟨y, hy, hp⟩ := (Option.any_eq_true _ _).mp hrun
  simp only [Bool.and_eq_true, Bool.not_eq_true', beq_iff_eq, decide_eq_false_iff_not] at hp
  obtain ⟨⟨⟨⟨hg, ht⟩, hremoved⟩, hold⟩, hstep⟩ := hp
  obtain ⟨w, hw, hnew⟩ := (Option.any_eq_true _ _).mp hstep
  refine ⟨y, w, hy, exec_reach hy, hw, hold, of_decide_eq_true hnew, ?_⟩
  rintro ⟨quorum, hle, hquorum⟩
  have hone : quorum ⊆ {1} := by
    intro p hin
    obtain ⟨hpub, o, purposes, -, hmem⟩ := hquorum p hin
    have hcases : p = 1 ∨ p = 2 := by
      rw [hg] at hmem
      rcases List.mem_cons.mp hmem with heq | hmem
      · exact Or.inl (Prod.mk.inj heq).1
      · exact Or.inr (Prod.mk.inj (List.mem_singleton.mp hmem)).1
    rcases hcases with rfl | rfl
    · exact Finset.mem_singleton_self _
    · rw [hremoved] at hpub
      cases hpub
  have hcard := Finset.card_le_card hone
  rw [ht] at hle
  simp only [Finset.card_singleton] at hcard
  have htwo : (2 : BitVec 32).toNat = 2 := rfl
  omega

end BinaChain.BinaOracle
