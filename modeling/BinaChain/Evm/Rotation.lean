import BinaChain.Evm.Quorum

/-!
# The rotation of publishers

Whoever is in the rotation is authorised and bonded. Losing the authorisation or
falling below the minimal bond takes a publisher out in the same call, and no
call puts one in that lacks either.
-/

set_option autoImplicit false

namespace BinaChain.BinaOracle
open BinaChain.Crypto BinaChain.Machine BinaChain.Frames BinaChain.Checked BinaChain.Listing
open BinaChain.Oracle

def Eligible (s : Storage) (p : Address) : Prop :=
  s.registry.publishers p = true ∧ minPublisherBond ≤ s.publisherBonds p

structure Rotated (s : Storage) : Prop where
  indexed : Indexed s.activePublishers s.activePublisherIndex1
  eligible : ∀ p ∈ s.activePublishers, Eligible s p

theorem rotated_deploy (sender initialPublisher : Address) :
    Rotated (deploy sender initialPublisher) where
  indexed := indexed_nil
  eligible _ hp := nomatch hp

theorem removeActivePublisher_rotated {publisher : Address} {s s' : Storage}
    (hr : Indexed s.activePublishers s.activePublisherIndex1)
    (he : ∀ p ∈ s.activePublishers, p ≠ publisher → Eligible s p)
    (h : removeActivePublisher publisher s = .ok s') : Rotated s' := by
  unfold removeActivePublisher at h
  rcases ite_eq_ok.mp h with ⟨hzero, h⟩ | ⟨hne, h⟩
  · obtain rfl := pure_eq_ok.mp h
    refine ⟨hr, fun p hp => he p hp ?_⟩
    rintro rfl
    exact hr.mem.mp hp hzero
  · simp only [bind_eq_ok, sub_eq_ok, read_eq_ok, assign_eq_ok, pure_eq_ok] at h
    obtain ⟨_, ⟨-, rfl⟩, last, hlast, _, ⟨-, rfl⟩, rfl⟩ := h
    obtain ⟨k, hk⟩ := Nat.exists_eq_succ_of_ne_zero hne
    rw [hk]
    refine ⟨hr.remove hk hlast, fun p hp => ?_⟩
    obtain ⟨hold, hother⟩ := hr.mem_of_mem_remove hk hlast hp
    exact he p hold hother

theorem lowerBond_rotated {p : Address} {bond : ℕ} {s s' : Storage} (hs : Rotated s)
    (h : lowerBond p bond s = .ok s') : Rotated s' := by
  unfold lowerBond at h
  dsimp only at h
  have hothers : ∀ q ∈ s.activePublishers, q ≠ p →
      Eligible { s with publisherBonds := Function.update s.publisherBonds p bond } q := by
    intro q hq hqp
    refine ⟨(hs.eligible q hq).1, ?_⟩
    dsimp only
    rw [Function.update_of_ne hqp]
    exact (hs.eligible q hq).2
  rcases ite_eq_ok.mp h with ⟨-, h⟩ | ⟨henough, h⟩
  · exact removeActivePublisher_rotated (by exact hs.indexed) hothers h
  · obtain rfl := pure_eq_ok.mp h
    refine ⟨hs.indexed, fun q hq => ?_⟩
    by_cases hqp : q = p
    · subst hqp
      refine ⟨(hs.eligible q hq).1, ?_⟩
      dsimp only
      rw [Function.update_self]
      exact Nat.le_of_not_lt henough
    · exact hothers q hq hqp

theorem call_publishers {K : Primitives} {m : Msg} {s s' : Registry} {c : Call}
    (h : Oracle.call K m s c = .ok s') :
    (∃ publisher authorized, c = .setPublisher publisher authorized ∧
      s'.publishers = Function.update s.publishers publisher authorized) ∨
    ((∀ publisher authorized, c ≠ .setPublisher publisher authorized) ∧
      s'.publishers = s.publishers) := by
  rcases hsub : c.submission with _ | x
  · cases c with
    | transferOwnership newOwner =>
      simp only [Oracle.call, reject_eq_ok] at h
      obtain ⟨-, -, h⟩ := h
      cases h
      exact .inr ⟨by simp, rfl⟩
    | setPublisher publisher authorized =>
      simp only [Oracle.call, reject_eq_ok] at h
      obtain ⟨-, -, h⟩ := h
      cases h
      exact .inl ⟨publisher, authorized, rfl, rfl⟩
    | setRequireFalcon required =>
      simp only [Oracle.call, reject_eq_ok] at h
      obtain ⟨-, h⟩ := h
      cases h
      exact .inr ⟨by simp, rfl⟩
    | setQuorumThreshold threshold =>
      simp only [Oracle.call, reject_eq_ok] at h
      obtain ⟨-, -, h⟩ := h
      cases h
      exact .inr ⟨by simp, rfl⟩
    | submitOutput | submitOutputForPurposes => cases hsub
  · right
    constructor
    · rintro publisher authorized rfl
      cases hsub
    · rcases call_cases h with ⟨hnone, -⟩ | ⟨y, -, -, -, hattest⟩
      · simp [hsub] at hnone
      · obtain ⟨-, ⟨-, rfl⟩ | ⟨-, -, rfl⟩⟩ := attest_ok.mp hattest
        · rfl
        · exact (finalize_attestations _).2.2.1

theorem Rotated.authorise {s : Storage} (hs : Rotated s) {registry : Registry} {p : Address}
    {authorized : Bool}
    (hp : registry.publishers = Function.update s.registry.publishers p authorized) :
    ∀ q ∈ s.activePublishers, q ≠ p → Eligible { s with registry } q := by
  intro q hq hqp
  refine ⟨?_, (hs.eligible q hq).2⟩
  dsimp only
  rw [hp, Function.update_of_ne hqp]
  exact (hs.eligible q hq).1

theorem ingest_rotated {K : Primitives} {m : Msg} {c : Call} {s s' : Storage} (hs : Rotated s)
    (h : ingest K m c s = .ok s') : Rotated s' := by
  unfold ingest at h
  obtain ⟨registry, hreg, h⟩ := bind_eq_ok.mp h
  have hc := mapError_eq_ok.mp hreg
  dsimp only at h
  rcases call_publishers hc with ⟨p, authorized, rfl, hp⟩ | ⟨hother, hp⟩
  · cases authorized with
    | false =>
      exact removeActivePublisher_rotated (s := { s with registry }) hs.indexed (hs.authorise hp) h
    | true =>
      obtain rfl := pure_eq_ok.mp h
      refine ⟨hs.indexed, fun q hq => ?_⟩
      by_cases hqp : q = p
      · subst hqp
        refine ⟨?_, (hs.eligible q hq).2⟩
        dsimp only
        rw [hp, Function.update_self]
      · exact hs.authorise hp q hq hqp
  · split at h
    · exact absurd rfl (hother _ _)
    · obtain rfl := pure_eq_ok.mp h
      refine ⟨hs.indexed, fun q hq => ⟨?_, (hs.eligible q hq).2⟩⟩
      dsimp only
      rw [hp]
      exact (hs.eligible q hq).1

theorem depositBond_rotated {m : Msg} {value : ℕ} {s s' : Storage} (hs : Rotated s)
    (h : depositBond m value s = .ok s') : Rotated s' := by
  unfold depositBond at h
  simp only [bind_eq_ok, require_eq_ok, add_eq_ok] at h
  obtain ⟨-, hp, -, -, _, ⟨-, rfl⟩, h⟩ := h
  have hkept : ∀ q ∈ s.activePublishers, Eligible { s with
      publisherBonds := Function.update s.publisherBonds m.sender
        (s.publisherBonds m.sender+value) } q := by
    intro q hq
    refine ⟨(hs.eligible q hq).1, ?_⟩
    have hbond := (hs.eligible q hq).2
    by_cases hqm : q = m.sender
    · subst hqm
      dsimp only
      rw [Function.update_self]
      omega
    · dsimp only
      rwa [Function.update_of_ne hqm]
  rcases ite_eq_ok.mp h with ⟨⟨henough, hout⟩, h⟩ | ⟨-, h⟩
  · obtain rfl := pure_eq_ok.mp h
    constructor
    · dsimp only
      rw [List.length_append]
      exact hs.indexed.push hout
    · intro q hq
      rcases List.mem_append.mp hq with hq | hq
      · exact hkept q hq
      · obtain rfl := List.mem_singleton.mp hq
        refine ⟨hp, ?_⟩
        dsimp only
        rwa [Function.update_self]
  · obtain rfl := pure_eq_ok.mp h
    exact ⟨hs.indexed, hkept⟩

theorem withdrawBond_rotated {m : Msg} {amount : ℕ} {s : Storage} {out : Outcome}
    (hs : Rotated s) (h : withdrawBond m amount s = .ok out) : Rotated out.1 := by
  unfold withdrawBond at h
  simp only [bind_eq_ok, require_eq_ok, sub_eq_ok, pure_eq_ok] at h
  obtain ⟨_, -, -, -, bond, -, s', hl, rfl⟩ := h
  exact lowerBond_rotated hs hl

theorem resolveFutureCommitment_rotated {m : Msg} {id : ℕ} {s : Storage} {out : Outcome}
    (hs : Rotated s) (h : resolveFutureCommitment m id s = .ok out) : Rotated out.1 := by
  unfold resolveFutureCommitment at h
  simp only [bind_eq_ok, require_eq_ok, sub_eq_ok] at h
  obtain ⟨-, -, -, -, -, -, _, -, h⟩ := h
  rcases ite_eq_ok.mp h with ⟨-, h⟩ | ⟨-, h⟩
  · obtain rfl := pure_eq_ok.mp h
    exact ⟨hs.indexed, hs.eligible⟩
  · simp only [bind_eq_ok, sub_eq_ok, pure_eq_ok] at h
    obtain ⟨_, -, s', hl, rfl⟩ := h
    exact lowerBond_rotated (by exact ⟨hs.indexed, hs.eligible⟩) hl

theorem Rotated.perform {K : Primitives} {site : Site} {m : Msg} {entry : Entry} {s : Storage}
    {out : Outcome} (hs : Rotated s) (h : perform K site m s entry = .ok out) :
    Rotated out.1 := by
  cases entry with
  | ingestion c =>
    obtain ⟨s', hc, ho⟩ := bind_eq_ok.mp h
    obtain rfl := pure_eq_ok.mp ho
    exact ingest_rotated hs hc
  | depositBond value =>
    obtain ⟨s', hc, ho⟩ := bind_eq_ok.mp h
    obtain rfl := pure_eq_ok.mp ho
    exact depositBond_rotated hs hc
  | withdrawBond amount => exact withdrawBond_rotated hs h
  | requestFuturePublication purpose targetHeight deadline =>
    obtain ⟨⟨s', result⟩, hc, ho⟩ := bind_eq_ok.mp h
    obtain rfl := pure_eq_ok.mp ho
    cases requestFuturePublication_effect (K := K) hc
    exact ⟨hs.indexed, hs.eligible⟩
  | resolveFutureCommitment id => exact resolveFutureCommitment_rotated hs h
  | requestUtility purpose salt minHeight =>
    obtain ⟨⟨s', result⟩, hc, ho⟩ := bind_eq_ok.mp h
    obtain rfl := pure_eq_ok.mp ho
    cases requestUtility_effect (K := K) hc
    exact ⟨hs.indexed, hs.eligible⟩
  | fulfillUtility id =>
    obtain ⟨⟨s', result⟩, hc, ho⟩ := bind_eq_ok.mp h
    obtain rfl := pure_eq_ok.mp ho
    cases fulfillUtility_effect (m := m) hc
    exact ⟨hs.indexed, hs.eligible⟩

theorem Rotated.step {K : Primitives} {site : Site} {w w' : World} {e : Event}
    (hw : Rotated w.contract) (h : w.step K site e = some w') : Rotated w'.contract := by
  cases e with
  | call sender entry =>
    obtain ⟨paying, hc⟩ := World.step_call h
    obtain ⟨out, hout, -, hr⟩ := World.call_ok hc
    obtain rfl := congrArg Prod.fst hr
    exact hw.perform hout
  | force amount =>
    obtain rfl := Option.some.inj h
    exact hw
  | tick timestamp =>
    simp only [World.step] at h
    split at h
    · obtain rfl := Option.some.inj h
      exact hw
    · cases h

theorem rotated_of_runs {K : Primitives} {site : Site} {sender initialPublisher : Address}
    {balance now : ℕ} {x : Framed World Event}
    (h : (service K site).Runs (World.deploy sender initialPublisher balance now) x) :
    Rotated x.current.contract := by
  apply Service.invariant (P := fun w => Rotated w.contract) h
  · exact rotated_deploy sender initialPublisher
  · intro w e w' hw hs
    exact hw.step hs
  · intro _ w hw
    exact hw

theorem requestFuturePublication_assigns {K : Primitives} {m : Msg} {purpose : Bytes32}
    {targetHeight deadline : BitVec 64} {s s' : Storage} {id : ℕ}
    (h : requestFuturePublication K m purpose targetHeight deadline s = .ok (s', id)) :
    (s'.futureCommitments id).assignedPublisher ∈ s.activePublishers := by
  unfold requestFuturePublication at h
  simp only [bind_eq_ok, require_eq_ok, read_eq_ok, sub_eq_ok, add_eq_ok, pure_eq_ok] at h
  obtain ⟨-, -, -, -, p, hp, _, -, -, -, _, -, _, -, heq⟩ := h
  obtain ⟨rfl, rfl⟩ := Prod.mk.inj heq
  dsimp only
  rw [Function.update_self]
  exact List.mem_of_getElem? hp

/-- In every reachable state the rotation lists eligible publishers without
repetition under their index, and a commitment is assigned to one of them. -/
theorem rotation_eligible (K : Primitives) (site : Site) {sender initialPublisher : Address}
    {balance now : ℕ} {x : Framed World Event}
    (h : (service K site).Runs (World.deploy sender initialPublisher balance now) x) :
    x.current.contract.activePublishers.Nodup ∧
    (∀ p i, x.current.contract.activePublisherIndex1 p = i+1 ↔
      x.current.contract.activePublishers[i]? = some p) ∧
    (∀ p, p ∉ x.current.contract.activePublishers →
      x.current.contract.activePublisherIndex1 p = 0) ∧
    (∀ p ∈ x.current.contract.activePublishers, Eligible x.current.contract p) ∧
    ∀ m purpose targetHeight deadline s' id,
      requestFuturePublication K m purpose targetHeight deadline x.current.contract =
        .ok (s', id) →
      Eligible x.current.contract (s'.futureCommitments id).assignedPublisher := by
  have hs := rotated_of_runs h
  refine ⟨hs.indexed.nodup, hs.indexed, fun p hp => ?_, hs.eligible, ?_⟩
  · by_contra hne
    exact hp (hs.indexed.mem.mpr hne)
  · intro m purpose targetHeight deadline s' id hreq
    exact hs.eligible _ (requestFuturePublication_assigns hreq)

def toyRotation : Option (Framed World Event) :=
  exec (service toyPrimitives toySite).move (.start toyStart)
    [.take (.call 1 (.ingestion (.setPublisher 2 true))),
      .take (.call 1 (.ingestion (.setPublisher 3 true))),
      .take (.call 1 (.depositBond ether)), .take (.call 2 (.depositBond (2*ether))),
      .take (.call 3 (.depositBond ether)),
      .take (.call 1 (.ingestion (.setPublisher 1 false))),
      .take (.call 2 (.withdrawBond ether))]

theorem rotation_eligible_toy : ∃ x, toyRotation = some x ∧
    x.current.contract.activePublishers = [3, 2] ∧
    x.current.contract.activePublisherIndex1 3 = 1 ∧
    (∀ p ∈ x.current.contract.activePublishers, Eligible x.current.contract p) := by
  have hrun : toyRotation.any fun x =>
      decide (x.current.contract.activePublishers = [3, 2]) := by decide +kernel
  obtain ⟨x, hx, hp⟩ := (Option.any_eq_true _ _).mp hrun
  have hlisted := of_decide_eq_true hp
  have h := rotation_eligible toyPrimitives toySite (exec_reach hx)
  refine ⟨x, hx, hlisted, (h.2.1 3 0).mpr ?_, h.2.2.2.1⟩
  rw [hlisted]
  rfl

end BinaChain.BinaOracle
