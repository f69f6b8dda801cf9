import BinaChain.Evm.BinaOracle
import BinaChain.Support.Balances
import BinaChain.Support.Listing
import Mathlib.Data.FinEnum

/-!
# Bonds and the locks on them

Every unresolved commitment locks one slash amount of its publisher's bond and
nothing else does. The bonds together never exceed the contract's balance,
whatever code runs while a payment is under way.
-/

set_option autoImplicit false

namespace BinaChain.BinaOracle
open BinaChain.Crypto BinaChain.Machine BinaChain.Frames BinaChain.Checked BinaChain.Listing
open BinaChain.Balances BinaChain.Oracle

theorem removeActivePublisher_ok {publisher : Address} {s s' : Storage}
    (hr : Indexed s.activePublishers s.activePublisherIndex1)
    (h : removeActivePublisher publisher s = .ok s') :
    ∃ xs index1, Indexed xs index1 ∧
      s' = { s with activePublishers := xs, activePublisherIndex1 := index1 } := by
  unfold removeActivePublisher at h
  rcases ite_eq_ok.mp h with ⟨-, h⟩ | ⟨hne, h⟩
  · obtain rfl := pure_eq_ok.mp h
    exact ⟨_, _, hr, rfl⟩
  · simp only [bind_eq_ok, sub_eq_ok, read_eq_ok, assign_eq_ok, pure_eq_ok] at h
    obtain ⟨_, ⟨-, rfl⟩, last, hlast, _, ⟨-, rfl⟩, rfl⟩ := h
    obtain ⟨k, hk⟩ := Nat.exists_eq_succ_of_ne_zero hne
    have hrem := hr.remove hk hlast
    refine ⟨_, _, hrem, ?_⟩
    rw [hk]
    rfl

/-- The errors that the contract's own arithmetic would raise. -/
def Broken (e : Revert) : Prop := e = .underflow ∨ e = .outOfBounds ∨ e = .transferFailed

theorem removeActivePublisher_avoids {publisher : Address} {s : Storage}
    (hr : Indexed s.activePublishers s.activePublisherIndex1) :
    Avoids Broken (removeActivePublisher publisher s) := by
  unfold removeActivePublisher
  apply Avoids.ite
  · intro _
    exact .pure _
  · intro hne
    obtain ⟨k, hk⟩ := Nat.exists_eq_succ_of_ne_zero hne
    have hlt := hr.lt hk
    apply Avoids.bind (.sub (by omega))
    intro lastIdx hl
    obtain ⟨-, rfl⟩ := sub_eq_ok.mp hl
    apply Avoids.bind (.read (by omega))
    intro last _
    apply Avoids.bind (.assign (by omega))
    intro xs _
    exact .pure _

/-- The unresolved commitments of a publisher. -/
def openCommitments (s : Storage) (p : Address) : Finset ℕ :=
  (Finset.range s.nextCommitmentId).filter fun id =>
    (s.futureCommitments id).deadline ≠ 0 ∧ (s.futureCommitments id).resolved = false ∧
      (s.futureCommitments id).assignedPublisher = p

structure Bonded (s : Storage) : Prop where
  rotation : Indexed s.activePublishers s.activePublisherIndex1
  fresh : ∀ id, s.nextCommitmentId ≤ id → (s.futureCommitments id).deadline = 0
  locked : ∀ p, s.lockedBonds p = commitmentSlashAmount*(openCommitments s p).card
  covered : ∀ p, s.lockedBonds p ≤ s.publisherBonds p

theorem bonded_deploy (sender initialPublisher : Address) :
    Bonded (deploy sender initialPublisher) where
  rotation := indexed_nil
  fresh _ _ := rfl
  locked p := by
    have hnone : openCommitments (deploy sender initialPublisher) p = ∅ := by
      apply Finset.filter_eq_empty_iff.mpr
      rintro id - ⟨hd, -⟩
      exact hd rfl
    rw [hnone]
    rfl
  covered _ := Nat.le_refl _

theorem Bonded.rotate {s : Storage} (h : Bonded s) {xs : List Address} {index1 : Address → ℕ}
    (hr : Indexed xs index1) :
    Bonded { s with activePublishers := xs, activePublisherIndex1 := index1 } where
  rotation := hr
  fresh := h.fresh
  locked := h.locked
  covered := h.covered

theorem Bonded.raise {s : Storage} (h : Bonded s) {p : Address} {bond : ℕ}
    (hb : s.lockedBonds p ≤ bond) :
    Bonded { s with publisherBonds := Function.update s.publisherBonds p bond } where
  rotation := h.rotation
  fresh := h.fresh
  locked := h.locked
  covered q := by
    by_cases hq : q = p
    · subst hq
      dsimp only
      rwa [Function.update_self]
    · dsimp only
      rw [Function.update_of_ne hq]
      exact h.covered q

theorem openCommitments_new {s : Storage} {c : FutureCommitment} (hd : c.deadline ≠ 0)
    (hr : c.resolved = false) (p : Address) :
    openCommitments { s with
      nextCommitmentId := s.nextCommitmentId+1
      futureCommitments := Function.update s.futureCommitments s.nextCommitmentId c } p =
    if c.assignedPublisher = p then insert s.nextCommitmentId (openCommitments s p)
    else openCommitments s p := by
  ext id
  by_cases hid : id = s.nextCommitmentId
  · subst hid
    have hopen : ¬ c.deadline = 0#64 := hd
    split <;> simp [openCommitments, *]
  · have hlt : id < s.nextCommitmentId+1 ↔ id < s.nextCommitmentId := by omega
    split <;> simp [openCommitments, hid, hlt]

theorem openCommitments_resolve (s : Storage) (id : ℕ) (locks : Address → ℕ) (p : Address) :
    openCommitments { s with
      futureCommitments := Function.update s.futureCommitments id
        { s.futureCommitments id with resolved := true }
      lockedBonds := locks } p = (openCommitments s p).erase id := by
  ext i
  by_cases hi : i = id
  · subst hi
    simp [openCommitments]
  · simp [openCommitments, hi]

theorem Bonded.commit {s : Storage} (h : Bonded s) {c : FutureCommitment} (hd : c.deadline ≠ 0)
    (hr : c.resolved = false)
    (hfree : s.lockedBonds c.assignedPublisher+commitmentSlashAmount ≤
      s.publisherBonds c.assignedPublisher) :
    Bonded { s with
      lockedBonds := Function.update s.lockedBonds c.assignedPublisher
        (s.lockedBonds c.assignedPublisher+commitmentSlashAmount)
      nextCommitmentId := s.nextCommitmentId+1
      futureCommitments := Function.update s.futureCommitments s.nextCommitmentId c } where
  rotation := h.rotation
  fresh id hid := by
    dsimp only at hid ⊢
    rw [Function.update_of_ne (by omega)]
    exact h.fresh id (by omega)
  locked p := by
    have hopen := openCommitments_new (s := s) hd hr p
    change Function.update s.lockedBonds _ _ p = commitmentSlashAmount*
      (openCommitments { s with
        nextCommitmentId := s.nextCommitmentId+1
        futureCommitments := Function.update s.futureCommitments s.nextCommitmentId c } p).card
    rw [hopen]
    by_cases hp : c.assignedPublisher = p
    · subst hp
      have hout : s.nextCommitmentId ∉ openCommitments s c.assignedPublisher := by
        simp [openCommitments]
      rw [if_pos rfl, Function.update_self, Finset.card_insert_of_notMem hout, h.locked,
        Nat.mul_succ]
    · rw [if_neg hp, Function.update_of_ne (Ne.symm hp)]
      exact h.locked p
  covered p := by
    dsimp only
    by_cases hp : p = c.assignedPublisher
    · subst hp
      rwa [Function.update_self]
    · rw [Function.update_of_ne hp]
      exact h.covered p

theorem Bonded.mem_open {s : Storage} (h : Bonded s) {id : ℕ}
    (hd : (s.futureCommitments id).deadline ≠ 0) (hr : (s.futureCommitments id).resolved = false) :
    id ∈ openCommitments s (s.futureCommitments id).assignedPublisher := by
  have hlt : id < s.nextCommitmentId := by
    by_contra hge
    exact hd (h.fresh id (by omega))
  exact Finset.mem_filter.mpr ⟨Finset.mem_range.mpr hlt, hd, hr, rfl⟩

theorem Bonded.lock_le {s : Storage} (h : Bonded s) {id : ℕ}
    (hd : (s.futureCommitments id).deadline ≠ 0) (hr : (s.futureCommitments id).resolved = false) :
    commitmentSlashAmount ≤ s.lockedBonds (s.futureCommitments id).assignedPublisher := by
  have hpos : 0 < (openCommitments s (s.futureCommitments id).assignedPublisher).card :=
    Finset.card_pos.mpr ⟨id, h.mem_open hd hr⟩
  rw [h.locked]
  exact Nat.le_mul_of_pos_right _ hpos

theorem Bonded.resolve {s : Storage} (h : Bonded s) {id : ℕ} {p : Address}
    (hd : (s.futureCommitments id).deadline ≠ 0) (hr : (s.futureCommitments id).resolved = false)
    (hp : (s.futureCommitments id).assignedPublisher = p) :
    Bonded { s with
      futureCommitments := Function.update s.futureCommitments id
        { s.futureCommitments id with resolved := true }
      lockedBonds := Function.update s.lockedBonds p (s.lockedBonds p-commitmentSlashAmount) } where
  rotation := h.rotation
  fresh i hi := by
    dsimp only at hi ⊢
    by_cases hid : i = id
    · subst hid
      rw [Function.update_self]
      exact h.fresh i hi
    · rw [Function.update_of_ne hid]
      exact h.fresh i hi
  locked q := by
    rw [openCommitments_resolve]
    have hmem := h.mem_open hd hr
    dsimp only
    by_cases hq : q = p
    · subst hp
      subst hq
      rw [Function.update_self, Finset.card_erase_of_mem hmem, h.locked, Nat.mul_sub, Nat.mul_one]
    · have hout : id ∉ openCommitments s q := by
        intro hin
        obtain ⟨-, -, -, hassigned⟩ := Finset.mem_filter.mp hin
        exact hq (hassigned.symm.trans hp)
      rw [Function.update_of_ne hq, Finset.erase_eq_of_notMem hout]
      exact h.locked q
  covered q := by
    dsimp only
    by_cases hq : q = p
    · subst hq
      rw [Function.update_self]
      exact (Nat.sub_le _ _).trans (h.covered q)
    · rw [Function.update_of_ne hq]
      exact h.covered q

inductive Effect (K : Primitives) (m : Msg) (s : Storage) : Entry → Outcome → Prop
  | ingestion {c : Call} {registry : Registry} {xs : List Address} {index1 : Address → ℕ}
      (hc : Oracle.call K m s.registry c = .ok registry) (hx : Indexed xs index1) :
      Effect K m s (.ingestion c)
        ({ s with registry, activePublishers := xs, activePublisherIndex1 := index1 }, none)
  | depositBond {value : ℕ} {xs : List Address} {index1 : Address → ℕ}
      (hp : s.registry.publishers m.sender = true) (hv : value ≠ 0) (hx : Indexed xs index1) :
      Effect K m s (.depositBond value) ({ s with
        publisherBonds := Function.update s.publisherBonds m.sender
          (s.publisherBonds m.sender+value)
        activePublishers := xs
        activePublisherIndex1 := index1 }, none)
  | withdrawBond {amount : ℕ} {xs : List Address} {index1 : Address → ℕ}
      (hfree : s.lockedBonds m.sender+amount ≤ s.publisherBonds m.sender)
      (hx : Indexed xs index1) :
      Effect K m s (.withdrawBond amount) ({ s with
        publisherBonds := Function.update s.publisherBonds m.sender
          (s.publisherBonds m.sender-amount)
        activePublishers := xs
        activePublisherIndex1 := index1 }, some amount)
  | requestFuturePublication {purpose : Bytes32} {targetHeight deadline : BitVec 64} {p : Address}
      (hdeadline : m.timestamp < deadline.toNat)
      (hp : s.activePublishers[targetHeight.toNat%s.activePublishers.length]? = some p)
      (hfree : s.lockedBonds p+commitmentSlashAmount ≤ s.publisherBonds p) :
      Effect K m s (.requestFuturePublication purpose targetHeight deadline) ({ s with
        lockedBonds := Function.update s.lockedBonds p (s.lockedBonds p+commitmentSlashAmount)
        nextCommitmentId := s.nextCommitmentId+1
        futureCommitments := Function.update s.futureCommitments s.nextCommitmentId
          { purpose := effectivePurpose K purpose, targetHeight, deadline, assignedPublisher := p,
            resolved := false } }, none)
  | unslashed {id : ℕ} {c : FutureCommitment} (hc : c = s.futureCommitments id)
      (hd : c.deadline ≠ 0) (hr : c.resolved = false)
      (hreached : c.targetHeight ≤ s.registry.latestHeightByPurpose c.purpose) :
      Effect K m s (.resolveFutureCommitment id) ({ s with
        futureCommitments := Function.update s.futureCommitments id { c with resolved := true }
        lockedBonds := Function.update s.lockedBonds c.assignedPublisher
          (s.lockedBonds c.assignedPublisher-commitmentSlashAmount) }, none)
  | slashed {id : ℕ} {c : FutureCommitment} {xs : List Address} {index1 : Address → ℕ}
      (hc : c = s.futureCommitments id) (hd : c.deadline ≠ 0) (hr : c.resolved = false)
      (hlow : s.registry.latestHeightByPurpose c.purpose < c.targetHeight)
      (hdue : c.deadline.toNat ≤ m.timestamp) (hx : Indexed xs index1) :
      Effect K m s (.resolveFutureCommitment id) ({ s with
        futureCommitments := Function.update s.futureCommitments id { c with resolved := true }
        lockedBonds := Function.update s.lockedBonds c.assignedPublisher
          (s.lockedBonds c.assignedPublisher-commitmentSlashAmount)
        publisherBonds := Function.update s.publisherBonds c.assignedPublisher
          (s.publisherBonds c.assignedPublisher-commitmentSlashAmount)
        activePublishers := xs
        activePublisherIndex1 := index1 }, some commitmentSlashAmount)
  | requestUtility {purpose salt : Bytes32} {minHeight : BitVec 64} :
      Effect K m s (.requestUtility purpose salt minHeight) ({ s with
        nextRequestId := s.nextRequestId+1
        requests := Function.update s.requests s.nextRequestId
          { requester := m.sender, purpose := effectivePurpose K purpose, salt, minHeight,
            fulfilled := false } }, none)
  | fulfillUtility {id : ℕ} {r : UtilityRequest} (hr : r = s.requests id)
      (hrequester : r.requester ≠ 0) (hopen : r.fulfilled = false)
      (hseed : s.registry.latestSeedByPurpose r.purpose ≠ 0)
      (hheight : r.minHeight ≤ s.registry.latestHeightByPurpose r.purpose) :
      Effect K m s (.fulfillUtility id) ({ s with
        requests := Function.update s.requests id { r with fulfilled := true } }, none)

theorem lowerBond_ok {p : Address} {bond : ℕ} {s s' : Storage}
    (hr : Indexed s.activePublishers s.activePublisherIndex1)
    (h : lowerBond p bond s = .ok s') :
    ∃ xs index1, Indexed xs index1 ∧ s' = { s with
      publisherBonds := Function.update s.publisherBonds p bond
      activePublishers := xs
      activePublisherIndex1 := index1 } := by
  unfold lowerBond at h
  dsimp only at h
  rcases ite_eq_ok.mp h with ⟨-, h⟩ | ⟨-, h⟩
  · exact removeActivePublisher_ok (by exact hr) h
  · obtain rfl := pure_eq_ok.mp h
    exact ⟨_, _, hr, rfl⟩

section Effects

variable {K : Primitives} {m : Msg} {s : Storage} (hs : Bonded s)
include hs

theorem ingest_effect {c : Call} {s' : Storage} (h : ingest K m c s = .ok s') :
    Effect K m s (.ingestion c) (s', none) := by
  unfold ingest at h
  obtain ⟨registry, hreg, h⟩ := bind_eq_ok.mp h
  have hc := mapError_eq_ok.mp hreg
  dsimp only at h
  split at h
  · obtain ⟨xs, index1, hx, rfl⟩ := removeActivePublisher_ok (s := { s with registry })
      hs.rotation h
    exact .ingestion hc hx
  · obtain rfl := pure_eq_ok.mp h
    exact .ingestion hc hs.rotation

theorem depositBond_effect {value : ℕ} {s' : Storage} (h : depositBond m value s = .ok s') :
    Effect K m s (.depositBond value) (s', none) := by
  unfold depositBond at h
  simp only [bind_eq_ok, require_eq_ok, add_eq_ok] at h
  obtain ⟨-, hp, -, hv, _, ⟨-, rfl⟩, h⟩ := h
  rcases ite_eq_ok.mp h with ⟨⟨-, hout⟩, h⟩ | ⟨-, h⟩
  · obtain rfl := pure_eq_ok.mp h
    apply Effect.depositBond hp hv
    rw [List.length_append]
    exact hs.rotation.push hout
  · obtain rfl := pure_eq_ok.mp h
    exact .depositBond hp hv hs.rotation

theorem withdrawBond_effect {amount : ℕ} {out : Outcome} (h : withdrawBond m amount s = .ok out) :
    Effect K m s (.withdrawBond amount) out := by
  unfold withdrawBond at h
  simp only [bind_eq_ok, require_eq_ok, sub_eq_ok, pure_eq_ok] at h
  obtain ⟨_, ⟨hle, rfl⟩, -, hamount, _, ⟨-, rfl⟩, s', hl, rfl⟩ := h
  obtain ⟨xs, index1, hx, rfl⟩ := lowerBond_ok hs.rotation hl
  exact .withdrawBond (by omega) hx

omit hs in
theorem requestFuturePublication_effect {purpose : Bytes32} {targetHeight deadline : BitVec 64}
    {out : Storage × ℕ}
    (h : requestFuturePublication K m purpose targetHeight deadline s = .ok out) :
    Effect K m s (.requestFuturePublication purpose targetHeight deadline) (out.1, none) := by
  unfold requestFuturePublication at h
  simp only [bind_eq_ok, require_eq_ok, read_eq_ok, sub_eq_ok, add_eq_ok, pure_eq_ok] at h
  obtain ⟨-, hlate, -, -, p, hp, _, ⟨hle, rfl⟩, -, hfree, _, ⟨-, rfl⟩, _, ⟨-, rfl⟩, rfl⟩ := h
  exact .requestFuturePublication hlate hp (by omega)

theorem resolveFutureCommitment_effect {id : ℕ} {out : Outcome}
    (h : resolveFutureCommitment m id s = .ok out) :
    Effect K m s (.resolveFutureCommitment id) out := by
  unfold resolveFutureCommitment at h
  simp only [bind_eq_ok, require_eq_ok, sub_eq_ok] at h
  obtain ⟨-, hd, -, hr, -, hdue, _, ⟨-, rfl⟩, h⟩ := h
  have hlock := hs.lock_le hd hr
  have hamount : (if s.lockedBonds (s.futureCommitments id).assignedPublisher <
      commitmentSlashAmount then s.lockedBonds (s.futureCommitments id).assignedPublisher
      else commitmentSlashAmount) = commitmentSlashAmount := if_neg (by omega)
  simp only [hamount] at h
  rcases ite_eq_ok.mp h with ⟨hp, h⟩ | ⟨hp, h⟩
  · obtain rfl := pure_eq_ok.mp h
    exact .unslashed rfl hd hr (of_decide_eq_true hp)
  · simp only [bind_eq_ok, sub_eq_ok, pure_eq_ok] at h
    obtain ⟨_, ⟨-, rfl⟩, s', hl, rfl⟩ := h
    obtain ⟨xs, index1, hx, rfl⟩ := lowerBond_ok (by exact hs.rotation) hl
    have hlow : s.registry.latestHeightByPurpose (s.futureCommitments id).purpose <
        (s.futureCommitments id).targetHeight := by
      simpa using hp
    have htime : (s.futureCommitments id).deadline.toNat ≤ m.timestamp := by
      by_contra hearly
      exact hdue ⟨by simpa using hp, by omega⟩
    exact .slashed rfl hd hr hlow htime hx

omit hs in
theorem requestUtility_effect {purpose salt : Bytes32} {minHeight : BitVec 64} {out : Storage × ℕ}
    (h : requestUtility K m purpose salt minHeight s = .ok out) :
    Effect K m s (.requestUtility purpose salt minHeight) (out.1, none) := by
  unfold requestUtility at h
  simp only [bind_eq_ok, add_eq_ok, pure_eq_ok] at h
  obtain ⟨_, ⟨-, rfl⟩, rfl⟩ := h
  exact .requestUtility

omit hs in
theorem fulfillUtility_effect {site : Site} {id : ℕ} {out : Storage × Bytes32}
    (h : fulfillUtility K site id s = .ok out) :
    Effect K m s (.fulfillUtility id) (out.1, none) := by
  unfold fulfillUtility at h
  simp only [bind_eq_ok, require_eq_ok, pure_eq_ok, not_or] at h
  obtain ⟨-, hrequester, -, hopen, -, ⟨hseed, hheight⟩, rfl⟩ := h
  exact .fulfillUtility rfl hrequester hopen hseed (BitVec.not_lt.mp hheight)

theorem perform_effect {site : Site} {entry : Entry} {out : Outcome}
    (h : perform K site m s entry = .ok out) : Effect K m s entry out := by
  cases entry with
  | ingestion c =>
    obtain ⟨s', hc, ho⟩ := bind_eq_ok.mp h
    obtain rfl := pure_eq_ok.mp ho
    exact ingest_effect hs hc
  | depositBond value =>
    obtain ⟨s', hc, ho⟩ := bind_eq_ok.mp h
    obtain rfl := pure_eq_ok.mp ho
    exact depositBond_effect hs hc
  | withdrawBond amount => exact withdrawBond_effect hs h
  | requestFuturePublication purpose targetHeight deadline =>
    obtain ⟨r, hc, ho⟩ := bind_eq_ok.mp h
    obtain rfl := pure_eq_ok.mp ho
    exact requestFuturePublication_effect hc
  | resolveFutureCommitment id => exact resolveFutureCommitment_effect hs h
  | requestUtility purpose salt minHeight =>
    obtain ⟨r, hc, ho⟩ := bind_eq_ok.mp h
    obtain rfl := pure_eq_ok.mp ho
    exact requestUtility_effect hc
  | fulfillUtility id =>
    obtain ⟨r, hc, ho⟩ := bind_eq_ok.mp h
    obtain rfl := pure_eq_ok.mp ho
    exact fulfillUtility_effect hc

end Effects

theorem Effect.bonded {K : Primitives} {m : Msg} {s : Storage} {entry : Entry} {out : Outcome}
    (he : Effect K m s entry out) (hs : Bonded s) : Bonded out.1 := by
  cases he with
  | ingestion _ hx => exact ⟨hx, hs.fresh, hs.locked, hs.covered⟩
  | @depositBond value _ _ _ _ hx =>
    have hmore := (hs.covered m.sender).trans (Nat.le_add_right _ value)
    exact (hs.raise hmore).rotate hx
  | withdrawBond hfree hx => exact (hs.raise (p := m.sender) (by omega)).rotate hx
  | @requestFuturePublication purpose targetHeight deadline p hdeadline _ hfree =>
    have hd : deadline ≠ 0 := by
      rintro rfl
      simp at hdeadline
    exact hs.commit (c := FutureCommitment.mk (effectivePurpose K purpose) targetHeight deadline p
      false) hd rfl hfree
  | unslashed hc hd hr _ =>
    subst hc
    exact hs.resolve hd hr rfl
  | slashed hc hd hr _ _ hx =>
    subst hc
    apply Bonded.rotate ((hs.resolve hd hr rfl).raise _) hx
    dsimp only
    rw [Function.update_self]
    exact Nat.sub_le_sub_right (hs.covered _) _
  | requestUtility => exact ⟨hs.rotation, hs.fresh, hs.locked, hs.covered⟩
  | fulfillUtility => exact ⟨hs.rotation, hs.fresh, hs.locked, hs.covered⟩

theorem Effect.total {K : Primitives} {m : Msg} {s : Storage} {entry : Entry} {out : Outcome}
    (he : Effect K m s entry out) (hs : Bonded s) :
    ∑ p, out.1.publisherBonds p+out.2.getD 0 = ∑ p, s.publisherBonds p+entry.value := by
  cases he with
  | depositBond =>
    rw [Option.getD_none, Nat.add_zero]
    exact total_credit s.publisherBonds m.sender _
  | @withdrawBond amount _ _ hfree _ =>
    have hvalue : (Entry.withdrawBond amount).value = 0 := rfl
    rw [Option.getD_some, hvalue, Nat.add_zero]
    exact total_debit (by omega)
  | @slashed id _ _ _ hc hd hr _ _ _ =>
    have hvalue : (Entry.resolveFutureCommitment id).value = 0 := rfl
    subst hc
    rw [Option.getD_some, hvalue, Nat.add_zero]
    exact total_debit ((hs.lock_le hd hr).trans (hs.covered _))
  | ingestion | requestFuturePublication | unslashed | requestUtility | fulfillUtility =>
    rw [Option.getD_none]
    exact congrArg (∑ p, s.publisherBonds p+·) rfl

theorem lowerBond_avoids {p : Address} {bond : ℕ} {s : Storage}
    (hr : Indexed s.activePublishers s.activePublisherIndex1) :
    Avoids Broken (lowerBond p bond s) := by
  unfold lowerBond
  apply Avoids.ite
  · intro _
    exact removeActivePublisher_avoids hr
  · intro _
    exact .pure _

theorem ingest_avoids {K : Primitives} {m : Msg} {c : Call} {s : Storage} (hs : Bonded s) :
    Avoids Broken (ingest K m c s) := by
  unfold ingest
  apply Avoids.bind
  · cases Oracle.call K m s.registry c with
    | error e => exact .error (by simp [Broken])
    | ok registry => exact .ok _
  · intro registry _
    dsimp only
    split
    · exact removeActivePublisher_avoids hs.rotation
    · exact .pure _

theorem depositBond_avoids (m : Msg) (value : ℕ) (s : Storage) :
    Avoids Broken (depositBond m value s) := by
  unfold depositBond
  apply Avoids.bind (.require (by simp [Broken]))
  intro _ _
  apply Avoids.bind (.require (by simp [Broken]))
  intro _ _
  apply Avoids.bind (.add (by simp [Broken, Panics.overflow]))
  intro bond _
  apply Avoids.ite <;> intro _ <;> exact .pure _

theorem withdrawBond_avoids {m : Msg} {amount : ℕ} {s : Storage} (hs : Bonded s) :
    Avoids Broken (withdrawBond m amount s) := by
  unfold withdrawBond
  apply Avoids.bind (.sub (hs.covered m.sender))
  intro free hfree
  obtain ⟨-, rfl⟩ := sub_eq_ok.mp hfree
  apply Avoids.bind (.require (by simp [Broken]))
  intro _ hamount
  have hle := require_eq_ok.mp hamount
  apply Avoids.bind (.sub (by omega))
  intro bond _
  apply Avoids.bind (lowerBond_avoids hs.rotation)
  intro s' _
  exact .pure _

theorem requestFuturePublication_avoids {K : Primitives} {m : Msg} {purpose : Bytes32}
    {targetHeight deadline : BitVec 64} {s : Storage} (hs : Bonded s) :
    Avoids Broken (requestFuturePublication K m purpose targetHeight deadline s) := by
  unfold requestFuturePublication
  apply Avoids.bind (.require (by simp [Broken]))
  intro _ _
  apply Avoids.bind (.require (by simp [Broken]))
  intro _ hn
  have hlisted : 0 < s.activePublishers.length := Nat.pos_of_ne_zero (require_eq_ok.mp hn)
  apply Avoids.bind (.read (Nat.mod_lt _ hlisted))
  intro p _
  apply Avoids.bind (.sub (hs.covered p))
  intro free _
  apply Avoids.bind (.require (by simp [Broken]))
  intro _ _
  apply Avoids.bind (.add (by simp [Broken, Panics.overflow]))
  intro locked _
  apply Avoids.bind (.add (by simp [Broken, Panics.overflow]))
  intro next _
  exact .pure _

theorem resolveFutureCommitment_avoids {m : Msg} {id : ℕ} {s : Storage} (hs : Bonded s) :
    Avoids Broken (resolveFutureCommitment m id s) := by
  unfold resolveFutureCommitment
  apply Avoids.bind (.require (by simp [Broken]))
  intro _ _
  apply Avoids.bind (.require (by simp [Broken]))
  intro _ _
  apply Avoids.bind (.require (by simp [Broken]))
  intro _ _
  have hcovered := hs.covered (s.futureCommitments id).assignedPublisher
  apply Avoids.bind (.sub (by split <;> omega))
  intro locked _
  apply Avoids.ite
  · intro _
    exact .pure _
  · intro _
    apply Avoids.bind (.sub (by dsimp only; split <;> omega))
    intro bond _
    apply Avoids.bind (lowerBond_avoids (by exact hs.rotation))
    intro s' _
    exact .pure _

theorem perform_avoids {K : Primitives} {site : Site} {m : Msg} {s : Storage} {entry : Entry}
    (hs : Bonded s) : Avoids Broken (perform K site m s entry) := by
  cases entry with
  | ingestion c => exact (ingest_avoids hs).bind fun _ _ => .pure _
  | depositBond value => exact (depositBond_avoids m value s).bind fun _ _ => .pure _
  | withdrawBond amount => exact withdrawBond_avoids hs
  | requestFuturePublication purpose targetHeight deadline =>
    exact (requestFuturePublication_avoids hs).bind fun _ _ => .pure _
  | resolveFutureCommitment id => exact resolveFutureCommitment_avoids hs
  | requestUtility purpose salt minHeight =>
    apply Avoids.bind
    · apply Avoids.bind (.add (by simp [Broken, Panics.overflow]))
      intro next _
      exact .pure _
    · intro r _
      exact .pure _
  | fulfillUtility id =>
    apply Avoids.bind
    · apply Avoids.bind (.require (by simp [Broken]))
      intro _ _
      apply Avoids.bind (.require (by simp [Broken]))
      intro _ _
      apply Avoids.bind (.require (by simp [Broken]))
      intro _ _
      exact .pure _
    · intro r _
      exact .pure _

structure Backed (w : World) : Prop where
  bonded : Bonded w.contract
  funded : ∑ p, w.contract.publisherBonds p ≤ w.balance

theorem World.call_ok {K : Primitives} {site : Site} {w : World} {sender : Address}
    {entry : Entry} {r : World × Bool} (h : w.call K site sender entry = .ok r) :
    ∃ out, perform K site { sender, timestamp := w.now } w.contract entry = .ok out ∧
      out.2.getD 0 ≤ w.balance+entry.value ∧
      r = ({ w with contract := out.1, balance := w.balance+entry.value-out.2.getD 0 },
        out.2.isSome) := by
  simp only [World.call, bind_eq_ok, require_eq_ok, pure_eq_ok] at h
  obtain ⟨out, hout, -, hle, rfl⟩ := h
  exact ⟨out, hout, hle, rfl⟩

theorem World.step_call {K : Primitives} {site : Site} {w w' : World} {sender : Address}
    {entry : Entry} (h : w.step K site (.call sender entry) = some w') :
    ∃ paying, w.call K site sender entry = .ok (w', paying) := by
  obtain ⟨r, hr, rfl⟩ := Option.map_eq_some_iff.mp h
  exact ⟨r.2, toOption_eq_some.mp hr⟩

theorem Backed.step {K : Primitives} {site : Site} {w w' : World} {e : Event} (hw : Backed w)
    (h : w.step K site e = some w') : Backed w' := by
  have hf := hw.funded
  cases e with
  | call sender entry =>
    obtain ⟨paying, hc⟩ := World.step_call h
    obtain ⟨out, hout, -, hr⟩ := World.call_ok hc
    obtain rfl := congrArg Prod.fst hr
    have heffect := perform_effect hw.bonded hout
    have ht := heffect.total hw.bonded
    exact ⟨heffect.bonded hw.bonded, by dsimp only; omega⟩
  | force amount =>
    obtain rfl := Option.some.inj h
    exact ⟨hw.bonded, hf.trans (Nat.le_add_right _ _)⟩
  | tick timestamp =>
    simp only [World.step] at h
    split at h
    · obtain rfl := Option.some.inj h
      exact ⟨hw.bonded, hf⟩
    · cases h

theorem World.call_avoids {K : Primitives} {site : Site} {w : World} (hw : Backed w)
    (sender : Address) (entry : Entry) : Avoids Broken (w.call K site sender entry) := by
  have hf := hw.funded
  unfold World.call
  apply Avoids.bind (perform_avoids hw.bonded)
  intro out hout
  have ht := (perform_effect hw.bonded hout).total hw.bonded
  have hle : out.2.getD 0 ≤ w.balance+entry.value := by omega
  dsimp only
  rw [Checked.require, if_pos hle]
  exact .ok _

theorem backed_deploy (sender initialPublisher : Address) (balance now : ℕ) :
    Backed (World.deploy sender initialPublisher balance now) where
  bonded := bonded_deploy sender initialPublisher
  funded := by
    change ∑ _p : Address, 0 ≤ balance
    rw [Finset.sum_const_zero]
    exact Nat.zero_le _

theorem backed_of_runs {K : Primitives} {site : Site} {sender initialPublisher : Address}
    {balance now : ℕ} {x : Framed World Event}
    (h : (service K site).Runs (World.deploy sender initialPublisher balance now) x) :
    Backed x.current := by
  apply Service.invariant h (backed_deploy sender initialPublisher balance now)
  · intro w e w' hw hs
    exact hw.step hs
  · intro _ w hw
    exact hw

theorem Effect.frees {K : Primitives} {m : Msg} {id : ℕ} {s : Storage} {out : Outcome}
    (hs : Bonded s) (he : Effect K m s (.resolveFutureCommitment id) out) :
    (s.futureCommitments id).resolved = false ∧ (out.1.futureCommitments id).resolved = true ∧
    ∀ p, out.1.lockedBonds p+(if p = (s.futureCommitments id).assignedPublisher
      then commitmentSlashAmount else 0) = s.lockedBonds p := by
  have hfreed : ∀ c : FutureCommitment, c = s.futureCommitments id → c.deadline ≠ 0 →
      c.resolved = false → ∀ p, Function.update s.lockedBonds c.assignedPublisher
        (s.lockedBonds c.assignedPublisher-commitmentSlashAmount) p+
        (if p = c.assignedPublisher then commitmentSlashAmount else 0) = s.lockedBonds p := by
    rintro _ rfl hd hr p
    have hlock := hs.lock_le hd hr
    by_cases hp : p = (s.futureCommitments id).assignedPublisher
    · rw [if_pos hp, hp, Function.update_self]
      omega
    · rw [if_neg hp, Function.update_of_ne hp, Nat.add_zero]
  cases he with
  | unslashed hc hd hr _ =>
    have hlocks := hfreed _ hc hd hr
    subst hc
    exact ⟨hr, by simp, hlocks⟩
  | slashed hc hd hr _ _ _ =>
    have hlocks := hfreed _ hc hd hr
    subst hc
    exact ⟨hr, by simp, hlocks⟩

/-- A publisher's locks are its unresolved commitments and its bond covers them;
no call fails by its own arithmetic or for want of money; a resolution frees
the lock of its commitment and no other; the balance backs all bonds. -/
theorem locks_and_bonds (K : Primitives) (site : Site) {sender initialPublisher : Address}
    {balance now : ℕ} {x : Framed World Event}
    (h : (service K site).Runs (World.deploy sender initialPublisher balance now) x) :
    (∀ p, x.current.contract.lockedBonds p =
        commitmentSlashAmount*(openCommitments x.current.contract p).card ∧
      x.current.contract.lockedBonds p ≤ x.current.contract.publisherBonds p) ∧
    (∀ caller entry e, x.current.call K site caller entry = .error e →
      e ≠ .underflow ∧ e ≠ .outOfBounds ∧ e ≠ .transferFailed) ∧
    (∀ m id out, resolveFutureCommitment m id x.current.contract = .ok out →
      (x.current.contract.futureCommitments id).resolved = false ∧
      (out.1.futureCommitments id).resolved = true ∧
      ∀ p, out.1.lockedBonds p+(if p = (x.current.contract.futureCommitments id).assignedPublisher
        then commitmentSlashAmount else 0) = x.current.contract.lockedBonds p) ∧
    ∑ p, x.current.contract.publisherBonds p ≤ x.current.balance := by
  have hw := backed_of_runs h
  refine ⟨fun p => ⟨hw.bonded.locked p, hw.bonded.covered p⟩, ?_, ?_, hw.funded⟩
  · intro caller entry e he
    have hgood := World.call_avoids hw caller entry e he
    simpa only [Broken, not_or] using hgood
  · intro m id out ho
    exact (resolveFutureCommitment_effect (K := K) hw.bonded ho).frees hw.bonded

def toySite : Site := { chainId := 1, self := 0xb1 }

def toyStart : World := World.deploy 1 0 0 5

def toyMoves : List (Move Event) :=
  [.take (.call 1 (.depositBond (2*ether))),
    .take (.call 9 (.requestFuturePublication 7 1 10)),
    .take (.call 9 (.requestFuturePublication 7 2 12)),
    .take (.tick 10),
    .take (.call 9 (.resolveFutureCommitment 1)),
    .take (.call 1 (.withdrawBond ether)),
    .leave true]

def toyFramed : Option (Framed World Event) :=
  exec (service toyPrimitives toySite).move (.start toyStart) toyMoves

theorem locks_and_bonds_toy : ∃ x, toyFramed = some x ∧ x.frames.length = 1 ∧
    x.current.contract.lockedBonds 1 = commitmentSlashAmount ∧
    x.current.contract.lockedBonds 1 ≤ x.current.contract.publisherBonds 1 ∧
    ∑ p, x.current.contract.publisherBonds p ≤ x.current.balance := by
  have hrun : toyFramed.any fun x => x.frames.length == 1 &&
      x.current.contract.lockedBonds 1 == commitmentSlashAmount := by decide +kernel
  obtain ⟨x, hx, hp⟩ := (Option.any_eq_true _ _).mp hrun
  obtain ⟨hframes, hlock⟩ := Bool.and_eq_true_iff.mp hp
  have hbonds := locks_and_bonds toyPrimitives toySite (exec_reach hx)
  exact ⟨x, hx, of_decide_eq_true hframes, of_decide_eq_true hlock, (hbonds.1 1).2, hbonds.2.2.2⟩

end BinaChain.BinaOracle
