import BinaChain.Evm.Relink
import Mathlib.Data.List.Pairwise

/-!
# BINA keys of an identity

An identity and its BINA address resolve to each other exactly while the key is
active. Rotating a key waits for a cooldown since the address was last set;
registering one anew after a deactivation does not.
-/

set_option autoImplicit false

namespace BinaChain.FastPath
open BinaChain.Word BinaChain.Machine BinaChain.Frames BinaChain.Checked BinaChain.Pairing
open BinaChain.Oracle
open BinaChain.BinaOracle (Site)

structure Resolves (s : Storage) : Prop where
  paired : Paired 0 0 s.hash160ToBinaAddress s.binaAddressToHash160
  keyed : ∀ h, s.hash160ToBinaAddress h =
    if (s.binaKeys h).active then (s.binaKeys h).binaAddress else 0
  named : ∀ h, (s.binaKeys h).active = true → h ≠ 0 ∧ (s.binaKeys h).binaAddress ≠ 0

theorem resolves_initial (owner : Address) (fee : ℕ) : Resolves (.initial owner fee) where
  paired := ⟨names_blank, names_blank⟩
  keyed _ := rfl
  named _ h := absurd h Bool.false_ne_true

theorem Resolves.assign {s : Storage} (hs : Resolves s) {h b : Bytes20} (key : BinaKey)
    (hh : h ≠ 0) (hb : b ≠ 0) (hkey : key.active = true) (haddress : key.binaAddress = b)
    {forth : Bytes20 → Bytes20} {back : Bytes20 → Bytes20} (hpaired : Paired 0 0 forth back)
    (hforth : ∀ h', h' ≠ h → forth h' = s.hash160ToBinaAddress h') (hnone : forth h = 0)
    (hfree : back b = 0) {t : Storage} (hk : t.binaKeys = Function.update s.binaKeys h key)
    (hf : t.hash160ToBinaAddress = Function.update forth h b)
    (hg : t.binaAddressToHash160 = Function.update back b h) : Resolves t where
  paired := by
    rw [hf, hg]
    exact hpaired.link hh hb hnone hfree
  keyed := by
    intro h'
    rw [hf, hk]
    by_cases heq : h' = h
    · subst heq
      simp [hkey, haddress]
    · simp only [Function.update_of_ne heq]
      rw [hforth h' heq, hs.keyed]
  named := by
    intro h' hactive
    rw [hk] at hactive ⊢
    by_cases heq : h' = h
    · subst heq
      rw [Function.update_self, haddress]
      exact ⟨hh, hb⟩
    · simp only [Function.update_of_ne heq] at hactive ⊢
      exact hs.named h' hactive

theorem Resolves.deactivate {s : Storage} (hs : Resolves s) (h : Bytes20) :
    Resolves { s with
      binaKeys := Function.update s.binaKeys h { s.binaKeys h with active := false }
      binaAddressToHash160 := Function.update s.binaAddressToHash160 (s.hash160ToBinaAddress h) 0
      hash160ToBinaAddress := Function.update s.hash160ToBinaAddress h 0 } where
  paired := hs.paired.unlink h
  keyed := by
    intro h'
    by_cases heq : h' = h
    · subst heq
      simp
    · simp only [Function.update_of_ne heq]
      exact hs.keyed h'
  named := by
    intro h' hactive
    by_cases heq : h' = h
    · subst heq
      simp at hactive
    · simp only [Function.update_of_ne heq] at hactive ⊢
      exact hs.named h' hactive

theorem Effect.resolves {K : Precompiles} {site : Site} {m : Msg} {s : Storage} {entry : Entry}
    {out : Outcome} (he : Effect K site m s entry out) (hs : Resolves s) : Resolves out.1 := by
  cases he with
  | registerBinaKey hk hold hfree =>
    refine hs.assign (KeyClaim.key m _) hk.hash160 hk.binaAddress rfl rfl hs.paired
      (fun _ _ => rfl) ?_ hfree rfl rfl rfl
    rw [hs.keyed, hold]
    rfl
  | @rotateBinaKey k hk hold hfree hdue =>
    have hforth : ∀ h', h' ≠ k.hash160 →
        Function.update s.hash160ToBinaAddress k.hash160 0 h' = s.hash160ToBinaAddress h' :=
      fun h' hne => Function.update_of_ne hne _ _
    refine hs.assign (k.key m) hk.hash160 hk.binaAddress rfl rfl
      (hs.paired.unlink k.hash160) hforth (Function.update_self _ _ _) ?_ rfl ?_ rfl
    · by_cases heq : k.binaAddress = s.hash160ToBinaAddress k.hash160
      · rw [heq, Function.update_self]
      · rw [Function.update_of_ne heq]
        rcases hfree with hfree | hfree
        · exact hfree
        · exact absurd ((hs.paired.iff hk.hash160 hk.binaAddress).mp hfree).symm heq
    · rw [Function.update_idem]
  | deactivateBinaKey => exact hs.deactivate _
  | _ => exact ⟨hs.paired, hs.keyed, hs.named⟩

theorem resolves_finish {w : World} (hw : Resolves w.contract) (e : Event) :
    Resolves (World.finish e w).contract := by
  rw [World.finish_eq]
  dsimp only
  split
  · exact ⟨hw.paired, hw.keyed, hw.named⟩
  · exact hw

theorem Resolves.step {K : Precompiles} {site : Site} {w w' : World} {e : Event}
    (hw : Resolves w.contract) (h : w.step K site e = some w') : Resolves w'.contract := by
  cases e with
  | call sender entry =>
    obtain ⟨out, heffect, -, rfl, -⟩ := World.step_call h
    exact heffect.resolves hw
  | force amount =>
    obtain rfl := Option.some.inj h
    exact hw
  | tick timestamp =>
    obtain ⟨-, rfl⟩ := World.step_time h
    exact hw

/-- The two maps are inverse to each other, and a pair of them is an active key;
so an address has one identity, and every active key resolves. -/
theorem bina_addresses_resolve (K : Precompiles) (site : Site) {deployer : Address}
    {fee balance now : ℕ} {w : World} (hd : World.deploy deployer fee balance now = .ok w)
    {x : Framed World Event} (hx : (service K site).Runs w x) :
    (∀ h b, h ≠ 0 → b ≠ 0 →
      (x.current.contract.binaAddressToHash160 b = h ↔ getBinaAddress h x.current.contract = b) ∧
      (getBinaAddress h x.current.contract = b ↔ isQuantumSafe h x.current.contract = true ∧
        (x.current.contract.binaKeys h).binaAddress = b)) ∧
    (∀ h h', isQuantumSafe h x.current.contract = true →
      isQuantumSafe h' x.current.contract = true →
      (x.current.contract.binaKeys h).binaAddress = (x.current.contract.binaKeys h').binaAddress →
      h = h') ∧
    ∀ h, isQuantumSafe h x.current.contract = true →
      resolveFromBina (x.current.contract.binaKeys h).binaAddress x.current.contract =
        .ok (h, currentController h x.current.contract) := by
  have hs : Resolves x.current.contract := by
    apply Service.invariant (P := fun w => Resolves w.contract) hx
    · obtain rfl := World.deploy_ok hd
      exact resolves_initial deployer fee
    · intro u e v hu he
      exact hu.step he
    · intro e u hu
      exact resolves_finish hu e
  have hback : ∀ h, isQuantumSafe h x.current.contract = true →
      x.current.contract.binaAddressToHash160 (x.current.contract.binaKeys h).binaAddress = h := by
    intro h hactive
    obtain ⟨hh, hb⟩ := hs.named h hactive
    rw [hs.paired.iff hh hb, hs.keyed]
    exact if_pos hactive
  refine ⟨?_, ?_, ?_⟩
  · intro h b hh hb
    refine ⟨hs.paired.iff hh hb, ?_⟩
    unfold getBinaAddress isQuantumSafe
    rw [hs.keyed]
    by_cases hactive : (x.current.contract.binaKeys h).active
    · simp [hactive]
    · simpa [hactive] using hb.symm
  · intro h h' hactive hactive' heq
    rw [← hback h hactive, heq, hback h' hactive']
  · intro h hactive
    simp only [resolveFromBina, bind_eq_ok, require_eq_ok, pure_eq_ok]
    rw [hback h hactive]
    exact ⟨(), (hs.named h hactive).1, rfl⟩

def toyClaim (h b : Bytes20) (a : Address) : KeyClaim where
  hash160 := h
  binaAddress := b
  ed25519PublicKey := 1
  fullPublicKeyHash := 2
  derivationCommitment := binaDerivationCommitment toyPrecompiles toySite h b 2 a

def toyResolution : Option (Framed World Event) :=
  exec (service toyPrecompiles toySite).move (.start toyStart)
    [.take (toyRegister 1 5 7), .take (toyRegister 2 6 7),
      .take (.call 5 (.registerBinaKey (toyClaim (toyHash 1) 41 5))),
      .take (.call 5 (.deactivateBinaKey (toyHash 1))),
      .take (.call 6 (.registerBinaKey (toyClaim (toyHash 2) 41 6)))]

theorem bina_addresses_resolve_toy : ∃ x, toyResolution = some x ∧
    resolveFromBina 41 x.current.contract = .ok (toyHash 2, 6) := by
  have hrun : toyResolution.any fun x => isQuantumSafe (toyHash 2) x.current.contract &&
      (x.current.contract.binaKeys (toyHash 2)).binaAddress == 41 &&
      currentController (toyHash 2) x.current.contract == 6 := by decide +kernel
  obtain ⟨x, hx, hrun⟩ := (Option.any_eq_true _ _).mp hrun
  simp only [Bool.and_eq_true, beq_iff_eq] at hrun
  obtain ⟨⟨hactive, haddress⟩, hcontroller⟩ := hrun
  obtain ⟨-, -, hresolves⟩ := bina_addresses_resolve toyPrecompiles toySite
    (show World.deploy 1 5 0 0 = .ok toyStart from rfl) (exec_reach hx)
  have hx2 := hresolves (toyHash 2) hactive
  rw [haddress, hcontroller] at hx2
  exact ⟨x, hx, hx2⟩

def Event.setsKey (h : Bytes20) : Event → Bool
  | .call _ (.registerBinaKey k) => k.hash160 == h
  | .call _ (.rotateBinaKey k) => k.hash160 == h
  | _ => false

/-- When the address of the identity was set, the last time first. -/
def setTimes (h : Bytes20) (past : History) : List ℕ :=
  (past.filter fun f => f.2.setsKey h).map fun f => f.1.now

def Spaced (past : History) : Prop :=
  ∀ h, (setTimes h past).Pairwise fun later earlier => earlier+binaKeyRotationCooldown ≤ later

/-- The identity has never had a key, or its cooldown is over. -/
def Rested (w : World) (h : Bytes20) : Prop :=
  (w.contract.binaKeys h).binaAddress = 0 ∨
    w.contract.lastBinaKeyRotation h+binaKeyRotationCooldown ≤ w.now

/-- Every key that was registered was registered by a rested identity. -/
def Unhurried (past : History) : Prop :=
  ∀ w sender k, (w, .call sender (.registerBinaKey k)) ∈ past → Rested w k.hash160

theorem Effect.keys {K : Precompiles} {site : Site} {m : Msg} {s : Storage} {entry : Entry}
    {out : Outcome} (he : Effect K site m s entry out) (h : Bytes20) :
    ((Event.call m.sender entry).setsKey h = false ∧
      (out.1.binaKeys h).binaAddress = (s.binaKeys h).binaAddress ∧
      out.1.lastBinaKeyRotation h = s.lastBinaKeyRotation h) ∨
    ((Event.call m.sender entry).setsKey h = true ∧ (out.1.binaKeys h).binaAddress ≠ 0 ∧
      out.1.lastBinaKeyRotation h = m.timestamp ∧
      ((∃ k, entry = .registerBinaKey k ∧ k.hash160 = h) ∨
        (∀ k, entry ≠ .registerBinaKey k) ∧ (s.binaKeys h).active = true ∧
          s.lastBinaKeyRotation h+binaKeyRotationCooldown ≤ m.timestamp)) := by
  cases he with
  | @registerBinaKey k hk hold hfree =>
    by_cases heq : h = k.hash160
    · subst heq
      right
      simp only [Function.update_self, Event.setsKey, beq_self_eq_true, true_and]
      exact ⟨hk.binaAddress, Or.inl ⟨k, rfl, rfl⟩⟩
    · left
      simp only [Function.update_of_ne heq, Event.setsKey, and_self, and_true]
      exact beq_false_of_ne (Ne.symm heq)
  | @rotateBinaKey k hk hold hfree hdue =>
    by_cases heq : h = k.hash160
    · subst heq
      right
      simp only [Function.update_self, Event.setsKey, beq_self_eq_true, true_and]
      exact ⟨hk.binaAddress, Or.inr ⟨fun _ => Entry.noConfusion, hold, hdue⟩⟩
    · left
      simp only [Function.update_of_ne heq, Event.setsKey, and_self, and_true]
      exact beq_false_of_ne (Ne.symm heq)
  | @deactivateBinaKey hash hh hc hold =>
    left
    refine ⟨rfl, ?_, rfl⟩
    by_cases heq : h = hash
    · subst heq
      simp
    · simp [heq]
  | _ => exact Or.inl ⟨rfl, rfl, rfl⟩

theorem setTimes_cons (h : Bytes20) (w : World) (e : Event) (past : History) :
    setTimes h ((w, e) :: past) =
      if e.setsKey h then w.now :: setTimes h past else setTimes h past := by
  unfold setTimes
  by_cases he : e.setsKey h <;> simp [he]

theorem unhurried_cons {w : World} {e : Event} {past : History} : Unhurried ((w, e) :: past) ↔
    Unhurried past ∧ ∀ sender k, e = .call sender (.registerBinaKey k) → Rested w k.hash160 := by
  constructor
  · intro hu
    refine ⟨fun w' sender k hmem => hu w' sender k (List.mem_cons_of_mem _ hmem), ?_⟩
    rintro sender k rfl
    exact hu w sender k List.mem_cons_self
  · rintro ⟨hpast, hnew⟩ w' sender k hmem
    rcases List.mem_cons.mp hmem with heq | hmem
    · obtain ⟨rfl, rfl⟩ := Prod.mk.inj heq
      exact hnew sender k rfl
    · exact hpast w' sender k hmem

structure Scheduled (y : World × History) : Prop where
  resolves : Resolves y.1.contract
  never : ∀ h, setTimes h y.2 = [] → (y.1.contract.binaKeys h).binaAddress = 0
  last : ∀ h t ts, setTimes h y.2 = t :: ts →
    (y.1.contract.binaKeys h).binaAddress ≠ 0 ∧ y.1.contract.lastBinaKeyRotation h = t
  spaced : Spaced y.2 ↔ Unhurried y.2

theorem scheduled_initial (owner : Address) (fee balance now : ℕ) :
    Scheduled ({ contract := .initial owner fee, balance, now }, []) where
  resolves := resolves_initial owner fee
  never _ _ := rfl
  last _ _ _ h := by
    cases h
  spaced := iff_of_true (fun _ => List.Pairwise.nil) fun _ _ _ hmem => nomatch hmem

theorem Scheduled.rested_iff {y : World × History} (hy : Scheduled y) {h : Bytes20}
    (hp : (setTimes h y.2).Pairwise fun later earlier =>
      earlier+binaKeyRotationCooldown ≤ later) :
    ((y.1.now :: setTimes h y.2).Pairwise fun later earlier =>
      earlier+binaKeyRotationCooldown ≤ later) ↔ Rested y.1 h := by
  cases htimes : setTimes h y.2 with
  | nil => exact iff_of_true (List.pairwise_singleton _ _) (Or.inl (hy.never h htimes))
  | cons t ts =>
    rw [htimes] at hp
    obtain ⟨haddress, hlast⟩ := hy.last h t ts htimes
    unfold Rested
    rw [hlast, List.pairwise_cons]
    constructor
    · rintro ⟨hall, -⟩
      exact Or.inr (hall t List.mem_cons_self)
    · rintro (hnever | hdue)
      · exact absurd hnever haddress
      · refine ⟨?_, hp⟩
        intro t' hmem
        rcases List.mem_cons.mp hmem with rfl | hmem
        · exact hdue
        · have hearlier := (List.pairwise_cons.mp hp).1 t' hmem
          omega

theorem Scheduled.spaced_cons {y : World × History} (hy : Scheduled y) (e : Event) :
    Spaced ((y.1, e) :: y.2) ↔ Spaced y.2 ∧ ∀ h, e.setsKey h = true → Rested y.1 h := by
  unfold Spaced
  constructor
  · intro hall
    have hpast : ∀ h, (setTimes h y.2).Pairwise fun later earlier =>
        earlier+binaKeyRotationCooldown ≤ later := by
      intro h
      have hh := hall h
      rw [setTimes_cons] at hh
      by_cases he : e.setsKey h
      · rw [if_pos he] at hh
        exact (List.pairwise_cons.mp hh).2
      · rwa [if_neg he] at hh
    refine ⟨hpast, ?_⟩
    intro h he
    have hh := hall h
    rw [setTimes_cons, if_pos he] at hh
    exact (hy.rested_iff (hpast h)).mp hh
  · rintro ⟨hpast, hrested⟩ h
    rw [setTimes_cons]
    by_cases he : e.setsKey h
    · rw [if_pos he]
      exact (hy.rested_iff (hpast h)).mpr (hrested h he)
    · rw [if_neg he]
      exact hpast h

section Scheduling

variable {K : Precompiles} {site : Site}

theorem Scheduled.still {y : World × History} (hy : Scheduled y) {w : World} {e : Event}
    (hs : w.contract = y.1.contract) (he : ∀ h, e.setsKey h = false)
    (hr : ∀ sender k, e ≠ .call sender (.registerBinaKey k)) :
    Scheduled (w, (y.1, e) :: y.2) where
  resolves := by
    rw [hs]
    exact hy.resolves
  never h := by
    rw [setTimes_cons, he, hs]
    exact hy.never h
  last h := by
    rw [setTimes_cons, he, hs]
    exact hy.last h
  spaced := by
    rw [hy.spaced_cons, unhurried_cons, hy.spaced]
    exact and_congr_right fun _ => iff_of_true (fun h hset => absurd hset (by simp [he h]))
      fun sender k heq => absurd heq (hr sender k)

theorem Scheduled.step {y z : World × History} {e : Event} (hy : Scheduled y)
    (h : recording (World.step K site) noteEvent y e = some z) : Scheduled z := by
  obtain ⟨hs, hpast⟩ := recording_eq_some.mp h
  obtain ⟨w, past⟩ := z
  obtain rfl : past = (y.1, e) :: y.2 := hpast
  cases e with
  | call sender entry =>
    obtain ⟨out, heffect, -, rfl, -⟩ := World.step_call hs
    refine ⟨heffect.resolves hy.resolves, ?_, ?_, ?_⟩
    · intro h
      dsimp only
      rw [setTimes_cons]
      rcases heffect.keys h with ⟨hset, haddress, -⟩ | ⟨hset, -⟩
      · rw [hset, haddress]
        exact hy.never h
      · rw [hset]
        exact fun hnil => absurd hnil (List.cons_ne_nil _ _)
    · intro h t ts
      dsimp only
      rw [setTimes_cons]
      rcases heffect.keys h with ⟨hset, haddress, hlast⟩ | ⟨hset, haddress, hlast, -⟩
      · rw [hset, haddress, hlast]
        exact hy.last h t ts
      · rw [hset, if_pos rfl, hlast]
        intro heq
        exact ⟨haddress, (List.cons.inj heq).1⟩
    · dsimp only
      rw [hy.spaced_cons, unhurried_cons, hy.spaced]
      apply and_congr_right
      intro _
      constructor
      · rintro hrested sender' k heq
        apply hrested
        rw [heq]
        exact beq_self_eq_true _
      · intro hrested h hset
        rcases heffect.keys h with ⟨hkept, -⟩ | ⟨-, -, -, ⟨k, rfl, rfl⟩ | ⟨-, -, hdue⟩⟩
        · rw [hkept] at hset
          cases hset
        · exact hrested sender k rfl
        · exact Or.inr hdue
  | force amount =>
    obtain rfl := Option.some.inj hs
    exact hy.still rfl (fun _ => rfl) fun _ _ => Event.noConfusion
  | tick timestamp =>
    obtain ⟨-, rfl⟩ := World.step_time hs
    exact hy.still rfl (fun _ => rfl) fun _ _ => Event.noConfusion

theorem Scheduled.finish {y : World × History} (hy : Scheduled y) (e : Event) :
    Scheduled (World.finish e y.1, y.2) := by
  have hresolves := resolves_finish hy.resolves e
  rw [World.finish_eq] at hresolves ⊢
  by_cases hg : e.guarded
  · rw [if_pos hg] at hresolves ⊢
    exact ⟨hresolves, hy.never, hy.last, hy.spaced⟩
  · rw [if_neg hg]
    exact hy

end Scheduling

/-- The moments at which addresses are set are a cooldown apart exactly when no
identity that has had a key is registered anew before its cooldown is over. -/
theorem key_changes_spaced_iff (K : Precompiles) (site : Site) {deployer : Address}
    {fee balance now : ℕ} {w : World} (hd : World.deploy deployer fee balance now = .ok w)
    {x : Framed (World × History) Event}
    (hx : ((service K site).recorded noteEvent).Runs (w, []) x) :
    (∀ h, (setTimes h x.current.2).Pairwise fun later earlier =>
      earlier+binaKeyRotationCooldown ≤ later) ↔
    ∀ w sender k, (w, .call sender (.registerBinaKey k)) ∈ x.current.2 →
      (w.contract.binaKeys k.hash160).binaAddress = 0 ∨
        w.contract.lastBinaKeyRotation k.hash160+binaKeyRotationCooldown ≤ w.now := by
  have hscheduled : Scheduled x.current := by
    apply Service.invariant (P := Scheduled) hx
    · obtain rfl := World.deploy_ok hd
      exact scheduled_initial deployer fee balance now
    · intro y e z hy hs
      exact hy.step hs
    · intro e y hy
      exact hy.finish e
  exact hscheduled.spaced

def toyHurry : Option (Framed (World × History) Event) :=
  exec ((service toyPrecompiles toySite).recorded noteEvent).move (.start (toyStart, []))
    [.take (toyRegister 1 5 7), .take (.call 5 (.registerBinaKey (toyClaim (toyHash 1) 41 5))),
      .take (.call 5 (.deactivateBinaKey (toyHash 1))),
      .take (.call 5 (.registerBinaKey (toyClaim (toyHash 1) 42 5)))]

theorem reregistered_without_cooldown : ∃ x, toyHurry = some x ∧
    ((service toyPrecompiles toySite).recorded noteEvent).Runs (toyStart, []) x ∧
    setTimes (toyHash 1) x.current.2 = [0, 0] ∧
    ¬ (setTimes (toyHash 1) x.current.2).Pairwise fun later earlier =>
      earlier+binaKeyRotationCooldown ≤ later := by
  have hrun : toyHurry.any fun x => setTimes (toyHash 1) x.current.2 == [0, 0] := by
    decide +kernel
  obtain ⟨x, hx, htimes⟩ := (Option.any_eq_true _ _).mp hrun
  have htimes := eq_of_beq htimes
  refine ⟨x, hx, exec_reach hx, htimes, ?_⟩
  rw [htimes]
  decide

def toyRotation : Option (Framed (World × History) Event) :=
  exec ((service toyPrecompiles toySite).recorded noteEvent).move (.start (toyStart, []))
    [.take (toyRegister 1 5 7), .take (.call 5 (.registerBinaKey (toyClaim (toyHash 1) 41 5))),
      .take (.tick 259200), .take (.call 5 (.rotateBinaKey (toyClaim (toyHash 1) 42 5)))]

def writesFresh : World × Event → Bool
  | (w, .call _ (.registerBinaKey k)) => (w.contract.binaKeys k.hash160).binaAddress == 0
  | _ => true

theorem key_changes_spaced_iff_toy : ∃ x, toyRotation = some x ∧
    setTimes (toyHash 1) x.current.2 = [259200, 0] ∧
    ∀ h, (setTimes h x.current.2).Pairwise fun later earlier =>
      earlier+binaKeyRotationCooldown ≤ later := by
  have hrun : toyRotation.any fun x => setTimes (toyHash 1) x.current.2 == [259200, 0] &&
      x.current.2.all writesFresh := by decide +kernel
  obtain ⟨x, hx, hrun⟩ := (Option.any_eq_true _ _).mp hrun
  obtain ⟨htimes, hfresh⟩ := Bool.and_eq_true_iff.mp hrun
  refine ⟨x, hx, eq_of_beq htimes, ?_⟩
  apply (key_changes_spaced_iff toyPrecompiles toySite
    (show World.deploy 1 5 0 0 = .ok toyStart from rfl) (exec_reach hx)).mpr
  intro w sender k hmem
  exact Or.inl (eq_of_beq (List.all_eq_true.mp hfresh _ hmem))

end BinaChain.FastPath
