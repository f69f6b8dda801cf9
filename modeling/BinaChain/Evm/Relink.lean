import BinaChain.Evm.Custody
import BinaChain.Support.Pairing

/-!
# Who controls an identity

An address controls one identity at most and a registered identity keeps a
controller. A record of the accepted calls beside the state tells what a change
of the controller goes back to: a relink that the new controller asked for,
with a signature by the identity's key, and nobody cancelled.
-/

set_option autoImplicit false

namespace BinaChain.FastPath
open BinaChain.Word BinaChain.Machine BinaChain.Frames BinaChain.Checked BinaChain.Pairing
open BinaChain.Oracle
open BinaChain.BinaOracle (Site)

structure Controlled (s : Storage) : Prop where
  names : Names 0 0 s.activeEvm s.evmToBtc
  registered : ∀ h, s.btcToEvm h ≠ 0 ↔ s.activeEvm h ≠ 0
  relinks : ∀ h, (s.pendingRelinks h).pending = true → (s.pendingRelinks h).newEvm ≠ 0

theorem controlled_initial (owner : Address) (fee : ℕ) : Controlled (.initial owner fee) where
  names := names_blank
  registered h := Iff.rfl
  relinks h hp := by
    exact absurd hp Bool.false_ne_true

theorem Effect.activeEvm {K : Precompiles} {site : Site} {m : Msg} {s : Storage} {entry : Entry}
    {out : Outcome} (he : Effect K site m s entry out) (h : Bytes20) :
    out.1.activeEvm h = s.activeEvm h ∨ s.btcToEvm h = 0 ∨
      (entry = .finalizeRelink h ∧ (s.pendingRelinks h).pending = true ∧
        m.sender = (s.pendingRelinks h).newEvm ∧
        (s.pendingRelinks h).unlockTime ≤ m.timestamp ∧ out.1.activeEvm h = m.sender) := by
  cases he with
  | @registerBitcoinAddressV2 value pubkeyPrefix pubkeyX r s' v bitcoinStyle hash hl hfee hevm hkey
      hh hbtc =>
    by_cases heq : h = hash
    · subst heq
      exact Or.inr (Or.inl hbtc)
    · exact Or.inl (Function.update_of_ne heq _ _)
  | @finalizeRelink hash p hp hr hpending hsender hdue hbtc hevm =>
    subst hp
    by_cases heq : h = hash
    · subst heq
      exact Or.inr (Or.inr ⟨rfl, hpending, hsender, hdue, by simp [hsender]⟩)
    · exact Or.inl (Function.update_of_ne heq _ _)
  | _ => exact Or.inl rfl

theorem Effect.pendingRelinks {K : Precompiles} {site : Site} {m : Msg} {s : Storage}
    {entry : Entry} {out : Outcome} (he : Effect K site m s entry out) (h : Bytes20) :
    (out.1.pendingRelinks h = s.pendingRelinks h ∧ entry ≠ .cancelRelink h) ∨
      out.1.pendingRelinks h = .zero ∨
      ∃ newEvm pubkey signature, entry = .initiateRelink h newEvm pubkey signature ∧
        Initiates K m s h newEvm pubkey signature ∧ out.1.pendingRelinks h =
          { newEvm, unlockTime := m.timestamp+s.relinkCooldown, pending := true } := by
  cases he with
  | @initiateRelink hash newEvm pubkey signature hi =>
    by_cases heq : h = hash
    · subst heq
      exact Or.inr (Or.inr ⟨newEvm, pubkey, signature, rfl, hi, Function.update_self _ _ _⟩)
    · exact Or.inl ⟨Function.update_of_ne heq _ _, Entry.noConfusion⟩
  | @finalizeRelink hash =>
    by_cases heq : h = hash
    · subst heq
      exact Or.inr (Or.inl (Function.update_self _ _ _))
    · exact Or.inl ⟨Function.update_of_ne heq _ _, Entry.noConfusion⟩
  | @cancelRelink hash =>
    by_cases heq : h = hash
    · subst heq
      exact Or.inr (Or.inl (Function.update_self _ _ _))
    · refine Or.inl ⟨Function.update_of_ne heq _ _, ?_⟩
      intro hsame
      exact heq (Entry.cancelRelink.inj hsame).symm
  | _ => exact Or.inl ⟨rfl, Entry.noConfusion⟩

theorem Effect.controlled {K : Precompiles} {site : Site} {m : Msg} {s : Storage} {entry : Entry}
    {out : Outcome} (he : Effect K site m s entry out) (hs : Controlled s) :
    Controlled out.1 := by
  have hrelinks : ∀ h, (out.1.pendingRelinks h).pending = true →
      (out.1.pendingRelinks h).newEvm ≠ 0 := by
    intro h hp
    rcases he.pendingRelinks h with ⟨hsame, -⟩ | hzero | ⟨newEvm, _, _, -, hi, hnew⟩
    · rw [hsame] at hp ⊢
      exact hs.relinks h hp
    · rw [hzero] at hp
      exact absurd hp Bool.false_ne_true
    · rw [hnew]
      exact hi.nonzero
  have hlinked : ∀ h a, h ≠ 0 → s.evmToBtc a = 0 →
      Names 0 0 (Function.update s.activeEvm h a) (Function.update s.evmToBtc a h) :=
    fun h a hh ha => hs.names.link hh ha
  cases he with
  | @registerBitcoinAddressV2 value pubkeyPrefix pubkeyX r s' v bitcoinStyle hash hl hfee hevm hkey
      hh hbtc =>
    refine ⟨hlinked _ _ hh hevm, ?_, hrelinks⟩
    intro h
    by_cases heq : h = hash
    · subst heq
      simp
    · simp only [Function.update_of_ne heq]
      exact hs.registered h
  | @finalizeRelink hash p hp hr hpending hsender hdue hbtc hevm =>
    subst hp
    have hactive := (hs.registered hash).mp hbtc
    refine ⟨hlinked _ _ (hs.names hash hactive).1 hevm, ?_, hrelinks⟩
    intro h
    by_cases heq : h = hash
    · subst heq
      simp only [Function.update_self]
      exact iff_of_true hbtc (hs.relinks h hpending)
    · simp only [Function.update_of_ne heq]
      exact hs.registered h
  | _ => exact ⟨hs.names, hs.registered, hrelinks⟩

/-- The accepted events and the states they were accepted in, the last one first. -/
abbrev History := List (World × Event)

def noteEvent (w : World) (e : Event) (_ : World) (past : History) : History := (w, e) :: past

/-- The address asked for the relink, with a signature by a key of the identity
over its own hexadecimal form, at least the delay of that time ago, and nobody
cancelled it since. -/
def Awaited (K : Precompiles) (past : History) (h : Bytes20) (newEvm : Address) (now : ℕ) : Prop :=
  ∃ later earlier w pubkey signature,
    past = later++(w, .call newEvm (.initiateRelink h newEvm pubkey signature)) :: earlier ∧
    btcHash160FromPubkey K pubkey = .ok h ∧ Signed K pubkey signature (hexForm newEvm) ∧
    w.now+w.contract.relinkCooldown ≤ now ∧
    ∀ f ∈ later, ∀ sender, f.2 ≠ .call sender (.cancelRelink h)

theorem Awaited.cons {K : Precompiles} {past : History} {h : Bytes20} {newEvm : Address} {now : ℕ}
    (ha : Awaited K past h newEvm now) {f : World × Event}
    (hf : ∀ sender, f.2 ≠ .call sender (.cancelRelink h)) :
    Awaited K (f :: past) h newEvm now := by
  obtain ⟨later, earlier, w, pubkey, signature, rfl, hkey, hsigned, hdue, hkept⟩ := ha
  refine ⟨f :: later, earlier, w, pubkey, signature, rfl, hkey, hsigned, hdue, ?_⟩
  intro f' hmem
  rcases List.mem_cons.mp hmem with rfl | hmem
  · exact hf
  · exact hkept f' hmem

theorem Awaited.mono {K : Precompiles} {past : History} {h : Bytes20} {newEvm : Address}
    {now later : ℕ} (ha : Awaited K past h newEvm now) (hle : now ≤ later) :
    Awaited K past h newEvm later := by
  obtain ⟨after, before, w, pubkey, signature, hpast, hkey, hsigned, hdue, hkept⟩ := ha
  exact ⟨after, before, w, pubkey, signature, hpast, hkey, hsigned, hdue.trans hle, hkept⟩

/-- Every pending relink is one of the record, and no identity of the record has
lost its controller. -/
structure Traced (K : Precompiles) (y : World × History) : Prop where
  controlled : Controlled y.1.contract
  awaited : ∀ h, (y.1.contract.pendingRelinks h).pending = true →
    Awaited K y.2 h (y.1.contract.pendingRelinks h).newEvm
      (y.1.contract.pendingRelinks h).unlockTime
  kept : ∀ f ∈ y.2, ∀ h, f.1.contract.activeEvm h ≠ 0 → y.1.contract.activeEvm h ≠ 0

section Tracing

variable {K : Precompiles} {site : Site}

theorem Traced.still {y : World × History} (hy : Traced K y) {w : World} {e : Event}
    (hs : w.contract = y.1.contract) (he : ∀ sender h, e ≠ .call sender (.cancelRelink h)) :
    Traced K (w, (y.1, e) :: y.2) where
  controlled := by
    rw [hs]
    exact hy.controlled
  awaited := by
    rw [hs]
    intro h hp
    exact (hy.awaited h hp).cons fun sender => he sender h
  kept := by
    rw [hs]
    intro f hf h
    rcases List.mem_cons.mp hf with rfl | hf
    · exact id
    · exact hy.kept f hf h

theorem Effect.keeps {m : Msg} {s : Storage} {entry : Entry} {out : Outcome}
    (he : Effect K site m s entry out) (hs : Controlled s) {h : Bytes20} (hh : s.activeEvm h ≠ 0) :
    out.1.activeEvm h ≠ 0 := by
  rcases he.activeEvm h with hsame | hnew | ⟨-, hp, hsender, -, hout⟩
  · rwa [hsame]
  · exact absurd hnew ((hs.registered h).mpr hh)
  · rw [hout, hsender]
    exact hs.relinks h hp

theorem Traced.step {y z : World × History} {e : Event} (hy : Traced K y)
    (h : recording (World.step K site) noteEvent y e = some z) : Traced K z := by
  obtain ⟨hs, hpast⟩ := recording_eq_some.mp h
  obtain ⟨w, past⟩ := z
  obtain rfl : past = (y.1, e) :: y.2 := hpast
  cases e with
  | call sender entry =>
    obtain ⟨out, heffect, -, rfl, -⟩ := World.step_call hs
    refine ⟨heffect.controlled hy.controlled, ?_, ?_⟩
    · intro h hp
      dsimp only at hp ⊢
      rcases heffect.pendingRelinks h with ⟨hsame, hentry⟩ | hzero | ⟨newEvm, pubkey, signature,
        hentry, hi, hnew⟩
      · rw [hsame] at hp ⊢
        apply (hy.awaited h hp).cons
        intro sender' heq
        exact hentry (Event.call.inj heq).2
      · rw [hzero] at hp
        exact absurd hp Bool.false_ne_true
      · rw [hnew]
        have hsender : newEvm = sender := hi.sender
        subst hentry hsender
        exact ⟨[], y.2, y.1, pubkey, signature, rfl, hi.keyHash, verified_signed hi.verified,
          Nat.le_refl _, fun _ hmem => nomatch hmem⟩
    · intro f hf h hh
      rcases List.mem_cons.mp hf with rfl | hf
      · exact heffect.keeps hy.controlled hh
      · exact heffect.keeps hy.controlled (hy.kept f hf h hh)
  | force amount =>
    obtain rfl := Option.some.inj hs
    exact hy.still rfl fun _ _ heq => Event.noConfusion heq
  | tick timestamp =>
    obtain ⟨-, rfl⟩ := World.step_time hs
    exact hy.still rfl fun _ _ heq => Event.noConfusion heq

theorem World.finish_activeEvm (e : Event) (w : World) :
    (World.finish e w).contract.activeEvm = w.contract.activeEvm := by
  rw [World.finish_eq]
  by_cases hg : e.guarded <;> simp [hg, unlock]

theorem Traced.finish {y : World × History} (hy : Traced K y) (e : Event) :
    Traced K (World.finish e y.1, y.2) := by
  have hsame : ∀ s, s = y.1.contract ∨ s = unlock y.1.contract → Traced K ({ y.1 with contract := s },
      y.2) := by
    rintro s (rfl | rfl)
    · exact hy
    · exact ⟨⟨hy.controlled.names, hy.controlled.registered, hy.controlled.relinks⟩, hy.awaited,
        hy.kept⟩
  rw [World.finish_eq]
  apply hsame
  by_cases hg : e.guarded
  · exact Or.inr (if_pos hg)
  · exact Or.inl (if_neg hg)

theorem traced_of_runs {deployer : Address} {fee balance now : ℕ} {w : World}
    (hd : World.deploy deployer fee balance now = .ok w) {x : Framed (World × History) Event}
    (h : ((service K site).recorded noteEvent).Runs (w, []) x) : Traced K x.current := by
  apply Service.invariant (P := Traced K) h
  · obtain rfl := World.deploy_ok hd
    exact ⟨controlled_initial deployer fee, fun _ hp => absurd hp Bool.false_ne_true,
      fun _ hmem => nomatch hmem⟩
  · intro y e z hy hs
    exact hy.step hs
  · intro e y hy
    exact hy.finish e

end Tracing

/-- An address controls one identity at most; no identity that had a controller
loses it; and but for reverts its controller changes only where the new one
finalises a relink that it asked for and that waited for the delay. -/
theorem controllers_follow_relinks (K : Precompiles) (site : Site) {deployer : Address}
    {fee balance now : ℕ} {w : World} (hd : World.deploy deployer fee balance now = .ok w)
    {x : Framed (World × History) Event}
    (h : ((service K site).recorded noteEvent).Runs (w, []) x) :
    (∀ h evm, x.current.1.contract.activeEvm h = evm → evm ≠ 0 →
      x.current.1.contract.evmToBtc evm = h) ∧
    (∀ h, x.current.1.contract.btcToEvm h ≠ 0 → x.current.1.contract.activeEvm h ≠ 0) ∧
    (∀ f ∈ x.current.2, ∀ h, f.1.contract.activeEvm h ≠ 0 →
      x.current.1.contract.activeEvm h ≠ 0) ∧
    ∀ v y, ((service K site).recorded noteEvent).move x v = some y → v ≠ .leave false →
      ∀ h, x.current.1.contract.activeEvm h ≠ 0 →
        y.current.1.contract.activeEvm h ≠ 0 ∧
        (y.current.1.contract.activeEvm h ≠ x.current.1.contract.activeEvm h →
          v = .take (.call (y.current.1.contract.activeEvm h) (.finalizeRelink h)) ∧
          Awaited K x.current.2 h (y.current.1.contract.activeEvm h) x.current.1.now) := by
  have hx := traced_of_runs hd h
  refine ⟨?_, fun h => (hx.controlled.registered h).mp, hx.kept, ?_⟩
  · rintro h evm rfl hne
    exact (hx.controlled.names h hne).2
  · intro v y hm hv h hh
    have hsame : y.current.1.contract.activeEvm h = x.current.1.contract.activeEvm h →
        y.current.1.contract.activeEvm h ≠ 0 ∧
        (y.current.1.contract.activeEvm h ≠ x.current.1.contract.activeEvm h →
          v = .take (.call (y.current.1.contract.activeEvm h) (.finalizeRelink h)) ∧
          Awaited K x.current.2 h (y.current.1.contract.activeEvm h) x.current.1.now) := by
      intro heq
      rw [heq]
      exact ⟨hh, fun hne => absurd rfl hne⟩
    cases v with
    | take e =>
      obtain ⟨hrec, -⟩ := Service.take_eq_some hm
      have hs : World.step K site x.current.1 e = some y.current.1 :=
        (recording_eq_some.mp hrec).1
      cases e with
      | call sender entry =>
        obtain ⟨out, heffect, -, hw, -⟩ := World.step_call hs
        rw [hw] at hsame ⊢
        rcases heffect.activeEvm h with heq | hnew | ⟨rfl, hp, hsender, hdue, hout⟩
        · exact hsame heq
        · exact absurd hnew ((hx.controlled.registered h).mpr hh)
        · refine ⟨heffect.keeps hx.controlled hh, fun _ => ⟨?_, ?_⟩⟩
          · rw [hout]
          · rw [hout, hsender]
            exact (hx.awaited h hp).mono hdue
      | force amount =>
        have hw := Option.some.inj hs
        exact hsame (by rw [← hw])
      | tick timestamp =>
        obtain ⟨-, hw⟩ := World.step_time hs
        exact hsame (by rw [hw])
    | enter =>
      obtain rfl := Option.some.inj hm
      exact hsame rfl
    | leave ok =>
      cases ok with
      | false => exact absurd rfl hv
      | true =>
        simp only [Service.move] at hm
        split at hm
        · cases hm
        rename_i before e rest hframes
        obtain rfl := Option.some.inj hm
        cases e with
        | none => exact hsame rfl
        | some e => exact hsame (congrFun (World.finish_activeEvm e x.current.1) h)

def toySignature (x : Bytes32) (a : Address) : Bytes :=
  27 :: (wordBytes (toySigner x)++wordBytes (toBitcoinSignedMessageHash toyPrecompiles (hexForm a)))

def toyRelink : Option (Framed (World × History) Event) :=
  exec ((service toyPrecompiles toySite).recorded noteEvent).move (.start (toyStart, []))
    [.take (toyRegister 1 5 7), .take (.call 1 (.setRelinkEnabled true)), .take (.tick 259200),
      .take (.call 6 (.initiateRelink (toyHash 1) 6 (toyKey 1) (toySignature 1 6))),
      .take (.tick 518400)]

theorem controllers_follow_relinks_toy : ∃ x y, toyRelink = some x ∧
    ((service toyPrecompiles toySite).recorded noteEvent).move x
      (.take (.call 6 (.finalizeRelink (toyHash 1)))) = some y ∧
    x.current.1.contract.activeEvm (toyHash 1) = 5 ∧
    y.current.1.contract.activeEvm (toyHash 1) = 6 ∧
    Awaited toyPrecompiles x.current.2 (toyHash 1) 6 x.current.1.now := by
  have hrun : toyRelink.any fun x => x.current.1.contract.activeEvm (toyHash 1) == 5 &&
      (((service toyPrecompiles toySite).recorded noteEvent).move x
        (.take (.call 6 (.finalizeRelink (toyHash 1))))).any fun y =>
      y.current.1.contract.activeEvm (toyHash 1) == 6 := by decide +kernel
  obtain ⟨x, hx, hrun⟩ := (Option.any_eq_true _ _).mp hrun
  obtain ⟨hold, hrun⟩ := Bool.and_eq_true_iff.mp hrun
  obtain ⟨y, hy, hnew⟩ := (Option.any_eq_true _ _).mp hrun
  have hold := eq_of_beq hold
  have hnew := eq_of_beq hnew
  obtain ⟨-, -, -, hmoves⟩ := controllers_follow_relinks toyPrecompiles toySite
    (show World.deploy 1 5 0 0 = .ok toyStart from rfl) (exec_reach hx)
  obtain ⟨-, hchange⟩ := hmoves _ y hy (by simp) (toyHash 1) (by rw [hold]; decide)
  obtain ⟨-, hawaited⟩ := hchange (by rw [hold, hnew]; decide)
  rw [hnew] at hawaited
  exact ⟨x, y, hx, hy, hold, hnew, hawaited⟩

end BinaChain.FastPath
