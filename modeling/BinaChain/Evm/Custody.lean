import BinaChain.Evm.FastPath
import BinaChain.Support.Balances
import Mathlib.Data.FinEnum

/-!
# The value in the identity contract's custody

What the contract holds for its owner and for the controllers of identities is
its balance, whatever code runs while it pays one of them. Everything held can
be paid out.
-/

set_option autoImplicit false

namespace BinaChain.FastPath
open BinaChain.Word BinaChain.Machine BinaChain.Frames BinaChain.Checked BinaChain.Balances
open BinaChain.Oracle
open BinaChain.BinaOracle (Site ether)

def KeyClaim.key (m : Msg) (k : KeyClaim) : BinaKey :=
  { ed25519PublicKey := k.ed25519PublicKey, publicKeyHash := k.fullPublicKeyHash,
    derivationCommitment := k.derivationCommitment, binaAddress := k.binaAddress,
    registeredAt := m.timestamp, registeredBy := m.sender, active := true }

/-- What registering and rotating both ask of the claim. -/
structure KeyClaim.Valid (K : Precompiles) (site : Site) (m : Msg) (s : Storage)
    (k : KeyClaim) : Prop where
  hash160 : k.hash160 ≠ 0
  controller : s.activeEvm k.hash160 = m.sender
  binaAddress : k.binaAddress ≠ 0
  ed25519PublicKey : k.ed25519PublicKey ≠ 0
  fullPublicKeyHash : k.fullPublicKeyHash ≠ 0
  derivationCommitment : k.derivationCommitment ≠ 0
  derived : k.derivationCommitment =
    binaDerivationCommitment K site k.hash160 k.binaAddress k.fullPublicKeyHash m.sender

/-- The conditions under which `initiateRelink` records a relink. -/
structure Initiates (K : Precompiles) (m : Msg) (s : Storage) (h : Bytes20) (newEvm : Address)
    (pubkey signature : Bytes) : Prop where
  running : s.emergencyStop = false
  enabled : s.relinkEnabled = true
  hash160 : h ≠ 0
  registered : s.btcToEvm h ≠ 0
  nonzero : newEvm ≠ 0
  sender : newEvm = m.sender
  idle : (s.pendingRelinks h).pending = false
  unregistered : s.evmToBtc newEvm = 0
  cooled : s.lastLinkTime h+s.relinkCooldown ≤ m.timestamp
  keyHash : btcHash160FromPubkey K pubkey = .ok h
  verified : verifySignatureFromMemory K pubkey signature (hexForm newEvm) = .ok true

inductive Effect (K : Precompiles) (site : Site) (m : Msg) (s : Storage) : Entry → Outcome → Prop
  | registerBitcoinAddressV2 {value : ℕ} {pubkeyPrefix : UInt8} {pubkeyX r s' : Bytes32} {v : UInt8}
      {bitcoinStyle : Bool} {h : Bytes20} (hl : s.locked = false)
      (hfee : s.registrationFee ≤ value) (hevm : s.evmToBtc m.sender = 0)
      (hkey : btcHash160FromPubkey K (pubkeyPrefix :: wordBytes pubkeyX) = .ok h) (hh : h ≠ 0)
      (hbtc : s.btcToEvm h = 0) :
      Effect K site m s
        (.registerBitcoinAddressV2 value pubkeyPrefix pubkeyX r s' v bitcoinStyle) ({ s with
          locked := false
          btcToEvm := Function.update s.btcToEvm h m.sender
          evmToBtc := Function.update s.evmToBtc m.sender h
          lastLinkTime := Function.update s.lastLinkTime h m.timestamp
          activeEvm := Function.update s.activeEvm h m.sender
          accumulatedFees := s.accumulatedFees+value }, none)
  | registerBinaKey {k : KeyClaim} (hk : k.Valid K site m s)
      (hold : (s.binaKeys k.hash160).active = false)
      (hfree : s.binaAddressToHash160 k.binaAddress = 0) :
      Effect K site m s (.registerBinaKey k) ({ s with
        binaKeys := Function.update s.binaKeys k.hash160 (k.key m)
        hash160ToBinaAddress := Function.update s.hash160ToBinaAddress k.hash160 k.binaAddress
        binaAddressToHash160 := Function.update s.binaAddressToHash160 k.binaAddress k.hash160
        lastBinaKeyRotation := Function.update s.lastBinaKeyRotation k.hash160 m.timestamp }, none)
  | rotateBinaKey {k : KeyClaim} (hk : k.Valid K site m s)
      (hold : (s.binaKeys k.hash160).active = true)
      (hfree : s.binaAddressToHash160 k.binaAddress = 0 ∨
        s.binaAddressToHash160 k.binaAddress = k.hash160)
      (hdue : s.lastBinaKeyRotation k.hash160+binaKeyRotationCooldown ≤ m.timestamp) :
      Effect K site m s (.rotateBinaKey k) ({ s with
        binaKeys := Function.update s.binaKeys k.hash160 (k.key m)
        hash160ToBinaAddress := Function.update s.hash160ToBinaAddress k.hash160 k.binaAddress
        binaAddressToHash160 := Function.update (Function.update s.binaAddressToHash160
          (s.hash160ToBinaAddress k.hash160) 0) k.binaAddress k.hash160
        lastBinaKeyRotation := Function.update s.lastBinaKeyRotation k.hash160 m.timestamp }, none)
  | deactivateBinaKey {h : Bytes20} (hh : h ≠ 0) (hc : s.activeEvm h = m.sender)
      (hold : (s.binaKeys h).active = true) :
      Effect K site m s (.deactivateBinaKey h) ({ s with
        binaKeys := Function.update s.binaKeys h { s.binaKeys h with active := false }
        binaAddressToHash160 :=
          Function.update s.binaAddressToHash160 (s.hash160ToBinaAddress h) 0
        hash160ToBinaAddress := Function.update s.hash160ToBinaAddress h 0 }, none)
  | setReceivePreference {preference : ReceivePreference} :
      Effect K site m s (.setReceivePreference preference)
        (setReceivePreference m preference s, none)
  | receiveFunds {value : ℕ} {h : Bytes20} (hl : s.locked = false) (hh : h ≠ 0) (hv : value ≠ 0)
      (hc : s.activeEvm h ≠ 0) (hp : getPreference (s.activeEvm h) s = .viaHash160) :
      Effect K site m s (.receiveFunds value h) ({ s with
        locked := false
        pendingWithdrawals := Function.update s.pendingWithdrawals (s.activeEvm h)
          (s.pendingWithdrawals (s.activeEvm h)+value) }, none)
  | receiveTokens {h : Bytes20} {token : Address} {amount : ℕ} (hl : s.locked = false)
      (hh : h ≠ 0) (ha : amount ≠ 0) (ht : token ≠ 0) (hc : s.activeEvm h ≠ 0)
      (hp : getPreference (s.activeEvm h) s = .viaHash160) :
      Effect K site m s (.receiveTokens h token amount)
        ({ s with locked := true }, some (.transferFrom token m.sender (s.activeEvm h) amount))
  | withdrawPendingFunds (hl : s.locked = false) (ha : s.pendingWithdrawals m.sender ≠ 0) :
      Effect K site m s .withdrawPendingFunds ({ s with
        locked := true
        pendingWithdrawals := Function.update s.pendingWithdrawals m.sender 0 },
        some (.pay m.sender (s.pendingWithdrawals m.sender)))
  | receive {value : ℕ} :
      Effect K site m s (.receive value)
        ({ s with accumulatedFees := s.accumulatedFees+value }, none)
  | setRegistrationFee {fee : ℕ} (ho : m.sender = s.owner) (hf : fee ≤ maxRegistrationFee) :
      Effect K site m s (.setRegistrationFee fee) ({ s with registrationFee := fee }, none)
  | withdrawFees (ho : m.sender = s.owner) (hl : s.locked = false) (ha : s.accumulatedFees ≠ 0) :
      Effect K site m s .withdrawFees
        ({ s with locked := true, accumulatedFees := 0 }, some (.pay s.owner s.accumulatedFees))
  | rescueERC20 {token recipient : Address} {amount : ℕ} (ho : m.sender = s.owner)
      (ht : token ≠ 0) (hr : recipient ≠ 0) :
      Effect K site m s (.rescueERC20 token recipient amount)
        (s, some (.transfer token recipient amount))
  | transferOwnership {newOwner : Address} (ho : m.sender = s.owner) (hn : newOwner ≠ 0) :
      Effect K site m s (.transferOwnership newOwner) ({ s with pendingOwner := newOwner }, none)
  | acceptOwnership (ho : m.sender = s.pendingOwner) :
      Effect K site m s .acceptOwnership
        ({ s with owner := s.pendingOwner, pendingOwner := 0 }, none)
  | setRelinkEnabled {enabled : Bool} (ho : m.sender = s.owner) :
      Effect K site m s (.setRelinkEnabled enabled) ({ s with relinkEnabled := enabled }, none)
  | setRelinkCooldown {cooldown : ℕ} (ho : m.sender = s.owner) (hc : 3600 ≤ cooldown) :
      Effect K site m s (.setRelinkCooldown cooldown) ({ s with relinkCooldown := cooldown }, none)
  | setEmergencyStop {disable : Bool} (ho : m.sender = s.owner) :
      Effect K site m s (.setEmergencyStop disable) ({ s with emergencyStop := disable }, none)
  | initiateRelink {h : Bytes20} {newEvm : Address} {pubkey signature : Bytes}
      (hi : Initiates K m s h newEvm pubkey signature) :
      Effect K site m s (.initiateRelink h newEvm pubkey signature) ({ s with
        pendingRelinks := Function.update s.pendingRelinks h
          { newEvm, unlockTime := m.timestamp+s.relinkCooldown, pending := true } }, none)
  | finalizeRelink {h : Bytes20} {p : PendingRelink} (hp : p = s.pendingRelinks h)
      (hr : s.emergencyStop = false) (hpending : p.pending = true) (hsender : m.sender = p.newEvm)
      (hdue : p.unlockTime ≤ m.timestamp) (hbtc : s.btcToEvm h ≠ 0)
      (hevm : s.evmToBtc p.newEvm = 0) :
      Effect K site m s (.finalizeRelink h) ({ s with
        evmToBtc := Function.update s.evmToBtc p.newEvm h
        activeEvm := Function.update s.activeEvm h p.newEvm
        lastLinkTime := Function.update s.lastLinkTime h m.timestamp
        pendingRelinks := Function.update s.pendingRelinks h .zero }, none)
  | cancelRelink {h : Bytes20} (hr : s.emergencyStop = false) (hc : s.activeEvm h ≠ 0)
      (hsender : m.sender = s.activeEvm h) (hp : (s.pendingRelinks h).pending = true) :
      Effect K site m s (.cancelRelink h) ({ s with
        pendingRelinks := Function.update s.pendingRelinks h .zero }, none)

section Effects

variable {K : Precompiles} {site : Site} {m : Msg} {s t : Storage}

theorem lock_eq_ok : lock s = .ok t ↔ s.locked = false ∧ { s with locked := true } = t := by
  simp only [lock, bind_eq_ok, require_eq_ok, pure_eq_ok, exists_const]

theorem onlyOwner_eq_ok {u : Unit} : onlyOwner m s = .ok u ↔ m.sender = s.owner := require_eq_ok

theorem noEmergency_eq_ok {u : Unit} : noEmergency s = .ok u ↔ s.emergencyStop = false :=
  require_eq_ok

theorem register_effect {value : ℕ} {pubkeyPrefix : UInt8} {pubkeyX r s' : Bytes32} {v : UInt8}
    {bitcoinStyle : Bool}
    (h : registerBitcoinAddressV2 K m value pubkeyPrefix pubkeyX r s' v bitcoinStyle s = .ok t) :
    Effect K site m s
      (.registerBitcoinAddressV2 value pubkeyPrefix pubkeyX r s' v bitcoinStyle) (t, none) := by
  unfold registerBitcoinAddressV2 at h
  simp only [bind_eq_ok, lock_eq_ok, require_eq_ok, add_eq_ok, pure_eq_ok] at h
  obtain ⟨_, ⟨hl, rfl⟩, -, hfee, -, hevm, -, -, _, -, -, -, -, -, -, -, hash, hkey, -, hh, -, hbtc,
    _, ⟨-, rfl⟩, rfl⟩ := h
  exact .registerBitcoinAddressV2 hl hfee hevm hkey hh hbtc

theorem checkKeyClaim_eq_ok {k : KeyClaim} {u : Unit} (h : checkKeyClaim m k s = .ok u)
    (hd : k.derivationCommitment =
      binaDerivationCommitment K site k.hash160 k.binaAddress k.fullPublicKeyHash m.sender) :
    k.Valid K site m s := by
  unfold checkKeyClaim at h
  simp only [bind_eq_ok, require_eq_ok] at h
  obtain ⟨-, h1, -, h2, -, h3, -, h4, -, h5, h6⟩ := h
  exact ⟨h1, h2, h3, h4, h5, h6, hd⟩

theorem registerBinaKey_effect {k : KeyClaim} (h : registerBinaKey K site m k s = .ok t) :
    Effect K site m s (.registerBinaKey k) (t, none) := by
  unfold registerBinaKey checkCommitment at h
  simp only [bind_eq_ok, require_eq_ok, pure_eq_ok] at h
  obtain ⟨_, hcheck, -, hold, -, hfree, -, hd, rfl⟩ := h
  exact .registerBinaKey (checkKeyClaim_eq_ok hcheck hd) hold hfree

theorem rotateBinaKey_effect {k : KeyClaim} (h : rotateBinaKey K site m k s = .ok t) :
    Effect K site m s (.rotateBinaKey k) (t, none) := by
  unfold rotateBinaKey checkCommitment at h
  simp only [bind_eq_ok, require_eq_ok, add_eq_ok, pure_eq_ok] at h
  obtain ⟨_, hcheck, -, hold, -, hd, -, htaken, _, ⟨-, rfl⟩, -, hdue, rfl⟩ := h
  have hfree : s.binaAddressToHash160 k.binaAddress = 0 ∨
      s.binaAddressToHash160 k.binaAddress = k.hash160 := by
    by_contra hne
    exact htaken (not_or.mp hne)
  have heffect := Effect.rotateBinaKey (checkKeyClaim_eq_ok hcheck hd) hold hfree hdue
  rw [hold]
  exact heffect

theorem deactivateBinaKey_effect {h : Bytes20} (hd : deactivateBinaKey m h s = .ok t) :
    Effect K site m s (.deactivateBinaKey h) (t, none) := by
  unfold deactivateBinaKey at hd
  simp only [bind_eq_ok, require_eq_ok, pure_eq_ok] at hd
  obtain ⟨-, hh, -, hc, -, hold, rfl⟩ := hd
  exact .deactivateBinaKey hh hc hold

theorem receiveFunds_effect {value : ℕ} {h : Bytes20} (hr : receiveFunds value h s = .ok t) :
    Effect K site m s (.receiveFunds value h) (t, none) := by
  unfold receiveFunds at hr
  simp only [bind_eq_ok, lock_eq_ok, require_eq_ok, add_eq_ok, pure_eq_ok] at hr
  obtain ⟨_, ⟨hl, rfl⟩, -, hh, -, hv, -, hc, -, hp, _, ⟨-, rfl⟩, rfl⟩ := hr
  exact .receiveFunds hl hh hv hc hp

theorem receiveTokens_effect {h : Bytes20} {token : Address} {amount : ℕ} {out : Outcome}
    (hr : receiveTokens m h token amount s = .ok out) :
    Effect K site m s (.receiveTokens h token amount) out := by
  unfold receiveTokens at hr
  simp only [bind_eq_ok, lock_eq_ok, require_eq_ok, pure_eq_ok] at hr
  obtain ⟨_, ⟨hl, rfl⟩, -, hh, -, ha, -, ht, -, hc, -, hp, rfl⟩ := hr
  exact .receiveTokens hl hh ha ht hc hp

theorem withdrawPendingFunds_effect {out : Outcome} (h : withdrawPendingFunds m s = .ok out) :
    Effect K site m s .withdrawPendingFunds out := by
  unfold withdrawPendingFunds at h
  simp only [bind_eq_ok, lock_eq_ok, require_eq_ok, pure_eq_ok] at h
  obtain ⟨_, ⟨hl, rfl⟩, -, ha, rfl⟩ := h
  exact .withdrawPendingFunds hl ha

theorem withdrawFees_effect {out : Outcome} (h : withdrawFees m s = .ok out) :
    Effect K site m s .withdrawFees out := by
  unfold withdrawFees at h
  simp only [bind_eq_ok, onlyOwner_eq_ok, lock_eq_ok, require_eq_ok, pure_eq_ok] at h
  obtain ⟨-, ho, _, ⟨hl, rfl⟩, -, ha, rfl⟩ := h
  exact .withdrawFees ho hl ha

theorem rescueERC20_effect {token recipient : Address} {amount : ℕ} {out : Outcome}
    (h : rescueERC20 m token recipient amount s = .ok out) :
    Effect K site m s (.rescueERC20 token recipient amount) out := by
  unfold rescueERC20 at h
  simp only [bind_eq_ok, onlyOwner_eq_ok, require_eq_ok, pure_eq_ok] at h
  obtain ⟨-, ho, -, ht, -, hr, rfl⟩ := h
  exact .rescueERC20 ho ht hr

theorem initiateRelink_effect {h : Bytes20} {newEvm : Address} {pubkey signature : Bytes}
    (hi : initiateRelink K m h newEvm pubkey signature s = .ok t) :
    Effect K site m s (.initiateRelink h newEvm pubkey signature) (t, none) := by
  unfold initiateRelink at hi
  simp only [bind_eq_ok, noEmergency_eq_ok, require_eq_ok, add_eq_ok, pure_eq_ok] at hi
  obtain ⟨-, hrun, -, -, -, -, -, hh, -, henabled, -, hreg, -, hne, -, hsender, -, hidle, -, hun, _,
    ⟨-, rfl⟩, -, hcool, keyHash, hkey, -, rfl, verified, hverified, -, rfl, _, ⟨-, rfl⟩, rfl⟩ := hi
  exact .initiateRelink
    ⟨hrun, henabled, hh, hreg, hne, hsender, hidle, hun, hcool, hkey, hverified⟩

theorem finalizeRelink_effect {h : Bytes20} (hf : finalizeRelink m h s = .ok t) :
    Effect K site m s (.finalizeRelink h) (t, none) := by
  unfold finalizeRelink at hf
  simp only [bind_eq_ok, noEmergency_eq_ok, require_eq_ok, pure_eq_ok] at hf
  obtain ⟨-, hrun, -, hpending, -, hsender, -, hdue, -, hbtc, -, hevm, rfl⟩ := hf
  exact .finalizeRelink rfl hrun hpending hsender hdue hbtc hevm

theorem cancelRelink_effect {h : Bytes20} (hc : cancelRelink m h s = .ok t) :
    Effect K site m s (.cancelRelink h) (t, none) := by
  unfold cancelRelink at hc
  simp only [bind_eq_ok, noEmergency_eq_ok, require_eq_ok, pure_eq_ok] at hc
  obtain ⟨-, hrun, -, hactive, -, hsender, -, hp, rfl⟩ := hc
  exact .cancelRelink hrun hactive hsender hp

theorem effect_of_storage {x : Except Revert Storage} {entry : Entry} {out : Outcome}
    (h : (do return (← x, none)) = .ok out)
    (hx : ∀ t, x = .ok t → Effect K site m s entry (t, none)) : Effect K site m s entry out := by
  obtain ⟨t, ht, hout⟩ := bind_eq_ok.mp h
  obtain rfl := pure_eq_ok.mp hout
  exact hx t ht

theorem perform_effect {entry : Entry} {out : Outcome} (h : perform K site m s entry = .ok out) :
    Effect K site m s entry out := by
  cases entry with
  | registerBitcoinAddressV2 value pubkeyPrefix pubkeyX r s' v bitcoinStyle =>
    exact effect_of_storage h fun _ => register_effect
  | registerBinaKey k => exact effect_of_storage h fun _ => registerBinaKey_effect
  | rotateBinaKey k => exact effect_of_storage h fun _ => rotateBinaKey_effect
  | deactivateBinaKey hash160 => exact effect_of_storage h fun _ => deactivateBinaKey_effect
  | setReceivePreference preference =>
    obtain rfl := pure_eq_ok.mp h
    exact .setReceivePreference
  | receiveFunds value btcHash160 => exact effect_of_storage h fun _ => receiveFunds_effect
  | receiveTokens btcHash160 token amount => exact receiveTokens_effect h
  | withdrawPendingFunds => exact withdrawPendingFunds_effect h
  | withdrawFees => exact withdrawFees_effect h
  | rescueERC20 token recipient amount => exact rescueERC20_effect h
  | initiateRelink btcHash160 newEvm pubkey signature =>
    exact effect_of_storage h fun _ => initiateRelink_effect
  | finalizeRelink btcHash160 => exact effect_of_storage h fun _ => finalizeRelink_effect
  | cancelRelink btcHash160 => exact effect_of_storage h fun _ => cancelRelink_effect
  | receive value =>
    apply effect_of_storage h
    intro t ht
    simp only [receive, bind_eq_ok, add_eq_ok, pure_eq_ok] at ht
    obtain ⟨_, ⟨-, rfl⟩, rfl⟩ := ht
    exact .receive
  | setRegistrationFee fee =>
    apply effect_of_storage h
    intro t ht
    simp only [setRegistrationFee, bind_eq_ok, onlyOwner_eq_ok, require_eq_ok, pure_eq_ok] at ht
    obtain ⟨-, ho, -, hf, rfl⟩ := ht
    exact .setRegistrationFee ho hf
  | transferOwnership newOwner =>
    apply effect_of_storage h
    intro t ht
    simp only [transferOwnership, bind_eq_ok, onlyOwner_eq_ok, require_eq_ok, pure_eq_ok] at ht
    obtain ⟨-, ho, -, hn, rfl⟩ := ht
    exact .transferOwnership ho hn
  | acceptOwnership =>
    apply effect_of_storage h
    intro t ht
    simp only [acceptOwnership, bind_eq_ok, require_eq_ok, pure_eq_ok] at ht
    obtain ⟨-, ho, rfl⟩ := ht
    exact .acceptOwnership ho
  | setRelinkEnabled enabled =>
    apply effect_of_storage h
    intro t ht
    simp only [setRelinkEnabled, bind_eq_ok, onlyOwner_eq_ok, pure_eq_ok] at ht
    obtain ⟨-, ho, rfl⟩ := ht
    exact .setRelinkEnabled ho
  | setRelinkCooldown cooldown =>
    apply effect_of_storage h
    intro t ht
    simp only [setRelinkCooldown, bind_eq_ok, onlyOwner_eq_ok, require_eq_ok, pure_eq_ok] at ht
    obtain ⟨-, ho, -, hc, rfl⟩ := ht
    exact .setRelinkCooldown ho hc
  | setEmergencyStop disable =>
    apply effect_of_storage h
    intro t ht
    simp only [setEmergencyStop, bind_eq_ok, onlyOwner_eq_ok, pure_eq_ok] at ht
    obtain ⟨-, ho, rfl⟩ := ht
    exact .setEmergencyStop ho

end Effects

def sent (out : Option CallOut) : ℕ := (out.map CallOut.value).getD 0

theorem World.call_ok {K : Precompiles} {site : Site} {w : World} {sender : Address}
    {entry : Entry} {r : World × Option CallOut} (h : w.call K site sender entry = .ok r) :
    ∃ out, Effect K site { sender, timestamp := w.now } w.contract entry out ∧
      sent out.2 ≤ w.balance+entry.value ∧
      r = ({ w with contract := out.1, balance := w.balance+entry.value-sent out.2 }, out.2) := by
  simp only [World.call, bind_eq_ok, require_eq_ok, pure_eq_ok] at h
  obtain ⟨out, hout, -, hle, rfl⟩ := h
  exact ⟨out, perform_effect hout, hle, rfl⟩

theorem World.step_call {K : Precompiles} {site : Site} {w w' : World} {sender : Address}
    {entry : Entry} (h : w.step K site (.call sender entry) = some w') :
    ∃ out, Effect K site { sender, timestamp := w.now } w.contract entry out ∧
      sent out.2 ≤ w.balance+entry.value ∧
      w' = { w with contract := out.1, balance := w.balance+entry.value-sent out.2 } ∧
      (service K site).opens w (.call sender entry) = out.2.isSome := by
  obtain ⟨r, hr, rfl⟩ := Option.map_eq_some_iff.mp h
  obtain ⟨out, heffect, hle, rfl⟩ := World.call_ok (toOption_eq_some.mp hr)
  exact ⟨out, heffect, hle, rfl, by simp [service, hr]⟩

theorem World.step_time {K : Precompiles} {site : Site} {w w' : World} {timestamp : ℕ}
    (h : w.step K site (.tick timestamp) = some w') :
    w.now ≤ timestamp ∧ w' = { w with now := timestamp } := by
  simp only [World.step] at h
  split at h
  · exact ⟨‹_›, (Option.some.inj h).symm⟩
  · cases h

def Event.guarded : Event → Bool
  | .call _ entry => entry.guarded
  | _ => false

theorem Effect.lock {K : Precompiles} {site : Site} {m : Msg} {s : Storage} {entry : Entry}
    {out : Outcome} (h : Effect K site m s entry out) :
    (entry.guarded = true → s.locked = false) ∧
      out.1.locked = (s.locked || (out.2.isSome && entry.guarded)) := by
  cases h with
  | registerBitcoinAddressV2 hl | receiveFunds hl | receiveTokens hl | withdrawPendingFunds hl
  | withdrawFees _ hl => simp [hl, Entry.guarded]
  | _ => simp [Entry.guarded, FastPath.setReceivePreference]

theorem service_locks (K : Precompiles) (site : Site) :
    Locks (service K site) (fun w => w.contract.locked) Event.guarded where
  free := by
    intro w e w' h hg
    cases e with
    | call sender entry =>
      obtain ⟨out, heffect, -⟩ := World.step_call h
      exact heffect.lock.1 hg
    | force amount => cases hg
    | tick timestamp => cases hg
  taken := by
    intro w e w' h
    cases e with
    | call sender entry =>
      obtain ⟨out, heffect, -, rfl, hopens⟩ := World.step_call h
      rw [hopens]
      exact heffect.lock.2
    | force amount =>
      obtain rfl := Option.some.inj h
      simp [Event.guarded]
    | tick timestamp =>
      change World.step K site w (.tick timestamp) = some w' at h
      obtain ⟨-, rfl⟩ := World.step_time h
      simp [Event.guarded]
  given := by
    intro e w
    cases e with
    | call sender entry =>
      by_cases hg : entry.guarded <;> simp [service, World.finish, Event.guarded, unlock, hg]
    | force amount => simp [service, World.finish, Event.guarded]
    | tick timestamp => simp [service, World.finish, Event.guarded]

@[irreducible] def held (s : Storage) : ℕ := s.accumulatedFees+∑ a, s.pendingWithdrawals a

theorem held_congr {s t : Storage} (hf : t.accumulatedFees = s.accumulatedFees)
    (hp : t.pendingWithdrawals = s.pendingWithdrawals) : held t = held s := by
  unfold held
  rw [hf, hp]

theorem Effect.held {K : Precompiles} {site : Site} {m : Msg} {s : Storage} {entry : Entry}
    {out : Outcome} (h : Effect K site m s entry out) :
    held out.1+sent out.2 = held s+entry.value := by
  have hfees : ∀ (t : Storage) (n v : ℕ), t.accumulatedFees+n = s.accumulatedFees+v →
      t.pendingWithdrawals = s.pendingWithdrawals →
      FastPath.held t+n = FastPath.held s+v := by
    intro t n v hf hp
    unfold FastPath.held
    rw [hp]
    omega
  have hfunds : ∀ (t : Storage) (n v : ℕ), t.accumulatedFees = s.accumulatedFees →
      ∑ a, t.pendingWithdrawals a+n = ∑ a, s.pendingWithdrawals a+v →
      FastPath.held t+n = FastPath.held s+v := by
    intro t n v hf hp
    unfold FastPath.held
    rw [hf]
    omega
  cases h with
  | @receiveFunds value h =>
    refine hfunds _ _ _ rfl ?_
    have hsent : sent none = 0 := rfl
    rw [hsent, Nat.add_zero]
    exact total_credit s.pendingWithdrawals (s.activeEvm h) value
  | withdrawPendingFunds => exact hfunds _ _ _ rfl (total_update s.pendingWithdrawals m.sender 0)
  | withdrawFees => exact hfees _ _ _ (Nat.zero_add _) rfl
  | _ => exact hfees _ _ _ rfl rfl

def Event.forced : Event → ℕ
  | .force amount => amount
  | _ => 0

theorem World.deploy_ok {sender : Address} {fee balance now : ℕ} {w : World}
    (h : World.deploy sender fee balance now = .ok w) :
    w = { contract := .initial sender fee, balance, now } := by
  simp only [World.deploy, FastPath.deploy, bind_eq_ok, require_eq_ok, pure_eq_ok] at h
  obtain ⟨_, ⟨-, -, rfl⟩, rfl⟩ := h
  rfl

theorem held_initial (owner : Address) (fee : ℕ) : held (.initial owner fee) = 0 := by
  have hsum : ∑ a, (Storage.initial owner fee).pendingWithdrawals a = 0 :=
    Finset.sum_eq_zero fun _ _ => rfl
  unfold held
  rw [hsum]
  rfl

theorem World.step_held {K : Precompiles} {site : Site} {w w' : World} {e : Event}
    (h : w.step K site e = some w') :
    w'.balance+held w.contract = w.balance+held w'.contract+e.forced := by
  cases e with
  | call sender entry =>
    obtain ⟨out, heffect, hle, rfl, -⟩ := World.step_call h
    have ht := heffect.held
    have hforced : (Event.call sender entry).forced = 0 := rfl
    dsimp only
    omega
  | force amount =>
    obtain rfl := Option.some.inj h
    exact Nat.add_right_comm _ _ _
  | tick timestamp =>
    obtain ⟨-, rfl⟩ := World.step_time h
    exact (Nat.add_zero _).symm

theorem World.finish_eq (e : Event) (w : World) :
    World.finish e w = { w with contract := if e.guarded then unlock w.contract else w.contract } := by
  cases e with
  | call sender entry => by_cases hg : entry.guarded <;> simp [World.finish, Event.guarded, hg]
  | force amount => rfl
  | tick timestamp => rfl

theorem held_unlock (s : Storage) : held (unlock s) = held s := held_congr rfl rfl

theorem World.finish_held (e : Event) (w : World) :
    held (World.finish e w).contract = held w.contract := by
  rw [World.finish_eq]
  by_cases hg : e.guarded
  · simp only [hg, if_true, held_unlock]
  · simp only [hg, if_false, Bool.false_eq_true]

section Custody

variable {K : Precompiles} {site : Site} {deployer : Address} {fee balance now : ℕ} {w : World}
  {x : Framed World Event}

theorem held_le_balance (hd : World.deploy deployer fee balance now = .ok w)
    (h : (service K site).Runs w x) : held x.current.contract ≤ x.current.balance := by
  apply Service.invariant (P := fun w => held w.contract ≤ w.balance) h
  · obtain rfl := World.deploy_ok hd
    rw [held_initial]
    exact Nat.zero_le _
  · intro u e v hu hs
    have ht := World.step_held hs
    omega
  · intro e u hu
    change held (World.finish e u).contract ≤ (World.finish e u).balance
    rwa [World.finish_held, World.finish_eq]

theorem balance_eq_held (hd : World.deploy deployer fee 0 now = .ok w)
    (h : (service K site).RunsIn (fun _ e => e.forced = 0) w x) :
    x.current.balance = held x.current.contract := by
  apply h.invariant (P := fun w => w.balance = held w.contract)
  · obtain rfl := World.deploy_ok hd
    rw [held_initial]
  · intro u e v hu hforced hs
    have ht := World.step_held hs
    omega
  · intro e u hu
    change (World.finish e u).balance = held (World.finish e u).contract
    rwa [World.finish_held, World.finish_eq]

end Custody

/-- The call pays its sender, who takes the payment, and ends as it should. -/
def Pays (K : Precompiles) (site : Site) (x : Framed World Event) (recipient : Address)
    (entry : Entry) (amount : ℕ) : Prop :=
  ∃ w y, x.current.call K site recipient entry = .ok (w, some (.pay recipient amount)) ∧
    exec (service K site).move x [.take (.call recipient entry), .leave true] = some y ∧
    y.frames = x.frames ∧ y.current.balance+amount = x.current.balance ∧
    held y.current.contract+amount = held x.current.contract

section Paying

variable {K : Precompiles} {site : Site} {x : Framed World Event}

theorem settles {sender : Address} {entry : Entry} {w : World} {c : CallOut}
    (h : x.current.call K site sender entry = .ok (w, some c)) :
    exec (service K site).move x [.take (.call sender entry), .leave true] =
      some { current := World.finish (.call sender entry) w, frames := x.frames } := by
  have htake : (service K site).move x (.take (.call sender entry)) =
      some { current := w, frames := (x.current, some (.call sender entry)) :: x.frames } := by
    simp [Service.move, service, World.step, h, Except.toOption]
  simp only [exec, htake, Option.bind_some]
  rfl

theorem pays_of_call {recipient : Address} {entry : Entry} {w : World} {amount : ℕ}
    (h : x.current.call K site recipient entry = .ok (w, some (.pay recipient amount)))
    (hv : entry.value = 0) : Pays K site x recipient entry amount := by
  refine ⟨w, _, h, settles h, rfl, ?_⟩
  obtain ⟨out, heffect, hle, hr⟩ := World.call_ok h
  obtain ⟨rfl, hout⟩ := Prod.mk.inj hr
  have ht := heffect.held
  have hsent : sent out.2 = amount := by
    rw [← hout]
    rfl
  rw [World.finish_held, World.finish_eq]
  dsimp only
  omega

theorem pays_pending {a : Address} (hl : x.current.contract.locked = false)
    (hb : held x.current.contract ≤ x.current.balance)
    (ha : x.current.contract.pendingWithdrawals a ≠ 0) :
    Pays K site x a .withdrawPendingFunds (x.current.contract.pendingWithdrawals a) := by
  have hle : x.current.contract.pendingWithdrawals a ≤ x.current.balance := by
    have ht := le_total x.current.contract.pendingWithdrawals a
    unfold held at hb
    omega
  apply pays_of_call
  · simp only [World.call, perform, withdrawPendingFunds, bind_eq_ok, lock_eq_ok, require_eq_ok,
      pure_eq_ok]
    exact ⟨_, ⟨_, ⟨hl, rfl⟩, (), ha, rfl⟩, (), hle, rfl⟩
  · rfl

theorem pays_fees (hl : x.current.contract.locked = false)
    (hb : held x.current.contract ≤ x.current.balance)
    (hf : x.current.contract.accumulatedFees ≠ 0) :
    Pays K site x x.current.contract.owner .withdrawFees x.current.contract.accumulatedFees := by
  have hle : x.current.contract.accumulatedFees ≤ x.current.balance := by
    unfold held at hb
    omega
  apply pays_of_call
  · simp only [World.call, perform, withdrawFees, bind_eq_ok, onlyOwner_eq_ok, lock_eq_ok,
      require_eq_ok, pure_eq_ok]
    exact ⟨_, ⟨(), trivial, _, ⟨hl, rfl⟩, (), hf, rfl⟩, (), hle, rfl⟩
  · rfl

end Paying

/-- The balance is the fees and the pending withdrawals, or more where value was
forced on the contract; whenever no guarded call is under way each of them is
paid in full to who asks for it. -/
theorem funds_in_custody (K : Precompiles) (site : Site) {deployer : Address}
    {fee balance now : ℕ} {w : World} (hd : World.deploy deployer fee balance now = .ok w) :
    (∀ x, (service K site).Runs w x →
      x.current.contract.accumulatedFees+∑ a, x.current.contract.pendingWithdrawals a ≤
        x.current.balance ∧
      (x.current.contract.locked = x.frames.any fun f => f.2.any Event.guarded) ∧
      (x.current.contract.locked = false →
        (∀ a, x.current.contract.pendingWithdrawals a ≠ 0 →
          Pays K site x a .withdrawPendingFunds (x.current.contract.pendingWithdrawals a)) ∧
        (x.current.contract.accumulatedFees ≠ 0 →
          Pays K site x x.current.contract.owner .withdrawFees
            x.current.contract.accumulatedFees))) ∧
    (balance = 0 → ∀ x, (service K site).RunsIn (fun _ e => e.forced = 0) w x →
      x.current.balance =
        x.current.contract.accumulatedFees+∑ a, x.current.contract.pendingWithdrawals a) := by
  constructor
  · intro x h
    have hb := held_le_balance hd h
    have hl := (service_locks K site).held_eq h (by rw [World.deploy_ok hd]; rfl)
    refine ⟨?_, hl, fun hfree => ⟨fun a ha => pays_pending hfree hb ha, pays_fees hfree hb⟩⟩
    unfold held at hb
    exact hb
  · rintro rfl x h
    have hb := balance_eq_held hd h
    unfold held at hb
    exact hb

def toySite : Site := { chainId := 1, self := 0xfa }

def toyStart : World := { contract := .initial 1 5, balance := 0, now := 0 }

def toyHash (x : Bytes32) : Bytes20 :=
  (btcHash160FromPubkey toyPrecompiles (toyKey x)).toOption.getD 0

def toyRegister (x : Bytes32) (a : Address) (value : ℕ) : Event :=
  .call a (.registerBitcoinAddressV2 value 2 x (toySigner x)
    (toBitcoinSignedMessageHash toyPrecompiles (hexForm a)) 27 true)

def toyMoves : List (Move Event) :=
  [.take (toyRegister 1 5 7), .take (.call 9 (.receiveFunds 100 (toyHash 1))),
    .take (.call 5 .withdrawPendingFunds), .take (.call 5 (.receive 3)), .leave true,
    .take (.call 9 (.receiveFunds 40 (toyHash 1)))]

def toyCustody : Option (Framed World Event) :=
  exec (service toyPrecompiles toySite).move (.start toyStart) toyMoves

theorem funds_in_custody_toy : ∃ x, toyCustody = some x ∧
    Pays toyPrecompiles toySite x 5 .withdrawPendingFunds 40 ∧
    Pays toyPrecompiles toySite x 1 .withdrawFees 10 ∧
    x.current.balance =
      x.current.contract.accumulatedFees+∑ a, x.current.contract.pendingWithdrawals a := by
  have hrun : toyCustody.any fun x => !x.current.contract.locked &&
      x.current.contract.pendingWithdrawals 5 == 40 &&
      x.current.contract.accumulatedFees == 10 && x.current.contract.owner == 1 := by
    decide +kernel
  obtain ⟨x, hx, hrun⟩ := (Option.any_eq_true _ _).mp hrun
  simp only [Bool.and_eq_true, Bool.not_eq_true', beq_iff_eq] at hrun
  obtain ⟨⟨⟨hfree, hpending⟩, hfees⟩, howner⟩ := hrun
  have hadmitted : Admitted (service toyPrecompiles toySite).move
      (onTakes fun _ e => e.forced = 0) (.start toyStart) toyMoves := by
    apply Admitted.of_forall
    intro v hv y
    simp only [toyMoves, List.mem_cons, List.not_mem_nil, or_false] at hv
    rcases hv with rfl | rfl | rfl | rfl | rfl | rfl
    · rfl
    · rfl
    · rfl
    · rfl
    · trivial
    · rfl
  obtain ⟨hheld, hbalance⟩ := funds_in_custody toyPrecompiles toySite
    (show World.deploy 1 5 0 0 = .ok toyStart from rfl)
  obtain ⟨-, -, hpays⟩ := hheld x (exec_reach hx)
  obtain ⟨hfunds, howed⟩ := hpays hfree
  refine ⟨x, hx, ?_, ?_, hbalance rfl x (hadmitted.run hx)⟩
  · have h5 := hfunds 5 (by rw [hpending]; decide)
    rwa [hpending] at h5
  · have h1 := howed (by rw [hfees]; decide)
    rwa [hfees, howner] at h1

end BinaChain.FastPath
