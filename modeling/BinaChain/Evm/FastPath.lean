import BinaChain.Evm.BitcoinKey

/-!
# The identity contract

A Bitcoin key hash is registered to an EVM address, relinked to another one
after a delay, receives funds for its controller and resolves to a BINA
address. Payments and token transfers hand control to outside code, and the
functions that make them for others hold a lock meanwhile.
-/

set_option autoImplicit false

namespace BinaChain.FastPath
open BinaChain.Word BinaChain.Text BinaChain.Crypto BinaChain.Machine BinaChain.Frames
open BinaChain.Checked BinaChain.Oracle
open BinaChain.BinaOracle (Site addressBytes ether)

def maxRegistrationFee : ℕ := ether

def binaKeyRotationCooldown : ℕ := 3*24*3600

inductive ReceivePreference where
  | directEVM
  | viaHash160
  deriving DecidableEq

structure PendingRelink where
  newEvm : Address
  unlockTime : ℕ
  pending : Bool
  deriving DecidableEq

def PendingRelink.zero : PendingRelink := { newEvm := 0, unlockTime := 0, pending := false }

structure BinaKey where
  ed25519PublicKey : Bytes32
  publicKeyHash : Bytes32
  derivationCommitment : Bytes32
  binaAddress : Bytes20
  registeredAt : ℕ
  registeredBy : Address
  active : Bool
  deriving DecidableEq

def BinaKey.zero : BinaKey :=
  { ed25519PublicKey := 0, publicKeyHash := 0, derivationCommitment := 0, binaAddress := 0,
    registeredAt := 0, registeredBy := 0, active := false }

structure Storage where
  owner : Address
  pendingOwner : Address
  registrationFee : ℕ
  locked : Bool
  relinkEnabled : Bool
  relinkCooldown : ℕ
  emergencyStop : Bool
  btcToEvm : Bytes20 → Address
  evmToBtc : Address → Bytes20
  lastLinkTime : Bytes20 → ℕ
  receivePreference : Address → ReceivePreference
  preferenceSet : Address → Bool
  pendingRelinks : Bytes20 → PendingRelink
  activeEvm : Bytes20 → Address
  pendingWithdrawals : Address → ℕ
  accumulatedFees : ℕ
  binaKeys : Bytes20 → BinaKey
  hash160ToBinaAddress : Bytes20 → Bytes20
  binaAddressToHash160 : Bytes20 → Bytes20
  lastBinaKeyRotation : Bytes20 → ℕ

def Storage.initial (owner : Address) (fee : ℕ) : Storage where
  owner := owner
  pendingOwner := 0
  registrationFee := fee
  locked := false
  relinkEnabled := false
  relinkCooldown := 3*24*3600
  emergencyStop := false
  btcToEvm _ := 0
  evmToBtc _ := 0
  lastLinkTime _ := 0
  receivePreference _ := .directEVM
  preferenceSet _ := false
  pendingRelinks _ := .zero
  activeEvm _ := 0
  pendingWithdrawals _ := 0
  accumulatedFees := 0
  binaKeys _ := .zero
  hash160ToBinaAddress _ := 0
  binaAddressToHash160 _ := 0
  lastBinaKeyRotation _ := 0

def deploy (sender : Address) (fee : ℕ) : Except Revert Storage := do
  require (fee ≤ maxRegistrationFee) .feeTooHigh
  return .initial sender fee

/-- The call to the outside with which a function ends. -/
inductive CallOut where
  | pay (recipient : Address) (amount : ℕ)
  | transfer (token recipient : Address) (amount : ℕ)
  | transferFrom (token payer recipient : Address) (amount : ℕ)
  deriving DecidableEq

def CallOut.value : CallOut → ℕ
  | .pay _ amount => amount
  | _ => 0

abbrev Outcome := Storage × Option CallOut

def onlyOwner (m : Msg) (s : Storage) : Except Revert Unit := require (m.sender = s.owner) .notOwner

def noEmergency (s : Storage) : Except Revert Unit :=
  require (s.emergencyStop = false) .emergencyStopActive

def lock (s : Storage) : Except Revert Storage := do
  require (s.locked = false) .reentrantCall
  return { s with locked := true }

def unlock (s : Storage) : Storage := { s with locked := false }

def registerBitcoinAddressV2 (K : Precompiles) (m : Msg) (value : ℕ) (pubkeyPrefix : UInt8)
    (pubkeyX r s : Bytes32) (v : UInt8) (bitcoinStyle : Bool) (t : Storage) :
    Except Revert Storage := do
  let t ← lock t
  require (t.registrationFee ≤ value) .insufficientFee
  require (t.evmToBtc m.sender = 0) .addressAlreadyRegistered
  let message := hexForm m.sender
  require (pubkeyPrefix = 2 ∨ pubkeyPrefix = 3) .invalidPublicKey
  let pubkeyDyn := pubkeyPrefix :: wordBytes pubkeyX
  let xy ← pubkeyToXYMem pubkeyDyn
  let expectedSigner := ethAddressFromXY K xy
  let vv := if v < 27 then v+27 else v
  require (vv = 27 ∨ vv = 28) .invalidSignature
  require (s.toNat ≤ halfOrder) .signatureSMustBeLowOrder
  let digest := if bitcoinStyle then toBitcoinSignedMessageHash K message
    else toEthSignedMessageHash K message
  require (K.ecrecover digest vv r s = expectedSigner) .invalidSignature
  let btcHash160 ← btcHash160FromPubkeyMem K pubkeyDyn
  require (btcHash160 ≠ 0) .zeroHash160
  require (t.btcToEvm btcHash160 = 0) .addressAlreadyRegistered
  let accumulatedFees ← add t.accumulatedFees value
  return unlock { t with
    btcToEvm := Function.update t.btcToEvm btcHash160 m.sender
    evmToBtc := Function.update t.evmToBtc m.sender btcHash160
    lastLinkTime := Function.update t.lastLinkTime btcHash160 m.timestamp
    activeEvm := Function.update t.activeEvm btcHash160 m.sender
    accumulatedFees }

def binaDerivationCommitment (K : Precompiles) (site : Site) (hash160 binaAddress : Bytes20)
    (fullPublicKeyHash : Bytes32) (evmController : Address) : Bytes32 :=
  K.keccak256 (wordBytes (K.keccak256 (utf8 "BINA_METAMASK_DERIVATION_COMMITMENT_V1"))++
    wordBytes (K.keccak256 (utf8 "Sign to derive your BINA wallet. This is free."))++
    wordBytes site.chainId++addressBytes site.self++addressBytes evmController++
    addressBytes hash160++addressBytes binaAddress++wordBytes fullPublicKeyHash)

structure KeyClaim where
  hash160 : Bytes20
  binaAddress : Bytes20
  ed25519PublicKey : Bytes32
  fullPublicKeyHash : Bytes32
  derivationCommitment : Bytes32
  deriving DecidableEq

def checkKeyClaim (m : Msg) (k : KeyClaim) (s : Storage) : Except Revert Unit := do
  require (k.hash160 ≠ 0) .zeroHash160
  require (s.activeEvm k.hash160 = m.sender) .notCurrentOwner
  require (k.binaAddress ≠ 0) .invalidBinaKey
  require (k.ed25519PublicKey ≠ 0) .invalidBinaKey
  require (k.fullPublicKeyHash ≠ 0) .invalidBinaKey
  require (k.derivationCommitment ≠ 0) .invalidBinaKey

def checkCommitment (K : Precompiles) (site : Site) (m : Msg) (k : KeyClaim) :
    Except Revert Unit :=
  require (k.derivationCommitment = binaDerivationCommitment K site k.hash160 k.binaAddress
    k.fullPublicKeyHash m.sender) .invalidBinaKey

def registerBinaKey (K : Precompiles) (site : Site) (m : Msg) (k : KeyClaim) (s : Storage) :
    Except Revert Storage := do
  checkKeyClaim m k s
  require ((s.binaKeys k.hash160).active = false) .binaKeyAlreadyRegistered
  require (s.binaAddressToHash160 k.binaAddress = 0) .binaKeyAlreadyRegistered
  checkCommitment K site m k
  return { s with
    binaKeys := Function.update s.binaKeys k.hash160
      { ed25519PublicKey := k.ed25519PublicKey, publicKeyHash := k.fullPublicKeyHash,
        derivationCommitment := k.derivationCommitment, binaAddress := k.binaAddress,
        registeredAt := m.timestamp, registeredBy := m.sender, active := true }
    hash160ToBinaAddress := Function.update s.hash160ToBinaAddress k.hash160 k.binaAddress
    binaAddressToHash160 := Function.update s.binaAddressToHash160 k.binaAddress k.hash160
    lastBinaKeyRotation := Function.update s.lastBinaKeyRotation k.hash160 m.timestamp }

def rotateBinaKey (K : Precompiles) (site : Site) (m : Msg) (k : KeyClaim) (s : Storage) :
    Except Revert Storage := do
  checkKeyClaim m k s
  let key := s.binaKeys k.hash160
  require (key.active = true) .noBinaKey
  checkCommitment K site m k
  let registeredHash160 := s.binaAddressToHash160 k.binaAddress
  require (¬ (registeredHash160 ≠ 0 ∧ registeredHash160 ≠ k.hash160)) .binaKeyAlreadyRegistered
  let due ← add (s.lastBinaKeyRotation k.hash160) binaKeyRotationCooldown
  require (due ≤ m.timestamp) .binaKeyCooldownActive
  let oldBinaAddress := s.hash160ToBinaAddress k.hash160
  let binaAddressToHash160 := Function.update s.binaAddressToHash160 oldBinaAddress 0
  return { s with
    binaKeys := Function.update s.binaKeys k.hash160 { key with
      ed25519PublicKey := k.ed25519PublicKey
      publicKeyHash := k.fullPublicKeyHash
      derivationCommitment := k.derivationCommitment
      binaAddress := k.binaAddress
      registeredBy := m.sender
      registeredAt := m.timestamp }
    hash160ToBinaAddress := Function.update s.hash160ToBinaAddress k.hash160 k.binaAddress
    binaAddressToHash160 := Function.update binaAddressToHash160 k.binaAddress k.hash160
    lastBinaKeyRotation := Function.update s.lastBinaKeyRotation k.hash160 m.timestamp }

def deactivateBinaKey (m : Msg) (hash160 : Bytes20) (s : Storage) : Except Revert Storage := do
  require (hash160 ≠ 0) .zeroHash160
  require (s.activeEvm hash160 = m.sender) .notCurrentOwner
  let key := s.binaKeys hash160
  require (key.active = true) .noBinaKey
  let binaAddress := s.hash160ToBinaAddress hash160
  return { s with
    binaKeys := Function.update s.binaKeys hash160 { key with active := false }
    binaAddressToHash160 := Function.update s.binaAddressToHash160 binaAddress 0
    hash160ToBinaAddress := Function.update s.hash160ToBinaAddress hash160 0 }

def currentController (btcHash160 : Bytes20) (s : Storage) : Address := s.activeEvm btcHash160

def hasControl (evm : Address) (s : Storage) : Bool :=
  let btc := s.evmToBtc evm
  btc != 0 && s.activeEvm btc == evm

def isQuantumSafe (hash160 : Bytes20) (s : Storage) : Bool := (s.binaKeys hash160).active

def getBinaAddress (hash160 : Bytes20) (s : Storage) : Bytes20 := s.hash160ToBinaAddress hash160

def resolveFromBina (binaAddress : Bytes20) (s : Storage) : Except Revert (Bytes20 × Address) := do
  let hash160 := s.binaAddressToHash160 binaAddress
  require (hash160 ≠ 0) .noBinaKey
  return (hash160, s.activeEvm hash160)

def setReceivePreference (m : Msg) (preference : ReceivePreference) (s : Storage) : Storage :=
  { s with
    receivePreference := Function.update s.receivePreference m.sender preference
    preferenceSet := Function.update s.preferenceSet m.sender true }

def getPreference (user : Address) (s : Storage) : ReceivePreference :=
  if s.preferenceSet user then s.receivePreference user else .viaHash160

def receiveFunds (value : ℕ) (btcHash160 : Bytes20) (s : Storage) : Except Revert Storage := do
  let s ← lock s
  require (btcHash160 ≠ 0) .zeroHash160
  require (value ≠ 0) .zeroValue
  let receiver := s.activeEvm btcHash160
  require (receiver ≠ 0) .hash160NotRegistered
  require (getPreference receiver s = .viaHash160) .directEvmPreferred
  let amount ← add (s.pendingWithdrawals receiver) value
  return unlock { s with
    pendingWithdrawals := Function.update s.pendingWithdrawals receiver amount }

def receiveTokens (m : Msg) (btcHash160 : Bytes20) (token : Address) (amount : ℕ) (s : Storage) :
    Except Revert Outcome := do
  let s ← lock s
  require (btcHash160 ≠ 0) .zeroHash160
  require (amount ≠ 0) .zeroAmount
  require (token ≠ 0) .invalidToken
  let receiver := s.activeEvm btcHash160
  require (receiver ≠ 0) .hash160NotRegistered
  require (getPreference receiver s = .viaHash160) .directEvmPreferred
  return (s, some (.transferFrom token m.sender receiver amount))

def withdrawPendingFunds (m : Msg) (s : Storage) : Except Revert Outcome := do
  let s ← lock s
  let amount := s.pendingWithdrawals m.sender
  require (amount ≠ 0) .noPendingFunds
  let s := { s with pendingWithdrawals := Function.update s.pendingWithdrawals m.sender 0 }
  return (s, some (.pay m.sender amount))

def receive (value : ℕ) (s : Storage) : Except Revert Storage := do
  let accumulatedFees ← add s.accumulatedFees value
  return { s with accumulatedFees }

def setRegistrationFee (m : Msg) (fee : ℕ) (s : Storage) : Except Revert Storage := do
  onlyOwner m s
  require (fee ≤ maxRegistrationFee) .feeTooHigh
  return { s with registrationFee := fee }

def withdrawFees (m : Msg) (s : Storage) : Except Revert Outcome := do
  onlyOwner m s
  let s ← lock s
  let amount := s.accumulatedFees
  require (amount ≠ 0) .noFeesToWithdraw
  return ({ s with accumulatedFees := 0 }, some (.pay s.owner amount))

def rescueERC20 (m : Msg) (token recipient : Address) (amount : ℕ) (s : Storage) :
    Except Revert Outcome := do
  onlyOwner m s
  require (token ≠ 0) .zeroAddress
  require (recipient ≠ 0) .zeroAddress
  return (s, some (.transfer token recipient amount))

def transferOwnership (m : Msg) (newOwner : Address) (s : Storage) : Except Revert Storage := do
  onlyOwner m s
  require (newOwner ≠ 0) .zeroAddress
  return { s with pendingOwner := newOwner }

def acceptOwnership (m : Msg) (s : Storage) : Except Revert Storage := do
  require (m.sender = s.pendingOwner) .notPendingOwner
  return { s with owner := s.pendingOwner, pendingOwner := 0 }

def setRelinkEnabled (m : Msg) (enabled : Bool) (s : Storage) : Except Revert Storage := do
  onlyOwner m s
  return { s with relinkEnabled := enabled }

def setRelinkCooldown (m : Msg) (cooldown : ℕ) (s : Storage) : Except Revert Storage := do
  onlyOwner m s
  require (3600 ≤ cooldown) .cooldownTooSmall
  return { s with relinkCooldown := cooldown }

def setEmergencyStop (m : Msg) (disable : Bool) (s : Storage) : Except Revert Storage := do
  onlyOwner m s
  return { s with emergencyStop := disable }

def initiateRelink (K : Precompiles) (m : Msg) (btcHash160 : Bytes20) (newEvm : Address)
    (pubkey signature : Bytes) (s : Storage) : Except Revert Storage := do
  noEmergency s
  require (pubkey.length ≤ 65) .invalidPublicKey
  require (signature.length = 65) .invalidSignature
  require (btcHash160 ≠ 0) .zeroHash160
  require (s.relinkEnabled = true) .relinkDisabled
  require (s.btcToEvm btcHash160 ≠ 0) .addressNotRegistered
  require (newEvm ≠ 0) .zeroAddress
  require (newEvm = m.sender) .notNewEvmOwner
  require ((s.pendingRelinks btcHash160).pending = false) .pendingRelinkExists
  require (s.evmToBtc newEvm = 0) .newEvmAlreadyRegistered
  let due ← add (s.lastLinkTime btcHash160) s.relinkCooldown
  require (due ≤ m.timestamp) .cooldownActive
  let keyHash ← btcHash160FromPubkey K pubkey
  require (keyHash = btcHash160) .invalidPublicKey
  let verified ← verifySignatureFromMemory K pubkey signature (hexForm newEvm)
  require (verified = true) .invalidSignature
  let unlockTime ← add m.timestamp s.relinkCooldown
  return { s with
    pendingRelinks := Function.update s.pendingRelinks btcHash160
      { newEvm, unlockTime, pending := true } }

def finalizeRelink (m : Msg) (btcHash160 : Bytes20) (s : Storage) : Except Revert Storage := do
  noEmergency s
  let relink := s.pendingRelinks btcHash160
  require (relink.pending = true) .pendingRelinkMissing
  require (m.sender = relink.newEvm) .notPendingRelinkOwner
  require (relink.unlockTime ≤ m.timestamp) .cooldownActive
  require (s.btcToEvm btcHash160 ≠ 0) .addressNotRegistered
  require (s.evmToBtc relink.newEvm = 0) .newEvmAlreadyRegistered
  return { s with
    evmToBtc := Function.update s.evmToBtc relink.newEvm btcHash160
    activeEvm := Function.update s.activeEvm btcHash160 relink.newEvm
    lastLinkTime := Function.update s.lastLinkTime btcHash160 m.timestamp
    pendingRelinks := Function.update s.pendingRelinks btcHash160 .zero }

def cancelRelink (m : Msg) (btcHash160 : Bytes20) (s : Storage) : Except Revert Storage := do
  noEmergency s
  let currentOwner := s.activeEvm btcHash160
  require (currentOwner ≠ 0) .addressNotRegistered
  require (m.sender = currentOwner) .notCurrentOwner
  require ((s.pendingRelinks btcHash160).pending = true) .pendingRelinkMissing
  return { s with pendingRelinks := Function.update s.pendingRelinks btcHash160 .zero }

inductive Entry where
  | registerBitcoinAddressV2 (value : ℕ) (pubkeyPrefix : UInt8) (pubkeyX r s : Bytes32) (v : UInt8)
    (bitcoinStyle : Bool)
  | registerBinaKey (k : KeyClaim)
  | rotateBinaKey (k : KeyClaim)
  | deactivateBinaKey (hash160 : Bytes20)
  | setReceivePreference (preference : ReceivePreference)
  | receiveFunds (value : ℕ) (btcHash160 : Bytes20)
  | receiveTokens (btcHash160 : Bytes20) (token : Address) (amount : ℕ)
  | withdrawPendingFunds
  | receive (value : ℕ)
  | setRegistrationFee (fee : ℕ)
  | withdrawFees
  | rescueERC20 (token recipient : Address) (amount : ℕ)
  | transferOwnership (newOwner : Address)
  | acceptOwnership
  | setRelinkEnabled (enabled : Bool)
  | setRelinkCooldown (cooldown : ℕ)
  | setEmergencyStop (disable : Bool)
  | initiateRelink (btcHash160 : Bytes20) (newEvm : Address) (pubkey signature : Bytes)
  | finalizeRelink (btcHash160 : Bytes20)
  | cancelRelink (btcHash160 : Bytes20)
  deriving DecidableEq

def Entry.value : Entry → ℕ
  | .registerBitcoinAddressV2 value _ _ _ _ _ _ => value
  | .receiveFunds value _ => value
  | .receive value => value
  | _ => 0

def Entry.guarded : Entry → Bool
  | .registerBitcoinAddressV2 _ _ _ _ _ _ _ => true
  | .receiveFunds _ _ => true
  | .receiveTokens _ _ _ => true
  | .withdrawPendingFunds => true
  | .withdrawFees => true
  | _ => false

def perform (K : Precompiles) (site : Site) (m : Msg) (s : Storage) : Entry → Except Revert Outcome
  | .registerBitcoinAddressV2 value pubkeyPrefix pubkeyX r s' v bitcoinStyle => do
    return (← registerBitcoinAddressV2 K m value pubkeyPrefix pubkeyX r s' v bitcoinStyle s, none)
  | .registerBinaKey k => do return (← registerBinaKey K site m k s, none)
  | .rotateBinaKey k => do return (← rotateBinaKey K site m k s, none)
  | .deactivateBinaKey hash160 => do return (← deactivateBinaKey m hash160 s, none)
  | .setReceivePreference preference => return (setReceivePreference m preference s, none)
  | .receiveFunds value btcHash160 => do return (← receiveFunds value btcHash160 s, none)
  | .receiveTokens btcHash160 token amount => receiveTokens m btcHash160 token amount s
  | .withdrawPendingFunds => withdrawPendingFunds m s
  | .receive value => do return (← receive value s, none)
  | .setRegistrationFee fee => do return (← setRegistrationFee m fee s, none)
  | .withdrawFees => withdrawFees m s
  | .rescueERC20 token recipient amount => rescueERC20 m token recipient amount s
  | .transferOwnership newOwner => do return (← transferOwnership m newOwner s, none)
  | .acceptOwnership => do return (← acceptOwnership m s, none)
  | .setRelinkEnabled enabled => do return (← setRelinkEnabled m enabled s, none)
  | .setRelinkCooldown cooldown => do return (← setRelinkCooldown m cooldown s, none)
  | .setEmergencyStop disable => do return (← setEmergencyStop m disable s, none)
  | .initiateRelink btcHash160 newEvm pubkey signature => do
    return (← initiateRelink K m btcHash160 newEvm pubkey signature s, none)
  | .finalizeRelink btcHash160 => do return (← finalizeRelink m btcHash160 s, none)
  | .cancelRelink btcHash160 => do return (← cancelRelink m btcHash160 s, none)

structure World where
  contract : Storage
  balance : ℕ
  now : ℕ

/-- `force` is value that arrives without a call. -/
inductive Event where
  | call (sender : Address) (entry : Entry)
  | force (amount : ℕ)
  | tick (timestamp : ℕ)
  deriving DecidableEq

/-- The address may hold value before there is a contract. -/
def World.deploy (sender : Address) (fee balance now : ℕ) : Except Revert World := do
  let contract ← FastPath.deploy sender fee
  return { contract, balance, now }

/-- What a call makes of the world, and the call to the outside. A payment the
balance does not cover fails, and with it the call. -/
def World.call (K : Precompiles) (site : Site) (w : World) (sender : Address) (entry : Entry) :
    Except Revert (World × Option CallOut) := do
  let out ← perform K site { sender, timestamp := w.now } w.contract entry
  let received := w.balance+entry.value
  let sent := (out.2.map CallOut.value).getD 0
  require (sent ≤ received) .transferFailed
  return ({ w with contract := out.1, balance := received-sent }, out.2)

def World.step (K : Precompiles) (site : Site) (w : World) : Event → Option World
  | .call sender entry => (w.call K site sender entry).toOption.map Prod.fst
  | .force amount => some { w with balance := w.balance+amount }
  | .tick timestamp => if w.now ≤ timestamp then some { w with now := timestamp } else none

/-- What is left of a call once control is back. -/
def World.finish : Event → World → World
  | .call _ entry, w => if entry.guarded then { w with contract := unlock w.contract } else w
  | _, w => w

def service (K : Precompiles) (site : Site) : Service World Event where
  step := World.step K site
  opens w
    | .call sender entry => (w.call K site sender entry).toOption.any fun out => out.2.isSome
    | _ => false
  finish := World.finish
  outermost
    | .tick _ => true
    | _ => false

end BinaChain.FastPath
