import BinaChain.Evm.BinaOracle
import Mathlib.Algebra.Group.Nat.Defs

/-!
# Bitcoin keys and signatures in the identity contract

A key comes in three lengths and is hashed as it comes; a signature over a
text verifies in the form Bitcoin wallets write or in the one Ethereum wallets
write. The hash functions and the recovery of a signer come from the machine.
-/

set_option autoImplicit false

namespace BinaChain.FastPath
open BinaChain.Word BinaChain.Text BinaChain.Crypto BinaChain.Checked BinaChain.Oracle

inductive Revert where
  | overflow
  | underflow
  | outOfBounds
  | notOwner
  | insufficientFee
  | addressAlreadyRegistered
  | addressNotRegistered
  | invalidSignature
  | invalidPublicKey
  | transferFailed
  | reentrantCall
  | relinkDisabled
  | cooldownActive
  | pendingRelinkExists
  | pendingRelinkMissing
  | newEvmAlreadyRegistered
  | notCurrentOwner
  | cooldownTooSmall
  | noFeesToWithdraw
  | zeroHash160
  | signatureSMustBeLowOrder
  | feeTooHigh
  | notPendingOwner
  | zeroAddress
  | notNewEvmOwner
  | notPendingRelinkOwner
  | emergencyStopActive
  | zeroValue
  | hash160NotRegistered
  | directEvmPreferred
  | noPendingFunds
  | zeroAmount
  | invalidToken
  | pointNotOnCurve
  | binaKeyAlreadyRegistered
  | noBinaKey
  | binaKeyCooldownActive
  | invalidBinaKey
  deriving DecidableEq

instance : Panics Revert where
  overflow := .overflow
  underflow := .underflow
  outOfBounds := .outOfBounds

/-- Code of the machine the contract runs on. -/
structure Precompiles where
  keccak256 : Bytes → Bytes32
  sha256 : Bytes → Bytes32
  ripemd160 : Bytes → Bytes20
  /-- Digest, recovery id, `r` and `s`; zero when there is no signer. -/
  ecrecover : Bytes32 → UInt8 → Bytes32 → Bytes32 → Address

def halfOrder : ℕ := 0x7FFFFFFFFFFFFFFFFFFFFFFFFFFFFFFF5D576E7357A4501DDFE92F46681B20A0

def fieldPrime : ℕ := 0xFFFFFFFFFFFFFFFFFFFFFFFFFFFFFFFFFFFFFFFFFFFFFFFFFFFFFFFEFFFFFC2F

/-- The word that starts at the offset, as `calldataload` and `mload` read it. -/
def loadWord (b : Bytes) (offset : ℕ) : Bytes32 :=
  BitVec.ofNat 256 (((b.drop offset).take 32).foldl (fun acc x => acc*256+x.toNat) 0)

def square (base modulus half : ℕ) (odd : ℕ) : ℕ := half*half*base^odd%modulus

def powMod (base modulus : ℕ) : ℕ → ℕ → ℕ
  | 0, _ => 1%modulus
  | k+1, exponent => square base modulus (powMod base modulus k (exponent/2)) (exponent%2)

theorem powMod_eq {base modulus k exponent : ℕ} (h : exponent < 2^k) :
    powMod base modulus k exponent = base^exponent%modulus := by
  induction k generalizing exponent with
  | zero =>
    obtain rfl : exponent = 0 := by simpa using h
    rfl
  | succ k ih =>
    have hhalf : exponent/2 < 2^k := by
      rw [Nat.pow_succ] at h
      omega
    have hsplit : base^exponent = base^(exponent/2)*base^(exponent/2)*base^(exponent%2) := by
      rw [← Nat.pow_add, ← Nat.pow_add]
      congr 1
      omega
    rw [powMod, ih hhalf, square, hsplit, Nat.mul_mod, ← Nat.mul_mod (base^(exponent/2)),
      ← Nat.mul_mod]

def expMod (base exponent modulus : ℕ) : ℕ :=
  if modulus = 0 then 0 else powMod base modulus 256 exponent

def modSqrt (a p : ℕ) : ℕ := expMod a ((p+1)/4) p

def decompressCompressedSecp256k1 (comp : Bytes) : Except Revert Bytes := do
  require (comp.length = 33) .invalidPublicKey
  let lead := comp.headD 0
  require (lead = 0x02 ∨ lead = 0x03) .invalidPublicKey
  let p := fieldPrime
  let xUint := (loadWord comp 1).toNat
  let y2 := (xUint*(xUint*xUint%p)%p+7)%p
  let y := modSqrt y2 p
  require (y*y%p = y2) .pointNotOnCurve
  let y ← if y%2 ≠ lead.toNat%2 then sub p y else pure y
  return 0x04 :: (comp.drop 1++wordBytes (BitVec.ofNat 256 y))

/-- The coordinates of a key of 65, 64 or 33 bytes. -/
def pubkeyToXY (pubkey : Bytes) : Except Revert Bytes :=
  if pubkey.length = 65 then .ok (pubkey.drop 1)
  else if pubkey.length = 64 then .ok pubkey
  else if pubkey.length = 33 then do
    let uncompressed ← decompressCompressedSecp256k1 pubkey
    return uncompressed.drop 1
  else .error .invalidPublicKey

def ethAddressFromXY (K : Precompiles) (xy : Bytes) : Address := (K.keccak256 xy).setWidth 160

def btcHash160FromPubkey (K : Precompiles) (pubkey : Bytes) : Except Revert Bytes20 := do
  let full ←
    if pubkey.length = 65 then pure pubkey
    else if pubkey.length = 64 then pure (0x04 :: pubkey)
    else if pubkey.length = 33 then pure pubkey
    else throw Revert.invalidPublicKey
  return K.ripemd160 (wordBytes (K.sha256 full))

/-- The copies for keys in memory differ in nothing else. -/
def pubkeyToXYMem (pubkey : Bytes) : Except Revert Bytes := pubkeyToXY pubkey

def btcHash160FromPubkeyMem (K : Precompiles) (pubkey : Bytes) : Except Revert Bytes20 :=
  btcHash160FromPubkey K pubkey

def toHex (data : Bytes) : Bytes :=
  let alphabet := utf8 "0123456789abcdef"
  utf8 "0x"++data.flatMap fun b : UInt8 =>
    [alphabet.getD (b >>> 4).toNat 0, alphabet.getD (b &&& 0x0f).toNat 0]

def hexForm (account : Address) : Bytes := toHex (BinaOracle.addressBytes account)

def encodeCompactSize (n : ℕ) : Bytes :=
  if n < 253 then [UInt8.ofNat n]
  else if n ≤ 0xffff then 0xfd :: leBytes 2 n
  else if n ≤ 0xffffffff then 0xfe :: leBytes 4 n
  else 0xff :: leBytes 8 n

def toBitcoinSignedMessageHash (K : Precompiles) (message : Bytes) : Bytes32 :=
  let data := utf8 "\x18Bitcoin Signed Message:\n"++encodeCompactSize message.length++message
  K.sha256 (wordBytes (K.sha256 data))

def toEthSignedMessageHash (K : Precompiles) (message : Bytes) : Bytes32 :=
  K.keccak256 (utf8 "\x19Ethereum Signed Message:\n"++strBytes (showNat message.length)++message)

def splitCompact (sig : Bytes) : Except Revert (Bytes32 × Bytes32 × UInt8) := do
  let recId := (sig.headD 0-27) &&& 3
  let r := loadWord sig 1
  let s := loadWord sig 33
  require (s.toNat ≤ halfOrder) .signatureSMustBeLowOrder
  return (r, s, 27+recId)

def splitExpanded (sig : Bytes) : Except Revert (Bytes32 × Bytes32 × UInt8) := do
  let vLast := sig.getD 64 0
  let v := if vLast < 27 then vLast+27 else vLast
  let r := loadWord sig 0
  let s := loadWord sig 32
  require (s.toNat ≤ halfOrder) .signatureSMustBeLowOrder
  return (r, s, v)

def compactHeader (header : UInt8) : Bool :=
  27 ≤ header && header ≤ 34 && (header-27) &&& 3 ≤ 1

def verifyCompact (K : Precompiles) (expectedSigner : Address) (signature message : Bytes) :
    Except Revert Bool :=
  if compactHeader (signature.headD 0) then do
    let (r, s, v) ← splitCompact signature
    return K.ecrecover (toBitcoinSignedMessageHash K message) v r s == expectedSigner
  else return false

def verifyExpanded (K : Precompiles) (expectedSigner : Address) (signature message : Bytes) :
    Except Revert Bool :=
  let vLast := signature.getD 64 0
  if vLast = 0 ∨ vLast = 1 ∨ vLast = 27 ∨ vLast = 28 then do
    let (r, s, v) ← splitExpanded signature
    return K.ecrecover (toEthSignedMessageHash K message) v r s == expectedSigner
  else return false

def verifySignatureFromMemory (K : Precompiles) (pubkey signature message : Bytes) :
    Except Revert Bool :=
  if pubkey.length ≠ 65 ∧ pubkey.length ≠ 64 ∧ pubkey.length ≠ 33 then return false
  else if signature.length ≠ 65 then return false
  else if pubkey.length = 33 ∧ pubkey.headD 0 ≠ 0x02 ∧ pubkey.headD 0 ≠ 0x03 then return false
  else do
    let xy ← pubkeyToXY pubkey
    let expectedSigner := ethAddressFromXY K xy
    if ← verifyCompact K expectedSigner signature message then return true
    else verifyExpanded K expectedSigner signature message

/-- The key's owner signed the text, as one kind of wallet or the other does. -/
def Signed (K : Precompiles) (pubkey signature message : Bytes) : Prop :=
  ∃ xy digest r s v, pubkeyToXY pubkey = .ok xy ∧ s.toNat ≤ halfOrder ∧
    (digest = toBitcoinSignedMessageHash K message ∧ splitCompact signature = .ok (r, s, v) ∨
      digest = toEthSignedMessageHash K message ∧ splitExpanded signature = .ok (r, s, v)) ∧
    K.ecrecover digest v r s = ethAddressFromXY K xy

theorem splitCompact_low {sig : Bytes} {r s : Bytes32} {v : UInt8}
    (h : splitCompact sig = .ok (r, s, v)) : s.toNat ≤ halfOrder := by
  unfold splitCompact at h
  simp only [bind_eq_ok, require_eq_ok, pure_eq_ok, Prod.mk.injEq] at h
  obtain ⟨_, hlow, -, rfl, -⟩ := h
  exact hlow

theorem splitExpanded_low {sig : Bytes} {r s : Bytes32} {v : UInt8}
    (h : splitExpanded sig = .ok (r, s, v)) : s.toNat ≤ halfOrder := by
  unfold splitExpanded at h
  simp only [bind_eq_ok, require_eq_ok, pure_eq_ok, Prod.mk.injEq] at h
  obtain ⟨_, hlow, -, rfl, -⟩ := h
  exact hlow

section Verified

variable {K : Precompiles} {pubkey signature message : Bytes}

theorem verifyCompact_true {expectedSigner : Address}
    (h : verifyCompact K expectedSigner signature message = .ok true) :
    ∃ r s v, splitCompact signature = .ok (r, s, v) ∧
      K.ecrecover (toBitcoinSignedMessageHash K message) v r s = expectedSigner := by
  unfold verifyCompact at h
  rcases ite_eq_ok.mp h with ⟨-, h⟩ | ⟨-, h⟩
  · obtain ⟨⟨r, s, v⟩, hsplit, h⟩ := bind_eq_ok.mp h
    exact ⟨r, s, v, hsplit, eq_of_beq (pure_eq_ok.mp h)⟩
  · cases pure_eq_ok.mp h

theorem verifyExpanded_true {expectedSigner : Address}
    (h : verifyExpanded K expectedSigner signature message = .ok true) :
    ∃ r s v, splitExpanded signature = .ok (r, s, v) ∧
      K.ecrecover (toEthSignedMessageHash K message) v r s = expectedSigner := by
  unfold verifyExpanded at h
  rcases ite_eq_ok.mp h with ⟨-, h⟩ | ⟨-, h⟩
  · obtain ⟨⟨r, s, v⟩, hsplit, h⟩ := bind_eq_ok.mp h
    exact ⟨r, s, v, hsplit, eq_of_beq (pure_eq_ok.mp h)⟩
  · cases pure_eq_ok.mp h

theorem verified_signed (h : verifySignatureFromMemory K pubkey signature message = .ok true) :
    Signed K pubkey signature message := by
  unfold verifySignatureFromMemory at h
  simp only [ite_eq_ok, pure_eq_ok, reduceCtorEq, and_false, false_or, bind_eq_ok] at h
  obtain ⟨-, -, -, xy, hxy, compact, hcompact, h⟩ := h
  rcases h with ⟨rfl, -⟩ | ⟨-, hexpanded⟩
  · obtain ⟨r, s, v, hsplit, hsigner⟩ := verifyCompact_true hcompact
    exact ⟨xy, _, r, s, v, hxy, splitCompact_low hsplit, Or.inl ⟨rfl, hsplit⟩, hsigner⟩
  · obtain ⟨r, s, v, hsplit, hsigner⟩ := verifyExpanded_true hexpanded
    exact ⟨xy, _, r, s, v, hxy, splitExpanded_low hsplit, Or.inr ⟨rfl, hsplit⟩, hsigner⟩

end Verified

def toyPrecompiles : Precompiles where
  keccak256 b := wordOf (toyDigest (0x4b :: b))
  sha256 b := wordOf (toyDigest (0x53 :: b))
  ripemd160 b := (wordOf (toyDigest (0x52 :: b))).setWidth 160
  ecrecover digest _ r s := if s = digest then r.setWidth 160 else 0

def toyKey (x : Bytes32) : Bytes := 0x02 :: wordBytes x

def toySigner (x : Bytes32) : Bytes32 :=
  (ethAddressFromXY toyPrecompiles ((pubkeyToXY (toyKey x)).toOption.getD [])).setWidth 256

end BinaChain.FastPath
