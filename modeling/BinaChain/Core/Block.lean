import BinaChain.Core.Crypto

/-!
# Block headers and their proof of work

The block hash covers every header field. The difficulty check and the work
measure both read the leading zero bits of that hash, each with its own loop.
-/

set_option autoImplicit false

namespace BinaChain.Block
open BinaChain.Word BinaChain.Crypto

def domainTag : Bytes := utf8 "BINA-L1-v1"

def genesisPrevHash : Hash := zeroHash

def genesisMinerAddress : WalletAddress := Vector.replicate 20 0

structure L1BlockHeader where
  version : ℕ
  height : ℕ
  prevHash : Hash
  merkleRoot : Hash
  stateRoot : Hash
  timestamp : ℕ
  nonce : ℕ
  minerAddress : WalletAddress
  difficultyBits : ℕ
  bitcoinSeedHash : Hash
  deriving DecidableEq

def L1BlockHeader.hash (K : Primitives) (h : L1BlockHeader) : Hash :=
  K.blake3 (domainTag++leBytes 4 h.version++leBytes 8 h.height++h.prevHash.toList++
    h.merkleRoot.toList++h.stateRoot.toList++leBytes 8 h.timestamp++leBytes 8 h.nonce++
    h.minerAddress.toList++leBytes 4 h.difficultyBits++h.bitcoinSeedHash.toList)

def meetsDifficulty (hash : Hash) (bits : ℕ) : Bool :=
  if bits = 0 then true
  else
    let fullBytes := bits/8
    let remainder := bits%8
    if (hash.toList.take fullBytes).any (· ≠ 0) then false
    else if h : remainder > 0 ∧ fullBytes < 32 then
      hash.get ⟨fullBytes, h.2⟩ &&& (0xff <<< UInt8.ofNat (8-remainder)) == 0
    else true

def byteLeadingZeros (b : UInt8) : ℕ := if b = 0 then 8 else 7-b.toNat.log2

def leadingZeroBitsFrom : Bytes → ℕ
  | [] => 0
  | b :: rest => if b = 0 then 8+leadingZeroBitsFrom rest else byteLeadingZeros b

def leadingZeroBits (hash : Hash) : ℕ := leadingZeroBitsFrom hash.toList

def MaskedClear (b : UInt8) (r : ℕ) : Prop := (b &&& (0xff <<< UInt8.ofNat (8-r)) == 0) = true

instance (b : UInt8) (r : ℕ) : Decidable (MaskedClear b r) :=
  inferInstanceAs (Decidable (_ = true))

theorem maskedClear_table : ∀ r : Fin 8, 0 < r.val → ∀ n : Fin 256,
    MaskedClear (UInt8.ofNat n) r ↔ r.val ≤ byteLeadingZeros (UInt8.ofNat n) := by
  decide +kernel

theorem maskedClear_iff (b : UInt8) {r : ℕ} (h : 0 < r) (hr : r < 8) :
    MaskedClear b r ↔ r ≤ byteLeadingZeros b := by
  have := maskedClear_table ⟨r, hr⟩ h ⟨b.toNat, b.toNat_lt⟩
  simpa using this

theorem byteLeadingZeros_lt {b : UInt8} (h : b ≠ 0) : byteLeadingZeros b < 8 := by
  rw [byteLeadingZeros, if_neg h]
  omega

@[simp] theorem leadingZeroBitsFrom_zero (rest : Bytes) :
    leadingZeroBitsFrom (0 :: rest) = 8+leadingZeroBitsFrom rest := rfl

theorem leadingZeroBitsFrom_cons {b : UInt8} (h : b ≠ 0) (rest : Bytes) :
    leadingZeroBitsFrom (b :: rest) = byteLeadingZeros b := by
  rw [leadingZeroBitsFrom, if_neg h]

theorem le_leadingZeroBitsFrom (bytes : Bytes) (bits : ℕ) (h : bits ≤ 8*bytes.length) :
    bits ≤ leadingZeroBitsFrom bytes ↔ (∀ b ∈ bytes.take (bits/8), b = 0) ∧
      (0 < bits%8 → ∀ b ∈ bytes[bits/8]?, bits%8 ≤ byteLeadingZeros b) := by
  induction bytes generalizing bits with
  | nil =>
    have hzero : bits = 0 := by simpa using h
    simp [hzero]
  | cons b rest ih =>
    rcases Nat.lt_or_ge bits 8 with hsmall | hlarge
    · rw [Nat.div_eq_of_lt hsmall, Nat.mod_eq_of_lt hsmall]
      by_cases hb : b = 0
      · subst hb
        have hzeros : byteLeadingZeros 0 = 8 := rfl
        simp only [leadingZeroBitsFrom_zero, List.take_zero, List.not_mem_nil, false_imp_iff,
          implies_true, List.getElem?_cons_zero, Option.mem_some_iff, true_and, forall_eq', hzeros]
        omega
      · rw [leadingZeroBitsFrom_cons hb]
        simp only [List.take_zero, List.not_mem_nil, false_imp_iff,
          implies_true, List.getElem?_cons_zero, Option.mem_some_iff, true_and, forall_eq']
        omega
    · obtain ⟨k, rfl⟩ := Nat.exists_eq_add_of_le hlarge
      have hk : k ≤ 8*rest.length := by
        rw [List.length_cons] at h
        omega
      rw [Nat.add_div_left k (by omega), Nat.add_mod_left, List.take_succ_cons,
        List.getElem?_cons_succ, List.forall_mem_cons]
      by_cases hb : b = 0
      · subst hb
        rw [leadingZeroBitsFrom_zero, Nat.add_le_add_iff_left, ih k hk]
        simp
      · rw [leadingZeroBitsFrom_cons hb]
        have := byteLeadingZeros_lt hb
        constructor
        · intro hle
          omega
        · intro hall
          exact absurd hall.1.1 hb

theorem meetsDifficulty_eq (hash : Hash) (bits : ℕ) :
    meetsDifficulty hash bits = true ↔ (∀ b ∈ hash.toList.take (bits/8), b = 0) ∧
      (0 < bits%8 → ∀ b ∈ hash.toList[bits/8]?, MaskedClear b (bits%8)) := by
  unfold meetsDifficulty
  by_cases hzero : bits = 0
  · simp [hzero]
  · rw [if_neg hzero]
    by_cases hbytes : ∀ b ∈ hash.toList.take (bits/8), b = 0
    · have hany : (hash.toList.take (bits/8)).any (· ≠ 0) = false := by
        simpa using hbytes
      simp only [hany, Bool.false_eq_true, if_false]
      rw [and_iff_right hbytes]
      by_cases hpart : bits%8 > 0 ∧ bits/8 < 32
      · have hget : hash.toList[bits/8]? = some (hash.get ⟨bits/8, hpart.2⟩) := by
          simp [Vector.get, hpart.2]
        rw [dif_pos hpart, hget]
        simp [hpart.1, MaskedClear]
      · rw [dif_neg hpart]
        simp only [true_iff]
        intro hr b hb
        have hlt := (List.getElem?_eq_some_iff.mp hb).1
        rw [Vector.length_toList] at hlt
        exact absurd ⟨hr, hlt⟩ hpart
    · have hany : (hash.toList.take (bits/8)).any (· ≠ 0) = true := by
        simpa using hbytes
      rw [if_pos hany]
      simp [hbytes]

/-- The proof-of-work check and the work measure agree on every hash. -/
theorem meetsDifficulty_iff (hash : Hash) (bits : ℕ) (h : bits ≤ 256) :
    meetsDifficulty hash bits = true ↔ bits ≤ leadingZeroBits hash := by
  have hlen : bits ≤ 8*hash.toList.length := by
    rw [Vector.length_toList]
    exact h
  rw [leadingZeroBits, le_leadingZeroBitsFrom _ _ hlen, meetsDifficulty_eq]
  apply and_congr_right
  intro _
  apply forall_congr'
  intro hr
  apply forall₂_congr
  intro b _
  exact maskedClear_iff b hr (Nat.mod_lt bits (by omega))

theorem meetsDifficulty_iff_zero :
    meetsDifficulty zeroHash 256 = true ↔ 256 ≤ leadingZeroBits zeroHash :=
  meetsDifficulty_iff zeroHash 256 (by decide)

def timestampIsValid (candidateMs prevMs validatorNowMs maxFutureMs : ℕ) : Bool :=
  candidateMs > prevMs && candidateMs ≤ satAdd validatorNowMs maxFutureMs

theorem timestampIsValid_iff {c p n m : ℕ} :
    timestampIsValid c p n m = true ↔ p < c ∧ c ≤ satAdd n m := by
  simp [timestampIsValid]

end BinaChain.Block
