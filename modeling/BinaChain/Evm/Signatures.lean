import BinaChain.Evm.BitcoinKey

/-!
# Two readings of one signature

The 65 bytes of a signature are read in one layout first and then in the other.
The check of a low `s` belongs to a reading, but a high one ends the call, so a
signature in the second layout also depends on how it looks in the first.
-/

set_option autoImplicit false

namespace BinaChain.FastPath
open BinaChain.Word BinaChain.Text BinaChain.Crypto BinaChain.Checked BinaChain.Oracle

variable {K : Precompiles} {signer : Address} {pubkey signature message : Bytes}

/-- The reading that starts with a header recovers the signer. -/
def CompactReads (K : Precompiles) (signature message : Bytes) (signer : Address) : Prop :=
  compactHeader (signature.headD 0) = true ∧ (loadWord signature 33).toNat ≤ halfOrder ∧
    K.ecrecover (toBitcoinSignedMessageHash K message) (27+((signature.headD 0-27) &&& 3))
      (loadWord signature 1) (loadWord signature 33) = signer

/-- The reading that ends with `v` recovers the signer. -/
def ExpandedReads (K : Precompiles) (signature message : Bytes) (signer : Address) : Prop :=
  (signature.getD 64 0 = 0 ∨ signature.getD 64 0 = 1 ∨ signature.getD 64 0 = 27 ∨
    signature.getD 64 0 = 28) ∧ (loadWord signature 32).toNat ≤ halfOrder ∧
    K.ecrecover (toEthSignedMessageHash K message)
      (if signature.getD 64 0 < 27 then signature.getD 64 0+27 else signature.getD 64 0)
      (loadWord signature 0) (loadWord signature 32) = signer

/-- The first byte is that of a header, and what follows it has a high `s`. -/
def LooksHigh (signature : Bytes) : Prop :=
  compactHeader (signature.headD 0) = true ∧ halfOrder < (loadWord signature 33).toNat

/-- The key has an address, and that is what the reading recovers. -/
def ByKey (K : Precompiles) (pubkey : Bytes) (reads : Address → Prop) : Prop :=
  ∃ xy, pubkeyToXY pubkey = .ok xy ∧ reads (ethAddressFromXY K xy)

theorem verifyCompact_eq (signature message : Bytes) (signer : Address) :
    verifyCompact K signer signature message =
      if compactHeader (signature.headD 0) = true then
        if (loadWord signature 33).toNat ≤ halfOrder then
          .ok (K.ecrecover (toBitcoinSignedMessageHash K message)
            (27+((signature.headD 0-27) &&& 3)) (loadWord signature 1) (loadWord signature 33) ==
              signer)
        else .error .signatureSMustBeLowOrder
      else .ok false := by
  unfold verifyCompact splitCompact require
  split
  · by_cases hlow : (loadWord signature 33).toNat ≤ halfOrder
    · simp only [if_pos hlow]
      rfl
    · simp only [if_neg hlow]
      rfl
  · rfl

theorem verifyCompact_true_iff :
    verifyCompact K signer signature message = .ok true ↔
      CompactReads K signature message signer := by
  rw [verifyCompact_eq, CompactReads]
  generalize signature.headD 0 = header
  by_cases hheader : compactHeader header = true
  · by_cases hlow : (loadWord signature 33).toNat ≤ halfOrder <;> simp [hheader, hlow]
  · simp [hheader]

theorem verifyCompact_false_iff :
    verifyCompact K signer signature message = .ok false ↔
      ¬ CompactReads K signature message signer ∧ ¬ LooksHigh signature := by
  rw [verifyCompact_eq, CompactReads, LooksHigh]
  generalize signature.headD 0 = header
  by_cases hheader : compactHeader header = true
  · by_cases hlow : (loadWord signature 33).toNat ≤ halfOrder
    · have hnot : ¬ halfOrder < (loadWord signature 33).toNat := by omega
      simp [hheader, hlow]
    · have hhigh : halfOrder < (loadWord signature 33).toNat := by omega
      simp [hheader, hlow, hhigh]
  · simp [hheader]

theorem verifyExpanded_true_iff :
    verifyExpanded K signer signature message = .ok true ↔
      ExpandedReads K signature message signer := by
  unfold verifyExpanded splitExpanded require ExpandedReads
  dsimp only
  split
  · rename_i hv
    by_cases hlow : (loadWord signature 32).toNat ≤ halfOrder
    · simp only [hv, hlow, if_true, true_and, bind, Except.bind, pure, Except.pure,
        Except.ok.injEq, beq_iff_eq]
    · simp only [hv, hlow, if_false, true_and, bind, Except.bind, false_and, reduceCtorEq]
  · rename_i hv
    simp only [hv, pure_eq_ok, false_and, Bool.false_eq_true]

theorem LooksHigh.not_compact (h : LooksHigh signature) :
    ¬ CompactReads K signature message signer := by
  intro hc
  have := hc.2.1
  have := h.2
  omega

theorem pubkeyToXY_lead {xy : Bytes} (h : pubkeyToXY pubkey = .ok xy) (hlen : pubkey.length = 33) :
    pubkey.headD 0 = 0x02 ∨ pubkey.headD 0 = 0x03 := by
  unfold pubkeyToXY at h
  rw [if_neg (by omega), if_neg (by omega), if_pos hlen] at h
  obtain ⟨full, hfull, -⟩ := bind_eq_ok.mp h
  unfold decompressCompressedSecp256k1 at hfull
  simp only [bind_eq_ok, require_eq_ok] at hfull
  obtain ⟨-, -, -, hlead, -⟩ := hfull
  exact hlead

theorem verify_true_iff (hkey : pubkey.length = 65 ∨ pubkey.length = 64 ∨ pubkey.length = 33)
    (hsig : signature.length = 65) :
    verifySignatureFromMemory K pubkey signature message = .ok true ↔
      ByKey K pubkey fun signer => CompactReads K signature message signer ∨
        (¬ LooksHigh signature ∧ ExpandedReads K signature message signer) := by
  unfold verifySignatureFromMemory
  rw [if_neg (by omega), if_neg (by omega)]
  have hbody : ∀ xy, (do
      let matched ← verifyCompact K (ethAddressFromXY K xy) signature message
      if matched then return true
      else verifyExpanded K (ethAddressFromXY K xy) signature message : Except Revert Bool) =
        .ok true ↔ CompactReads K signature message (ethAddressFromXY K xy) ∨
          (¬ LooksHigh signature ∧ ExpandedReads K signature message (ethAddressFromXY K xy)) := by
    intro xy
    by_cases hc : CompactReads K signature message (ethAddressFromXY K xy)
    · rw [verifyCompact_true_iff.mpr hc]
      exact ⟨fun _ => .inl hc, fun _ => rfl⟩
    · by_cases hhigh : LooksHigh signature
      · rw [verifyCompact_eq, if_pos hhigh.1, if_neg (Nat.not_le.mpr hhigh.2)]
        simp [bind, Except.bind, hc, hhigh]
      · rw [verifyCompact_false_iff.mpr ⟨hc, hhigh⟩]
        simp only [hc, hhigh, false_or, not_false_iff, true_and]
        exact verifyExpanded_true_iff
  constructor
  · intro h
    rcases ite_eq_ok.mp h with ⟨-, h⟩ | ⟨-, h⟩
    · cases pure_eq_ok.mp h
    · obtain ⟨xy, hxy, h⟩ := bind_eq_ok.mp h
      exact ⟨xy, hxy, (hbody xy).mp h⟩
  · rintro ⟨xy, hxy, h⟩
    have hlead : ¬ (pubkey.length = 33 ∧ pubkey.headD 0 ≠ 0x02 ∧ pubkey.headD 0 ≠ 0x03) := by
      rintro ⟨hlen, h2, h3⟩
      rcases pubkeyToXY_lead hxy hlen with hb | hb
      · exact h2 hb
      · exact h3 hb
    rw [if_neg hlead, hxy]
    exact (hbody xy).mpr h

/-- The two readings decide, except for a signature of the second layout that has a
high `s` when it is read in the first. -/
theorem verify_reads_iff (K : Precompiles) (pubkey signature message : Bytes)
    (hkey : pubkey.length = 65 ∨ pubkey.length = 64 ∨ pubkey.length = 33)
    (hsig : signature.length = 65) :
    (verifySignatureFromMemory K pubkey signature message = .ok true ↔
      ByKey K pubkey (CompactReads K signature message) ∨
        ByKey K pubkey (ExpandedReads K signature message)) ↔
    ¬ (LooksHigh signature ∧ ByKey K pubkey (ExpandedReads K signature message)) := by
  rw [verify_true_iff hkey hsig]
  constructor
  · rintro h ⟨hhigh, hexpanded⟩
    obtain ⟨xy, -, hc | ⟨hnot, -⟩⟩ := h.mpr (.inr hexpanded)
    · exact hhigh.not_compact hc
    · exact hnot hhigh
  · intro h
    constructor
    · rintro ⟨xy, hxy, hc | ⟨-, he⟩⟩
      · exact .inl ⟨xy, hxy, hc⟩
      · exact .inr ⟨xy, hxy, he⟩
    · rintro (⟨xy, hxy, hc⟩ | ⟨xy, hxy, he⟩)
      · exact ⟨xy, hxy, .inl hc⟩
      · exact ⟨xy, hxy, .inr ⟨fun hhigh => h ⟨hhigh, xy, hxy, he⟩, he⟩⟩

def toyPoint : Bytes := List.replicate 64 1

def toyText : Bytes := [0x62]

def toyTall : Precompiles where
  keccak256 := toyPrecompiles.keccak256
  sha256 := toyPrecompiles.sha256
  ripemd160 := toyPrecompiles.ripemd160
  ecrecover digest _ r s := if s = digest ||| (1 <<< 247) then r.setWidth 160 else 0

def toyExpanded (lead : UInt8) : Bytes :=
  let r : Bytes32 := (BitVec.ofNat 256 lead.toNat <<< 248) |||
    (ethAddressFromXY toyTall toyPoint).setWidth 256
  wordBytes r++wordBytes (toEthSignedMessageHash toyTall toyText ||| (1 <<< 247))++[28]

instance (K : Precompiles) (signature message : Bytes) (signer : Address) :
    Decidable (ExpandedReads K signature message signer) :=
  inferInstanceAs (Decidable (_ ∧ _))

theorem expanded_rejected : (toyExpanded 27).length = 65 ∧
    ExpandedReads toyTall (toyExpanded 27) toyText (ethAddressFromXY toyTall toyPoint) ∧
    verifySignatureFromMemory toyTall toyPoint (toyExpanded 27) toyText =
      .error .signatureSMustBeLowOrder ∧
    ¬ (verifySignatureFromMemory toyTall toyPoint (toyExpanded 27) toyText = .ok true ↔
      ByKey toyTall toyPoint (CompactReads toyTall (toyExpanded 27) toyText) ∨
        ByKey toyTall toyPoint (ExpandedReads toyTall (toyExpanded 27) toyText)) := by
  have hfacts : (toyExpanded 27).length = 65 ∧
      ExpandedReads toyTall (toyExpanded 27) toyText (ethAddressFromXY toyTall toyPoint) ∧
      verifySignatureFromMemory toyTall toyPoint (toyExpanded 27) toyText =
        .error .signatureSMustBeLowOrder := by decide +kernel
  obtain ⟨hlen, hreads, herror⟩ := hfacts
  refine ⟨hlen, hreads, herror, fun h => ?_⟩
  have hok := h.mpr (.inr ⟨toyPoint, rfl, hreads⟩)
  rw [herror] at hok
  cases hok

theorem verify_reads_sample :
    verifySignatureFromMemory toyTall toyPoint (toyExpanded 26) toyText = .ok true ∧
      ByKey toyTall toyPoint (ExpandedReads toyTall (toyExpanded 26) toyText) ∧
      ¬ ByKey toyTall toyPoint (CompactReads toyTall (toyExpanded 26) toyText) := by
  obtain ⟨hlen, hheader, hreads⟩ : (toyExpanded 26).length = 65 ∧
      compactHeader ((toyExpanded 26).headD 0) = false ∧
      ExpandedReads toyTall (toyExpanded 26) toyText (ethAddressFromXY toyTall toyPoint) := by
    decide +kernel
  have hexpanded : ByKey toyTall toyPoint (ExpandedReads toyTall (toyExpanded 26) toyText) :=
    ⟨toyPoint, rfl, hreads⟩
  have hlow : ¬ LooksHigh (toyExpanded 26) := by
    rintro ⟨hhigh, -⟩
    rw [hheader] at hhigh
    cases hhigh
  refine ⟨((verify_reads_iff toyTall toyPoint (toyExpanded 26) toyText (.inr (.inl rfl)) hlen).mpr
    fun h => hlow h.1).mpr (.inr hexpanded), hexpanded, ?_⟩
  rintro ⟨xy, -, hcompact, -⟩
  rw [hheader] at hcompact
  cases hcompact

end BinaChain.FastPath
