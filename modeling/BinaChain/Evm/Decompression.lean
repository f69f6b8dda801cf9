import BinaChain.Evm.BitcoinKey
import BinaChain.Evm.Deauthorised
import BinaChain.Support.Residue
import Mathlib.Tactic.NormNum.Prime

/-!
# Decompression of public keys

A compressed key gives the abscissa of a point and the parity of its ordinate.
Both copies of the decompression find the ordinate by a single power, since the
field prime is three modulo four, and no point of the curve has ordinate zero.
-/

set_option autoImplicit false

namespace BinaChain.FastPath
open BinaChain.Word BinaChain.Checked BinaChain.Oracle BinaChain.BinaOracle BinaChain.Residue

/-- `bytes` in memory: the length in a word of its own, then the bytes. -/
def inMemory (b : Bytes) : Bytes := wordBytes (BitVec.ofNat 256 b.length)++b

def decompressCompressedSecp256k1Mem (comp : Bytes) : Except Revert Bytes := do
  require (comp.length = 33) .invalidPublicKey
  let lead := comp.headD 0
  require (lead = 0x02 ∨ lead = 0x03) .invalidPublicKey
  let p := fieldPrime
  let xUint := (loadWord (inMemory comp) 33).toNat
  let y2 := (xUint*(xUint*xUint%p)%p+7)%p
  let y := modSqrt y2 p
  require (y*y%p = y2) .pointNotOnCurve
  let y ← if y%2 ≠ lead.toNat%2 then sub p y else pure y
  return 0x04 :: (comp.drop 1++wordBytes (BitVec.ofNat 256 y))

/-- The number has order `p-1` modulo `p`, as the factors of `p-1` show. -/
def hasFullOrder (p a : ℕ) (factors : List ℕ) : Bool :=
  1 < p && p < 2^256 && factors.prod == p-1 && powMod a p 256 (p-1) == 1 &&
    factors.all fun q => powMod a p 256 ((p-1)/q) != 1

theorem powMod_modEq {a p e : ℕ} (hp : 1 < p) (he : e < 2^256) :
    powMod a p 256 e = 1 ↔ a^e ≡ 1 [MOD p] := by
  rw [powMod_eq he, Nat.ModEq, Nat.mod_eq_of_lt hp]

theorem prime_of_fullOrder {p : ℕ} (a : ℕ) (factors : List ℕ)
    (h : hasFullOrder p a factors = true) (hprime : ∀ q ∈ factors, q.Prime) : p.Prime := by
  simp only [hasFullOrder, Bool.and_eq_true, decide_eq_true_eq, beq_iff_eq, List.all_eq_true,
    bne_iff_ne] at h
  obtain ⟨⟨⟨⟨hp, hbound⟩, hprod⟩, hfull⟩, hpart⟩ := h
  have hexp (q : ℕ) : (p-1)/q < 2^256 := by
    have hle := Nat.div_le_self (p-1) q
    omega
  apply prime_of_order hprod hprime ((powMod_modEq hp (by omega)).mp hfull)
  intro q hq hone
  exact hpart q hq ((powMod_modEq hp (hexp q)).mpr hone)

theorem prime_with {q : ℕ} {small large : List ℕ} (hsmall : ∀ q ∈ small, q.Prime) (hq : q.Prime)
    (hlarge : ∀ q ∈ large, q.Prime) : ∀ r ∈ small++q :: large, r.Prime :=
  List.forall_mem_append.mpr ⟨hsmall, List.forall_mem_cons.mpr ⟨hq, hlarge⟩⟩

theorem prime_18_digits : Nat.Prime 173378833005251801 :=
  prime_of_fullOrder 6 [2, 2, 2, 5, 5, 2621, 24809, 13331831] (by decide +kernel) (by norm_num)

theorem prime_23_digits : Nat.Prime 22149492674086928081353 :=
  prime_of_fullOrder 5 ([2, 2, 2, 3, 5323]++[173378833005251801]) (by decide +kernel)
    (prime_with (by norm_num) prime_18_digits (by simp))

theorem prime_24_digits : Nat.Prime 132896956044521568488119 :=
  prime_of_fullOrder 6 ([2, 3]++[22149492674086928081353]) (by decide +kernel)
    (prime_with (by norm_num) prime_23_digits (by simp))

theorem prime_39_digits : Nat.Prime 255515944373312847190720520512484175977 :=
  prime_of_fullOrder 3
    [2, 2, 2, 7, 7, 11, 1627, 2657, 4423, 41201, 96557, 7240687, 107590001] (by decide +kernel)
    (by norm_num)

theorem prime_72_digits :
    Nat.Prime 205115282021455665897114700593932402728804164701536103180137503955397371 :=
  prime_of_fullOrder 10 ([2, 3, 5, 29, 29, 31, 7723]++
    [132896956044521568488119, 255515944373312847190720520512484175977]) (by decide +kernel)
    (prime_with (by norm_num) prime_24_digits (by simpa using prime_39_digits))

theorem fieldPrime_prime : fieldPrime.Prime :=
  prime_of_fullOrder 3 ([2, 3, 7, 13441]++
    [205115282021455665897114700593932402728804164701536103180137503955397371])
    (by decide +kernel) (prime_with (by norm_num) prime_72_digits (by simp))

/-- The ordinate, of the parity of the leading byte, at an abscissa. -/
structure Ordinate (x : ℕ) (lead : UInt8) (y : ℕ) : Prop where
  lt : y < fieldPrime
  curve : y^2 ≡ x^3+7 [MOD fieldPrime]
  parity : y%2 = lead.toNat%2

theorem seven_not_cube (x : ℕ) : ¬ x^3+7 ≡ 0 [MOD fieldPrime] := by
  intro h
  have hcube : x^3 ≡ fieldPrime-7 [MOD fieldPrime] := by
    apply Nat.ModEq.add_right_cancel' 7
    rw [show fieldPrime-7+7 = fieldPrime by decide]
    exact h.trans (Nat.modEq_zero_iff_dvd.mpr dvd_rfl).symm
  have hpower : powMod (fieldPrime-7) fieldPrime 256 ((fieldPrime-1)/3) ≠ 1 := by decide +kernel
  apply hpower
  rw [powMod_modEq (by decide) (by decide)]
  exact cube_power fieldPrime_prime (by decide) hcube (by decide)

theorem Ordinate.unique {x y z : ℕ} {lead : UInt8} (hy : Ordinate x lead y)
    (hz : Ordinate x lead z) : y = z := by
  have hodd : fieldPrime%2 = 1 := by decide
  have hyp := hy.parity
  have hzp := hz.parity
  rcases roots fieldPrime_prime hy.lt hz.lt (hy.curve.trans hz.curve.symm) with h | h
  · exact h
  · omega

def recoverOrdinate (xUint : ℕ) (lead : UInt8) : Except Revert ℕ := do
  let p := fieldPrime
  let y2 := (xUint*(xUint*xUint%p)%p+7)%p
  let y := modSqrt y2 p
  require (y*y%p = y2) .pointNotOnCurve
  if y%2 ≠ lead.toNat%2 then sub p y else pure y

theorem curve_value (x : ℕ) :
    (x*(x*x%fieldPrime)%fieldPrime+7)%fieldPrime = (x^3+7)%fieldPrime := by
  have hcube : x*(x*x%fieldPrime)%fieldPrime ≡ x^3 [MOD fieldPrime] := by
    rw [show x^3 = x*(x*x) by ring]
    exact (Nat.mod_modEq _ _).trans ((Nat.mod_modEq _ _).mul_left x)
  exact hcube.add_right 7

theorem modSqrt_eq (a : ℕ) :
    modSqrt a fieldPrime = a^((fieldPrime+1)/4)%fieldPrime := by
  unfold modSqrt expMod
  rw [if_neg (by decide), powMod_eq (by decide)]

theorem candidate_root (x : ℕ) :
    let y := modSqrt ((x^3+7)%fieldPrime) fieldPrime
    y*y%fieldPrime = (x^3+7)%fieldPrime ↔ ∃ z, z^2 ≡ x^3+7 [MOD fieldPrime] := by
  intro y
  constructor
  · intro h
    exact ⟨y, by rw [pow_two]; exact h⟩
  · rintro ⟨z, hz⟩
    have hy : y ≡ (x^3+7)^((fieldPrime+1)/4) [MOD fieldPrime] := by
      change modSqrt _ _ ≡ _ [MOD _]
      rw [modSqrt_eq]
      exact (Nat.mod_modEq _ _).trans ((Nat.mod_modEq _ _).pow _)
    have hroot := square_root fieldPrime_prime (by decide) hz
    rw [← pow_two]
    exact (hy.pow 2).trans hroot

theorem flipped {x y : ℕ} {lead : UInt8} (hlt : y < fieldPrime)
    (hcurve : y^2 ≡ x^3+7 [MOD fieldPrime]) (hpar : y%2 ≠ lead.toNat%2) :
    Ordinate x lead (fieldPrime-y) := by
  have hodd : fieldPrime%2 = 1 := by decide
  have hne : y ≠ 0 := by
    rintro rfl
    exact seven_not_cube x hcurve.symm
  refine ⟨by omega, ?_, by omega⟩
  have hsplit : (fieldPrime-y)^2+2*fieldPrime*y = y^2+fieldPrime*fieldPrime := by
    obtain ⟨d, hd⟩ := Nat.exists_eq_add_of_lt hlt
    rw [hd, show y+d+1-y = d+1 by omega]
    ring
  have hdrop : (fieldPrime-y)^2 ≡ (fieldPrime-y)^2+2*fieldPrime*y [MOD fieldPrime] := by
    rw [show 2*fieldPrime*y = fieldPrime*(2*y) by ring]
    exact (Nat.add_mul_mod_self_left _ _ _).symm
  have hadd : y^2+fieldPrime*fieldPrime ≡ y^2 [MOD fieldPrime] :=
    Nat.add_mul_mod_self_left _ _ _
  exact (hdrop.trans (hsplit ▸ hadd)).trans hcurve

theorem recoverOrdinate_ok {x : ℕ} {lead : UInt8} (h : ∃ z, z^2 ≡ x^3+7 [MOD fieldPrime]) :
    ∃ y, Ordinate x lead y ∧ recoverOrdinate x lead = .ok y := by
  have hroot := (candidate_root x).mpr h
  unfold recoverOrdinate
  dsimp only at hroot ⊢
  rw [curve_value, require, if_pos hroot]
  have hlt : modSqrt ((x^3+7)%fieldPrime) fieldPrime < fieldPrime := by
    rw [modSqrt_eq]
    exact Nat.mod_lt _ (by decide)
  generalize modSqrt ((x^3+7)%fieldPrime) fieldPrime = y at hroot hlt ⊢
  have hcurve : y^2 ≡ x^3+7 [MOD fieldPrime] := by
    rw [pow_two]
    exact hroot
  by_cases hpar : y%2 = lead.toNat%2
  · exact ⟨y, ⟨hlt, hcurve, hpar⟩, by simp [hpar, bind, Except.bind, pure, Except.pure]⟩
  · refine ⟨fieldPrime-y, flipped hlt hcurve hpar, ?_⟩
    simp [hpar, bind, Except.bind, sub, hlt.le]

theorem recoverOrdinate_error {x : ℕ} {lead : UInt8}
    (h : ¬ ∃ z, z^2 ≡ x^3+7 [MOD fieldPrime]) :
    recoverOrdinate x lead = .error .pointNotOnCurve := by
  unfold recoverOrdinate
  dsimp only
  rw [curve_value, require, if_neg fun hroot => h ((candidate_root x).mp hroot)]
  rfl

theorem foldl_leBytes (k n : ℕ) :
    (leBytes k n).reverse.foldl (fun acc b => acc*256+b.toNat) 0 = n%256^k := by
  induction k generalizing n with
  | zero => simp [leBytes, Nat.mod_one]
  | succ k ih =>
    have hlow : (UInt8.ofNat n).toNat = n%256 := by simp
    rw [leBytes_succ, List.reverse_cons, List.foldl_append, ih, List.foldl_cons, List.foldl_nil,
      hlow, Nat.pow_succ, Nat.mul_comm (256^k) 256, Nat.mod_mul]
    omega

theorem loadWord_append (front : Bytes) (x : Bytes32) :
    loadWord (front++wordBytes x) front.length = x := by
  unfold loadWord
  rw [List.drop_left, List.take_of_length_le (wordBytes_length x).le, wordBytes_eq,
    foldl_leBytes]
  apply BitVec.eq_of_toNat_eq
  rw [BitVec.toNat_ofNat]
  exact Nat.mod_eq_of_lt (Nat.mod_lt_of_lt x.isLt) |>.trans (Nat.mod_eq_of_lt x.isLt)

def uncompressedKey (x : Bytes32) (y : ℕ) : Bytes :=
  0x04 :: (wordBytes x++wordBytes (BitVec.ofNat 256 y))

theorem compressed_length (lead : UInt8) (x : Bytes32) : (lead :: wordBytes x).length = 33 := by
  rw [List.length_cons, wordBytes_length]

theorem decompress_eq {lead : UInt8} (hlead : lead = 0x02 ∨ lead = 0x03) (x : Bytes32) :
    decompressCompressedSecp256k1 (lead :: wordBytes x) =
      (recoverOrdinate x.toNat lead).map (uncompressedKey x) := by
  have hload : loadWord (lead :: wordBytes x) 1 = x := loadWord_append [lead] x
  unfold decompressCompressedSecp256k1 recoverOrdinate
  simp only [require, compressed_length, if_true, List.headD_cons, hlead, hload, List.drop_one,
    List.tail_cons, bind, Except.bind]
  split
  · rfl
  · split <;> rfl

theorem decompressMem_eq {lead : UInt8} (hlead : lead = 0x02 ∨ lead = 0x03) (x : Bytes32) :
    decompressCompressedSecp256k1Mem (lead :: wordBytes x) =
      (recoverOrdinate x.toNat lead).map (uncompressedKey x) := by
  have hload : loadWord (inMemory (lead :: wordBytes x)) 33 = x := by
    have hfront : inMemory (lead :: wordBytes x) =
        (wordBytes (BitVec.ofNat 256 (lead :: wordBytes x).length)++[lead])++wordBytes x := by
      simp [inMemory]
    have hlen : (wordBytes (BitVec.ofNat 256 (lead :: wordBytes x).length)++[lead]).length = 33 := by
      rw [List.length_append, wordBytes_length, List.length_singleton]
    rw [hfront, ← hlen, loadWord_append]
  unfold decompressCompressedSecp256k1Mem recoverOrdinate
  simp only [require, compressed_length, if_true, List.headD_cons, hlead, hload, List.drop_one,
    List.tail_cons, bind, Except.bind]
  split
  · rfl
  · split <;> rfl

/-- Both copies return the point of the curve with the abscissa and the parity,
and revert when the curve has none. -/
theorem decompresses_points {lead : UInt8} (hlead : lead = 0x02 ∨ lead = 0x03) (x : Bytes32) :
    ((∃ z, z^2 ≡ x.toNat^3+7 [MOD fieldPrime]) →
      ∃ y, Ordinate x.toNat lead y ∧ (∀ z, Ordinate x.toNat lead z → z = y) ∧
        decompressCompressedSecp256k1 (lead :: wordBytes x) =
          .ok (0x04 :: (wordBytes x++wordBytes (BitVec.ofNat 256 y))) ∧
        decompressCompressedSecp256k1Mem (lead :: wordBytes x) =
          .ok (0x04 :: (wordBytes x++wordBytes (BitVec.ofNat 256 y)))) ∧
    ((¬ ∃ z, z^2 ≡ x.toNat^3+7 [MOD fieldPrime]) →
      decompressCompressedSecp256k1 (lead :: wordBytes x) = .error .pointNotOnCurve ∧
        decompressCompressedSecp256k1Mem (lead :: wordBytes x) = .error .pointNotOnCurve) := by
  rw [decompress_eq hlead, decompressMem_eq hlead]
  constructor
  · intro h
    obtain ⟨y, hy, hok⟩ : ∃ y, Ordinate x.toNat lead y ∧ recoverOrdinate x.toNat lead = .ok y :=
      recoverOrdinate_ok h
    rw [hok]
    exact ⟨y, hy, fun z hz => hz.unique hy, rfl, rfl⟩
  · intro h
    rw [recoverOrdinate_error h]
    exact ⟨rfl, rfl⟩

def toyRoot : ℕ := 0x4218F20AE6C646B363DB68605822FB14264CA8D2587FDD6FBC750D587E76A7EE

theorem decompresses_points_one : ∃ y, Ordinate 1 0x03 y ∧
    decompressCompressedSecp256k1Mem (0x03 :: wordBytes 1) =
      .ok (0x04 :: (wordBytes 1++wordBytes (BitVec.ofNat 256 y))) := by
  have hsquare : toyRoot^2 ≡ (1 : Bytes32).toNat^3+7 [MOD fieldPrime] := by decide +kernel
  obtain ⟨y, hy, -, -, hmem⟩ := (decompresses_points (Or.inr rfl) 1).1 ⟨toyRoot, hsquare⟩
  exact ⟨y, hy, hmem⟩

end BinaChain.FastPath
