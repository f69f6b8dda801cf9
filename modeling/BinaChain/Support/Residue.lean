import Mathlib.FieldTheory.Finite.Basic
import Mathlib.NumberTheory.LucasPrimality

/-!
# Square roots modulo a prime

A modulus is prime when some number has the order of the whole group. Modulo a
prime that is three modulo four a power of a square is one of its two roots, and
a cube raised to a third of the order is one.
-/

set_option autoImplicit false

namespace BinaChain.Residue

variable {p : ℕ}

theorem cast_eq {a b : ℕ} : (a : ZMod p) = b ↔ a ≡ b [MOD p] := ZMod.natCast_eq_natCast_iff a b p

theorem prime_of_order {a : ℕ} {factors : List ℕ} (hprod : factors.prod = p-1)
    (hprime : ∀ q ∈ factors, q.Prime) (hfull : a^(p-1) ≡ 1 [MOD p])
    (hpart : ∀ q ∈ factors, ¬ a^((p-1)/q) ≡ 1 [MOD p]) : p.Prime := by
  apply lucas_primality p (a : ZMod p)
  · exact_mod_cast cast_eq.mpr hfull
  · intro q hq hdvd heq
    rw [← hprod] at hdvd
    obtain ⟨r, hr, hqr⟩ := (Prime.dvd_prod_iff hq.prime).mp hdvd
    obtain rfl := (Nat.prime_dvd_prime_iff_eq hq (hprime r hr)).mp hqr
    exact hpart q hr (cast_eq.mp (by exact_mod_cast heq))

theorem fermat (hp : p.Prime) (a : ℕ) : a^p ≡ a [MOD p] := by
  have : Fact p.Prime := ⟨hp⟩
  apply cast_eq.mp
  rw [Nat.cast_pow]
  exact ZMod.pow_card _

theorem fermat_one (hp : p.Prime) {a : ℕ} (ha : ¬ p ∣ a) : a^(p-1) ≡ 1 [MOD p] := by
  have : Fact p.Prime := ⟨hp⟩
  apply cast_eq.mp
  rw [Nat.cast_pow, Nat.cast_one]
  apply ZMod.pow_card_sub_one_eq_one
  rwa [Ne, ZMod.natCast_eq_zero_iff]

theorem square_root (hp : p.Prime) (hmod : p%4 = 3) {a z : ℕ} (hz : z^2 ≡ a [MOD p]) :
    (a^((p+1)/4))^2 ≡ a [MOD p] := by
  have hexp : 2*((p+1)/4*2) = p+1 := by omega
  calc (a^((p+1)/4))^2 ≡ ((z^2)^((p+1)/4))^2 [MOD p] := ((hz.symm.pow _).pow 2)
    _ = z^p*z := by rw [← pow_mul, ← pow_mul, hexp, pow_succ]
    _ ≡ z*z [MOD p] := (fermat hp z).mul_right z
    _ = z^2 := (pow_two z).symm
    _ ≡ a [MOD p] := hz

theorem roots {y z : ℕ} (hp : p.Prime) (hy : y < p) (hz : z < p) (h : y^2 ≡ z^2 [MOD p]) :
    y = z ∨ y+z = p := by
  have : Fact p.Prime := ⟨hp⟩
  have hsq : (y : ZMod p)^2 = (z : ZMod p)^2 := by
    exact_mod_cast cast_eq.mpr h
  rcases sq_eq_sq_iff_eq_or_eq_neg.mp hsq with heq | hneg
  · exact Or.inl ((cast_eq.mp heq).eq_of_lt_of_lt hy hz)
  · have hsum : ((y+z : ℕ) : ZMod p) = 0 := by
      rw [Nat.cast_add, hneg, neg_add_cancel]
    obtain ⟨k, hk⟩ := (ZMod.natCast_eq_zero_iff _ _).mp hsum
    have hlt : k < 2 := by
      by_contra hge
      have hle : p*2 ≤ p*k := Nat.mul_le_mul_left p (Nat.not_lt.mp hge)
      omega
    interval_cases k
    · left
      omega
    · right
      omega

theorem cube_power (hp : p.Prime) (hthree : 3 ∣ p-1) {a x : ℕ} (hx : x^3 ≡ a [MOD p])
    (ha : ¬ p ∣ a) : a^((p-1)/3) ≡ 1 [MOD p] := by
  have hnx : ¬ p ∣ x := fun h => ha ((hx.dvd_iff dvd_rfl).mp (h.pow (by decide)))
  calc a^((p-1)/3) ≡ (x^3)^((p-1)/3) [MOD p] := hx.symm.pow _
    _ = x^(p-1) := by rw [← pow_mul, Nat.mul_div_cancel' hthree]
    _ ≡ 1 [MOD p] := fermat_one hp hnx

end BinaChain.Residue
