import BinaChain.Support.Hex
import Mathlib.Algebra.Order.Ring.Nat
import Mathlib.Data.List.Induction

/-!
# Numbers written with a fixed number of hexadecimal digits

Reading accepts digits of both cases; writing gives the lowercase text of a
number. Two texts of one length denote the same number exactly when they agree
up to case.
-/

set_option autoImplicit false

namespace BinaChain.Hex
open BinaChain.Word BinaChain.Text

def digits : ℕ → ℕ → Str
  | 0, _ => []
  | n+1, m => digits n (m/16)++[hexDigit (m%16)]

def readDigit (acc : ℕ) (c : Char) : Option ℕ := (hexValue c).map (acc*16+·)

def numeral (s : Str) : Option ℕ := s.foldlM readDigit 0

def toLowerCase (s : Str) : Str := s.map Char.toLower

@[simp] theorem toLowerCase_length (s : Str) : (toLowerCase s).length = s.length :=
  List.length_map _

@[simp] theorem toLowerCase_append (s t : Str) :
    toLowerCase (s++t) = toLowerCase s++toLowerCase t := List.map_append

@[simp] theorem digits_length (n m : ℕ) : (digits n m).length = n := by
  induction n generalizing m with
  | zero => rfl
  | succ n ih => simp [digits, ih]

theorem hexValue_table : ∀ n < 103, (hexValue (Char.ofNat n)).all fun d =>
    d < 16 ∧ (Char.ofNat n).toLower = hexDigit d := by decide

theorem hexValue_lower {c : Char} {d : ℕ} (h : hexValue c = some d) :
    d < 16 ∧ c.toLower = hexDigit d := by
  have hc : c.toNat < 103 := by
    simp only [hexValue] at h
    split at h
    · omega
    split at h
    · omega
    split at h
    · omega
    · simp at h
  have ht := hexValue_table c.toNat hc
  rw [Char.ofNat_toNat, h] at ht
  simpa using ht

theorem numeral_concat (s : Str) (c : Char) :
    numeral (s++[c]) = (numeral s).bind fun acc => readDigit acc c := by
  unfold numeral
  rw [List.foldlM_append]
  apply congrArg ((s.foldlM readDigit 0).bind ·)
  funext acc
  simp

theorem numeral_digits (n m : ℕ) : numeral (digits n m) = some (m%16^n) := by
  induction n generalizing m with
  | zero => simp [digits, numeral, Nat.mod_one]
  | succ n ih =>
    have hd : hexValue (hexDigit (m%16)) = some (m%16) :=
      hexValue_hexDigit _ (Nat.mod_lt m (by decide))
    rw [digits, numeral_concat, ih, Option.bind_some, readDigit, hd, Option.map_some,
      Nat.pow_succ, Nat.mul_comm (16^n) 16, Nat.mod_mul]
    congr 1
    omega

theorem numeral_eq_some {s : Str} {m : ℕ} (h : numeral s = some m) :
    m < 16^s.length ∧ toLowerCase s = digits s.length m := by
  induction s using List.reverseRecOn generalizing m with
  | nil =>
    obtain rfl := Option.some.inj h
    simp [toLowerCase, digits]
  | append_singleton s c ih =>
    rw [numeral_concat, Option.bind_eq_some_iff] at h
    obtain ⟨acc, hacc, hc⟩ := h
    obtain ⟨d, hd, rfl⟩ := Option.map_eq_some_iff.mp hc
    obtain ⟨hlt, hlower⟩ := ih hacc
    obtain ⟨hd16, hcl⟩ := hexValue_lower hd
    rw [List.length_append, List.length_singleton]
    constructor
    · rw [Nat.pow_succ]
      omega
    · rw [toLowerCase_append, hlower, digits]
      congr 2
      · omega
      · rw [show toLowerCase [c] = [c.toLower] from rfl, hcl]
        congr 2
        omega

theorem numeral_pad (n : ℕ) (s : Str) : numeral (List.replicate n '0'++s) = numeral s := by
  induction n with
  | zero => rfl
  | succ n ih =>
    rw [List.replicate_succ, List.cons_append, numeral, List.foldlM_cons]
    exact ih

theorem digits_append (n k m : ℕ) : digits (n+k) m = digits n (m/16^k)++digits k m := by
  induction k generalizing m with
  | zero => simp [digits]
  | succ k ih =>
    rw [← Nat.add_assoc, digits, digits, ih, List.append_assoc, Nat.div_div_eq_div_mul,
      Nat.pow_succ']

theorem encode_leBytes (k n : ℕ) : encode (leBytes k n).reverse = digits (2*k) n := by
  induction k generalizing n with
  | zero => rfl
  | succ k ih =>
    have hlow : encodeByte (UInt8.ofNat n) = [hexDigit (n/16%16), hexDigit (n%16)] := by
      have hb : (UInt8.ofNat n).toNat = n%256 := by simp
      rw [encodeByte, hb]
      congr 2
      · omega
      · congr 1
        omega
    have hhead : encode ((leBytes k (n/256)).reverse++[UInt8.ofNat n]) =
        encode (leBytes k (n/256)).reverse++encodeByte (UInt8.ofNat n) := by
      simp [encode]
    rw [leBytes_succ, List.reverse_cons, hhead, ih, hlow, Nat.mul_succ, digits, digits,
      Nat.div_div_eq_div_mul, List.append_assoc]
    rfl

end BinaChain.Hex
