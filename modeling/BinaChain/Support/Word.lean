import Mathlib.Data.List.Basic
import Mathlib.Tactic.Common

/-!
# Fixed-width arithmetic on natural numbers

A machine word is the natural number it denotes. Only the operations whose
result depends on the width name it: saturation, wrapping, checked addition
and the little-endian byte encoding.
-/

set_option autoImplicit false

namespace BinaChain.Word

abbrev Bytes := List UInt8

def u64Max : ℕ := 0xffffffffffffffff

def u128Max : ℕ := 0xffffffffffffffffffffffffffffffff

def satAdd (a b : ℕ) : ℕ := min (a+b) u64Max

def satAdd128 (a b : ℕ) : ℕ := min (a+b) u128Max

def wrapAdd (a b : ℕ) : ℕ := (a+b)%0x10000000000000000

def checkedAdd (a b : ℕ) : Option ℕ := if a+b ≤ u64Max then some (a+b) else none

def checkedMul (a b : ℕ) : Option ℕ := if a*b ≤ u64Max then some (a*b) else none

/-- The `k` low bytes of `n`, least significant first. -/
def leBytes (k n : ℕ) : Bytes := (List.range k).map fun i => UInt8.ofNat (n >>> (8*i))

def leValue : Bytes → ℕ
  | [] => 0
  | b :: rest => b.toNat+256*leValue rest

theorem satAdd_of_le {a b : ℕ} (h : a+b ≤ u64Max) : satAdd a b = a+b :=
  Nat.min_eq_left h

theorem satAdd_le (a b : ℕ) : satAdd a b ≤ u64Max := Nat.min_le_right _ _

theorem satAdd_le_add (a b : ℕ) : satAdd a b ≤ a+b := Nat.min_le_left _ _

theorem wrapAdd_of_le {a b : ℕ} (h : a+b ≤ u64Max) : wrapAdd a b = a+b := by
  unfold u64Max at h
  exact Nat.mod_eq_of_lt (by omega)

theorem checkedAdd_eq_some {a b c : ℕ} :
    checkedAdd a b = some c ↔ a+b ≤ u64Max ∧ c = a+b := by
  unfold checkedAdd
  split <;> rename_i h
  · simp [h, eq_comm]
  · simp [h]

theorem checkedMul_eq_some {a b c : ℕ} :
    checkedMul a b = some c ↔ a*b ≤ u64Max ∧ c = a*b := by
  unfold checkedMul
  split <;> rename_i h
  · simp [h, eq_comm]
  · simp [h]

@[simp] theorem leBytes_length (k n : ℕ) : (leBytes k n).length = k := by
  simp [leBytes]

theorem shiftRight_byte (n i : ℕ) : n >>> (8*(i+1)) = (n/256) >>> (8*i) := by
  rw [Nat.mul_succ, Nat.add_comm, Nat.shiftRight_add, Nat.shiftRight_eq_div_pow n 8]

theorem leBytes_succ (k n : ℕ) : leBytes (k+1) n = UInt8.ofNat n :: leBytes k (n/256) := by
  unfold leBytes
  rw [List.range_succ_eq_map, List.map_cons, List.map_map]
  apply congrArg (UInt8.ofNat n :: ·)
  apply List.map_congr_left
  intro i _
  simp only [Function.comp, shiftRight_byte]

theorem leValue_leBytes (n : ℕ) : leValue (leBytes 4 n) = n%0x100000000 := by
  have hnone (m : ℕ) : leBytes 0 m = [] := rfl
  rw [leBytes_succ, leBytes_succ, leBytes_succ, leBytes_succ, hnone]
  simp only [leValue, UInt8.toNat_ofNat']
  omega

theorem leBytes_injective {k n m : ℕ} (h : leBytes k n = leBytes k m)
    (hrest : n >>> (8*k) = m >>> (8*k)) : n = m := by
  induction k generalizing n m with
  | zero => exact hrest
  | succ k ih =>
    rw [leBytes_succ, leBytes_succ, List.cons.injEq] at h
    rw [shiftRight_byte, shiftRight_byte] at hrest
    have hlow : n%256 = m%256 := by
      simpa using congrArg UInt8.toNat h.1
    have hhigh : n/256 = m/256 := ih h.2 hrest
    omega

theorem leBytes_u64 {n m : ℕ} (hn : n ≤ u64Max) (hm : m ≤ u64Max)
    (h : leBytes 8 n = leBytes 8 m) : n = m := by
  unfold u64Max at hn hm
  apply leBytes_injective h
  simp only [Nat.shiftRight_eq_div_pow]
  omega

theorem records_injective {α β : Type} {f : α → List β} {width : ℕ} (hw : 0 < width)
    {as bs : List α} (has : ∀ a ∈ as, (f a).length = width) (hbs : ∀ b ∈ bs, (f b).length = width)
    (hinj : ∀ a ∈ as, ∀ b ∈ bs, f a = f b → a = b) (h : as.flatMap f = bs.flatMap f) :
    as = bs := by
  induction as generalizing bs with
  | nil =>
    cases bs with
    | nil => rfl
    | cons b bs =>
      have hlen := congrArg List.length h
      simp only [List.flatMap_nil, List.flatMap_cons, List.length_append, List.length_nil,
        hbs b List.mem_cons_self] at hlen
      omega
  | cons a as ih =>
    cases bs with
    | nil =>
      have hlen := congrArg List.length h
      simp only [List.flatMap_nil, List.flatMap_cons, List.length_append, List.length_nil,
        has a List.mem_cons_self] at hlen
      omega
    | cons b bs =>
      rw [List.flatMap_cons, List.flatMap_cons] at h
      have hlen : (f a).length = (f b).length := by
        rw [has a List.mem_cons_self, hbs b List.mem_cons_self]
      obtain ⟨hhead, htail⟩ := List.append_inj h hlen
      rw [hinj a List.mem_cons_self b List.mem_cons_self hhead]
      apply congrArg (b :: ·)
      exact ih (fun x hx => has x (List.mem_cons_of_mem _ hx))
        (fun x hx => hbs x (List.mem_cons_of_mem _ hx))
        (fun x hx y hy => hinj x (List.mem_cons_of_mem _ hx) y (List.mem_cons_of_mem _ hy)) htail

end BinaChain.Word
