import Mathlib.Logic.Equiv.Defs
import Mathlib.Tactic.Common

/-!
# Static ABI layouts

A static value is a run of 256-bit words. A codec reads back exactly what it
writes: it refuses a word that is not the encoding of any value, and leaves the
words that follow.
-/

set_option autoImplicit false

namespace BinaChain.Abi

abbrev EvmWord := BitVec 256

structure Codec (α : Type) where
  encode : α → List EvmWord
  decode : List EvmWord → Option (α × List EvmWord)
  decode_iff : ∀ {ws rest : List EvmWord} {a : α},
    decode ws = some (a, rest) ↔ ws = encode a++rest

namespace Codec

variable {α β : Type}

def read (c : Codec α) (ws : List EvmWord) : Option α := (c.decode ws).map Prod.fst

theorem read_iff {c : Codec α} {ws : List EvmWord} {a : α} :
    c.read ws = some a ↔ ∃ rest, ws = c.encode a++rest := by
  unfold read
  rw [Option.map_eq_some_iff]
  constructor
  · rintro ⟨⟨b, rest⟩, h, rfl⟩
    exact ⟨rest, c.decode_iff.mp h⟩
  · rintro ⟨rest, h⟩
    exact ⟨(a, rest), c.decode_iff.mpr h, rfl⟩

/-- One word, valid when it is what its own cleaned-up value is written as. -/
def word (put : α → EvmWord) (clean : EvmWord → α) (h : ∀ a, clean (put a) = a) : Codec α where
  encode a := [put a]
  decode
    | [] => none
    | w :: rest => if put (clean w) = w then some (clean w, rest) else none
  decode_iff := by
    intro ws rest a
    cases ws with
    | nil => simp
    | cons w ws =>
      dsimp only
      split
      · rename_i hw
        constructor
        · intro heq
          obtain ⟨rfl, rfl⟩ := Prod.mk.inj (Option.some.inj heq)
          rw [hw]
          rfl
        · intro heq
          obtain ⟨rfl, rfl⟩ := List.cons.inj heq
          rw [h]
      · rename_i hw
        constructor
        · simp
        · intro heq
          obtain ⟨rfl, rfl⟩ := List.cons.inj heq
          exact absurd (by rw [h]) hw

def pair (c : Codec α) (d : Codec β) : Codec (α × β) where
  encode p := c.encode p.1++d.encode p.2
  decode ws := (c.decode ws).bind fun (a, ws) => (d.decode ws).map fun (b, ws) => ((a, b), ws)
  decode_iff := by
    rintro ws rest ⟨a, b⟩
    rw [Option.bind_eq_some_iff]
    constructor
    · rintro ⟨⟨a', ws'⟩, ha, hb⟩
      obtain ⟨⟨b', rest'⟩, hb', heq⟩ := Option.map_eq_some_iff.mp hb
      obtain ⟨hab, rfl⟩ := Prod.mk.inj heq
      obtain ⟨rfl, rfl⟩ := Prod.mk.inj hab
      rw [c.decode_iff.mp ha, d.decode_iff.mp hb', List.append_assoc]
    · intro h
      rw [List.append_assoc] at h
      refine ⟨(a, d.encode b++rest), c.decode_iff.mpr h, ?_⟩
      exact Option.map_eq_some_iff.mpr ⟨(b, rest), d.decode_iff.mpr rfl, rfl⟩

/-- The layout of a structure through the tuple of its fields. -/
def via (c : Codec α) (e : β ≃ α) : Codec β where
  encode b := c.encode (e b)
  decode ws := (c.decode ws).map fun (a, ws) => (e.symm a, ws)
  decode_iff := by
    intro ws rest b
    rw [Option.map_eq_some_iff]
    constructor
    · rintro ⟨⟨a, ws'⟩, h, heq⟩
      obtain ⟨rfl, rfl⟩ := Prod.mk.inj heq
      rw [e.apply_symm_apply]
      exact c.decode_iff.mp h
    · intro h
      exact ⟨(e b, rest), c.decode_iff.mpr h, Prod.ext (e.symm_apply_apply b) rfl⟩

def uint (n : ℕ) (hn : n ≤ 256) : Codec (BitVec n) :=
  word (BitVec.setWidth 256) (BitVec.setWidth n) fun a => by
    rw [BitVec.setWidth_setWidth_of_le a hn, BitVec.setWidth_eq]

def bytes32 : Codec EvmWord := word id id fun _ => rfl

def bytes20 : Codec (BitVec 160) :=
  word (fun a => a.setWidth 256 <<< 96) (fun w => (w >>> 96).setWidth 160) fun a => by
    apply BitVec.eq_of_getLsbD_eq
    intro i hi
    simp only [BitVec.getLsbD_setWidth, BitVec.getLsbD_ushiftRight, BitVec.getLsbD_shiftLeft,
      hi, decide_true, Bool.true_and]
    rw [show 96+i-96 = i by omega]
    simp [show 96+i < 256 by omega, show i < 256 by omega]

def bool : Codec Bool :=
  word (fun b => if b then 1 else 0) (fun w => decide (w ≠ 0)) fun b => by
    cases b <;> decide

end Codec

end BinaChain.Abi
