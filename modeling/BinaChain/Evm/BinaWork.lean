import BinaChain.Evm.MinedAction
import BinaChain.Evm.BinaOracle
import Mathlib.Data.Finset.Basic

/-!
# What a consumed proof stands for

The gate marks a block hash as used and notes who used it. The oracle never
changes a stored output, so what was checked at the gate stays true of it.
-/

set_option autoImplicit false

namespace BinaChain.BinaWork
open BinaChain.Crypto BinaChain.Abi BinaChain.Machine BinaChain.Checked BinaChain.Oracle
open BinaChain.MinedAction (ProofError ProofOfBinaWork declared fetch verifyBinaWork)

inductive Revert where
  | overflow
  | underflow
  | outOfBounds
  | divisionByZero
  | proof (e : ProofError)
  | oracle (e : BinaOracle.Revert)
  | roundClosed
  | belowEntryFee
  | roundAlreadySettled
  | noEntries
  | drawHeightNotReached
  | roundNotClosed
  | alreadyRegisteredWithDifferentBinaAddress
  | notRegistered
  | wrongBinaAddress
  deriving DecidableEq

instance : Panics Revert where
  overflow := .overflow
  underflow := .underflow
  outOfBounds := .outOfBounds

def construct (minWorkBits : BitVec 8) (requireFalcon : Bool) : ProofOfBinaWork where
  minWorkBits
  requireFalcon
  proofUsed _ := false
  proofSubmitter _ := 0

/-- Whether the interface finds an address where the oracle has the proof hash. -/
def Readable (r : Registry) (blockHash : Bytes32) : Prop :=
  Finalised r blockHash ∧
    ∃ publisher : Address, (r.outputsByBlockHash blockHash).proofHash = publisher.setWidth 256

theorem codec_words (o : MinedAction.StoredOutput) : MinedAction.StoredOutput.codec.encode o =
    [o.randomnessOutput, o.nullifier, o.binaMiner.setWidth 256 <<< 96, o.height.setWidth 256,
      o.btcHeight.setWidth 256, o.minedTimestamp.setWidth 256, o.workBits.setWidth 256,
      if o.falconVerified then 1 else 0, o.publisher.setWidth 256] := rfl

theorem fetch_eq_ok {r : Registry} {blockHash : Bytes32} {output : MinedAction.StoredOutput} :
    fetch r blockHash = .ok output ↔ Finalised r blockHash ∧
      (r.outputsByBlockHash blockHash).proofHash = output.publisher.setWidth 256 ∧
      output =
        { declared (r.outputsByBlockHash blockHash) with publisher := output.publisher } := by
  have hread (stored : StoredOutput) :
      MinedAction.StoredOutput.codec.read (StoredOutput.codec.encode stored) = some output ↔
        stored.proofHash = output.publisher.setWidth 256 ∧
          output = { declared stored with publisher := output.publisher } := by
    rw [Codec.read_iff]
    constructor
    · rintro ⟨rest, h⟩
      have hwords := h
      rw [StoredOutput.codec_words, codec_words] at hwords
      simp only [List.cons_append, List.nil_append, List.cons.injEq] at hwords
      obtain ⟨-, -, -, -, -, -, -, -, hproof, hrest⟩ := hwords
      refine ⟨hproof, ?_⟩
      have hsame : StoredOutput.codec.encode stored = MinedAction.StoredOutput.codec.encode
          { declared stored with publisher := output.publisher }++rest := by
        rw [StoredOutput.codec_words, codec_words, hproof, hrest]
        rfl
      have hleft := Codec.read_iff.mpr ⟨rest, h⟩
      have hright := Codec.read_iff.mpr ⟨rest, hsame⟩
      exact Option.some.inj (hleft.symm.trans hright)
    · rintro ⟨hproof, heq⟩
      refine ⟨[stored.attestationCount.setWidth 256, stored.publisher.setWidth 256], ?_⟩
      rw [heq, StoredOutput.codec_words, codec_words, hproof]
      rfl
  unfold fetch getOutput Finalised
  by_cases hfin : (r.outputsByBlockHash blockHash).randomnessOutput = 0
  · simp [hfin]
  · rw [if_neg hfin]
    dsimp only
    split
    · rename_i hnone
      constructor
      · intro h
        cases h
      · rintro ⟨-, hrest⟩
        rw [(hread _).mpr hrest] at hnone
        cases hnone
    · rename_i o hsome
      rw [Except.ok.injEq, and_iff_right hfin, ← hread, hsome, Option.some.injEq]

theorem Readable.fetch {r : Registry} {blockHash : Bytes32} (h : Readable r blockHash) :
    ∃ output, fetch r blockHash = .ok output ∧
      { output with publisher := 0 } =
        { declared (r.outputsByBlockHash blockHash) with publisher := (0 : Address) } := by
  obtain ⟨hfin, publisher, hproof⟩ := h
  exact ⟨{ declared (r.outputsByBlockHash blockHash) with publisher },
    fetch_eq_ok.mpr ⟨hfin, hproof, rfl⟩, rfl⟩

structure Passes (r : Registry) (c : ProofOfBinaWork) (blockHash : Bytes32) (miner : Bytes20) :
    Prop where
  unused : c.proofUsed blockHash = false
  readable : Readable r blockHash
  enough : c.minWorkBits ≤ (r.outputsByBlockHash blockHash).workBits
  falcon : c.requireFalcon = true → (r.outputsByBlockHash blockHash).falconVerified = true
  mined : (r.outputsByBlockHash blockHash).binaMiner = miner

def consume (c : ProofOfBinaWork) (sender : Address) (blockHash : Bytes32) : ProofOfBinaWork :=
  { c with
    proofUsed := Function.update c.proofUsed blockHash true
    proofSubmitter := Function.update c.proofSubmitter blockHash sender }

theorem verifyBinaWork_eq_ok {r : Registry} {sender : Address} {c c' : ProofOfBinaWork}
    {blockHash : Bytes32} {miner : Bytes20} :
    verifyBinaWork r sender c blockHash miner = .ok c' ↔
      Passes r c blockHash miner ∧ c' = consume c sender blockHash := by
  unfold verifyBinaWork
  by_cases hused : c.proofUsed blockHash = true
  · rw [if_pos hused]
    constructor
    · intro h
      cases h
    · rintro ⟨hp, -⟩
      rw [hp.unused] at hused
      cases hused
  rw [if_neg hused]
  cases hfetch : fetch r blockHash with
  | error e =>
    constructor
    · intro h
      cases h
    · rintro ⟨hp, -⟩
      obtain ⟨output, hok, -⟩ := hp.readable.fetch
      rw [hok] at hfetch
      cases hfetch
  | ok output =>
    obtain ⟨hfin, hproof, heq⟩ := fetch_eq_ok.mp hfetch
    have hwork : output.workBits = (r.outputsByBlockHash blockHash).workBits := by rw [heq]; rfl
    have hfalcon : output.falconVerified = (r.outputsByBlockHash blockHash).falconVerified := by
      rw [heq]; rfl
    have hminer : output.binaMiner = (r.outputsByBlockHash blockHash).binaMiner := by
      rw [heq]; rfl
    dsimp only
    rw [hwork, hfalcon, hminer, reject_eq_ok, reject_eq_ok, reject_eq_ok, Except.ok.injEq]
    constructor
    · rintro ⟨henough, hflag, hmined, rfl⟩
      refine ⟨?_, rfl⟩
      exact
        { unused := Bool.eq_false_iff.mpr hused
          readable := ⟨hfin, _, hproof⟩
          enough := BitVec.not_lt.mp henough
          falcon := by
            intro hreq
            rw [hreq, Bool.true_and] at hflag
            simpa using hflag
          mined := by simpa using hmined }
    · rintro ⟨hp, rfl⟩
      refine ⟨BitVec.not_lt.mpr hp.enough, ?_, by simpa using hp.mined, rfl⟩
      intro hboth
      obtain ⟨hreq, hno⟩ := Bool.and_eq_true_iff.mp hboth
      rw [hp.falcon hreq] at hno
      cases hno

/-- The used block hashes, each that of an output the gate lets pass. -/
structure Backed (r : Registry) (c : ProofOfBinaWork) (used : Finset Bytes32) : Prop where
  marked : ∀ b, c.proofUsed b = true ↔ b ∈ used
  finalised : ∀ b ∈ used, Finalised r b
  enough : ∀ b ∈ used, c.minWorkBits ≤ (r.outputsByBlockHash b).workBits

theorem Backed.construct (r : Registry) (minWorkBits : BitVec 8) (requireFalcon : Bool) :
    Backed r (construct minWorkBits requireFalcon) ∅ where
  marked b := by simp [BinaWork.construct]
  finalised b hb := by simp at hb
  enough b hb := by simp at hb

theorem Backed.fresh {r : Registry} {c : ProofOfBinaWork} {used : Finset Bytes32}
    {blockHash : Bytes32} {miner : Bytes20} (h : Backed r c used)
    (hp : Passes r c blockHash miner) : blockHash ∉ used := by
  intro hmem
  have hused := (h.marked blockHash).mpr hmem
  rw [hp.unused] at hused
  cases hused

theorem Backed.consume {r : Registry} {c : ProofOfBinaWork} {used : Finset Bytes32}
    {blockHash : Bytes32} {miner : Bytes20} (h : Backed r c used)
    (hp : Passes r c blockHash miner) (sender : Address) :
    Backed r (consume c sender blockHash) (insert blockHash used) where
  marked b := by
    by_cases hb : b = blockHash
    · subst hb
      simp [BinaWork.consume]
    · rw [Finset.mem_insert, or_iff_right hb, ← h.marked b]
      simp [BinaWork.consume, Function.update_of_ne hb]
  finalised b hb := by
    rcases Finset.mem_insert.mp hb with rfl | hb
    · exact hp.readable.1
    · exact h.finalised b hb
  enough b hb := by
    rcases Finset.mem_insert.mp hb with rfl | hb
    · exact hp.enough
    · exact h.enough b hb

theorem stored_step {K : Primitives} {r r' : Registry} {e : Msg × Call}
    (hs : Oracle.step K r e = some r') {b : Bytes32} (hf : Finalised r b) :
    r'.outputsByBlockHash b = r.outputsByBlockHash b :=
  finalised_persists (Run.single trivial hs) hf

theorem Backed.oracle {K : Primitives} {r r' : Registry} {c : ProofOfBinaWork}
    {used : Finset Bytes32} {e : Msg × Call} (h : Backed r c used)
    (hs : Oracle.step K r e = some r') : Backed r' c used where
  marked := h.marked
  finalised b hb := by
    have hf := h.finalised b hb
    unfold Finalised at hf ⊢
    rwa [stored_step hs hf]
  enough b hb := by
    rw [stored_step hs (h.finalised b hb)]
    exact h.enough b hb

def provedBy (c : ProofOfBinaWork) (used : Finset Bytes32) (a : Address) : Finset Bytes32 :=
  used.filter fun b => c.proofSubmitter b = a

theorem provedBy_consume {c : ProofOfBinaWork} {used : Finset Bytes32} {blockHash : Bytes32}
    (hfresh : blockHash ∉ used) (sender a : Address) :
    provedBy (consume c sender blockHash) (insert blockHash used) a =
      if a = sender then insert blockHash (provedBy c used a) else provedBy c used a := by
  have hself : (consume c sender blockHash).proofSubmitter blockHash = sender :=
    Function.update_self _ _ _
  have hold : (used.filter fun b => (consume c sender blockHash).proofSubmitter b = a) =
      used.filter fun b => c.proofSubmitter b = a := by
    apply Finset.filter_congr
    intro b hb
    have hne : b ≠ blockHash := by
      rintro rfl
      exact hfresh hb
    rw [show (consume c sender blockHash).proofSubmitter b = c.proofSubmitter b from
      Function.update_of_ne hne _ _]
  unfold provedBy
  rw [Finset.filter_insert, hold, hself]
  by_cases ha : sender = a
  · rw [if_pos ha, if_pos ha.symm]
  · rw [if_neg ha, if_neg (Ne.symm ha)]

def shortDigests : Primitives :=
  { toyPrimitives with
    keccak256 := fun b => Vector.ofFn fun i => if i.val < 12 then 0 else (toyDigest b).get i }

end BinaChain.BinaWork
