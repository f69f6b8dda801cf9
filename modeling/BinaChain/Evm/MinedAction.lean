import BinaChain.Evm.Oracle

/-!
# Consumers of the oracle that ask for mined blocks

The consumers declare the stored output without the proof hash and the number
of attestations, which the oracle returns ahead of the publisher. What they read
as the publisher is the word of the proof hash.
-/

set_option autoImplicit false

namespace BinaChain.MinedAction
open BinaChain.Word BinaChain.Text BinaChain.Crypto BinaChain.Abi BinaChain.Machine
open BinaChain.Oracle (Bytes32 Bytes20 Address Registry Msg Call OracleError)

structure StoredOutput where
  randomnessOutput : Bytes32
  nullifier : Bytes32
  binaMiner : Bytes20
  height : BitVec 64
  btcHeight : BitVec 64
  minedTimestamp : BitVec 64
  workBits : BitVec 8
  falconVerified : Bool
  publisher : Address
  deriving DecidableEq

def StoredOutput.fields : StoredOutput ≃ Bytes32 × Bytes32 × Bytes20 × BitVec 64 × BitVec 64 ×
    BitVec 64 × BitVec 8 × Bool × Address where
  toFun o := (o.randomnessOutput, o.nullifier, o.binaMiner, o.height, o.btcHeight,
    o.minedTimestamp, o.workBits, o.falconVerified, o.publisher)
  invFun p :=
    { randomnessOutput := p.1, nullifier := p.2.1, binaMiner := p.2.2.1, height := p.2.2.2.1,
      btcHeight := p.2.2.2.2.1, minedTimestamp := p.2.2.2.2.2.1, workBits := p.2.2.2.2.2.2.1,
      falconVerified := p.2.2.2.2.2.2.2.1, publisher := p.2.2.2.2.2.2.2.2 }
  left_inv _ := rfl
  right_inv _ := rfl

def StoredOutput.codec : Codec StoredOutput :=
  (Codec.bytes32.pair <| Codec.bytes32.pair <| Codec.bytes20.pair <| Oracle.uint64.pair <|
    Oracle.uint64.pair <| Oracle.uint64.pair <| Oracle.uint8.pair <| Codec.bool.pair
      Oracle.address).via StoredOutput.fields

inductive ProofError where
  | reverted (e : OracleError)
  | undecodable
  | proofAlreadyUsed
  | insufficientWork
  | minerMismatch
  | falconRequired
  deriving DecidableEq

/-- A call of `getOutput` through the interface. -/
def fetch (s : Registry) (blockHash : Bytes32) : Except ProofError StoredOutput :=
  match Oracle.getOutput s blockHash with
  | .error e => .error (.reverted e)
  | .ok stored =>
    match StoredOutput.codec.read (Oracle.StoredOutput.codec.encode stored) with
    | none => .error .undecodable
    | some output => .ok output

structure ProofOfBinaWork where
  minWorkBits : BitVec 8
  requireFalcon : Bool
  proofUsed : Bytes32 → Bool
  proofSubmitter : Bytes32 → Address

def verifyBinaWork (s : Registry) (sender : Address) (c : ProofOfBinaWork) (blockHash : Bytes32)
    (claimedMiner : Bytes20) : Except ProofError ProofOfBinaWork :=
  if c.proofUsed blockHash then .error .proofAlreadyUsed
  else
    match fetch s blockHash with
    | .error e => .error e
    | .ok output =>
      if output.workBits < c.minWorkBits then .error .insufficientWork
      else if c.requireFalcon && !output.falconVerified then .error .falconRequired
      else if output.binaMiner ≠ claimedMiner then .error .minerMismatch
      else .ok
        { c with
          proofUsed := Function.update c.proofUsed blockHash true
          proofSubmitter := Function.update c.proofSubmitter blockHash sender }

/-- The fields the interface declares, as the oracle stores them. -/
def declared (o : Oracle.StoredOutput) : StoredOutput where
  randomnessOutput := o.randomnessOutput
  nullifier := o.nullifier
  binaMiner := o.binaMiner
  height := o.height
  btcHeight := o.btcHeight
  minedTimestamp := o.minedTimestamp
  workBits := o.workBits
  falconVerified := o.falconVerified
  publisher := o.publisher

theorem read_declared_iff (o : Oracle.StoredOutput) :
    StoredOutput.codec.read (Oracle.StoredOutput.codec.encode o) = some (declared o) ↔
      o.proofHash = o.publisher.setWidth 256 := by
  rw [Codec.read_iff]
  have hread : StoredOutput.codec.encode (declared o) =
      [o.randomnessOutput, o.nullifier, o.binaMiner.setWidth 256 <<< 96, o.height.setWidth 256,
        o.btcHeight.setWidth 256, o.minedTimestamp.setWidth 256, o.workBits.setWidth 256,
        if o.falconVerified then 1 else 0, o.publisher.setWidth 256] := rfl
  rw [Oracle.StoredOutput.codec_words, hread]
  constructor
  · rintro ⟨rest, h⟩
    simp only [List.cons_append, List.nil_append, List.cons.injEq, true_and] at h
    exact h.1
  · intro h
    exact ⟨[o.attestationCount.setWidth 256, o.publisher.setWidth 256], by rw [h]; rfl⟩

/-- Whatever is declared comes back as stored exactly when the proof bundle of
the finalising call hashes to the caller's address. -/
theorem declared_fields_read_iff {K : Primitives} {s s' t : Registry} {m : Msg} {c : Call}
    {x : Oracle.Submission} (hx : c.submission = some x)
    (hs : Oracle.step K s (m, c) = some s') (hold : ¬ Oracle.Finalised s x.output.blockHash)
    (hnew : Oracle.Finalised s' x.output.blockHash) (ht : Reach (Oracle.step K) s' t) :
    ∃ stored, Oracle.getOutput t x.output.blockHash = .ok stored ∧
      (StoredOutput.codec.read (Oracle.StoredOutput.codec.encode stored) =
          some (declared stored) ↔ Oracle.keccak K x.proofBundle = m.sender.setWidth 256) := by
  refine ⟨s'.outputsByBlockHash x.output.blockHash, ?_, ?_⟩
  · unfold Oracle.getOutput
    rw [Oracle.finalised_persists ht hnew]
    exact if_neg hnew
  · rw [read_declared_iff]
    rcases Oracle.step_outputs hs x.output.blockHash with hsame | ⟨-, x', count, hx', -, hst⟩
    · unfold Oracle.Finalised at hold hnew
      rw [hsame] at hnew
      exact absurd hnew hold
    · obtain rfl := Option.some.inj (hx.symm.trans hx')
      rw [hst]
      rfl

def toyOutput : Oracle.BinaOutput :=
  { height := 1, blockHash := 7, randomnessOutput := 2, nullifier := 3, binaMiner := 4,
    btcHeight := 0, btcSeed := 5, minedTimestamp := 0, workBits := 25, claimDigest := 6,
    electionScore := 0, falconVerified := true }

def toySubmission : Oracle.Submission :=
  { output := toyOutput, purposes := [0], proofBundle := [1, 2, 3], proofURI := [] }

def toyRegistry : Registry := Oracle.deploy 1 0

def toyPublish : Option Registry :=
  Oracle.step toyPrimitives toyRegistry
    ({ sender := 1, timestamp := 0 }, .submitOutputForPurposes toySubmission)

theorem declared_fields_read_iff_sample :
    ∃ s' stored, toyPublish = some s' ∧ Oracle.getOutput s' 7 = .ok stored ∧
      StoredOutput.codec.read (Oracle.StoredOutput.codec.encode stored) ≠
        some (declared stored) := by
  have hrun : toyPublish.any fun s' => decide (Oracle.Finalised s' 7) := by decide +kernel
  have hold : ¬ Oracle.Finalised toyRegistry toySubmission.output.blockHash := by decide +kernel
  have hne : Oracle.keccak toyPrimitives toySubmission.proofBundle ≠
      BitVec.setWidth 256 (1 : Address) := by decide +kernel
  obtain ⟨s', hs, hnew⟩ := (Option.any_eq_true _ _).mp hrun
  obtain ⟨stored, hget, hiff⟩ :=
    declared_fields_read_iff rfl hs hold (of_decide_eq_true hnew) (.refl s')
  exact ⟨s', stored, hs, hget, fun h => hne (hiff.mp h)⟩

theorem published_output_undecodable :
    ∃ s', toyPublish = some s' ∧ Oracle.Finalised s' toyOutput.blockHash ∧
      fetch s' toyOutput.blockHash = .error .undecodable ∧
      ∀ c sender, c.proofUsed toyOutput.blockHash = false →
        verifyBinaWork s' sender c toyOutput.blockHash toyOutput.binaMiner =
          .error .undecodable := by
  have hrun : toyPublish.any fun s' => decide (Oracle.Finalised s' toyOutput.blockHash) &&
      (match fetch s' toyOutput.blockHash with
        | .error e => e == .undecodable
        | .ok _ => false) := by decide +kernel
  obtain ⟨s', hs, hb⟩ := (Option.any_eq_true _ _).mp hrun
  rw [Bool.and_eq_true, decide_eq_true_iff] at hb
  have hfetch : fetch s' toyOutput.blockHash = .error .undecodable := by
    have he := hb.2
    split at he
    · rename_i e hf
      rw [hf, eq_of_beq he]
    · simp at he
  refine ⟨s', hs, hb.1, hfetch, fun c sender hc => ?_⟩
  unfold verifyBinaWork
  rw [hc, hfetch]
  rfl

end BinaChain.MinedAction
