import BinaChain.Evm.BinaWork
import Mathlib.Algebra.Group.Action.Defs
import Mathlib.Algebra.Order.BigOperators.Group.Finset

/-!
# The registry of miners

An address registers with its first proof and adds to its reputation with every
further one. The gate asks for the miner of the block, not for the miner's own
account, so an address can register under any miner whose block is unused.
-/

set_option autoImplicit false

namespace BinaChain.MinerRegistry
open BinaChain.Crypto BinaChain.Machine BinaChain.Checked BinaChain.Oracle BinaChain.BinaWork
open BinaChain.MinedAction (ProofOfBinaWork fetch verifyBinaWork)

structure MinerProfile where
  binaAddress : Bytes20
  proofsSubmitted : ℕ
  totalWorkBits : ℕ
  firstProofHeight : BitVec 64
  lastProofHeight : BitVec 64
  reputationScore : ℕ
  registered : Bool

def MinerProfile.zero : MinerProfile :=
  { binaAddress := 0, proofsSubmitted := 0, totalWorkBits := 0, firstProofHeight := 0,
    lastProofHeight := 0, reputationScore := 0, registered := false }

structure BinaMinerRegistry where
  work : ProofOfBinaWork
  miners : Address → MinerProfile
  binaToEvm : Bytes20 → Address

def deploy : BinaMinerRegistry where
  work := construct 22 false
  miners _ := .zero
  binaToEvm _ := 0

def tierBronze : ℕ := 10
def tierSilver : ℕ := 50
def tierGold : ℕ := 200
def tierPlatinum : ℕ := 1000

def getTier (miner : Address) (s : BinaMinerRegistry) : ℕ :=
  let proofs := (s.miners miner).proofsSubmitted
  if tierPlatinum ≤ proofs then 4
  else if tierGold ≤ proofs then 3
  else if tierSilver ≤ proofs then 2
  else if tierBronze ≤ proofs then 1
  else 0

def isVerifiedMiner (miner : Address) (s : BinaMinerRegistry) : Bool :=
  (s.miners miner).registered && decide (0 < (s.miners miner).proofsSubmitted)

/-- The divisor was just incremented, and the product is at most the sum of the
work. -/
def updateReputation (r : Registry) (sender : Address) (blockHash : Bytes32)
    (s : BinaMinerRegistry) : Except Revert BinaMinerRegistry := do
  let output ← (fetch r blockHash).mapError .proof
  let profile := s.miners sender
  let proofsSubmitted ← add profile.proofsSubmitted 1
  let totalWorkBits ← add profile.totalWorkBits output.workBits.toNat
  return { s with
    miners := Function.update s.miners sender
      { profile with
        proofsSubmitted
        totalWorkBits
        lastProofHeight := output.height
        reputationScore := proofsSubmitted*(totalWorkBits/proofsSubmitted) } }

/-- A known address keeps its profile; a new one gets it, and the link from its
miner. -/
def enroll (r : Registry) (sender : Address) (blockHash : Bytes32) (binaMiner : Bytes20)
    (s : BinaMinerRegistry) : Except Revert BinaMinerRegistry := do
  let profile := s.miners sender
  if profile.registered then
    require (profile.binaAddress = binaMiner) .alreadyRegisteredWithDifferentBinaAddress
    return s
  else
    let output ← (fetch r blockHash).mapError .proof
    return { s with
      miners := Function.update s.miners sender
        { profile with
          binaAddress := binaMiner, firstProofHeight := output.height, registered := true }
      binaToEvm := Function.update s.binaToEvm binaMiner sender }

def registerMiner (r : Registry) (sender : Address) (blockHash : Bytes32) (binaMiner : Bytes20)
    (s : BinaMinerRegistry) : Except Revert BinaMinerRegistry := do
  let work ← (verifyBinaWork r sender s.work blockHash binaMiner).mapError .proof
  let s ← enroll r sender blockHash binaMiner { s with work }
  updateReputation r sender blockHash s

def submitProof (r : Registry) (sender : Address) (blockHash : Bytes32) (binaMiner : Bytes20)
    (s : BinaMinerRegistry) : Except Revert BinaMinerRegistry := do
  let work ← (verifyBinaWork r sender s.work blockHash binaMiner).mapError .proof
  require ((s.miners sender).registered = true) .notRegistered
  require ((s.miners sender).binaAddress = binaMiner) .wrongBinaAddress
  updateReputation r sender blockHash { s with work }

structure Joint where
  registry : Registry
  miners : BinaMinerRegistry

inductive Event where
  | oracle (m : Msg) (c : Call)
  | registerMiner (sender : Address) (blockHash : Bytes32) (binaMiner : Bytes20)
  | submitProof (sender : Address) (blockHash : Bytes32) (binaMiner : Bytes20)

def step (K : Primitives) (j : Joint) : Event → Option Joint
  | .oracle m c => (Oracle.step K j.registry (m, c)).map fun registry => { j with registry }
  | .registerMiner sender blockHash binaMiner =>
    (registerMiner j.registry sender blockHash binaMiner j.miners).toOption.map fun miners =>
      { j with miners }
  | .submitProof sender blockHash binaMiner =>
    (submitProof j.registry sender blockHash binaMiner j.miners).toOption.map fun miners =>
      { j with miners }

def MinerProfile.credited (p : MinerProfile) (stored : StoredOutput) : MinerProfile :=
  { p with
    proofsSubmitted := p.proofsSubmitted+1
    totalWorkBits := p.totalWorkBits+stored.workBits.toNat
    lastProofHeight := stored.height
    reputationScore :=
      (p.proofsSubmitted+1)*((p.totalWorkBits+stored.workBits.toNat)/(p.proofsSubmitted+1)) }

def MinerProfile.enrolled (p : MinerProfile) (binaMiner : Bytes20) (height : BitVec 64) :
    MinerProfile :=
  if p.registered then p
  else { p with binaAddress := binaMiner, firstProofHeight := height, registered := true }

theorem updateReputation_eq_ok {r : Registry} {sender : Address} {blockHash : Bytes32}
    {s s' : BinaMinerRegistry} (hread : Readable r blockHash) :
    updateReputation r sender blockHash s = .ok s' ↔
      (s.miners sender).proofsSubmitted+1 < uintEnd ∧
      (s.miners sender).totalWorkBits+(r.outputsByBlockHash blockHash).workBits.toNat < uintEnd ∧
      s' = { s with
        miners := Function.update s.miners sender
          ((s.miners sender).credited (r.outputsByBlockHash blockHash)) } := by
  obtain ⟨output, hfetch, -⟩ := hread.fetch
  obtain ⟨-, -, heq⟩ := fetch_eq_ok.mp hfetch
  have hwork : output.workBits = (r.outputsByBlockHash blockHash).workBits := by rw [heq]; rfl
  have hheight : output.height = (r.outputsByBlockHash blockHash).height := by rw [heq]; rfl
  unfold updateReputation
  simp only [bind_eq_ok, mapError_eq_ok, add_eq_ok, pure_eq_ok]
  constructor
  · rintro ⟨output', hfetch', p, ⟨hp, rfl⟩, t, ⟨ht, rfl⟩, rfl⟩
    obtain rfl := Except.ok.inj (hfetch.symm.trans hfetch')
    rw [hwork] at ht
    refine ⟨hp, ht, ?_⟩
    rw [hwork, hheight]
    rfl
  · rintro ⟨hp, ht, rfl⟩
    refine ⟨output, hfetch, _, ⟨hp, rfl⟩, ?_⟩
    rw [hwork, hheight]
    exact ⟨_, ⟨ht, rfl⟩, rfl⟩

theorem enroll_eq_ok {r : Registry} {sender : Address} {blockHash : Bytes32}
    {binaMiner : Bytes20} {s s' : BinaMinerRegistry} (hread : Readable r blockHash) :
    enroll r sender blockHash binaMiner s = .ok s' ↔
      ((s.miners sender).registered = true → (s.miners sender).binaAddress = binaMiner) ∧
      s' = { s with
        miners := Function.update s.miners sender
          ((s.miners sender).enrolled binaMiner (r.outputsByBlockHash blockHash).height)
        binaToEvm := if (s.miners sender).registered then s.binaToEvm
          else Function.update s.binaToEvm binaMiner sender } := by
  obtain ⟨output, hfetch, -⟩ := hread.fetch
  obtain ⟨-, -, heq⟩ := fetch_eq_ok.mp hfetch
  have hheight : output.height = (r.outputsByBlockHash blockHash).height := by rw [heq]; rfl
  unfold enroll MinerProfile.enrolled
  by_cases hreg : (s.miners sender).registered = true
  · simp only [hreg, if_true, forall_const, bind_eq_ok, require_eq_ok, pure_eq_ok,
      Function.update_eq_self]
    constructor
    · rintro ⟨-, hsame, rfl⟩
      exact ⟨hsame, rfl⟩
    · rintro ⟨hsame, rfl⟩
      exact ⟨(), hsame, rfl⟩
  · simp only [hreg, bind_eq_ok, mapError_eq_ok, pure_eq_ok, Bool.false_eq_true, if_false,
      false_imp_iff, true_and]
    constructor
    · rintro ⟨output', hfetch', rfl⟩
      obtain rfl := Except.ok.inj (hfetch.symm.trans hfetch')
      rw [hheight]
    · rintro rfl
      exact ⟨output, hfetch, by rw [hheight]⟩

/-- A proof of a sender is counted, in the profile of its miner. -/
structure Counts (r : Registry) (sender : Address) (blockHash : Bytes32) (binaMiner : Bytes20)
    (s s' : BinaMinerRegistry) : Prop where
  passes : Passes r s.work blockHash binaMiner
  agrees : (s.miners sender).registered = true → (s.miners sender).binaAddress = binaMiner
  result : s' =
    { work := consume s.work sender blockHash
      miners := Function.update s.miners sender
        (((s.miners sender).enrolled binaMiner (r.outputsByBlockHash blockHash).height).credited
          (r.outputsByBlockHash blockHash))
      binaToEvm := if (s.miners sender).registered then s.binaToEvm
        else Function.update s.binaToEvm binaMiner sender }

@[simp] theorem enrolled_proofs (p : MinerProfile) (m : Bytes20) (h : BitVec 64) :
    (p.enrolled m h).proofsSubmitted = p.proofsSubmitted := by
  unfold MinerProfile.enrolled
  split <;> rfl

@[simp] theorem enrolled_bits (p : MinerProfile) (m : Bytes20) (h : BitVec 64) :
    (p.enrolled m h).totalWorkBits = p.totalWorkBits := by
  unfold MinerProfile.enrolled
  split <;> rfl

@[simp] theorem enrolled_registered (p : MinerProfile) (m : Bytes20) (h : BitVec 64) :
    (p.enrolled m h).registered = true := by
  unfold MinerProfile.enrolled
  split
  · assumption
  · rfl

theorem enrolled_bina {p : MinerProfile} {m : Bytes20} (h : BitVec 64)
    (hp : p.registered = true → p.binaAddress = m) : (p.enrolled m h).binaAddress = m := by
  unfold MinerProfile.enrolled
  split
  · exact hp ‹_›
  · rfl

theorem registerMiner_eq_ok {r : Registry} {sender : Address} {blockHash : Bytes32}
    {binaMiner : Bytes20} {s s' : BinaMinerRegistry} :
    registerMiner r sender blockHash binaMiner s = .ok s' ↔
      Counts r sender blockHash binaMiner s s' ∧
      (s.miners sender).proofsSubmitted+1 < uintEnd ∧
      (s.miners sender).totalWorkBits+(r.outputsByBlockHash blockHash).workBits.toNat <
        uintEnd := by
  unfold registerMiner
  simp only [bind_eq_ok, mapError_eq_ok, verifyBinaWork_eq_ok]
  constructor
  · rintro ⟨work, ⟨hp, rfl⟩, t, ht, hs⟩
    obtain ⟨hagrees, rfl⟩ := (enroll_eq_ok hp.readable).mp ht
    obtain ⟨hproofs, hbits, rfl⟩ := (updateReputation_eq_ok hp.readable).mp hs
    simp only [Function.update_self, enrolled_proofs, enrolled_bits] at hproofs hbits
    refine ⟨⟨hp, hagrees, ?_⟩, hproofs, hbits⟩
    simp only [Function.update_self, Function.update_idem]
  · rintro ⟨⟨hp, hagrees, rfl⟩, hproofs, hbits⟩
    refine ⟨_, ⟨hp, rfl⟩, _, (enroll_eq_ok hp.readable).mpr ⟨hagrees, rfl⟩, ?_⟩
    refine (updateReputation_eq_ok hp.readable).mpr ⟨?_, ?_, ?_⟩
    · simpa only [Function.update_self, enrolled_proofs] using hproofs
    · simpa only [Function.update_self, enrolled_bits] using hbits
    · simp only [Function.update_self, Function.update_idem]

theorem submitProof_counts {r : Registry} {sender : Address} {blockHash : Bytes32}
    {binaMiner : Bytes20} {s s' : BinaMinerRegistry}
    (h : submitProof r sender blockHash binaMiner s = .ok s') :
    Counts r sender blockHash binaMiner s s' ∧ (s.miners sender).registered = true := by
  unfold submitProof at h
  simp only [bind_eq_ok, mapError_eq_ok, verifyBinaWork_eq_ok, require_eq_ok] at h
  obtain ⟨work, ⟨hp, rfl⟩, -, hreg, -, hsame, hs⟩ := h
  obtain ⟨-, -, rfl⟩ := (updateReputation_eq_ok hp.readable).mp hs
  have henrolled (height : BitVec 64) :
      (s.miners sender).enrolled binaMiner height = s.miners sender := if_pos hreg
  refine ⟨⟨hp, fun _ => hsame, ?_⟩, hreg⟩
  rw [henrolled, if_pos hreg]

/-- Apart from steps of the oracle, every step counts one proof. -/
theorem step_counts {K : Primitives} {j j' : Joint} {e : Event} (h : step K j e = some j') :
    (∃ m c, e = .oracle m c ∧ Oracle.step K j.registry (m, c) = some j'.registry ∧
      j'.miners = j.miners) ∨
    ∃ sender blockHash binaMiner, j'.registry = j.registry ∧
      Counts j.registry sender blockHash binaMiner j.miners j'.miners ∧
      (e = .registerMiner sender blockHash binaMiner ∨
        e = .submitProof sender blockHash binaMiner ∧
          (j.miners.miners sender).registered = true) := by
  cases e with
  | oracle m c =>
    obtain ⟨r', hr, rfl⟩ := Option.map_eq_some_iff.mp h
    exact .inl ⟨m, c, rfl, hr, rfl⟩
  | registerMiner sender blockHash binaMiner =>
    obtain ⟨s', hs, rfl⟩ := Option.map_eq_some_iff.mp h
    exact .inr ⟨sender, blockHash, binaMiner, rfl,
      (registerMiner_eq_ok.mp (toOption_eq_some.mp hs)).1, .inl rfl⟩
  | submitProof sender blockHash binaMiner =>
    obtain ⟨s', hs, rfl⟩ := Option.map_eq_some_iff.mp h
    obtain ⟨hcounts, hreg⟩ := submitProof_counts (toOption_eq_some.mp hs)
    exact .inr ⟨sender, blockHash, binaMiner, rfl, hcounts, .inr ⟨rfl, hreg⟩⟩

def workOf (r : Registry) (b : Bytes32) : ℕ := (r.outputsByBlockHash b).workBits.toNat

structure Earned (j : Joint) (used : Finset Bytes32) : Prop where
  backed : Backed j.registry j.miners.work used
  gate : j.miners.work.minWorkBits = 22
  proofs : ∀ a, (j.miners.miners a).proofsSubmitted = (provedBy j.miners.work used a).card
  bits : ∀ a, (j.miners.miners a).totalWorkBits =
    ∑ b ∈ provedBy j.miners.work used a, workOf j.registry b
  score : ∀ a, (j.miners.miners a).reputationScore = (j.miners.miners a).proofsSubmitted*
    ((j.miners.miners a).totalWorkBits/(j.miners.miners a).proofsSubmitted)
  registered : ∀ a, (j.miners.miners a).registered = true ↔
    0 < (j.miners.miners a).proofsSubmitted
  mined : ∀ b ∈ used, (j.registry.outputsByBlockHash b).binaMiner =
    (j.miners.miners (j.miners.work.proofSubmitter b)).binaAddress

theorem earned_start (r : Registry) : Earned { registry := r, miners := deploy } ∅ where
  backed := Backed.construct r 22 false
  gate := rfl
  proofs _ := rfl
  bits _ := rfl
  score _ := (Nat.zero_mul _).symm
  registered a := by simp [deploy, MinerProfile.zero]
  mined b hb := by simp at hb

theorem earned_oracle {K : Primitives} {j j' : Joint} {e : Msg × Call} {used : Finset Bytes32}
    (h : Earned j used) (hr : Oracle.step K j.registry e = some j'.registry)
    (hsame : j'.miners = j.miners) : Earned j' used where
  backed := hsame ▸ h.backed.oracle hr
  gate := hsame ▸ h.gate
  proofs := hsame ▸ h.proofs
  bits a := by
    rw [hsame, h.bits a]
    apply Finset.sum_congr rfl
    intro b hb
    unfold workOf
    rw [stored_step hr (h.backed.finalised b (Finset.mem_filter.mp hb).1)]
  score := hsame ▸ h.score
  registered := hsame ▸ h.registered
  mined b hb := by
    rw [hsame, stored_step hr (h.backed.finalised b hb)]
    exact h.mined b hb

theorem earned_counts {j j' : Joint} {used : Finset Bytes32} {sender : Address}
    {blockHash : Bytes32} {binaMiner : Bytes20} (h : Earned j used)
    (hregistry : j'.registry = j.registry)
    (hc : Counts j.registry sender blockHash binaMiner j.miners j'.miners) :
    Earned j' (insert blockHash used) := by
  have hfresh := h.backed.fresh hc.passes
  have hnot : blockHash ∉ provedBy j.miners.work used sender :=
    fun hmem => hfresh (Finset.mem_filter.mp hmem).1
  have hproved (a : Address) := provedBy_consume (c := j.miners.work) hfresh sender a
  rw [show j' = { registry := j.registry, miners := j'.miners } by rw [← hregistry], hc.result]
  exact
    { backed := h.backed.consume hc.passes sender
      gate := h.gate
      proofs := by
        intro a
        dsimp only
        rw [hproved]
        by_cases ha : a = sender
        · subst ha
          rw [if_pos rfl, Function.update_self, Finset.card_insert_of_notMem hnot, ← h.proofs]
          simp [MinerProfile.credited]
        · rw [if_neg ha, Function.update_of_ne ha, h.proofs]
      bits := by
        intro a
        dsimp only
        rw [hproved]
        by_cases ha : a = sender
        · subst ha
          rw [if_pos rfl, Function.update_self, Finset.sum_insert hnot, ← h.bits, Nat.add_comm]
          simp [MinerProfile.credited, workOf]
        · rw [if_neg ha, Function.update_of_ne ha, h.bits]
      score := by
        intro a
        dsimp only
        by_cases ha : a = sender
        · subst ha
          rw [Function.update_self]
          simp [MinerProfile.credited]
        · rw [Function.update_of_ne ha, h.score]
      registered := by
        intro a
        dsimp only
        by_cases ha : a = sender
        · subst ha
          rw [Function.update_self]
          simp [MinerProfile.credited]
        · rw [Function.update_of_ne ha, h.registered]
      mined := by
        intro b hb
        dsimp only
        have hsender (p : MinerProfile) (stored : StoredOutput) :
            (p.credited stored).binaAddress = p.binaAddress := rfl
        rcases Finset.mem_insert.mp hb with rfl | hold
        · rw [show (consume j.miners.work sender b).proofSubmitter b = sender from
            Function.update_self _ _ _, Function.update_self, hsender, enrolled_bina _ hc.agrees]
          exact hc.passes.mined
        · have hne : b ≠ blockHash := fun heq => hfresh (heq ▸ hold)
          rw [show (consume j.miners.work sender blockHash).proofSubmitter b =
            j.miners.work.proofSubmitter b from Function.update_of_ne hne _ _, h.mined b hold]
          by_cases ha : j.miners.work.proofSubmitter b = sender
          · have hpos : 0 < (j.miners.miners sender).proofsSubmitted := by
              rw [h.proofs]
              exact Finset.card_pos.mpr ⟨b, Finset.mem_filter.mpr ⟨hold, ha⟩⟩
            have hreg := (h.registered sender).mpr hpos
            rw [ha, Function.update_self, hsender, enrolled_bina _ hc.agrees, hc.agrees hreg]
          · rw [Function.update_of_ne ha] }

theorem earned_reach {K : Primitives} {r : Registry} {j : Joint}
    (h : Reach (step K) { registry := r, miners := deploy } j) : ∃ used, Earned j used := by
  apply h.invariant (P := fun j => ∃ used, Earned j used) ⟨∅, earned_start r⟩
  rintro j e j' ⟨used, hj⟩ - hs
  rcases step_counts hs with ⟨m, c, -, hr, hsame⟩ | ⟨sender, b, miner, hregistry, hc, -⟩
  · exact ⟨used, earned_oracle hj hr hsame⟩
  · exact ⟨insert b used, earned_counts hj hregistry hc⟩

/-- The reputation of an address is told by the proofs it consumed: all of one
miner's, and worth their work rounded down to a multiple of their number. -/
theorem reputation_of_proofs {K : Primitives} {r : Registry} {j : Joint}
    (h : Reach (step K) { registry := r, miners := deploy } j) (a : Address) :
    ∃ proved : Finset Bytes32,
      (∀ b, b ∈ proved ↔
        j.miners.work.proofUsed b = true ∧ j.miners.work.proofSubmitter b = a) ∧
      (∀ b ∈ proved, Finalised j.registry b ∧ 22 ≤ workOf j.registry b ∧
        (j.registry.outputsByBlockHash b).binaMiner = (j.miners.miners a).binaAddress) ∧
      (j.miners.miners a).proofsSubmitted = proved.card ∧
      (j.miners.miners a).totalWorkBits = ∑ b ∈ proved, workOf j.registry b ∧
      proved.card*22 ≤ (j.miners.miners a).reputationScore ∧
      (j.miners.miners a).reputationScore ≤ ∑ b ∈ proved, workOf j.registry b ∧
      (isVerifiedMiner a j.miners = true ↔ proved.Nonempty) ∧
      (proved.Nonempty →
        ∑ b ∈ proved, workOf j.registry b < (j.miners.miners a).reputationScore+proved.card) := by
  obtain ⟨used, he⟩ := earned_reach h
  have hwork : ∀ b ∈ used, 22 ≤ workOf j.registry b := by
    intro b hb
    have henough := he.backed.enough b hb
    rw [he.gate] at henough
    exact henough
  have hleast : (provedBy j.miners.work used a).card*22 ≤
      ∑ b ∈ provedBy j.miners.work used a, workOf j.registry b := by
    rw [← smul_eq_mul]
    exact Finset.card_nsmul_le_sum _ _ _ fun b hb => hwork b (Finset.mem_filter.mp hb).1
  have hscore := he.score a
  rw [he.proofs a, he.bits a] at hscore
  refine ⟨provedBy j.miners.work used a, ?_, ?_, he.proofs a, he.bits a, ?_, ?_, ?_, ?_⟩
  · intro b
    rw [provedBy, Finset.mem_filter, he.backed.marked b]
  · intro b hb
    obtain ⟨hused, hsubmitter⟩ := Finset.mem_filter.mp hb
    refine ⟨he.backed.finalised b hused, hwork b hused, ?_⟩
    rw [he.mined b hused, hsubmitter]
  · rw [hscore]
    rcases Nat.eq_zero_or_pos (provedBy j.miners.work used a).card with hzero | hpos
    · simp [hzero]
    · exact Nat.mul_le_mul_left _ ((Nat.le_div_iff_mul_le hpos).mpr (by rwa [Nat.mul_comm]))
  · rw [hscore]
    exact Nat.mul_div_le _ _
  · unfold isVerifiedMiner
    rw [Bool.and_eq_true, decide_eq_true_iff, he.registered a, and_self, he.proofs a,
      Finset.card_pos]
  · intro hsome
    have hpos := Finset.card_pos.mpr hsome
    rw [hscore]
    have hdiv := Nat.div_add_mod (∑ b ∈ provedBy j.miners.work used a, workOf j.registry b)
      (provedBy j.miners.work used a).card
    have hmod := Nat.mod_lt (∑ b ∈ provedBy j.miners.work used a, workOf j.registry b) hpos
    omega

/-- The first registrations, the last one first. -/
abbrev Links := List (Address × Bytes20)

def noteLink (j : Joint) (e : Event) (_ : Joint) (log : Links) : Links :=
  match e with
  | .registerMiner sender _ binaMiner =>
    if (j.miners.miners sender).registered then log else (sender, binaMiner) :: log
  | _ => log

structure Linked (x : Joint × Links) : Prop where
  once : (x.2.map Prod.fst).Nodup
  registered : ∀ a, (x.1.miners.miners a).registered = true ↔ a ∈ x.2.map Prod.fst
  address : ∀ e ∈ x.2, (x.1.miners.miners e.1).binaAddress = e.2
  link : ∀ m, x.1.miners.binaToEvm m = ((x.2.find? fun e => e.2 = m).map Prod.fst).getD 0

theorem linked_start (r : Registry) : Linked ({ registry := r, miners := deploy }, []) where
  once := List.nodup_nil
  registered a := by simp [deploy, MinerProfile.zero]
  address e he := by cases he
  link m := rfl

theorem linked_known {j j' : Joint} {log : Links} {sender : Address} {blockHash : Bytes32}
    {binaMiner : Bytes20} (h : Linked (j, log))
    (hc : Counts j.registry sender blockHash binaMiner j.miners j'.miners)
    (hreg : (j.miners.miners sender).registered = true) : Linked (j', log) := by
  have hprofile (a : Address) : (j'.miners.miners a).registered =
      (j.miners.miners a).registered ∧
      (j'.miners.miners a).binaAddress = (j.miners.miners a).binaAddress := by
    rw [hc.result]
    dsimp only
    by_cases ha : a = sender
    · subst ha
      rw [Function.update_self, MinerProfile.enrolled, if_pos hreg]
      exact ⟨rfl, rfl⟩
    · rw [Function.update_of_ne ha]
      exact ⟨rfl, rfl⟩
  exact
    { once := h.once
      registered := fun a => by rw [(hprofile a).1]; exact h.registered a
      address := fun e he => by rw [(hprofile e.1).2]; exact h.address e he
      link := fun m => by
        rw [hc.result]
        dsimp only
        rw [if_pos hreg]
        exact h.link m }

theorem linked_new {j j' : Joint} {log : Links} {sender : Address} {blockHash : Bytes32}
    {binaMiner : Bytes20} (h : Linked (j, log))
    (hc : Counts j.registry sender blockHash binaMiner j.miners j'.miners)
    (hreg : ¬ (j.miners.miners sender).registered = true) :
    Linked (j', (sender, binaMiner) :: log) where
  once := by
    rw [List.map_cons, List.nodup_cons]
    exact ⟨fun hmem => hreg ((h.registered sender).mpr hmem), h.once⟩
  registered a := by
    rw [hc.result]
    dsimp only
    by_cases ha : a = sender
    · subst ha
      simp [MinerProfile.credited]
    · rw [Function.update_of_ne ha, List.map_cons, List.mem_cons, or_iff_right ha]
      exact h.registered a
  address e he := by
    rw [hc.result]
    dsimp only
    rcases List.mem_cons.mp he with rfl | hold
    · rw [Function.update_self]
      exact enrolled_bina _ hc.agrees
    · have hne : e.1 ≠ sender := by
        intro heq
        exact hreg ((h.registered sender).mpr (heq ▸ List.mem_map_of_mem hold))
      rw [Function.update_of_ne hne]
      exact h.address e hold
  link m := by
    rw [hc.result]
    dsimp only
    rw [if_neg hreg]
    by_cases hm : m = binaMiner
    · subst hm
      simp
    · rw [Function.update_of_ne hm, List.find?_cons_of_neg (by simpa using Ne.symm hm)]
      exact h.link m

theorem linked_reach {K : Primitives} {r : Registry} {x : Joint × Links}
    (h : Reach (recording (step K) noteLink) ({ registry := r, miners := deploy }, []) x) :
    Linked x := by
  apply h.invariant (linked_start r)
  rintro x e y hx - hs
  obtain ⟨hstep, hnote⟩ := recording_eq_some.mp hs
  rw [show y = (y.1, noteLink x.1 e y.1 x.2) by rw [← hnote]]
  rcases step_counts hstep with ⟨m, c, rfl, -, hsame⟩ | ⟨sender, b, miner, -, hc, hevent⟩
  · exact
      { once := hx.once
        registered := fun a => by rw [hsame]; exact hx.registered a
        address := fun e he => by rw [hsame]; exact hx.address e he
        link := fun m => by rw [hsame]; exact hx.link m }
  · rcases hevent with rfl | ⟨rfl, hreg⟩
    · dsimp only [noteLink]
      by_cases hreg : (x.1.miners.miners sender).registered = true
      · rw [if_pos hreg]
        exact linked_known hx hc hreg
      · rw [if_neg hreg]
        exact linked_new hx hc hreg
    · exact linked_known hx hc hreg

theorem Earned.blank {j : Joint} {used : Finset Bytes32} (h : Earned j used) {a : Address}
    (hreg : (j.miners.miners a).registered = false) :
    (j.miners.miners a).proofsSubmitted = 0 ∧ (j.miners.miners a).totalWorkBits = 0 := by
  have hzero : (j.miners.miners a).proofsSubmitted = 0 := by
    by_contra hne
    have hreg' := (h.registered a).mpr (Nat.pos_of_ne_zero hne)
    rw [hreg] at hreg'
    cases hreg'
  refine ⟨hzero, ?_⟩
  have hcard := h.proofs a
  rw [hzero] at hcard
  rw [h.bits a, Finset.card_eq_zero.mp hcard.symm, Finset.sum_empty]

theorem registers_under_any_miner {K : Primitives} {j : Joint} {used : Finset Bytes32}
    (he : Earned j used) {a : Address} {blockHash : Bytes32} {binaMiner : Bytes20}
    (hreg : (j.miners.miners a).registered = false)
    (hp : Passes j.registry j.miners.work blockHash binaMiner) :
    ∃ j', step K j (.registerMiner a blockHash binaMiner) = some j' ∧
      j'.miners.binaToEvm binaMiner = a := by
  obtain ⟨hproofs, hbits⟩ := he.blank hreg
  have hbyte : (j.registry.outputsByBlockHash blockHash).workBits.toNat < 256 :=
    (j.registry.outputsByBlockHash blockHash).workBits.isLt
  have hcounts : Counts j.registry a blockHash binaMiner j.miners _ :=
    { passes := hp, agrees := fun hknown => absurd hknown (by simp [hreg]), result := rfl }
  have hword : 256 ≤ uintEnd := by decide
  have hok := registerMiner_eq_ok.mpr ⟨hcounts, by omega, by omega⟩
  refine ⟨_, Option.map_eq_some_iff.mpr ⟨_, toOption_eq_some.mpr hok, rfl⟩, ?_⟩
  simp [hreg]

/-- The link from a miner to an account lasts until the next first registration
under the same miner, and with any unused block of the miner any new address can
make one. -/
theorem link_lasts_iff {K : Primitives} {r : Registry} {j : Joint} {log later earlier : Links}
    {a : Address} {m : Bytes20}
    (h : Reach (recording (step K) noteLink) ({ registry := r, miners := deploy }, []) (j, log))
    (hlog : log = later++(a, m) :: earlier) :
    (j.miners.miners a).registered = true ∧ (j.miners.miners a).binaAddress = m ∧
      (j.miners.binaToEvm m = a ↔ ∀ e ∈ later, e.2 ≠ m) ∧
      ∀ (other : Address) (b : Bytes32), (j.miners.miners other).registered = false →
        Passes j.registry j.miners.work b m →
        ∃ j', step K j (.registerMiner other b m) = some j' ∧ j'.miners.binaToEvm m = other := by
  have hlinked := linked_reach h
  subst hlog
  have hmem : (a, m) ∈ later++(a, m) :: earlier := by simp
  have hreg := (hlinked.registered a).mpr (List.mem_map_of_mem hmem)
  refine ⟨hreg, hlinked.address _ hmem, ?_, ?_⟩
  · have hlink := hlinked.link m
    dsimp only at hlink
    rw [hlink, List.find?_append]
    constructor
    · intro heq e he hm
      cases hfind : later.find? (fun e => decide (e.2 = m)) with
      | none => exact absurd hm (by simpa using List.find?_eq_none.mp hfind e he)
      | some e' =>
        rw [hfind] at heq
        have hsame : e'.1 = a := heq
        have honce := hlinked.once
        rw [List.map_append, List.map_cons] at honce
        have hdisjoint := (List.nodup_append.mp honce).2.2 e'.1
          (List.mem_map_of_mem (List.mem_of_find?_eq_some hfind)) a List.mem_cons_self
        exact hdisjoint hsame
    · intro hnone
      have hfind : later.find? (fun e => decide (e.2 = m)) = none :=
        List.find?_eq_none.mpr fun e he => by simpa using hnone e he
      rw [hfind, Option.none_or, List.find?_cons_of_pos (by simp)]
      rfl
  · intro other b hother hp
    obtain ⟨used, he⟩ := earned_reach (h.unrecorded fun _ _ _ => trivial)
    exact registers_under_any_miner he hother hp

def toyLater : Submission :=
  { MinedAction.toySubmission with
    output := { MinedAction.toyOutput with
      height := 2, blockHash := 8, nullifier := 9, randomnessOutput := 11 } }

def toyRegistered : Option (Joint × Links) :=
  exec (recording (step shortDigests) noteLink)
    ({ registry := MinedAction.toyRegistry, miners := deploy }, [])
    [.oracle { sender := 1, timestamp := 0 }
      (.submitOutputForPurposes MinedAction.toySubmission),
      .oracle { sender := 1, timestamp := 0 } (.submitOutputForPurposes toyLater),
      .registerMiner 9 7 4, .registerMiner 6 8 4]

theorem reputation_of_proofs_toy : ∃ x, toyRegistered = some x ∧
    (x.1.miners.miners 9).proofsSubmitted = 1 ∧
    ∃ proved : Finset Bytes32, (x.1.miners.miners 9).proofsSubmitted = proved.card ∧
      proved.card*22 ≤ (x.1.miners.miners 9).reputationScore := by
  have hrun : toyRegistered.map (fun x => (x.1.miners.miners 9).proofsSubmitted) = some 1 := by
    decide +kernel
  obtain ⟨x, hx, hone⟩ := Option.map_eq_some_iff.mp hrun
  obtain ⟨proved, -, -, hproofs, -, hscore, -⟩ :=
    reputation_of_proofs ((exec_reach hx).unrecorded fun _ _ _ => trivial) 9
  exact ⟨x, hx, hone, proved, hproofs, hscore⟩

theorem link_lasts_iff_taken_over : ∃ x, toyRegistered = some x ∧
    (x.1.miners.miners 9).registered = true ∧ (x.1.miners.miners 9).binaAddress = 4 ∧
      x.1.miners.binaToEvm 4 ≠ 9 := by
  have hrun : toyRegistered.map (fun x => x.2) = some [(6, 4), (9, 4)] := by decide +kernel
  obtain ⟨⟨j, log⟩, hx, hlog⟩ := Option.map_eq_some_iff.mp hrun
  obtain ⟨hreg, haddress, hlink, -⟩ :=
    link_lasts_iff (exec_reach hx) (show log = [(6, 4)]++(9, 4) :: [] from hlog)
  refine ⟨(j, log), hx, hreg, haddress, ?_⟩
  intro hkept
  exact hlink.mp hkept (6, 4) List.mem_cons_self rfl

end BinaChain.MinerRegistry
