import BinaChain.Node.System

/-!
# Where stored records come from

A node stores the records it builds and the records it adopts. It derives the
randomness fields of the former and copies those of the latter.
-/

set_option autoImplicit false

namespace BinaChain.Provenance
open BinaChain.Word BinaChain.Text BinaChain.Crypto BinaChain.Randomness
open BinaChain.BitcoinEntropy BinaChain.Rewards BinaChain.State BinaChain.Machine
open BinaChain.Store BinaChain.Mining BinaChain.Sync BinaChain.Reconcile BinaChain.System

/-- The ways a record can be in the store after a step. -/
inductive Origin (K : Primitives) (n : Node) : Event → ℕ → BlockRecord → Prop
  | kept {e : Event} {height : ℕ} {b : BlockRecord} (h : n.store.get height = some b) :
      Origin K n e height b
  | recorded {f : Finalising} (hp : n.phase = .executed f) :
      Origin K n (.loop (.record true)) f.height (recordOf K f).stored
  | adopted {now : ℕ} {r : BlockRecord} {claim : Claims.SignedBlockClaim}
      (hp : n.phase = .idle) (hc : Checked K n.cursor n.ledger now r claim) :
      Origin K n (.loop (.adopt now true r)) r.height r.stored

theorem transition_origin {K : Primitives} {wallet : WalletPublicKey} {n n' : Node}
    {e : LoopEvent} {height : ℕ} {b : BlockRecord} (ht : Transition K wallet n e n')
    (hg : n'.store.get height = some b) : Origin K n (.loop e) height b := by
  cases ht with
  | prepare | mined | elect | electNobody | save | publish | publishSpent => exact .kept hg
  | execute hp =>
    exact .kept (by rwa [BlockStore.get_congr (BlockStore.mempoolRemoves_blocks K _ _)] at hg)
  | @record f stored hp =>
    cases stored with
    | false => exact .kept hg
    | true =>
      rcases BlockStore.get_insertBlock hg with ⟨rfl, rfl⟩ | ⟨-, hk⟩
      · exact .recorded hp
      · exact .kept hk
  | @adopt now stored r claim hp hh hc =>
    cases stored with
    | false => exact .kept hg
    | true =>
      rcases BlockStore.get_insertBlock hg with ⟨rfl, rfl⟩ | ⟨-, hk⟩
      · exact .adopted hp hc
      · exact .kept hk
  | publishAdopted hp =>
    exact .kept (by
      rwa [publishSynced, BlockStore.get_congr (BlockStore.mempoolRemoves_blocks K _ _)] at hg)
  | rewind hp hr =>
    simp only [Reconcile.rewind, BlockStore.get_rollbackAbove] at hg
    split at hg
    · exact .kept hg
    · simp at hg
  | publishRewound hp =>
    exact .kept (by
      rwa [Reconcile.publishRewound,
        BlockStore.get_congr (BlockStore.mempoolInserts_blocks K _ _)] at hg)

theorem step_origin {K : Primitives} {wallet : WalletPublicKey} {n n' : Node} {e : Event}
    {height : ℕ} {b : BlockRecord} (hs : step K wallet n e = some n')
    (hg : n'.store.get height = some b) : Origin K n e height b := by
  cases e with
  | client e =>
    simp only [step] at hs
    split at hs
    · simp at hs
    · exact .kept (by rwa [BlockStore.get_congr (clientStep_framed hs).blocks] at hg)
  | loop e => exact transition_origin (loopStep_transition hs) hg

structure RandomnessReply where
  height : ℕ
  output : Str
  nullifier : Str
  blockHash : Str
  btcSeed : Str
  btcHeight : ℕ
  verified : Bool
  nonDoubleSpend : Bool
  deriving DecidableEq

def randomnessReply (b : BlockRecord) : RandomnessReply where
  height := b.height
  output := b.randomnessOutput
  nullifier := b.nullifier
  blockHash := b.blockHash
  btcSeed := b.btcSeed
  btcHeight := b.btcHeight
  verified := true
  nonDoubleSpend := true

def handleRandomnessAt (store : BlockStore) (height : ℕ) : Option RandomnessReply :=
  (store.get height).map randomnessReply

def handleRandomnessLatest (s : NodeState) (store : BlockStore) : Option RandomnessReply :=
  handleRandomnessAt store s.chainHeight

/-- What a record's height, hash and seed yield. -/
def randomnessFrom (K : Primitives) (b : BlockRecord) : Except Failure RandomnessOutput := do
  let blockHash ← hexTo32 b.blockHash
  let bitcoinSeedHash ← hexTo32 b.btcSeed
  pure (.fromBlock K b.height blockHash bitcoinSeedHash)

/-- The randomness fields of a record are the derived ones. -/
def Derived (K : Primitives) (b : BlockRecord) : Prop :=
  (randomnessFrom K b).map (fun o => (o.outputHex, o.nullifierHex)) =
    .ok (b.randomnessOutput, b.nullifier)

instance (K : Primitives) (b : BlockRecord) : Decidable (Derived K b) :=
  inferInstanceAs (Decidable (_ = _))

theorem randomnessFrom_recordOf (K : Primitives) (f : Finalising) :
    randomnessFrom K (recordOf K f) = .ok (randomnessOf K f.winning f.height) := by
  have hb : hexTo32 (recordOf K f).blockHash = .ok (f.winning.claim.blockHash K) :=
    hexTo32_encode _
  have hs : hexTo32 (recordOf K f).btcSeed = .ok f.winning.claim.header.bitcoinSeedHash :=
    hexTo32_encode _
  unfold randomnessFrom
  rw [hb, hs]
  rfl

theorem recordOf_derived (K : Primitives) (f : Finalising) : Derived K (recordOf K f) := by
  unfold Derived
  rw [randomnessFrom_recordOf]
  rfl

/-- A record that is adopted and stored carries the randomness of its block. -/
def AdoptsDerived (K : Primitives) : Event → Prop
  | .loop (.adopt _ true r) => Derived K r
  | _ => True

def AllDerived (K : Primitives) (store : BlockStore) : Prop :=
  ∀ height b, store.get height = some b → Derived K b

theorem allDerived_step {K : Primitives} {wallet : WalletPublicKey} {n n' : Node} {e : Event}
    (h : AllDerived K n.store) (he : AdoptsDerived K e) (hs : step K wallet n e = some n') :
    AllDerived K n'.store := by
  intro height b hg
  cases step_origin hs hg with
  | kept hk => exact h height b hk
  | @recorded f hp => exact recordOf_derived K f
  | adopted hp hc => exact he

/-- No weaker condition on adopted records would do. -/
theorem adopted_derived {K : Primitives} {wallet : WalletPublicKey} {n n' : Node} {now : ℕ}
    {r : BlockRecord} (hs : step K wallet n (.loop (.adopt now true r)) = some n')
    (h : AllDerived K n'.store) : Derived K r := by
  have ht : Transition K wallet n (.adopt now true r) n' := loopStep_transition hs
  cases ht with
  | adopt hp hh hc => exact h r.height r.stored (BlockStore.get_insertBlock_self _ _)

/-- While adopted records carry derived randomness, every stored record does,
and so does whatever is served as verified. -/
theorem stored_randomness {K : Primitives} {wallet : WalletPublicKey}
    {outcomes : List AppendOutcome} {observed : BtcEntropyState} {n : Node}
    (h : Run (step K wallet) (fun _ e => AdoptsDerived K e) (boot K outcomes observed) n) :
    AllDerived K n.store ∧
    ∀ height a, handleRandomnessAt n.store height = some a →
      ∃ b, n.store.get height = some b ∧ a = randomnessReply b ∧ Derived K b := by
  have hall : AllDerived K n.store := by
    refine h.invariant ?_ fun _ _ _ => allDerived_step
    intro height b hg
    simp [boot, BlockStore.empty, BlockStore.get] at hg
  refine ⟨hall, fun height a ha => ?_⟩
  obtain ⟨b, hb, rfl⟩ := Option.map_eq_some_iff.mp ha
  exact ⟨b, hb, rfl, hall height b hb⟩

set_option maxRecDepth 100000 in
theorem stored_randomness_sample :
    ∃ n, exec (step toyPrimitives (toyWalletKey 1)) toyBoot
        (toyAdoption (toyRecord 1 0 toyGenesis [])) = some n ∧
      (handleRandomnessAt n.store 1).isSome ∧ AllDerived toyPrimitives n.store := by
  have hserved : (exec (step toyPrimitives (toyWalletKey 1)) toyBoot
      (toyAdoption (toyRecord 1 0 toyGenesis []))).any
        fun n => (handleRandomnessAt n.store 1).isSome := by decide +kernel
  have hadm : Admitted (step toyPrimitives (toyWalletKey 1))
      (fun _ e => AdoptsDerived toyPrimitives e) toyBoot
      (toyAdoption (toyRecord 1 0 toyGenesis [])) :=
    ⟨recordOf_derived _ _, fun _ _ => ⟨trivial, fun _ _ => trivial⟩⟩
  obtain ⟨n, hn, hs⟩ := (Option.any_eq_true _ _).mp hserved
  exact ⟨n, hn, hs, (stored_randomness (hadm.run hn)).1⟩

def toyAltered : BlockRecord := { toyRecord 1 0 toyGenesis [] with randomnessOutput := [] }

set_option maxRecDepth 100000 in
theorem altered_output_served :
    ∃ n, exec (step toyPrimitives (toyWalletKey 1)) toyBoot (toyAdoption toyAltered) = some n ∧
      (handleRandomnessAt n.store 1).any (fun a => a.verified && a.output == []) ∧
      ¬ AllDerived toyPrimitives n.store := by
  have hrun : (exec (step toyPrimitives (toyWalletKey 1)) toyBoot (toyAdoption toyAltered)).any
      fun n => (handleRandomnessAt n.store 1).any (fun a => a.verified && a.output == []) &&
        (n.store.get 1).any fun b => !decide (Derived toyPrimitives b) := by decide +kernel
  obtain ⟨n, hn, hs⟩ := (Option.any_eq_true _ _).mp hrun
  rw [Bool.and_eq_true] at hs
  obtain ⟨b, hb, hd⟩ := (Option.any_eq_true _ _).mp hs.2
  exact ⟨n, hn, hs.1, fun hall => by simp [hall 1 b hb] at hd⟩

end BinaChain.Provenance
