import BinaChain.Node.ChainWork
import BinaChain.Node.Coherence
import BinaChain.Node.Provenance

/-!
# The spent nullifiers and the blocks of the chain

Every block of the chain spends the token it yields. The set in memory follows
the store as long as no block is rolled back and adopted records name their own
token; a rollback removes blocks and leaves their tokens spent.
-/

set_option autoImplicit false

namespace BinaChain.Nullifiers
open BinaChain.Word BinaChain.Text BinaChain.Crypto BinaChain.Randomness
open BinaChain.BitcoinEntropy BinaChain.Rewards BinaChain.State BinaChain.Machine
open BinaChain.Store BinaChain.Mining BinaChain.Sync BinaChain.Reconcile BinaChain.System
open BinaChain.Coherence BinaChain.Provenance Std

def decodeHash (s : Str) : Option Hash := (Hex.decode s).toOption.bind (Hex.fixed 32)

/-- The loop at startup over the nullifiers of the store; `none` is a panic. -/
def reloadFrom : NullifierSet → List Str → Option NullifierSet
  | spent, [] => some spent
  | spent, s :: rest => (decodeHash s).bind fun x => reloadFrom (spent.markSpent x) rest

def reloadNullifiers (store : BlockStore) : Option NullifierSet :=
  reloadFrom ∅ store.allNullifiers

/-- The token that a record's block yields. -/
def token (K : Primitives) (b : BlockRecord) : Option Hash :=
  (randomnessFrom K b).toOption.map RandomnessOutput.nullifier

def tokenAt (K : Primitives) (store : BlockStore) (height : ℕ) : Option Hash :=
  (store.get height).bind (token K)

def SpendsOwn (K : Primitives) (b : BlockRecord) : Prop :=
  ∃ x, token K b = some x ∧ decodeHash b.nullifier = some x

def Unlike (K : Primitives) (store : BlockStore) (b : BlockRecord) : Prop :=
  ∀ height c, store.get height = some c → height ≠ b.height →
    c.blockHash ≠ b.blockHash ∧ token K c ≠ token K b

theorem token_recordOf (K : Primitives) (f : Finalising) :
    token K (recordOf K f) = some (randomnessOf K f.winning f.height).nullifier := by
  unfold token
  rw [randomnessFrom_recordOf]
  rfl

theorem recordOf_spendsOwn (K : Primitives) (f : Finalising) : SpendsOwn K (recordOf K f) := by
  refine ⟨_, token_recordOf K f, ?_⟩
  have hd : Hex.decode (recordOf K f).nullifier =
      .ok (randomnessOf K f.winning f.height).nullifier.toList := Hex.decode_encode _
  unfold decodeHash
  rw [hd]
  exact Hex.fixed_toList _

theorem markAdopted_eq (spent : NullifierSet) (s : Str) :
    markAdopted spent s = (decodeHash s).elim spent spent.markSpent := by
  unfold markAdopted decodeHash
  cases Hex.decode s with
  | error e => rfl
  | ok bytes => cases hf : Hex.fixed 32 bytes <;> simp [hf, Except.toOption]

theorem mem_markSpent {spent : NullifierSet} {x y : Hash} :
    y ∈ spent.markSpent x ↔ y = x ∨ y ∈ spent := by
  unfold NullifierSet.markSpent
  rw [ExtTreeSet.mem_insert, LawfulEqCmp.compare_eq_iff_eq, eq_comm]

theorem reloadFrom_mem (texts : List Str) :
    ∀ spent : NullifierSet, (∀ s ∈ texts, ∃ x, decodeHash s = some x) →
      ∃ spent', reloadFrom spent texts = some spent' ∧
        ∀ y, y ∈ spent' ↔ y ∈ spent ∨ ∃ s ∈ texts, decodeHash s = some y := by
  induction texts with
  | nil =>
    intro spent _
    exact ⟨spent, rfl, by simp⟩
  | cons s texts ih =>
    intro spent hall
    obtain ⟨x, hx⟩ := hall s List.mem_cons_self
    obtain ⟨spent', hr, hmem⟩ := ih (spent.markSpent x)
      fun t ht => hall t (List.mem_cons_of_mem _ ht)
    refine ⟨spent', by rw [reloadFrom, hx]; exact hr, fun y => ?_⟩
    rw [hmem, mem_markSpent]
    constructor
    · rintro ((rfl | hy) | ⟨t, ht, hd⟩)
      · exact Or.inr ⟨s, List.mem_cons_self, hx⟩
      · exact Or.inl hy
      · exact Or.inr ⟨t, List.mem_cons_of_mem _ ht, hd⟩
    · rintro (hy | ⟨t, ht, hd⟩)
      · exact Or.inl (Or.inr hy)
      · rcases List.mem_cons.mp ht with rfl | ht
        · exact Or.inl (Or.inl (Option.some.inj (hd.symm.trans hx)))
        · exact Or.inr ⟨t, ht, hd⟩

theorem mem_allNullifiers {store : BlockStore} {s : Str} :
    s ∈ store.allNullifiers ↔ ∃ height b, store.get height = some b ∧ b.nullifier = s := by
  unfold BlockStore.allNullifiers
  rw [List.mem_map]
  constructor
  · rintro ⟨⟨height, b⟩, hb, rfl⟩
    exact ⟨height, b, ExtTreeMap.mem_toList_iff_getElem?_eq_some.mp hb, rfl⟩
  · rintro ⟨height, b, hb, rfl⟩
    exact ⟨(height, b), ExtTreeMap.mem_toList_iff_getElem?_eq_some.mpr hb, rfl⟩

/-- The store holds one block at each height up to `top`, with a token of its own. -/
structure Complete (K : Primitives) (store : BlockStore) (top : ℕ) : Prop where
  bounds : ∀ height b, store.get height = some b → 1 ≤ height ∧ height ≤ top
  full : ∀ height, 1 ≤ height → height ≤ top → (store.get height).isSome
  owns : ∀ height b, store.get height = some b → SpendsOwn K b
  distinct : ∀ height height' x, tokenAt K store height = some x →
    tokenAt K store height' = some x → height = height'

theorem get_insertBlock_unlike {K : Primitives} {store : BlockStore} {b : BlockRecord}
    (h : Unlike K store b) (height : ℕ) : (store.insertBlock b).get height =
      if height = b.height then some b.stored else store.get height := by
  split
  · rename_i he
    rw [he]
    exact BlockStore.get_insertBlock_self store b
  · rename_i hne
    cases hg : store.get height with
    | some c => exact BlockStore.get_insertBlock_other hne (h height c hg hne).1 hg
    | none =>
      cases hi : (store.insertBlock b).get height with
      | none => rfl
      | some c =>
        rcases BlockStore.get_insertBlock hi with ⟨he, -⟩ | ⟨-, hk⟩
        · exact absurd he hne
        · simp [hg] at hk

theorem tokenAt_insertBlock {K : Primitives} {store : BlockStore} {b : BlockRecord}
    (h : Unlike K store b) (height : ℕ) : tokenAt K (store.insertBlock b) height =
      if height = b.height then token K b else tokenAt K store height := by
  unfold tokenAt
  rw [get_insertBlock_unlike h]
  split <;> rfl

theorem Complete.insert {K : Primitives} {store : BlockStore} {top : ℕ} {b : BlockRecord}
    (h : Complete K store top) (hb : b.height = top+1) (ho : SpendsOwn K b)
    (hu : Unlike K store b) : Complete K (store.insertBlock b) (top+1) where
  bounds height c hg := by
    rw [get_insertBlock_unlike hu] at hg
    split at hg
    · omega
    · have := h.bounds height c hg
      omega
  full height h₁ h₂ := by
    rw [get_insertBlock_unlike hu]
    split
    · rfl
    · exact h.full height h₁ (by omega)
  owns height c hg := by
    rw [get_insertBlock_unlike hu] at hg
    split at hg
    · obtain rfl := Option.some.inj hg
      exact ho
    · exact h.owns height c hg
  distinct height height' x hx hx' := by
    have hother : ∀ g, g ≠ b.height → tokenAt K store g = some x → token K b ≠ some x := by
      intro g hg ht hb'
      obtain ⟨c, hc, htok⟩ := Option.bind_eq_some_iff.mp ht
      exact (hu g c hc hg).2 (htok.trans hb'.symm)
    rw [tokenAt_insertBlock hu] at hx hx'
    split at hx
    · rename_i he
      split at hx'
      · rename_i he'
        rw [he, he']
      · rename_i hne'
        exact absurd hx (hother height' hne' hx')
    · rename_i hne
      split at hx'
      · exact absurd hx' (hother height hne hx)
      · exact h.distinct height height' x hx hx'

theorem tokenAt_congr {K : Primitives} {store store' : BlockStore}
    (hb : store'.blocks = store.blocks) (height : ℕ) :
    tokenAt K store' height = tokenAt K store height := by
  unfold tokenAt
  rw [BlockStore.get_congr hb]

theorem Complete.congr {K : Primitives} {store store' : BlockStore} {top : ℕ}
    (h : Complete K store top) (hb : store'.blocks = store.blocks) : Complete K store' top where
  bounds height b hg := h.bounds height b (by rwa [BlockStore.get_congr hb] at hg)
  full height h₁ h₂ := by
    rw [BlockStore.get_congr hb]
    exact h.full height h₁ h₂
  owns height b hg := h.owns height b (by rwa [BlockStore.get_congr hb] at hg)
  distinct height height' x hx hx' := by
    rw [tokenAt_congr hb] at hx hx'
    exact h.distinct height height' x hx hx'

theorem Complete.reload {K : Primitives} {store : BlockStore} {top : ℕ} {spent : NullifierSet}
    (h : Complete K store top)
    (hs : ∀ x, x ∈ spent ↔ ∃ height ≤ top, tokenAt K store height = some x) :
    reloadNullifiers store = some spent := by
  obtain ⟨spent', hr, hmem⟩ := reloadFrom_mem store.allNullifiers ∅ (by
    intro s hs
    obtain ⟨height, b, hb, rfl⟩ := mem_allNullifiers.mp hs
    obtain ⟨x, -, hx⟩ := h.owns height b hb
    exact ⟨x, hx⟩)
  unfold reloadNullifiers
  rw [hr]
  congr 1
  apply ExtTreeSet.ext_mem
  intro x
  rw [hmem, hs]
  constructor
  · rintro (hx | ⟨s, hin, hd⟩)
    · simp at hx
    · obtain ⟨height, b, hb, rfl⟩ := mem_allNullifiers.mp hin
      obtain ⟨y, hy, hy'⟩ := h.owns height b hb
      obtain rfl := Option.some.inj (hy'.symm.trans hd)
      exact ⟨height, (h.bounds height b hb).2, by unfold tokenAt; rw [hb]; exact hy⟩
  · rintro ⟨height, -, ht⟩
    obtain ⟨b, hb, htok⟩ := Option.bind_eq_some_iff.mp ht
    obtain ⟨y, hy, hy'⟩ := h.owns height b hb
    obtain rfl := Option.some.inj (hy.symm.trans htok)
    exact Or.inr ⟨b.nullifier, mem_allNullifiers.mpr ⟨height, b, hb, rfl⟩, hy'⟩

def inFlight (K : Primitives) (n : Node) : Option BlockRecord :=
  match n.phase with
  | .recorded f | .saved f => some (recordOf K f)
  | .adopting r => some r
  | _ => none

def topHeight (K : Primitives) (n : Node) : ℕ :=
  n.state.chainHeight+if (inFlight K n).isSome then 1 else 0

structure Accounted (K : Primitives) (n : Node) : Prop where
  complete : Complete K n.store (topHeight K n)
  spent : ∀ x, x ∈ n.state.nullifiers ↔
    ∃ height ≤ n.state.chainHeight, tokenAt K n.store height = some x
  flight : ∀ b, inFlight K n = some b → b.height = n.state.chainHeight+1 ∧
    n.store.get b.height = some b.stored

theorem Accounted.owns {K : Primitives} {n : Node} {b : BlockRecord} (h : Accounted K n)
    (hn : inFlight K n = some b) : SpendsOwn K b :=
  h.complete.owns b.height b.stored (h.flight b hn).2

theorem Accounted.still {K : Primitives} {n n' : Node} (h : Accounted K n)
    (hb : n'.store.blocks = n.store.blocks) (hh : n'.state.chainHeight = n.state.chainHeight)
    (hs : n'.state.nullifiers = n.state.nullifiers) (hf : inFlight K n' = inFlight K n) :
    Accounted K n' := by
  refine ⟨?_, fun x => ?_, fun b hb' => ?_⟩
  · rw [show topHeight K n' = topHeight K n by simp [topHeight, hh, hf]]
    exact h.complete.congr hb
  · rw [hs, hh, h.spent]
    simp only [tokenAt_congr hb]
  · rw [hf] at hb'
    rw [hh, BlockStore.get_congr hb]
    exact h.flight b hb'

theorem Accounted.store {K : Primitives} {n n' : Node} {b : BlockRecord} (h : Accounted K n)
    (hn : inFlight K n = none) (hb : b.height = n.state.chainHeight+1) (ho : SpendsOwn K b)
    (hu : Unlike K n.store b) (hst : n'.store = n.store.insertBlock b)
    (hh : n'.state.chainHeight = n.state.chainHeight)
    (hs : n'.state.nullifiers = n.state.nullifiers) (hf : inFlight K n' = some b) :
    Accounted K n' := by
  have htop : topHeight K n = n.state.chainHeight := by simp [topHeight, hn]
  have hc := h.complete
  rw [htop] at hc
  refine ⟨?_, ?_, ?_⟩
  · rw [hst, show topHeight K n' = n.state.chainHeight+1 by simp [topHeight, hh, hf]]
    exact hc.insert hb ho hu
  · intro x
    rw [hs, hh, hst, h.spent]
    simp only [tokenAt_insertBlock hu]
    constructor <;> rintro ⟨height, hle, ht⟩ <;> refine ⟨height, hle, ?_⟩
    · rwa [if_neg (by omega)]
    · rwa [if_neg (by omega)] at ht
  · intro c hc'
    obtain rfl := Option.some.inj (hf.symm.trans hc')
    rw [hst, hh]
    exact ⟨hb, BlockStore.get_insertBlock_self _ _⟩

theorem Accounted.publish {K : Primitives} {n n' : Node} {b : BlockRecord} {x : Hash}
    (h : Accounted K n) (hn : inFlight K n = some b) (hx : token K b = some x)
    (hb : n'.store.blocks = n.store.blocks) (hh : n'.state.chainHeight = n.state.chainHeight+1)
    (hs : n'.state.nullifiers = n.state.nullifiers.markSpent x) (hf : inFlight K n' = none) :
    Accounted K n' := by
  obtain ⟨hbh, hbs⟩ := h.flight b hn
  have hown : tokenAt K n.store (n.state.chainHeight+1) = some x := by
    unfold tokenAt
    rw [← hbh, hbs]
    exact hx
  refine ⟨?_, fun y => ?_, fun c hc => ?_⟩
  · rw [show topHeight K n' = topHeight K n by simp [topHeight, hn, hf, hh]]
    exact h.complete.congr hb
  · rw [hs, mem_markSpent, h.spent, hh]
    simp only [tokenAt_congr hb]
    constructor
    · rintro (rfl | ⟨height, hle, ht⟩)
      · exact ⟨_, Nat.le_refl _, hown⟩
      · exact ⟨height, Nat.le_succ_of_le hle, ht⟩
    · rintro ⟨height, hle, ht⟩
      by_cases he : height = n.state.chainHeight+1
      · subst he
        exact Or.inl (Option.some.inj (ht.symm.trans hown))
      · exact Or.inr ⟨height, by omega, ht⟩
  · rw [hf] at hc
    simp at hc

theorem Accounted.unspent {K : Primitives} {n : Node} {b : BlockRecord} {x : Hash}
    (h : Accounted K n) (hn : inFlight K n = some b) (hx : token K b = some x) :
    x ∉ n.state.nullifiers := by
  intro hin
  obtain ⟨hbh, hbs⟩ := h.flight b hn
  obtain ⟨height, hle, ht⟩ := (h.spent x).mp hin
  have hown : tokenAt K n.store b.height = some x := by
    unfold tokenAt
    rw [hbs]
    exact hx
  have := h.complete.distinct height b.height x ht hown
  omega

theorem Accounted.publishes {K : Primitives} {n : Node} {f : Finalising} (h : Accounted K n)
    (hp : n.phase = .saved f) : NullifierSet.consume n.state.nullifiers
      (randomnessOf K f.winning f.height) = (.ok (randomnessOf K f.winning f.height).output,
        n.state.nullifiers.markSpent (randomnessOf K f.winning f.height).nullifier) :=
  if_neg (h.unspent (by simp [inFlight, hp]) (token_recordOf K f))

/-- No rollback; whatever is stored reaches the store and collides with no
stored block; adopted records name their own token. -/
def Undisturbed (K : Primitives) (n : Node) : Event → Prop
  | .loop (.rewind _) => False
  | .loop (.record stored) =>
    stored = true ∧ ∀ f, n.phase = .executed f → Unlike K n.store (recordOf K f)
  | .loop (.adopt _ stored r) => stored = true ∧ SpendsOwn K r ∧ Unlike K n.store r
  | _ => True

theorem accounted_boot (K : Primitives) (outcomes : List AppendOutcome)
    (observed : BtcEntropyState) : Accounted K (boot K outcomes observed) := by
  have hget : ∀ height, (boot K outcomes observed).store.get height = none := fun _ => by
    simp [boot, BlockStore.empty, BlockStore.get]
  refine ⟨⟨?_, ?_, ?_, ?_⟩, ?_, ?_⟩
  · intro height b hg
    simp [hget] at hg
  · intro height h₁ h₂
    simp [topHeight, inFlight, boot, genesisState] at h₂
    omega
  · intro height b hg
    simp [hget] at hg
  · intro height height' x hx
    simp [tokenAt, hget] at hx
  · intro x
    simp only [tokenAt, hget]
    simp [boot, genesisState]
  · intro b hb
    simp [inFlight, boot] at hb

def Steady (n : Node) : Prop := ∀ rolledBack, n.phase ≠ .rewound rolledBack

theorem steady_transition {K : Primitives} {wallet : WalletPublicKey} {n n' : Node}
    {e : LoopEvent} (hu : Undisturbed K n (.loop e)) (ht : Transition K wallet n e n') :
    Steady n' := by
  intro rolledBack
  cases ht with
  | rewind hp hr => exact hu.elim
  | _ => simp

theorem accounted_transition {K : Primitives} {wallet : WalletPublicKey} {n n' : Node}
    {e : LoopEvent} (hc : Coherent K n) (hr : Steady n) (h : Accounted K n)
    (hu : Undisturbed K n (.loop e)) (ht : Transition K wallet n e n') : Accounted K n' := by
  have hphase := hc.phase
  unfold PhaseOk at hphase
  cases ht with
  | prepare hp hh ho hm => exact h.still rfl rfl rfl (by simp [inFlight, hp])
  | @mined t p nonce hashesTried elapsedMs signature hp hsign hv =>
    have hkept : (enterLocal n.state p).chainHeight = n.state.chainHeight ∧
        (enterLocal n.state p).nullifiers = n.state.nullifiers := by
      rw [enterLocal_eq]
      exact ⟨rfl, rfl⟩
    exact h.still rfl hkept.1 hkept.2 (by simp [inFlight, hp])
  | elect hp ho hw => exact h.still rfl rfl rfl (by simp [inFlight, hp])
  | electNobody hp ho hw => exact h.still rfl rfl rfl (by simp [inFlight, hp])
  | execute hp =>
    exact h.still (BlockStore.mempoolRemoves_blocks K _ _) rfl rfl (by simp [inFlight, hp])
  | @record f stored hp =>
    obtain ⟨rfl, hun⟩ := hu
    simp only [hp] at hphase
    have hheight : f.height = n.state.chainHeight+1 := by
      rw [hphase.1.height, hphase.2.height]
    exact h.store (by simp [inFlight, hp]) hheight (recordOf_spendsOwn K f) (hun f hp)
      rfl rfl rfl (by simp [inFlight])
  | save hp => exact h.still rfl rfl rfl (by simp [inFlight, hp])
  | @publish f state hp hs =>
    simp only [hp] at hphase
    unfold Mining.publish at hs
    rw [h.publishes hp] at hs
    obtain rfl := Option.some.inj hs
    refine h.publish (by simp [inFlight, hp]) (token_recordOf K f) rfl ?_ rfl rfl
    rw [hphase.1.height]
    exact hphase.2.height
  | publishSpent hp hs =>
    unfold Mining.publish at hs
    rw [h.publishes hp] at hs
    simp at hs
  | @adopt now stored r claim hp hh hck =>
    obtain ⟨rfl, hown, hun⟩ := hu
    simp only [hp] at hphase
    have hheight : r.height = n.state.chainHeight+1 := by
      rw [hphase.agreed.height]
      exact hck.height
    exact h.store (by simp [inFlight, hp]) hheight hown hun rfl rfl rfl (by simp [inFlight])
  | @publishAdopted r hp =>
    simp only [hp] at hphase
    have hf : inFlight K n = some r := by simp [inFlight, hp]
    obtain ⟨x, hx, hd⟩ := h.owns hf
    exact h.publish hf hx (BlockStore.mempoolRemoves_blocks K _ _) hphase
      (by simp [publishSynced, Node.parts, NodeState.retainAbove, dropConfirmed, markAdopted_eq, hd])
      rfl
  | rewind hp hpl => exact hu.elim
  | publishRewound hp => exact absurd hp (hr _)

structure Maintained (K : Primitives) (n : Node) : Prop where
  coherent : Coherent K n
  steady : Steady n
  accounted : Accounted K n

theorem maintained_step {K : Primitives} {wallet : WalletPublicKey} {n n' : Node} {e : Event}
    (h : Maintained K n) (hu : Undisturbed K n e) (hs : step K wallet n e = some n') :
    Maintained K n' := by
  refine ⟨h.coherent.step hs, ?_, ?_⟩
  · cases e with
    | client e =>
      simp only [step] at hs
      split at hs
      · simp at hs
      · intro rolledBack
        rw [(clientStep_framed hs).phase]
        exact h.steady rolledBack
    | loop e => exact steady_transition hu (loopStep_transition hs)
  · cases e with
    | client e =>
      simp only [step] at hs
      split at hs
      · simp at hs
      · have hf := clientStep_framed hs
        exact h.accounted.still hf.blocks hf.chainHeight hf.nullifiers
          (by simp [inFlight, hf.phase])
    | loop e =>
      exact accounted_transition h.coherent h.steady h.accounted hu (loopStep_transition hs)

/-- The spent set is that of the chain's blocks, as the store has them. -/
structure SpentByChain (K : Primitives) (n : Node) : Prop where
  stored : ∀ height, 1 ≤ height → height ≤ n.state.chainHeight → (n.store.get height).isSome
  spent : ∀ x, x ∈ n.state.nullifiers ↔
    ∃ height ≤ n.state.chainHeight, tokenAt K n.store height = some x
  reload : inFlight K n = none → reloadNullifiers n.store = some n.state.nullifiers
  consume : ∀ f, n.phase = .saved f → ∃ state, publish K f n.ledger n.state = some state

theorem Accounted.spentByChain {K : Primitives} {n : Node} (h : Accounted K n) :
    SpentByChain K n where
  stored height h₁ h₂ := h.complete.full height h₁ (Nat.le_trans h₂ (Nat.le_add_right _ _))
  spent := h.spent
  reload hn := by
    have hc := h.complete
    rw [show topHeight K n = n.state.chainHeight by simp [topHeight, hn]] at hc
    exact hc.reload h.spent
  consume f hp := by
    unfold Mining.publish
    rw [h.publishes hp]
    exact ⟨_, rfl⟩

/-- On an undisturbed run the spent set follows the chain, a restart rebuilds
it, and no finalised block meets a spent nullifier. -/
theorem nullifiers_of_chain {K : Primitives} {wallet : WalletPublicKey}
    {outcomes : List AppendOutcome} {observed : BtcEntropyState} {n : Node}
    (h : Run (step K wallet) (Undisturbed K) (boot K outcomes observed) n) : SpentByChain K n := by
  have hm : Maintained K n := by
    refine h.invariant ⟨coherent_boot K outcomes observed, ?_, accounted_boot K outcomes observed⟩
      fun _ _ _ => maintained_step
    intro rolledBack
    simp [boot]
  exact hm.accounted.spentByChain

set_option maxRecDepth 100000 in
theorem nullifiers_of_chain_sample :
    ∃ n, exec (step toyPrimitives (toyWalletKey 1)) toyBoot
        (toyAdoption (toyRecord 1 0 toyGenesis [])) = some n ∧
      n.state.chainHeight = 1 ∧ SpentByChain toyPrimitives n := by
  have hone : (exec (step toyPrimitives (toyWalletKey 1)) toyBoot
      (toyAdoption (toyRecord 1 0 toyGenesis []))).any
        fun n => n.state.chainHeight == 1 := by decide +kernel
  have hunlike : Unlike toyPrimitives toyBoot.store (toyRecord 1 0 toyGenesis []) := by
    intro height c hc
    simp [toyBoot, boot, BlockStore.empty, BlockStore.get] at hc
  have hadm : Admitted (step toyPrimitives (toyWalletKey 1)) (Undisturbed toyPrimitives) toyBoot
      (toyAdoption (toyRecord 1 0 toyGenesis [])) :=
    ⟨⟨rfl, recordOf_spendsOwn _ _, hunlike⟩, fun _ _ => ⟨trivial, fun _ _ => trivial⟩⟩
  obtain ⟨n, hn, hh⟩ := (Option.any_eq_true _ _).mp hone
  exact ⟨n, hn, by simpa using hh, nullifiers_of_chain (hadm.run hn)⟩

def toyAgain : PendingClaim :=
  toyCandidate 2 7 toyFirst.state toyFirst.ledger toyFirst.cursor []

def toyOwn : PendingClaim :=
  toyCandidate 1 14 toyFirst.state toyFirst.ledger toyFirst.cursor []

def toyRefinalised : List Event :=
  toyAdoption (toyRecord 1 0 toyGenesis [])++toyAdoption (toyRecord 2 7 toyFirst [])++
  [.loop (.rewind (ChainWork.toySilentPeer ChainWork.toyTwoBlocks)), .loop .publishRewound]++
  toySubmission toyAgain++toyMining 1 14 toyFirst++[.loop (.elect [toyAgain, toyOwn]),
    .loop .execute, .loop (.record true), .loop (.save true)]

def doomed (K : Primitives) (n : Node) : Bool :=
  match n.phase with
  | .saved f => (publish K f n.ledger n.state).isNone
  | _ => false

theorem doomed_saved {K : Primitives} {n : Node} (h : doomed K n = true) :
    ∃ f, n.phase = .saved f ∧ publish K f n.ledger n.state = none := by
  unfold doomed at h
  split at h
  · rename_i f hp
    exact ⟨f, hp, by simpa using h⟩
  · simp at h

set_option maxRecDepth 100000 in
theorem rolled_back_nullifier_spent :
    ∃ n f, exec (step toyPrimitives (toyWalletKey 1)) toyBoot toyRefinalised = some n ∧
      n.phase = .saved f ∧ publish toyPrimitives f n.ledger n.state = none := by
  have hrun : (exec (step toyPrimitives (toyWalletKey 1)) toyBoot toyRefinalised).any
      (doomed toyPrimitives) := by decide +kernel
  obtain ⟨n, hn, hs⟩ := (Option.any_eq_true _ _).mp hrun
  obtain ⟨f, hp, hnone⟩ := doomed_saved hs
  exact ⟨n, f, hn, hp, hnone⟩

end BinaChain.Nullifiers
