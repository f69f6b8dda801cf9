import BinaChain.Node.Restart
import BinaChain.Node.Supply

/-!
# The block that the resume pointer names

The pointer is written after the block of its height. A rollback deletes rows
and leaves the pointer alone, and the process may stop right there.
-/

set_option autoImplicit false

namespace BinaChain.Pointer
open BinaChain.Text BinaChain.Crypto BinaChain.BitcoinEntropy BinaChain.Rewards
open BinaChain.Machine BinaChain.State BinaChain.Store BinaChain.Mining BinaChain.Sync
open BinaChain.Reconcile BinaChain.System BinaChain.Coherence BinaChain.Restart
open BinaChain.Supply (rolledTo)

/-- The store has the block of the pointer. -/
def Named (n : Node) : Prop := n.chainState.height = 0 ∨
  n.store.blockHashAt n.chainState.height = some n.chainState.tipHash

def inserted (K : Primitives) (n : Node) : System.Event → Option BlockRecord
  | .loop (.record true) =>
    match n.phase with
    | .executed f => some (recordOf K f)
    | _ => none
  | .loop (.adopt _ true r) => some r
  | _ => none

def pointed (K : Primitives) (n : Node) : System.Event → Option (ℕ × Str)
  | .loop (.save true) =>
    match n.phase with
    | .recorded f => some (f.height, Hex.encode (f.winning.claim.blockHash K).toList)
    | _ => none
  | _ => none

structure Keeps (K : Primitives) (n : Node) (e : System.Event) : Prop where
  rollback : ∀ fork ∈ rolledTo n e, n.chainState.height ≤ fork
  inserted : ∀ r ∈ inserted K n e, 0 < n.chainState.height → r.blockHash ≠ n.chainState.tipHash
  pointed : ∀ p ∈ pointed K n e, n.store.blockHashAt p.1 = some p.2

instance (K : Primitives) (n : Node) (e : System.Event) : Decidable (Keeps K n e) :=
  decidable_of_iff ((∀ fork ∈ rolledTo n e, n.chainState.height ≤ fork) ∧
      (∀ r ∈ inserted K n e, 0 < n.chainState.height → r.blockHash ≠ n.chainState.tipHash) ∧
      ∀ p ∈ pointed K n e, n.store.blockHashAt p.1 = some p.2)
    ⟨fun h => ⟨h.1, h.2.1, h.2.2⟩, fun h => ⟨h.rollback, h.inserted, h.pointed⟩⟩

/-- A stop and a start take nothing away that the pointer depends on. -/
def KeepsStep (K : Primitives) (p : Process) : Restart.Event → Prop
  | .run e => Keeps K p.node e
  | .restart _ => True
  | .start _ => True

instance (K : Primitives) (p : Process) : ∀ e, Decidable (KeepsStep K p e)
  | .run e => inferInstanceAs (Decidable (Keeps K p.node e))
  | .restart _ => .isTrue trivial
  | .start _ => .isTrue trivial

inductive Effect (K : Primitives) (n : Node) (e : System.Event) (n' : Node) : Prop
  | inserted {r : BlockRecord} (hi : inserted K n e = some r) (hr : rolledTo n e = none)
      (hp : pointed K n e = none) (hs : n'.store = n.store.insertBlock r)
      (hc : n'.chainState = n.chainState) (hh : r.height = n.cursor.height+1)
      (hb : n.chainState.height ≤ n.cursor.height)
  | rolled {fork : ℕ} (hi : inserted K n e = none) (hr : rolledTo n e = some fork)
      (hp : pointed K n e = none) (hs : n'.store = n.store.rollbackAbove fork)
      (hc : n'.chainState = n.chainState)
  | pointed {height : ℕ} {hash : Str} (hi : inserted K n e = none) (hr : rolledTo n e = none)
      (hp : pointed K n e = some (height, hash)) (hs : n'.store = n.store)
      (hc : n'.chainState.height = height ∧ n'.chainState.tipHash = hash) (hpos : 0 < height)
  | kept (hi : inserted K n e = none) (hr : rolledTo n e = none) (hp : pointed K n e = none)
      (hs : n'.store.blocks = n.store.blocks) (hc : n'.chainState = n.chainState)

/-- The pointer lags behind the loop. -/
def Behind (n : Node) : Prop :=
  match n.phase with
  | .saved f => n.chainState.height ≤ f.height
  | .crashed => True
  | _ => n.chainState.height ≤ n.cursor.height

theorem behind_boot (K : Primitives) (outcomes : List AppendOutcome)
    (observed : BtcEntropyState) : Behind (boot K outcomes observed) := Nat.zero_le _

theorem transition_effect {K : Primitives} {wallet : WalletPublicKey} {n n' : Node}
    {e : LoopEvent} (hc : Coherent K n) (hb : Behind n) (ht : Transition K wallet n e n') :
    Effect K n (.loop e) n' := by
  have hphase := hc.phase
  unfold PhaseOk at hphase
  unfold Behind at hb
  cases ht with
  | prepare | mined | elect | electNobody | publish | publishSpent => exact .kept rfl rfl rfl rfl rfl
  | execute hp => exact .kept rfl rfl rfl (BlockStore.mempoolRemoves_blocks K _ _) rfl
  | @record f stored hp =>
    simp only [hp] at hphase hb
    cases stored with
    | true =>
      exact .inserted (by simp [inserted, hp]) rfl rfl rfl rfl hphase.2.height hb
    | false => exact .kept rfl rfl rfl rfl rfl
  | @save f written hp =>
    simp only [hp] at hphase
    cases written with
    | true =>
      have hpt : pointed K n (.loop (.save true)) =
          some (f.height, Hex.encode (f.winning.claim.blockHash K).toList) := by simp [pointed, hp]
      refine .pointed rfl rfl hpt rfl ⟨rfl, rfl⟩ ?_
      rw [hphase.2.height]
      exact Nat.succ_pos _
    | false => exact .kept rfl rfl rfl rfl rfl
  | @adopt now stored r claim hp hh hck =>
    simp only [hp] at hb
    cases stored with
    | true => exact .inserted rfl rfl rfl rfl rfl hck.height hb
    | false => exact .kept rfl rfl rfl rfl rfl
  | publishAdopted => exact .kept rfl rfl rfl (BlockStore.mempoolRemoves_blocks K _ _) rfl
  | rewind hp hr => exact .rolled rfl (by simp [rolledTo, hr]) rfl rfl rfl
  | publishRewound => exact .kept rfl rfl rfl (BlockStore.mempoolInserts_blocks K _ _) rfl

theorem client_effect {K : Primitives} {n n' : Node} {e : ClientEvent}
    (hs : clientStep K n e = some n') : Effect K n (.client e) n' :=
  have hf := clientStep_framed hs
  .kept rfl rfl rfl hf.blocks hf.chainState

theorem run_effect {K : Primitives} {wallet : WalletPublicKey} {n n' : Node} {e : System.Event}
    (hc : Coherent K n) (hb : Behind n) (hs : System.step K wallet n e = some n') :
    Effect K n e n' := by
  cases e with
  | client e =>
    simp only [System.step] at hs
    split at hs
    · simp at hs
    · exact client_effect hs
  | loop e => exact transition_effect hc hb (loopStep_transition hs)

theorem blockHashAt_congr {s s' : BlockStore} (h : s'.blocks = s.blocks) (height : ℕ) :
    s'.blockHashAt height = s.blockHashAt height := by
  unfold BlockStore.blockHashAt
  rw [BlockStore.get_congr h]

theorem blockHashAt_rollbackAbove (s : BlockStore) (fork height : ℕ) :
    (s.rollbackAbove fork).blockHashAt height =
      if height ≤ fork then s.blockHashAt height else none := by
  unfold BlockStore.blockHashAt
  rw [BlockStore.get_rollbackAbove]
  split <;> rfl

theorem blockHashAt_insertBlock_iff {s : BlockStore} {r : BlockRecord} {height : ℕ} {hash : Str}
    (hne : height ≠ r.height) (hs : s.blockHashAt height = some hash) :
    (s.insertBlock r).blockHashAt height = some hash ↔ r.blockHash ≠ hash := by
  obtain ⟨b, hb, rfl⟩ := Option.map_eq_some_iff.mp hs
  unfold BlockStore.blockHashAt
  constructor
  · intro h he
    obtain ⟨c, hc, -⟩ := Option.map_eq_some_iff.mp h
    have hgone : (s.insertBlock r).get height = none := by
      unfold BlockStore.get BlockStore.insertBlock at *
      rw [Maps.getElem?_insert_eq, if_neg fun h => hne h.symm,
        Std.ExtTreeMap.getElem?_filter', hb]
      simp [Option.filter, he]
    simp [hgone] at hc
  · intro h
    rw [BlockStore.get_insertBlock_other hne (fun he => h he.symm) hb]
    rfl

theorem effect_named {K : Primitives} {n n' : Node} {e : System.Event} (h : Named n)
    (he : Effect K n e n') : Named n' ↔ Keeps K n e := by
  unfold Named at *
  cases he with
  | inserted hi hr hp hs hc hh hb =>
    have hk : Keeps K n e ↔ (0 < n.chainState.height → _ ≠ n.chainState.tipHash) :=
      ⟨fun k => k.inserted _ hi, fun k => ⟨by simp [hr], by simpa [hi] using k, by simp [hp]⟩⟩
    rw [hk, hc, hs]
    rcases h with h | h
    · simp [h]
    · by_cases hz : n.chainState.height = 0
      · simp [hz]
      · rw [blockHashAt_insertBlock_iff (by omega) h]
        simp [hz, Nat.pos_of_ne_zero hz]
  | @rolled fork hi hr hp hs hc =>
    have hk : Keeps K n e ↔ n.chainState.height ≤ fork :=
      ⟨fun k => k.rollback _ hr, fun k => ⟨by simpa [hr] using k, by simp [hi], by simp [hp]⟩⟩
    rw [hk, hc, hs, blockHashAt_rollbackAbove]
    rcases h with h | h
    · simp [h]
    · by_cases hle : n.chainState.height ≤ fork
      · simp [hle, h]
      · simp only [hle, if_false, iff_false]
        rintro (hz | hz)
        · omega
        · simp at hz
  | @pointed height hash hi hr hp hs hc hpos =>
    have hk : Keeps K n e ↔ n.store.blockHashAt height = some hash :=
      ⟨fun k => k.pointed _ hp, fun k => ⟨by simp [hr], by simp [hi], by simpa [hp] using k⟩⟩
    rw [hk, hc.1, hc.2, hs]
    simp [Nat.ne_of_gt hpos]
  | kept hi hr hp hs hc =>
    have hk : Keeps K n e := ⟨by simp [hr], by simp [hi], by simp [hp]⟩
    rw [hc, blockHashAt_congr hs]
    exact ⟨fun _ => hk, fun _ => h⟩

theorem Behind.framed {n n' : Node} (hf : Framed n n') (h : Behind n) : Behind n' := by
  unfold Behind at *
  rw [hf.phase, hf.chainState, hf.cursor]
  exact h

theorem behind_transition {K : Primitives} {wallet : WalletPublicKey} {n n' : Node}
    {e : LoopEvent} (hc : Coherent K n) (h : Behind n) (hk : Keeps K n (.loop e))
    (ht : Transition K wallet n e n') : Behind n' := by
  have hphase := hc.phase
  unfold PhaseOk at hphase
  unfold Behind at h
  cases ht with
  | prepare hp | mined hp | elect hp | execute hp | record hp | publishAdopted hp
    | publishRewound hp =>
    simp only [hp] at h
    exact h
  | electNobody | publishSpent => trivial
  | @save f written hp =>
    simp only [hp] at h hphase
    have hh := hphase.2.height
    simp only [Behind]
    split
    · exact Nat.le_refl _
    · omega
  | publish hp =>
    simp only [hp] at h hphase
    have hh : ∀ f, Extends K n f → f.cursor.height = f.height := by
      intro f hf
      rw [hf.cursor]
      rfl
    simp only [Behind]
    rw [hh _ hphase.2]
    exact h
  | adopt hp hh hck =>
    simp only [hp] at h
    have := hck.height
    simp only [Behind, applyRecord, advanceSynced]
    omega
  | @rewind env target r hp hr =>
    have hle : n.chainState.height ≤ r.forkPoint := hk.rollback _ (by simp [rolledTo, hr])
    exact hle

theorem behind_step {K : Primitives} {wallet : WalletPublicKey} {n n' : Node}
    {e : System.Event} (hc : Coherent K n) (h : Behind n) (hk : Keeps K n e)
    (hs : System.step K wallet n e = some n') : Behind n' := by
  cases e with
  | client e =>
    simp only [System.step] at hs
    split at hs
    · simp at hs
    · exact h.framed (clientStep_framed hs)
  | loop e => exact behind_transition hc h hk (loopStep_transition hs)

structure Pointed (K : Primitives) (p : Process) : Prop where
  ready : Ready K p
  behind : p.starting = none → Behind p.node
  named : Named p.node

theorem Named.congr {n n' : Node} (h : Named n) (hc : n'.chainState = n.chainState)
    (hb : n'.store.blocks = n.store.blocks) : Named n' := by
  unfold Named at *
  rwa [hc, blockHashAt_congr hb]

theorem Named.scoped {K : Primitives} {n : Node} {readable : Bool} {file : ChainStateFile}
    (h : Named n) (hf : loadOrCreateChainState K readable n.chainState = some file) :
    Named { n with chainState := file, ledger := .openScoped n.ledger.csv file.height } := by
  rw [loaded_eq hf]
  split
  · exact h
  · exact Or.inl rfl

theorem pointed_named {K : Primitives} {wallet : WalletPublicKey} {p p' : Process}
    {e : Restart.Event} (h : Pointed K p) (hs : Restart.step K wallet p e = some p') :
    Named p'.node ↔ KeepsStep K p e := by
  cases step_moves hs with
  | @run _ n' e ht hs' =>
    have he : Effect K p.node e n' := by
      cases hp : p.starting with
      | none => exact run_effect (h.ready.running hp).closed.coherent (h.behind hp) hs'
      | some stage =>
        obtain ⟨c, rfl, hc⟩ := served (by simp [hp]) ht hs'
        exact client_effect hc
    exact effect_named h.named he
  | restart => exact ⟨fun _ => trivial, fun _ => h.named.congr rfl rfl⟩
  | scope hf => exact ⟨fun _ => trivial, fun _ => h.named.scoped hf⟩
  | guard | load | resume => exact ⟨fun _ => trivial, fun _ => h.named⟩
  | refill =>
    exact ⟨fun _ => trivial,
      fun _ => h.named.congr rfl (BlockStore.mempoolRemoves_blocks K _ _)⟩

theorem pointed_step {K : Primitives} {wallet : WalletPublicKey} {p p' : Process}
    {e : Restart.Event} (h : Pointed K p) (hk : KeepsStep K p e)
    (hs : Restart.step K wallet p e = some p') : Pointed K p' := by
  refine ⟨ready_step h.ready hs, ?_, (pointed_named h hs).mpr hk⟩
  cases step_moves hs with
  | run ht hs' =>
    intro hp
    exact behind_step (h.ready.running hp).closed.coherent (h.behind hp) hk hs'
  | restart | scope | guard | load | refill => simp [serve]
  | @resume n pin observed tipHash ht =>
    intro _
    unfold Behind
    rw [show (Restart.resume K tipHash pin observed n).phase = .idle from
      (h.ready.launching (by simp)).phase]
    exact Nat.le_refl n.chainState.height

/-- As long as every step keeps the block of the pointer, the pointer names the
genesis or a stored block wherever the process stops; the first step that does
not leaves it without one. -/
theorem pointer_named_iff {K : Primitives} {wallet : WalletPublicKey}
    {outcomes : List AppendOutcome} {observed : BtcEntropyState} {p : Process}
    (h : Run (Restart.step K wallet) (KeepsStep K) (booted K outcomes observed) p) :
    Named p.node ∧ ∀ e p', Restart.step K wallet p e = some p' →
      (Named p'.node ↔ KeepsStep K p e) := by
  have hp : Pointed K p := by
    refine h.invariant ⟨ready_booted K outcomes observed,
      fun _ => behind_boot K outcomes observed, ?_⟩ fun _ _ _ => pointed_step
    exact Or.inl rfl
  exact ⟨hp.named, fun _ _ => pointed_named hp⟩

def toySecond : PendingClaim :=
  toyCandidate 1 0 toyFirst.state toyFirst.ledger toyFirst.cursor []

def toySaved : List Restart.Event :=
  List.map .run (toyAdoption (toyRecord 1 0 toyGenesis [])++toyMining 1 0 toyFirst++
    Pinning.toyClosing toySecond++[.loop .publish])

def toyStopped : List Restart.Event :=
  toySaved++[.run (.loop (.rewind (ChainWork.toySilentPeer ChainWork.toyTwoBlocks)))]

def toyResumed : List Restart.Event :=
  toySaved++toyStart { csv := .create [], pending := ∅ }

set_option maxRecDepth 100000 in
theorem pointer_named_iff_sample :
    ∃ p, exec (Restart.step toyPrimitives (toyWalletKey 1)) toyBooted toyResumed = some p ∧
      p.node.chainState.height = 2 ∧ Named p.node := by
  obtain ⟨hrun, hadm⟩ : ((exec (Restart.step toyPrimitives (toyWalletKey 1)) toyBooted
        toyResumed).any fun p => p.node.chainState.height == 2) ∧
      Admitted (Restart.step toyPrimitives (toyWalletKey 1)) (KeepsStep toyPrimitives)
        toyBooted toyResumed := by decide +kernel
  obtain ⟨p, hp, hh⟩ := (Option.any_eq_true _ _).mp hrun
  exact ⟨p, hp, by simpa using hh, (pointer_named_iff (hadm.run hp)).1⟩

set_option maxRecDepth 100000 in
theorem pointer_dangles :
    ∃ p, exec (Restart.step toyPrimitives (toyWalletKey 1)) toyBooted toyStopped = some p ∧
      p.node.chainState.height = 2 ∧ (p.node.store.get 1).isSome ∧ p.node.store.get 2 = none ∧
      ¬ Named p.node := by
  have hrun : (exec (Restart.step toyPrimitives (toyWalletKey 1)) toyBooted toyStopped).any
      fun p => p.node.chainState.height == 2 && (p.node.store.get 1).isSome &&
        (p.node.store.get 2).isNone := by
    decide +kernel
  obtain ⟨p, hp, hs⟩ := (Option.any_eq_true _ _).mp hrun
  simp only [Bool.and_eq_true, beq_iff_eq, Option.isNone_iff_eq_none] at hs
  refine ⟨p, hp, hs.1.1, hs.1.2, hs.2, ?_⟩
  unfold Named BlockStore.blockHashAt
  rw [hs.1.1, hs.2]
  simp

end BinaChain.Pointer
