import BinaChain.Node.ChainWork
import BinaChain.Node.Provenance
import BinaChain.Node.Trace

/-!
# The chain that a node finalises

Each finalised block extends the one before it: parent hash, time, difficulty
and state root are those of the chain it is put on. What can break this is a
claim that was checked before a rollback and wins after it.
-/

set_option autoImplicit false

namespace BinaChain.Canonical
open BinaChain.Word BinaChain.Crypto BinaChain.Block BinaChain.BitcoinEntropy
open BinaChain.Difficulty BinaChain.Rewards BinaChain.Execution BinaChain.State
open BinaChain.Machine BinaChain.Store BinaChain.Mining BinaChain.Sync BinaChain.Reconcile
open BinaChain.System BinaChain.Coherence BinaChain.Provenance BinaChain.Trace

def tipHash (K : Primitives) : List Entry → Hash
  | [] => genesisHash K
  | e :: _ => e.header.hash K

def tipTime (K : Primitives) : List Entry → ℕ
  | [] => (genesisHeader K).timestamp
  | e :: _ => e.header.timestamp

def absorb (K : Primitives) (a : DifficultyAdjuster) (e : Entry) : DifficultyAdjuster :=
  a.recordBlock K e.height e.header.timestamp

def adjusterFor (K : Primitives) (chain : List Entry) : DifficultyAdjuster :=
  Chain.follow (absorb K) (genesisCursor K).adjuster chain

/-- What a block has to satisfy on top of a chain. -/
structure ExtendsChain (K : Primitives) (chain : List Entry) (e : Entry) : Prop where
  parent : e.header.prevHash = tipHash K chain
  later : tipTime K chain < e.header.timestamp
  difficulty : e.header.difficultyBits = (adjusterFor K chain).currentBits
  root : e.header.stateRoot = e.executedRoot

abbrev Linked (K : Primitives) : List Entry → Prop := Chain.Linked Entry.height (ExtendsChain K)

/-- The loop's variables are those of the chain's tip. -/
structure AtTip (K : Primitives) (chain : List Entry) (c : Cursor) : Prop where
  height : c.height = chain.length
  tip : c.tipHash = tipHash K chain
  timestamp : c.lastBlockTimestampMs = tipTime K chain
  adjuster : c.adjuster = adjusterFor K chain

structure ExtendsCursor (K : Primitives) (c : Cursor) (header : L1BlockHeader)
    (l : RewardLedger) : Prop where
  height : header.height = c.height+1
  parent : header.prevHash = c.tipHash
  later : c.lastBlockTimestampMs < header.timestamp
  difficulty : header.difficultyBits = c.adjuster.currentBits
  root : header.stateRoot = l.stateRoot K

theorem push_linked {K : Primitives} {g : History} {c : Cursor} {header : L1BlockHeader}
    {l : RewardLedger} (hl : Linked K g.chain) (ht : AtTip K g.chain c)
    (h : ExtendsCursor K c header l) : Linked K (push K header l g).chain :=
  ⟨h.height.trans (by rw [ht.height]), ⟨h.parent.trans ht.tip,
    by rw [← ht.timestamp]; exact h.later, h.difficulty.trans (by rw [ht.adjuster]), h.root⟩, hl⟩

theorem push_atTip {K : Primitives} {g : History} {c c' : Cursor} {header : L1BlockHeader}
    {l : RewardLedger} (ht : AtTip K g.chain c) (hh : c'.height = c.height+1) (hp : c'.tipHash = header.hash K)
    (hm : c'.lastBlockTimestampMs = header.timestamp)
    (ha : c'.adjuster = c.adjuster.recordBlock K header.height header.timestamp) :
    AtTip K (push K header l g).chain c' :=
  ⟨by rw [hh, ht.height]; rfl, hp, hm, by rw [ha, ht.adjuster]; rfl⟩

theorem absorb_cases (K : Primitives) (a : DifficultyAdjuster) (e : Entry) :
    absorb K a e = a ∨ (absorb K a e).epochStartHeight = e.height := by
  unfold absorb DifficultyAdjuster.recordBlock
  split
  · exact Or.inl rfl
  · exact Or.inr rfl

/-- Stored records are blocks of the chain. -/
def Kept (K : Primitives) (store : BlockStore) (chain : List Entry) : Prop :=
  ∀ height b, store.get height = some b → ∃ e ∈ chain, e.height = height ∧
    hexTo32 b.blockHash = .ok (e.header.hash K) ∧ b.timestamp = e.header.timestamp

/-- Where the chain's tip is found while the loop is at work. -/
def Following (K : Primitives) (n : Node) (chain : List Entry) : Prop :=
  match n.phase with
  | .executed f | .recorded f | .saved f => AtTip K chain f.cursor ∧
    ∃ e ∈ chain, e.height = f.height ∧ e.header = f.winning.claim.header
  | .crashed => True
  | _ => AtTip K chain n.cursor

structure OnChain (K : Primitives) (x : Traced) : Prop where
  linked : Linked K x.2.chain
  following : Following K x.1 x.2.chain
  kept : Kept K x.1.store x.2.chain

theorem onChain_boot (K : Primitives) (outcomes : List AppendOutcome)
    (observed : BtcEntropyState) : OnChain K (boot K outcomes observed, .start) where
  linked := trivial
  following := ⟨rfl, rfl, rfl, rfl⟩
  kept height b hb := by
    simp [boot, BlockStore.empty, BlockStore.get] at hb

theorem rewind_atTip {K : Primitives} {chain : List Entry} {x : Parts} {r : Rollback}
    (hl : Linked K chain) (ht : AtTip K chain x.cursor) (hk : Kept K x.store chain)
    (hr : Restores x r) :
    AtTip K (Chain.cut Entry.height r.forkPoint chain) (rewind x r).cursor := by
  obtain ⟨b, hb, hhash, htime⟩ := hr.block
  obtain ⟨e, he, hheight, hehash, hetime⟩ := hk r.forkPoint b hb
  obtain ⟨rest, hcut⟩ := hl.cut_at he
  rw [hheight] at hcut
  have hlink := hl.cut r.forkPoint
  have hsince : (adjusterFor K chain).epochStartHeight ≤ r.forkPoint := by
    rw [← ht.adjuster]
    exact hr.epoch
  have hadj := Chain.follow_cut (absorb_cases K) hsince
  rw [hcut] at hlink hadj ⊢
  refine ⟨?_, ?_, ?_, ?_⟩
  · rw [List.length_cons, ← hlink.1, hheight]
    rfl
  · exact Except.ok.inj (hhash.symm.trans hehash)
  · exact htime.symm.trans hetime
  · exact ht.adjuster.trans hadj.symm

theorem Kept.mono {K : Primitives} {store store' : BlockStore} {chain chain' : List Entry}
    (h : Kept K store chain) (hs : ∀ height b, store'.get height = some b →
      store.get height = some b ∧ ∀ e ∈ chain, e.height = height → e ∈ chain') :
    Kept K store' chain' := by
  intro height b hb
  obtain ⟨hold, hmem⟩ := hs height b hb
  obtain ⟨e, he, hh, hrest⟩ := h height b hold
  exact ⟨e, hmem e he hh, hh, hrest⟩

theorem execute_extends {K : Primitives} {n : Node} {f : Finalising}
    (hs : Settled n) (hw : Admission.ExtendsTip n.state f.winning ∧
      Admission.Executes K n.ledger f.winning f.reward)
    (hroom : Roomy n.ledger f.winning.transactions.length f.reward) :
    ExtendsCursor K n.cursor f.winning.claim.header (executeWinner K f n.ledger) where
  height := hw.1.height.trans (by rw [hs.agreed.height])
  parent := hw.1.parent.trans hs.agreed.tip
  later := by
    rw [← hs.agreed.timestamp]
    exact hw.1.later
  difficulty := hw.1.difficulty.trans hs.agreed.difficulty
  root := hw.2.root.symm.trans (simulated_root K hroom _ _ _)

theorem adopt_extends {K : Primitives} {n : Node} {now : ℕ} {stored : Bool} {r : BlockRecord}
    {claim : Claims.SignedBlockClaim} (hc : Checked K n.cursor n.ledger now r claim)
    (hroom : Roomy n.ledger r.transactions.length r.rewardBina) :
    ExtendsCursor K n.cursor claim.header (applyRecord K stored n.parts r claim).ledger := by
  obtain ⟨-, hh, hp, -⟩ := headerFromRecord_ok hc.header
  exact ⟨hh.trans hc.height, hp, hc.later, hc.difficulty,
    hc.root.symm.trans (simulated_root K hroom _ _ _)⟩

theorem OnChain.still {K : Primitives} {n n' : Node} {g g' : History} (h : OnChain K (n, g))
    (hc : g'.chain = g.chain) (hs : ∀ height, n'.store.get height = n.store.get height)
    (hf : Following K n g.chain → Following K n' g.chain) : OnChain K (n', g') where
  linked := by
    rw [hc]
    exact h.linked
  following := by
    rw [hc]
    exact hf h.following
  kept height b hb := by
    rw [hc]
    exact h.kept height b (by rwa [hs] at hb)

theorem execute_onChain {K : Primitives} {n n' : Node} {g : History} {f : Finalising}
    (hcoh : Coherent K n) (h : OnChain K (n, g)) (hp : n.phase = .elected f)
    (hw : Admission.ExtendsTip n.state f.winning ∧
      Admission.Executes K n.ledger f.winning f.reward)
    (hroom : Roomy n.ledger f.winning.transactions.length f.reward)
    (hl : n'.ledger = executeWinner K f n.ledger) (hp' : n'.phase = .executed f)
    (hs : ∀ height, n'.store.get height = n.store.get height) :
    OnChain K (n', push K f.winning.claim.header n'.ledger g) := by
  have hphase := hcoh.phase
  have hfoll := h.following
  simp only [PhaseOk, hp] at hphase
  simp only [Following, hp] at hfoll
  have hext := execute_extends hphase.1 hw hroom
  rw [← hl] at hext
  have hheight : f.winning.claim.header.height = f.height := by
    rw [hext.height, hphase.2.1.height]
  refine ⟨push_linked h.linked hfoll hext, ?_, ?_⟩
  · simp only [Following, hp']
    refine ⟨push_atTip hfoll ?_ ?_ ?_ ?_, _, List.mem_cons_self, hheight, rfl⟩
    all_goals rw [hphase.2.1.cursor]
    · exact hphase.2.1.height
    · rfl
    · rfl
    · rw [hheight]
      rfl
  · exact h.kept.mono fun height b hb => ⟨by rwa [hs] at hb,
      fun e he _ => List.mem_cons_of_mem _ he⟩

theorem record_onChain {K : Primitives} {n n' : Node} {g : History} {f : Finalising}
    {stored : Bool} (h : OnChain K (n, g)) (hp : n.phase = .executed f)
    (hs : n'.store = if stored then n.store.insertBlock (recordOf K f) else n.store)
    (hp' : n'.phase = .recorded f) : OnChain K (n', g) := by
  have hfoll := h.following
  simp only [Following, hp] at hfoll
  refine ⟨h.linked, by simpa only [Following, hp'] using hfoll, fun height b hb => ?_⟩
  rw [hs] at hb
  split at hb
  · rcases BlockStore.get_insertBlock hb with ⟨rfl, rfl⟩ | ⟨-, hk⟩
    · obtain ⟨-, e, he, hheight, hheader⟩ := hfoll
      refine ⟨e, he, hheight, ?_, ?_⟩
      · rw [hheader]
        exact hexTo32_encode _
      · rw [hheader]
        rfl
    · exact h.kept height b hk
  · exact h.kept height b hb

theorem adopt_onChain {K : Primitives} {n n' : Node} {g : History} {now : ℕ} {stored : Bool}
    {r : BlockRecord} {claim : Claims.SignedBlockClaim} (h : OnChain K (n, g))
    (hp : n.phase = .idle) (hc : Checked K n.cursor n.ledger now r claim)
    (hroom : Roomy n.ledger r.transactions.length r.rewardBina)
    (hl : n'.ledger = (applyRecord K stored n.parts r claim).ledger)
    (hcu : n'.cursor = advanceSynced K n.cursor r claim)
    (hs : n'.store = if stored then n.store.insertBlock r else n.store)
    (hp' : n'.phase = .adopting r) : OnChain K (n', push K claim.header n'.ledger g) := by
  have hfoll := h.following
  simp only [Following, hp] at hfoll
  have hext : ExtendsCursor K n.cursor claim.header n'.ledger := by
    rw [hl]
    exact adopt_extends hc hroom
  obtain ⟨-, hheight, -, hts, -⟩ := headerFromRecord_ok hc.header
  refine ⟨push_linked h.linked hfoll hext, ?_, fun height b hb => ?_⟩
  · simp only [Following, hp']
    rw [hcu]
    exact push_atTip hfoll hc.height rfl rfl (by rw [hheight]; rfl)
  · rw [hs] at hb
    have hkept : ∀ height b, n.store.get height = some b → ∃ e ∈ (push K claim.header
        n'.ledger g).chain, e.height = height ∧ hexTo32 b.blockHash = .ok (e.header.hash K) ∧
        b.timestamp = e.header.timestamp := by
      intro height b hb
      obtain ⟨e, he, hrest⟩ := h.kept height b hb
      exact ⟨e, List.mem_cons_of_mem _ he, hrest⟩
    split at hb
    · rcases BlockStore.get_insertBlock hb with ⟨rfl, rfl⟩ | ⟨-, hk⟩
      · refine ⟨_, List.mem_cons_self, hheight, ?_, hts.symm⟩
        show hexTo32 r.blockHash = _
        rw [← hc.hash]
        exact hexTo32_encode _
      · exact hkept height b hk
    · exact hkept height b hb

theorem loop_onChain {K : Primitives} {wallet : WalletPublicKey} {n n' : Node} {g : History}
    {e : LoopEvent} (hj : Judged K wallet (n, g)) (h : OnChain K (n, g))
    (hok : Current K (n, g) (.loop e)) (ht : Transition K wallet n e n') :
    OnChain K (n', noteLoop K wallet n e n' g) := by
  have hphase := hj.coherent.phase
  have hstage := hj.stage
  have hfoll := h.following
  cases ht with
  | prepare hp hh ho hm => exact h.still rfl (fun _ => rfl) fun hf => by simpa [Following, hp] using hf
  | mined hp hsign hv =>
    refine h.still ?_ (fun _ => rfl) fun hf => by simpa [Following, hp] using hf
    rw [noteLoop_mined hp]
  | elect hp ho hw => exact h.still rfl (fun _ => rfl) fun hf => by simpa [Following, hp] using hf
  | electNobody hp ho hw => exact h.still rfl (fun _ => rfl) fun _ => trivial
  | @execute f hp =>
    rw [noteLoop_execute hp]
    simp only [Stage, hp] at hstage
    exact execute_onChain hj.coherent h hp hstage (hok f hp) rfl rfl
      fun height => BlockStore.get_congr (BlockStore.mempoolRemoves_blocks K _ _) height
  | record hp => exact record_onChain h hp rfl rfl
  | save hp => exact h.still rfl (fun _ => rfl) fun hf => by simpa [Following, hp] using hf
  | publish hp hs =>
    refine h.still rfl (fun _ => rfl) fun hf => ?_
    simp only [Following, hp] at hf
    exact hf.1
  | publishSpent hp hs => exact h.still rfl (fun _ => rfl) fun _ => trivial
  | adopt hp hh hck =>
    rw [noteLoop_adopt hck.header]
    exact adopt_onChain h hp hck hok rfl rfl rfl rfl
  | publishAdopted hp =>
    exact h.still rfl (BlockStore.get_congr (BlockStore.mempoolRemoves_blocks K _ _))
      fun hf => by simpa [Following, hp] using hf
  | @rewind env target r hp hpl =>
    have hrest := plan_restores hpl
    simp only [Following, hp] at hfoll
    refine ⟨h.linked.cut r.forkPoint, rewind_atTip h.linked hfoll h.kept hrest, ?_⟩
    refine h.kept.mono fun height b hb => ?_
    simp only [Reconcile.rewind, BlockStore.get_rollbackAbove] at hb
    split at hb
    · rename_i hle
      exact ⟨hb, fun e he hh => Chain.mem_cut he (by rw [hh]; exact hle)⟩
    · simp at hb
  | publishRewound hp =>
    exact h.still rfl (BlockStore.get_congr (BlockStore.mempoolInserts_blocks K _ _))
      fun hf => by simpa [Following, hp] using hf

theorem onChain_step {K : Primitives} {wallet : WalletPublicKey} {x y : Traced} {e : Event}
    (hj : Judged K wallet x) (h : OnChain K x) (hok : Current K x e)
    (hs : tracedStep K wallet x e = some y) : OnChain K y := by
  obtain ⟨n, g⟩ := x
  obtain ⟨n', g'⟩ := y
  obtain ⟨hstep, hg⟩ := recording_eq_some.mp hs
  dsimp only at hstep hg
  subst hg
  cases e with
  | client e =>
    simp only [step] at hstep
    split at hstep
    · simp at hstep
    · have hf := clientStep_framed hstep
      refine h.still (noteClient_chain n e n' g) (BlockStore.get_congr hf.blocks) fun hfoll => ?_
      unfold Following at *
      rwa [hf.phase, hf.cursor]
  | loop e => exact loop_onChain hj h hok (loopStep_transition hstep)

/-- While no election is won by a claim checked before the last rollback, every
block extends the chain it was put on, and the node stands on the last one. -/
theorem finalised_blocks_linked {K : Primitives} {wallet : WalletPublicKey}
    {outcomes : List AppendOutcome} {observed : BtcEntropyState} {x : Traced}
    (h : Run (tracedStep K wallet) (Current K) (boot K outcomes observed, .start) x) :
    Linked K x.2.chain ∧ (x.1.phase = .idle → AtTip K x.2.chain x.1.cursor) := by
  have hinv : Judged K wallet x ∧ OnChain K x :=
    h.invariant (P := fun x => Judged K wallet x ∧ OnChain K x)
      ⟨judged_boot K wallet outcomes observed, onChain_boot K outcomes observed⟩
      fun _ _ _ hi hok hs => ⟨judged_step hi.1 hok hs, onChain_step hi.1 hi.2 hok hs⟩
  refine ⟨hinv.2.linked, fun hp => ?_⟩
  have hfoll := hinv.2.following
  simpa only [Following, hp] using hfoll

set_option maxRecDepth 100000 in
theorem finalised_blocks_linked_sample :
    ∃ x, exec (tracedStep toyPrimitives (toyWalletKey 1)) (toyBoot, .start)
        (toyAdoption (toyRecord 1 0 toyGenesis [])) = some x ∧
      x.2.chain.length = 1 ∧ Linked toyPrimitives x.2.chain := by
  have hone : (exec (tracedStep toyPrimitives (toyWalletKey 1)) (toyBoot, .start)
      (toyAdoption (toyRecord 1 0 toyGenesis []))).any
        fun x => x.2.chain.length == 1 := by decide +kernel
  have hroom : Roomy toyBoot.ledger 0 (toyRecord 1 0 toyGenesis []).rewardBina := by
    refine ⟨fun a => ?_, by decide +kernel⟩
    simp [toyBoot, boot, RewardLedger.create, RewardLedger.nonce, u64Max]
  have hadm : Admitted (tracedStep toyPrimitives (toyWalletKey 1)) (Current toyPrimitives)
      (toyBoot, .start) (toyAdoption (toyRecord 1 0 toyGenesis [])) :=
    ⟨hroom, fun _ _ => ⟨trivial, fun _ _ => trivial⟩⟩
  obtain ⟨x, hx, hlen⟩ := (Option.any_eq_true _ _).mp hone
  exact ⟨x, hx, by simpa using hlen, (finalised_blocks_linked (hadm.run hx)).1⟩

def toyReplaced : Parts := toyExtend 1 0 toyFirst

def toyStale : PendingClaim :=
  toyCandidate 3 2 ChainWork.toyTwoBlocks.state ChainWork.toyTwoBlocks.ledger
    ChainWork.toyTwoBlocks.cursor []

def toyLocal : PendingClaim :=
  toyCandidate 1 0 toyReplaced.state toyReplaced.ledger toyReplaced.cursor []

def toyStaleRun : List Event :=
  toyAdoption (toyRecord 1 0 toyGenesis [])++toyAdoption (toyRecord 2 7 toyFirst [])++
  toySubmission toyStale++
  [.loop (.rewind (ChainWork.toySilentPeer ChainWork.toyTwoBlocks)), .loop .publishRewound]++
  toyAdoption (toyRecord 1 0 toyFirst [])++toyMining 1 0 toyReplaced++
  [.loop (.elect [toyLocal, toyStale]), .loop .execute]

set_option maxRecDepth 100000 in
theorem stale_claim_finalised :
    ∃ x e rest, exec (tracedStep toyPrimitives (toyWalletKey 1)) (toyBoot, .start) toyStaleRun =
        some x ∧ x.2.chain = e :: rest ∧
      e.header.prevHash ≠ tipHash toyPrimitives rest ∧ e.header.stateRoot ≠ e.executedRoot := by
  have hrun : (exec (tracedStep toyPrimitives (toyWalletKey 1)) (toyBoot, .start)
      toyStaleRun).any fun x =>
        match x.2.chain with
        | e :: rest => e.header.prevHash != tipHash toyPrimitives rest &&
          e.header.stateRoot != e.executedRoot
        | [] => false := by decide +kernel
  obtain ⟨x, hx, hs⟩ := (Option.any_eq_true _ _).mp hrun
  split at hs
  · rename_i e rest hc
    simp only [Bool.and_eq_true, bne_iff_ne] at hs
    exact ⟨x, e, rest, hx, hc, hs.1, hs.2⟩
  · simp at hs

end BinaChain.Canonical
