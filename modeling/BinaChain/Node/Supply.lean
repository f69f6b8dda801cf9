import BinaChain.Ledger.Schedule
import BinaChain.Node.ChainWork
import BinaChain.Node.Coherence

/-!
# The supply of a running node

The mining loop takes a reward from the schedule; a peer's record names its own
and no check compares the two. Rollbacks go back along the schedule as long as
every row of the ledger file has been written.
-/

set_option autoImplicit false

namespace BinaChain.Supply
open BinaChain.Word BinaChain.Text BinaChain.Crypto BinaChain.Transaction BinaChain.Rewards
open BinaChain.BitcoinEntropy BinaChain.Execution BinaChain.State BinaChain.Machine
open BinaChain.Store BinaChain.Mining BinaChain.Sync BinaChain.Reconcile BinaChain.System
open BinaChain.Coherence BinaChain.Schedule

/-- A block as the ledger executes it. -/
structure Application where
  height : ℕ
  miner : Str
  reward : ℕ
  timestamp : ℕ
  txs : List SignedTransaction

namespace Application

def execute (K : Primitives) (b : Application) (l : RewardLedger) : RewardLedger :=
  executeBlock K b.height b.miner b.reward b.timestamp l b.txs

def ofWinner (f : Finalising) : Application where
  height := f.height
  miner := f.winning.minerHex
  reward := f.reward
  timestamp := f.winning.claim.header.timestamp/1000
  txs := f.winning.transactions

def ofRecord (r : BlockRecord) : Application where
  height := r.height
  miner := r.minerAddress
  reward := r.rewardBina
  timestamp := r.timestamp/1000
  txs := r.transactions

end Application

def application (n : Node) : Event → Option Application
  | .loop .execute =>
    match n.phase with
    | .elected f => some (.ofWinner f)
    | _ => none
  | .loop (.adopt _ _ r) => some (.ofRecord r)
  | _ => none

def rolledTo (n : Node) : Event → Option ℕ
  | .loop (.rewind env) =>
    match plan env n.parts with
    | .rollback _ r => some r.forkPoint
    | _ => none
  | _ => none

def ledgerHeight (n : Node) : ℕ :=
  match n.phase with
  | .executed f | .recorded f | .saved f => f.height
  | _ => n.cursor.height

def Words (n : Node) : Prop :=
  match n.phase with
  | .searching _ | .waiting .. | .elected _ => n.cursor.height+1 ≤ u64Max
  | _ => True

inductive Effect (K : Primitives) (n : Node) (e : Event) (n' : Node) : Prop
  | applied {b : Application} (ha : application n e = some b) (hr : rolledTo n e = none)
      (hl : n'.ledger = b.execute K n.ledger) (hb : b.height = ledgerHeight n+1)
      (ht : ledgerHeight n' = b.height) (hw : b.height ≤ u64Max) (hm : Plain b.miner)
  | rolled {fork : ℕ} (ha : application n e = none) (hr : rolledTo n e = some fork)
      (hl : n'.ledger = .openScoped n.ledger.csv fork) (hf : fork ≤ ledgerHeight n)
      (ht : ledgerHeight n' = fork)
  | kept (ha : application n e = none) (hr : rolledTo n e = none) (hl : n'.ledger = n.ledger)
      (ht : n'.poisoned = true ∨ ledgerHeight n' = ledgerHeight n)

theorem ledgerHeight_framed {n n' : Node} (hf : Framed n n') :
    ledgerHeight n' = ledgerHeight n := by
  unfold ledgerHeight
  rw [hf.phase, hf.cursor]

theorem words_framed {n n' : Node} (hf : Framed n n') (h : Words n) : Words n' := by
  unfold Words at *
  rw [hf.phase, hf.cursor]
  exact h

theorem transition_words {K : Primitives} {wallet : WalletPublicKey} {n n' : Node}
    {e : LoopEvent} (ht : Transition K wallet n e n') (h : Words n) : Words n' := by
  unfold Words at h
  cases ht with
  | prepare hp hh ho hm => exact hh
  | mined hp | elect hp =>
    simp only [hp] at h
    exact h
  | electNobody | execute | record | save | publish | publishSpent => trivial
  | adopt | publishAdopted | rewind | publishRewound => trivial

theorem transition_effect {K : Primitives} {wallet : WalletPublicKey} {n n' : Node}
    {e : LoopEvent} (hc : Coherent K n) (hw : Words n) (ht : Transition K wallet n e n') :
    Effect K n (.loop e) n' := by
  have hphase := hc.phase
  unfold PhaseOk at hphase
  unfold Words at hw
  cases ht with
  | prepare hp | mined hp | elect hp =>
    exact .kept rfl rfl rfl (.inr (by simp [ledgerHeight, hp]))
  | electNobody => exact .kept rfl rfl rfl (.inl rfl)
  | @execute f hp =>
    simp only [hp] at hphase hw
    obtain ⟨-, hext, -⟩ := hphase
    refine .applied (b := .ofWinner f) (by simp [application, hp]) rfl rfl ?_ rfl ?_
      (Hex.encode_plain _)
    · simp only [ledgerHeight, hp]
      exact hext.height
    · exact hext.height.trans_le hw
  | record hp | save hp => exact .kept rfl rfl rfl (.inr (by simp [ledgerHeight, hp]))
  | @publish f state hp hs =>
    simp only [hp] at hphase
    refine .kept rfl rfl rfl (.inr ?_)
    simp only [ledgerHeight, hp]
    rw [hphase.2.cursor]
    rfl
  | publishSpent => exact .kept rfl rfl rfl (.inl rfl)
  | @adopt now stored r claim hp hh hck =>
    obtain ⟨-, -, -, -, -, -, hm, -⟩ := headerFromRecord_ok hck.header
    refine .applied (b := .ofRecord r) rfl rfl rfl ?_ rfl hh (parseAddressHex_plain hm)
    simp only [ledgerHeight, hp]
    exact hck.height
  | publishAdopted hp => exact .kept rfl rfl rfl (.inr (by simp [ledgerHeight, hp]))
  | @rewind env target r hp hr =>
    refine .rolled rfl (by simp [rolledTo, hr]) rfl ?_ rfl
    simp only [ledgerHeight, hp]
    exact Nat.le_of_lt (plan_restores hr).below
  | publishRewound hp => exact .kept rfl rfl rfl (.inr (by simp [ledgerHeight, hp]))

theorem step_effect {K : Primitives} {wallet : WalletPublicKey} {n n' : Node} {e : Event}
    (hc : Coherent K n) (hw : Words n) (hs : step K wallet n e = some n') :
    n.poisoned = false ∧ Words n' ∧ Effect K n e n' := by
  cases e with
  | client e =>
    simp only [step] at hs
    split at hs
    · simp at hs
    · rename_i hp
      have hf := clientStep_framed hs
      exact ⟨by simpa using hp, words_framed hf hw,
        .kept rfl rfl hf.ledger (.inr (ledgerHeight_framed hf))⟩
  | loop e =>
    have ht : Transition K wallet n e n' := loopStep_transition hs
    refine ⟨?_, transition_words ht hw, transition_effect hc hw ht⟩
    cases ht <;> simp_all [Node.poisoned]

def note (n : Node) (e : Event) (_ : Node) (intact : Bool) : Bool :=
  match application n e with
  | some b => intact && decide (Durable (appends b.reward b.txs) n.ledger.csv)
  | none => intact

def tracked (K : Primitives) (wallet : WalletPublicKey) :
    Node × Bool → Event → Option (Node × Bool) := recording (step K wallet) note

/-- A block is due, and a rollback finds a whole file or one that issues no more
than the cap up to its height. -/
structure Sound (K : Primitives) (x : Node × Bool) (e : Event) : Prop where
  due : ∀ b ∈ application x.1 e,
    Due K b.height b.miner b.reward b.timestamp x.1.ledger b.txs
  rollback : ∀ fork ∈ rolledTo x.1 e,
    x.2 = true ∨ issued fork (Rewards.csvRows x.1.ledger.csv.text) ≤ hardCap

instance (K : Primitives) (x : Node × Bool) (e : Event) : Decidable (Sound K x e) :=
  decidable_of_iff ((∀ b ∈ application x.1 e,
      Due K b.height b.miner b.reward b.timestamp x.1.ledger b.txs) ∧
      ∀ fork ∈ rolledTo x.1 e,
        x.2 = true ∨ issued fork (Rewards.csvRows x.1.ledger.csv.text) ≤ hardCap)
    ⟨fun h => ⟨h.1, h.2⟩, fun h => ⟨h.due, h.rollback⟩⟩

/-- The step keeps the supply under the cap, and a block pays the schedule. -/
structure Kept (K : Primitives) (x : Node × Bool) (e : Event) (y : Node × Bool) : Prop where
  cap : y.1.ledger.totalMined ≤ hardCap
  pays : ∀ b ∈ application x.1 e, Pays b.height b.miner x.1.ledger
    (applyTransactions K b.height b.miner b.timestamp x.1.ledger b.txs).2 y.1.ledger

structure Steady (K : Primitives) (x : Node × Bool) : Prop where
  coherent : Coherent K x.1
  words : Words x.1
  cap : x.1.ledger.totalMined ≤ hardCap
  track : x.2 = true → x.1.poisoned = false → OnSchedule (ledgerHeight x.1) x.1.ledger

theorem steady_boot (K : Primitives) (outcomes : List AppendOutcome)
    (observed : BtcEntropyState) : Steady K (boot K outcomes observed, true) where
  coherent := coherent_boot K outcomes observed
  words := trivial
  cap := Nat.zero_le _
  track _ _ := onSchedule_create outcomes

/-- The condition on a step is exactly what keeps the supply. -/
theorem sound_iff {K : Primitives} {wallet : WalletPublicKey} {x y : Node × Bool} {e : Event}
    (h : Steady K x) (hs : tracked K wallet x e = some y) : Sound K x e ↔ Kept K x e y := by
  obtain ⟨hstep, -⟩ := recording_eq_some.mp hs
  obtain ⟨halive, -, heff⟩ := step_effect h.coherent h.words hstep
  cases heff with
  | @applied b ha hr hl hb ht hw hm =>
    have hiff := execute_pays_iff (K := K) h.cap b.height b.miner b.reward b.timestamp b.txs
    rw [show executeBlock K b.height b.miner b.reward b.timestamp x.1.ledger b.txs =
      y.1.ledger from hl.symm] at hiff
    constructor
    · intro hsound
      have hpays := hiff.mpr (hsound.due b ha)
      refine ⟨hpays.supply.trans_le (blockReward_add_le h.cap), fun c hc => ?_⟩
      obtain rfl := Option.some.inj (ha.symm.trans hc)
      exact hpays
    · intro hkept
      refine ⟨fun c hc => ?_, fun fork hf => by simp [hr] at hf⟩
      obtain rfl := Option.some.inj (ha.symm.trans hc)
      exact hiff.mp (hkept.pays b ha)
  | @rolled fork ha hr hl hf ht =>
    have hiff := openScoped_bounded_iff x.1.ledger.csv fork
    rw [← hl] at hiff
    constructor
    · intro hsound
      refine ⟨?_, fun c hc => by simp [ha] at hc⟩
      rcases hsound.rollback fork hr with hi | hle
      · rw [hl]
        exact ((h.track hi halive).reload hf).bounded
      · exact hiff.mpr hle
    · intro hkept
      refine ⟨fun c hc => by simp [ha] at hc, fun g hg => ?_⟩
      obtain rfl := Option.some.inj (hr.symm.trans hg)
      exact .inr (hiff.mp hkept.cap)
  | kept ha hr hl ht =>
    constructor
    · intro _
      exact ⟨by rw [hl]; exact h.cap, fun c hc => by simp [ha] at hc⟩
    · intro _
      exact ⟨fun c hc => by simp [ha] at hc, fun g hg => by simp [hr] at hg⟩

theorem steady_step {K : Primitives} {wallet : WalletPublicKey} {x y : Node × Bool} {e : Event}
    (h : Steady K x) (hok : Sound K x e) (hs : tracked K wallet x e = some y) :
    Steady K y := by
  have hkept := (sound_iff h hs).mp hok
  obtain ⟨hstep, hnote⟩ := recording_eq_some.mp hs
  obtain ⟨halive, hwords, heff⟩ := step_effect h.coherent h.words hstep
  refine ⟨h.coherent.step hstep, hwords, hkept.cap, fun hi hp => ?_⟩
  rw [hnote, note] at hi
  cases heff with
  | @applied b ha hr hl hb ht hw hm =>
    simp only [ha, Bool.and_eq_true, decide_eq_true_eq] at hi
    have hdue := hok.due b ha
    rw [ht, hl, Application.execute]
    rw [hb] at hdue hw ⊢
    exact (h.track hi.1 halive).execute hdue hi.2 hw hm
  | @rolled fork ha hr hl hf ht =>
    simp only [ha] at hi
    rw [ht, hl]
    exact (h.track hi halive).reload hf
  | kept ha hr hl ht =>
    simp only [ha] at hi
    rcases ht with hdead | ht
    · simp [hdead] at hp
    · rw [ht, hl]
      exact h.track hi halive

/-- In a run whose blocks are due and whose rollbacks find the file whole, the
supply stays under the cap; the next step keeps that and pays the schedule
exactly when the condition holds of it too. -/
theorem supply_on_schedule {K : Primitives} {wallet : WalletPublicKey}
    {outcomes : List AppendOutcome} {observed : BtcEntropyState} {x : Node × Bool}
    (h : Run (tracked K wallet) (Sound K) (boot K outcomes observed, true) x) :
    x.1.ledger.totalMined ≤ hardCap ∧
      ∀ e y, tracked K wallet x e = some y → (Sound K x e ↔ Kept K x e y) := by
  have hsteady : Steady K x :=
    h.invariant (steady_boot K outcomes observed) fun _ _ _ => steady_step
  exact ⟨hsteady.cap, fun e y hs => sound_iff hsteady hs⟩

def toyReturn : List Event :=
  toyAdoption (toyRecord 1 0 toyGenesis [])++toyAdoption (toyRecord 2 7 toyFirst [])++
  [.loop (.rewind (ChainWork.toySilentPeer ChainWork.toyTwoBlocks)), .loop .publishRewound]

set_option maxRecDepth 100000 in
theorem supply_on_schedule_sample :
    ∃ x, exec (tracked toyPrimitives (toyWalletKey 1)) (toyBoot, true) toyReturn = some x ∧
      x.1.cursor.height = 1 ∧ x.1.ledger.totalMined ≤ hardCap := by
  obtain ⟨hone, hadm⟩ : ((exec (tracked toyPrimitives (toyWalletKey 1)) (toyBoot, true)
        toyReturn).any fun x => x.1.cursor.height == 1) ∧
      Admitted (tracked toyPrimitives (toyWalletKey 1)) (Sound toyPrimitives)
        (toyBoot, true) toyReturn := by decide +kernel
  obtain ⟨x, hx, hh⟩ := (Option.any_eq_true _ _).mp hone
  exact ⟨x, hx, by simpa using hh, (supply_on_schedule (hadm.run hx)).1⟩

def toyGreedy : BlockRecord :=
  let reward := hardCap+1
  let t := (prepare toyPrimitives (toyWallet 1) toyGenesis.state toyGenesis.ledger
    toyGenesis.cursor .mock (toyGenesis.cursor.lastBlockTimestampMs+1) []).2
  let root := (simulateBlockExecution toyPrimitives toyGenesis.ledger []
    (Hex.encode (toyWallet 1).toList) reward).2
  recordOf toyPrimitives (toyFinalising toyGenesis.state toyGenesis.cursor
    (toyPending 1 0 { t with header := { t.header with stateRoot := root } }) reward)

set_option maxRecDepth 100000 in
theorem greedy_record_adopted :
    ∃ n, exec (step toyPrimitives (toyWalletKey 1)) toyBoot (toyAdoption toyGreedy) = some n ∧
      hardCap < n.ledger.totalMined ∧
      n.ledger.balance toyGreedy.minerAddress ≠
        toyBoot.ledger.balance toyGreedy.minerAddress+blockReward 1 toyBoot.ledger.totalMined := by
  have hrun : (exec (step toyPrimitives (toyWalletKey 1)) toyBoot (toyAdoption toyGreedy)).any
      fun n => decide (hardCap < n.ledger.totalMined) &&
        n.ledger.balance toyGreedy.minerAddress != toyBoot.ledger.balance toyGreedy.minerAddress+
          blockReward 1 toyBoot.ledger.totalMined := by decide +kernel
  obtain ⟨n, hn, hs⟩ := (Option.any_eq_true _ _).mp hrun
  rw [Bool.and_eq_true, decide_eq_true_eq, bne_iff_ne] at hs
  exact ⟨n, hn, hs.1, hs.2⟩

end BinaChain.Supply
