import BinaChain.Node.Nullifiers
import BinaChain.Node.Pinning

/-!
# A node that stops and starts again

A start reads the resume pointer, the block store and the ledger file; whatever
was in memory is lost. The process may stop in any phase of the mining loop, and
its server takes requests before the loop has read anything.
-/

set_option autoImplicit false

namespace BinaChain.Restart
open BinaChain.Word BinaChain.Text BinaChain.Crypto BinaChain.Transaction BinaChain.Randomness
open BinaChain.BitcoinEntropy BinaChain.Difficulty BinaChain.Rewards BinaChain.State
open BinaChain.Machine BinaChain.Store BinaChain.Admission BinaChain.Mining BinaChain.Sync
open BinaChain.Reconcile BinaChain.System BinaChain.Coherence BinaChain.Trace BinaChain.Pinning Std

/-- How far the start of the mining loop has come. -/
inductive Stage where
  | serving
  | scoped (pin : Pin)
  | guarded (pin : Pin)
  | loaded (pin : Pin) (pending : List SignedTransaction)
  | refilled (pin : Pin)

def Stage.pin : Stage → Option Pin
  | .serving => none
  | .scoped pin | .guarded pin | .loaded pin _ | .refilled pin => some pin

/-- A node whose mining loop is still starting, or runs. -/
structure Process where
  node : Node
  starting : Option Stage

/-- What a stop leaves of the ledger file and of the table of pending
transactions, which steps write row by row. -/
structure Leftovers where
  csv : CsvFile
  pending : ExtTreeMap Str SignedTransaction

inductive StartEvent where
  | scope (fileReadable checkpointReadable : Bool)
  | guard (readable : Bool)
  | load (readable : Bool)
  | refill (removed : SignedTransaction → Bool)
  | resume (observed : BtcEntropyState)

inductive Event where
  | run (e : System.Event)
  | restart (left : Leftovers)
  | start (e : StartEvent)

def parseHexU128 (s : Str) : Option ℕ :=
  let digits := match s with
    | '+' :: rest => rest
    | _ => s
  if digits = [] then none
  else
    match digits.mapM Hex.hexValue with
    | none => none
    | some values =>
      let n := values.foldl (fun acc d => 16*acc+d) 0
      if n ≤ u128Max then some n else none

def genesisFile (K : Primitives) : ChainStateFile :=
  chainStateFile (genesisHash K) (genesisHash K) 0 0 (genesisCursor K)

/-- A pointer that cannot be read is written anew; `none` is a panic. -/
def loadOrCreateChainState (K : Primitives) (readable : Bool) (file : ChainStateFile) :
    Option ChainStateFile :=
  if readable then
    (Nullifiers.decodeHash file.genesisHash).bind fun stored =>
      if stored = genesisHash K then (Nullifiers.decodeHash file.tipHash).map fun _ => file
      else none
  else some (genesisFile K)

def latestCheckpoint (store : BlockStore) : Option (Str × ℕ) :=
  ((store.blocks.toList.map Prod.snd).filter fun b => 0 < b.btcHeight).getLast?.map
    fun b => (b.btcSeed, b.btcHeight)

/-- The pinned checkpoint of the pointer, unless a row has a greater height. -/
def resumeCheckpoint (readable : Bool) (store : BlockStore) (file : ChainStateFile) :
    Option Pin :=
  (Nullifiers.decodeHash file.btcSeedHash).bind fun seed =>
    match if readable then latestCheckpoint store else none with
    | some (seedHex, tipHeight) =>
      if file.btcCheckpointTipHeight < tipHeight then
        (Nullifiers.decodeHash seedHex).map fun stored => (stored, tipHeight)
      else some (seed, file.btcCheckpointTipHeight)
    | none => some (seed, file.btcCheckpointTipHeight)

def resumeNullifiers (readable : Bool) (store : BlockStore) : Option NullifierSet :=
  if readable then Nullifiers.reloadNullifiers store else some ∅

def resumeCursor (file : ChainStateFile) (tipHash : Hash) (pin : Pin) : Cursor where
  height := file.height
  tipHash
  lastBlockTimestampMs := file.lastBlockTimestampMs
  btcSeedHash := pin.1
  btcCheckpointTipHeight := pin.2
  chainWork := (parseHexU128 file.chainWorkHex).getD 0
  adjuster := .restore file.difficultyBits file.epochStartMs file.epochStartHeight

def stillValid (K : Primitives) (l : RewardLedger) (tx : SignedTransaction) : Bool :=
  (tx.verify K).isOk && tx.tx.nonce == l.nonce tx.fromHex &&
    (checkedAdd tx.tx.amount tx.tx.fee).any fun need => need ≤ l.balance tx.fromHex

def freshState : NodeState where
  genesisHash := zeroHash
  tipHash := zeroHash
  chainHeight := 0
  pendingClaims := ∅
  mempool := ∅
  nullifiers := ∅
  lastObservedBtc := .mock
  btcSeedHash := zeroHash
  btcCheckpointTipHeight := 0
  difficultyBits := minBits
  lastBlockTimestampMs := 0
  chainWork := 0
  totalMinedBina := 0

/-- `main` up to the spawn of the server. The loop has no variables yet. -/
def serve (K : Primitives) (left : Leftovers) (n : Node) : Process where
  node :=
    { state := freshState
      ledger := .openLedger left.csv
      store := { blocks := n.store.blocks, mempool := left.pending }
      chainState := n.chainState
      cursor := genesisCursor K
      phase := .idle
      requests := ∅
      nextRequest := 0 }
  starting := some .serving

/-- The reloaded rows go into the mempool without a look at its size. -/
def refill (K : Primitives) (pending : List SignedTransaction) (removed : SignedTransaction → Bool)
    (n : Node) : Node :=
  let dropped := pending.filter fun tx => !stillValid K n.ledger tx && removed tx
  { n with
    state := { n.state with
      mempool := (pending.filter (stillValid K n.ledger)).foldl
        (fun m tx => m.insert (tx.txId K) tx) n.state.mempool }
    store := dropped.foldl (BlockStore.mempoolRemove K) n.store }

/-- The shared state and the loop's variables once the start is complete. -/
def resume (K : Primitives) (tipHash : Hash) (pin : Pin) (observed : BtcEntropyState) (n : Node) :
    Node :=
  let file := n.chainState
  let c := resumeCursor file tipHash pin
  { n with
    state := { n.state with
      genesisHash := genesisHash K
      tipHash := c.tipHash
      chainHeight := file.height
      lastObservedBtc := observed
      btcSeedHash := c.btcSeedHash
      btcCheckpointTipHeight := c.btcCheckpointTipHeight
      difficultyBits := file.difficultyBits
      lastBlockTimestampMs := file.lastBlockTimestampMs
      chainWork := c.chainWork
      totalMinedBina := n.ledger.totalMined }
    cursor := c }

/-- The steps of `mining_loop` before its first iteration; `none` is a panic. A
table that cannot be read restores nothing. -/
def startStep (K : Primitives) (n : Node) : Stage → StartEvent → Option Process
  | .serving, .scope fileReadable checkpointReadable => do
    let file ← loadOrCreateChainState K fileReadable n.chainState
    let pin ← resumeCheckpoint checkpointReadable n.store file
    pure
      { node := { n with chainState := file, ledger := .openScoped n.ledger.csv file.height }
        starting := some (.scoped pin) }
  | .scoped pin, .guard readable =>
    (resumeNullifiers readable n.store).map fun nullifiers =>
      { node := { n with state := { n.state with nullifiers } }, starting := some (.guarded pin) }
  | .guarded pin, .load readable =>
    let pending := if readable then n.store.mempool.toList.map Prod.snd else []
    some { node := n, starting := some (.loaded pin pending) }
  | .loaded pin pending, .refill removed =>
    some { node := refill K pending removed n, starting := some (.refilled pin) }
  | .refilled pin, .resume observed =>
    (Nullifiers.decodeHash n.chainState.tipHash).map fun tipHash =>
      { node := resume K tipHash pin observed n, starting := none }
  | _, _ => none

/-- Handlers run from the first stage on; the observer of Bitcoin and the loop
wait for the last. -/
def takes : Option Stage → System.Event → Bool
  | none, _ => true
  | some _, .client (.observe _) => false
  | some _, .client _ => true
  | some _, .loop _ => false

theorem takes_client (starting : Option Stage) {c : ClientEvent}
    (hc : ∀ btc, c ≠ .observe btc) : takes starting (.client c) = true := by
  cases starting with
  | none => rfl
  | some stage =>
    cases c with
    | observe btc => exact absurd rfl (hc btc)
    | submit | checkExecution | enter | offer | queue => rfl

def step (K : Primitives) (wallet : WalletPublicKey) (p : Process) : Event → Option Process
  | .run e =>
    if takes p.starting e then
      (System.step K wallet p.node e).map fun n => { p with node := n }
    else none
  | .restart left => some (serve K left p.node)
  | .start e => p.starting.bind fun stage => startStep K p.node stage e

def booted (K : Primitives) (outcomes : List AppendOutcome) (observed : BtcEntropyState) :
    Process where
  node := boot K outcomes observed
  starting := none

inductive Moves (K : Primitives) (wallet : WalletPublicKey) : Process → Event → Process → Prop
  | run {p : Process} {n' : Node} {e : System.Event} (ht : takes p.starting e = true)
      (hs : System.step K wallet p.node e = some n') :
      Moves K wallet p (.run e) { p with node := n' }
  | restart {p : Process} {left : Leftovers} : Moves K wallet p (.restart left) (serve K left p.node)
  | scope {n : Node} {fileReadable checkpointReadable : Bool} {file : ChainStateFile} {pin : Pin}
      (hf : loadOrCreateChainState K fileReadable n.chainState = some file)
      (hp : resumeCheckpoint checkpointReadable n.store file = some pin) :
      Moves K wallet ⟨n, some .serving⟩ (.start (.scope fileReadable checkpointReadable))
        ⟨{ n with chainState := file, ledger := .openScoped n.ledger.csv file.height },
          some (.scoped pin)⟩
  | guard {n : Node} {pin : Pin} {readable : Bool} {nullifiers : NullifierSet}
      (hn : resumeNullifiers readable n.store = some nullifiers) :
      Moves K wallet ⟨n, some (.scoped pin)⟩ (.start (.guard readable))
        ⟨{ n with state := { n.state with nullifiers } }, some (.guarded pin)⟩
  | load {n : Node} {pin : Pin} {readable : Bool} :
      Moves K wallet ⟨n, some (.guarded pin)⟩ (.start (.load readable))
        ⟨n, some (.loaded pin (if readable then n.store.mempool.toList.map Prod.snd else []))⟩
  | refill {n : Node} {pin : Pin} {pending : List SignedTransaction}
      {removed : SignedTransaction → Bool} :
      Moves K wallet ⟨n, some (.loaded pin pending)⟩ (.start (.refill removed))
        ⟨refill K pending removed n, some (.refilled pin)⟩
  | resume {n : Node} {pin : Pin} {observed : BtcEntropyState} {tipHash : Hash}
      (ht : Nullifiers.decodeHash n.chainState.tipHash = some tipHash) :
      Moves K wallet ⟨n, some (.refilled pin)⟩ (.start (.resume observed))
        ⟨resume K tipHash pin observed n, none⟩

theorem step_moves {K : Primitives} {wallet : WalletPublicKey} {p p' : Process} {e : Event}
    (h : step K wallet p e = some p') : Moves K wallet p e p' := by
  cases e with
  | run e =>
    simp only [step] at h
    split at h
    · rename_i ht
      obtain ⟨n', hs, rfl⟩ := Option.map_eq_some_iff.mp h
      exact .run ht hs
    · simp at h
  | restart left =>
    obtain rfl := Option.some.inj h
    exact .restart
  | start e =>
    obtain ⟨n, starting⟩ := p
    obtain ⟨stage, rfl, h⟩ := Option.bind_eq_some_iff.mp h
    unfold startStep at h
    split at h
    · simp only [Option.bind_eq_bind, Option.bind_eq_some_iff] at h
      obtain ⟨file, hf, pin, hp, h⟩ := h
      obtain rfl := Option.some.inj h
      exact .scope hf hp
    · obtain ⟨nullifiers, hn, rfl⟩ := Option.map_eq_some_iff.mp h
      exact .guard hn
    · obtain rfl := Option.some.inj h
      exact .load
    · obtain rfl := Option.some.inj h
      exact .refill
    · obtain ⟨tipHash, ht, rfl⟩ := Option.map_eq_some_iff.mp h
      exact .resume ht
    · simp at h

theorem loaded_eq {K : Primitives} {readable : Bool} {file file' : ChainStateFile}
    (h : loadOrCreateChainState K readable file = some file') :
    file' = if readable then file else genesisFile K := by
  unfold loadOrCreateChainState at h
  by_cases hr : readable = true
  · rw [if_pos hr] at h ⊢
    obtain ⟨stored, -, h⟩ := Option.bind_eq_some_iff.mp h
    split at h
    · obtain ⟨tipHash, -, h⟩ := Option.map_eq_some_iff.mp h
      exact h.symm
    · simp at h
  · rw [if_neg hr] at h ⊢
    exact (Option.some.inj h).symm

def BitsInRange (file : ChainStateFile) : Prop :=
  minBits ≤ file.difficultyBits ∧ file.difficultyBits ≤ maxBits

structure Resumable (K : Primitives) (n : Node) : Prop where
  closed : Closed K n
  adjuster : n.cursor.adjuster.InRange
  file : BitsInRange n.chainState

theorem resumable_boot (K : Primitives) (outcomes : List AppendOutcome)
    (observed : BtcEntropyState) : Resumable K (boot K outcomes observed) where
  closed := closed_boot K outcomes observed
  adjuster := ⟨Nat.le_refl minBits, show minBits ≤ maxBits by decide⟩
  file := ⟨Nat.le_refl minBits, show minBits ≤ maxBits by decide⟩

theorem Resumable.flying {K : Primitives} {n : Node} {f : Finalising} (h : Resumable K n)
    (hf : Extends K n f) : f.cursor.adjuster.InRange := by
  rw [hf.cursor]
  exact DifficultyAdjuster.recordBlock_within K _ _ _ h.adjuster

theorem resumable_transition {K : Primitives} {wallet : WalletPublicKey} {n n' : Node}
    {e : LoopEvent} (h : Resumable K n) (ht : Transition K wallet n e n') :
    n'.cursor.adjuster.InRange ∧ BitsInRange n'.chainState := by
  have hphase := h.closed.coherent.phase
  unfold PhaseOk at hphase
  cases ht with
  | prepare | mined | elect | electNobody | execute | record | publishSpent | publishAdopted
    | rewind | publishRewound => exact ⟨h.adjuster, h.file⟩
  | @save f written hp =>
    simp only [hp] at hphase
    refine ⟨h.adjuster, ?_⟩
    dsimp only
    split
    · exact h.flying hphase.2
    · exact h.file
  | publish hp =>
    simp only [hp] at hphase
    exact ⟨h.flying hphase.2, h.file⟩
  | adopt => exact ⟨DifficultyAdjuster.recordBlock_within K _ _ _ h.adjuster, h.file⟩

theorem resumable_step {K : Primitives} {wallet : WalletPublicKey} {n n' : Node}
    {e : System.Event} (h : Resumable K n) (hs : System.step K wallet n e = some n') :
    Resumable K n' := by
  have hkept : n'.cursor.adjuster.InRange ∧ BitsInRange n'.chainState := by
    cases e with
    | client e =>
      simp only [System.step] at hs
      split at hs
      · simp at hs
      · have hf := clientStep_framed hs
        rw [hf.cursor, hf.chainState]
        exact ⟨h.adjuster, h.file⟩
    | loop e => exact resumable_transition h (loopStep_transition hs)
  exact ⟨h.closed.step hs, hkept.1, hkept.2⟩

structure Launching (n : Node) : Prop where
  genesis : n.state.genesisHash = zeroHash
  height : n.state.chainHeight = 0
  phase : n.phase = .idle
  pools : n.state.pendingClaims = ∅
  requests : ∀ (id : ℕ) (r : Request), n.requests[id]? = some r → ∃ tx, r = .spendChecked tx
  file : BitsInRange n.chainState

theorem launching_serve {K : Primitives} {left : Leftovers} {n : Node}
    (h : BitsInRange n.chainState) : Launching (serve K left n).node where
  genesis := rfl
  height := rfl
  phase := rfl
  pools := rfl
  requests id r hr := by simp [serve] at hr
  file := h

theorem Launching.request {K : Primitives} {n n' : Node} {e : ClientEvent} (h : Launching n)
    (hs : clientStep K n e = some n') : Launching n' := by
  have hf := clientStep_framed hs
  have hkept : n'.state.pendingClaims = ∅ ∧
      ∀ (id : ℕ) (r : Request), n'.requests[id]? = some r → ∃ tx, r = .spendChecked tx := by
    cases clientStep_handled hs with
    | submit hc ht => exact absurd h.genesis (checkTip_ok.mp ht).1
    | judge hr | refuse hr | enter hr =>
      obtain ⟨tx, htx⟩ := h.requests _ _ hr
      cases htx
    | observe => exact ⟨h.pools, h.requests⟩
    | @offer tx =>
      refine ⟨h.pools, fun id r hr => ?_⟩
      simp only [enroll, Maps.getElem?_insert_eq] at hr
      split at hr
      · exact ⟨tx, (Option.some.inj hr).symm⟩
      · exact h.requests id r hr
    | queue | full =>
      exact ⟨h.pools, fun id r hr => h.requests id r (Maps.getElem?_erase_some.mp hr).2⟩
  exact
    { genesis := by rw [hf.genesisHash, h.genesis]
      height := by rw [hf.chainHeight, h.height]
      phase := by rw [hf.phase, h.phase]
      pools := hkept.1
      requests := hkept.2
      file := by rw [hf.chainState]; exact h.file }

theorem Launching.refill {K : Primitives} {n : Node} (h : Launching n)
    (pending : List SignedTransaction) (removed : SignedTransaction → Bool) :
    Launching (refill K pending removed n) :=
  ⟨h.genesis, h.height, h.phase, h.pools, h.requests, h.file⟩

theorem Launching.resume {K : Primitives} {n : Node} (h : Launching n) (tipHash : Hash)
    (pin : Pin) (observed : BtcEntropyState) : Resumable K (resume K tipHash pin observed n) := by
  have hbits : n.chainState.difficultyBits =
      (resumeCursor n.chainState tipHash pin).adjuster.currentBits := by
    show n.chainState.difficultyBits = min (max n.chainState.difficultyBits minBits) maxBits
    rw [Nat.max_eq_left h.file.1, Nat.min_eq_left h.file.2]
  refine ⟨⟨⟨rfl, ?_⟩, ?_, ?_⟩, ?_, h.file⟩
  · simp only [PhaseOk, Restart.resume, h.phase]
    exact ⟨⟨rfl, rfl, rfl, rfl, hbits, rfl⟩, rfl⟩
  · intro height miner p hp
    simp [Restart.resume, NodeState.poolAt, h.pools] at hp
  · simp only [Closing, Restart.resume, h.phase]
  · show minBits ≤ (resumeCursor n.chainState tipHash pin).adjuster.currentBits ∧
      (resumeCursor n.chainState tipHash pin).adjuster.currentBits ≤ maxBits
    rw [← hbits]
    exact h.file

structure Ready (K : Primitives) (p : Process) : Prop where
  running : p.starting = none → Resumable K p.node
  launching : p.starting ≠ none → Launching p.node

theorem ready_booted (K : Primitives) (outcomes : List AppendOutcome)
    (observed : BtcEntropyState) : Ready K (booted K outcomes observed) where
  running _ := resumable_boot K outcomes observed
  launching h := absurd rfl h

theorem Ready.file {K : Primitives} {p : Process} (h : Ready K p) : BitsInRange p.node.chainState := by
  cases hs : p.starting with
  | none => exact (h.running hs).file
  | some stage => exact (h.launching (by simp [hs])).file

theorem served {K : Primitives} {wallet : WalletPublicKey} {p : Process} {n' : Node}
    {e : System.Event} (hp : p.starting ≠ none) (ht : takes p.starting e = true)
    (hs : System.step K wallet p.node e = some n') :
    ∃ c, e = .client c ∧ clientStep K p.node c = some n' := by
  obtain ⟨stage, hstage⟩ := Option.ne_none_iff_exists'.mp hp
  rw [hstage] at ht
  cases e with
  | client c =>
    simp only [System.step] at hs
    split at hs
    · simp at hs
    · exact ⟨c, rfl, hs⟩
  | loop e => simp [takes] at ht

theorem ready_step {K : Primitives} {wallet : WalletPublicKey} {p p' : Process} {e : Event}
    (h : Ready K p) (hs : step K wallet p e = some p') : Ready K p' := by
  cases step_moves hs with
  | run ht hs' =>
    refine ⟨fun hr => resumable_step (h.running hr) hs', fun hr => ?_⟩
    have hp : p.starting ≠ none := hr
    obtain ⟨c, -, hc⟩ := served hp ht hs'
    exact (h.launching hr).request hc
  | restart => exact ⟨by simp [serve], fun _ => launching_serve h.file⟩
  | @scope n fileReadable checkpointReadable file pin hf hp =>
    have hl := h.launching (by simp)
    have hfile : BitsInRange file := by
      rw [loaded_eq hf]
      split
      · exact hl.file
      · exact ⟨Nat.le_refl minBits, show minBits ≤ maxBits by decide⟩
    exact ⟨by simp, fun _ => ⟨hl.genesis, hl.height, hl.phase, hl.pools, hl.requests, hfile⟩⟩
  | guard hn =>
    have hl := h.launching (by simp)
    exact ⟨by simp, fun _ => ⟨hl.genesis, hl.height, hl.phase, hl.pools, hl.requests, hl.file⟩⟩
  | load => exact ⟨by simp, fun _ => h.launching (by simp)⟩
  | refill => exact ⟨by simp, fun _ => (h.launching (by simp)).refill _ _⟩
  | resume ht => exact ⟨fun _ => (h.launching (by simp)).resume _ _ _, fun hr => absurd rfl hr⟩

def toyBooted : Process := booted toyPrimitives [] .mock

def toyStart (left : Leftovers) : List Event :=
  [.restart left, .start (.scope true true), .start (.guard true), .start (.load true),
    .start (.refill fun _ => true), .start (.resume .mock)]

end BinaChain.Restart
