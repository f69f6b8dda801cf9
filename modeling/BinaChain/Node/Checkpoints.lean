import BinaChain.Node.Attested

/-!
# The pinned checkpoint and the chain

The pinned pair is kept by the mining loop, by the shared state, by the resume
pointer and, one row for each height, by the store. A record of the chain that
each of them stands on tells which block governs and what it pins.
-/

set_option autoImplicit false

namespace BinaChain.Checkpoints
open BinaChain.Crypto BinaChain.BitcoinEntropy BinaChain.Rewards BinaChain.State
open BinaChain.Machine BinaChain.Store BinaChain.Mining BinaChain.Sync BinaChain.Reconcile
open BinaChain.System BinaChain.Coherence BinaChain.Trace BinaChain.Pinning BinaChain.Restart
open BinaChain.Attested

/-- What a block of the chain says about Bitcoin. -/
structure Mark where
  height : ℕ
  pin : Pin
  deriving DecidableEq

def markOf (f : Finalising) : Mark where
  height := f.height
  pin := (f.winning.claim.header.bitcoinSeedHash,
    (f.winning.btcCheckpoint.map BtcCheckpointProof.tipHeight).getD 0)

def markOfRecord (r : BlockRecord) : Option Mark :=
  (hexTo32 r.btcSeed).toOption.map fun seed => { height := r.height, pin := (seed, r.btcHeight) }

def markOfSynced (claim : Claims.SignedBlockClaim) (r : BlockRecord) : Mark :=
  { height := r.height, pin := (claim.header.bitcoinSeedHash, r.btcHeight) }

/-- The chains, newest block first, that the loop, the shared state and the
resume pointer stand on. -/
structure Marks where
  loop : List Mark
  shared : List Mark
  file : List Mark

def Marks.start : Marks := { loop := [], shared := [], file := [] }

def noteLoop (n : Node) (e : LoopEvent) (n' : Node) (g : Marks) : Marks :=
  match e, n.phase, n'.phase with
  | .record _, .executed f, _ => { g with loop := markOf f :: g.loop }
  | .save true, _, _ => { g with file := g.loop }
  | .publish, _, .idle => { g with shared := g.loop }
  | .adopt _ _ r, _, _ => { g with loop := (markOfRecord r).toList++g.loop }
  | .publishAdopted, _, _ => { g with shared := g.loop }
  | .rewind _, _, _ => { g with loop := Chain.cut Mark.height n'.cursor.height g.loop }
  | .publishRewound, _, _ => { g with shared := g.loop }
  | _, _, _ => g

/-- A start stands on the chain of the pointer it finds, once it is complete. -/
def note (p : Process) (e : Restart.Event) (p' : Process) (g : Marks) : Marks :=
  match e with
  | .run (.client _) => g
  | .run (.loop e) => noteLoop p.node e p'.node g
  | .restart _ => { g with loop := [], shared := [] }
  | .start (.scope false _) => { g with file := [] }
  | .start (.resume _) => { g with loop := g.file, shared := g.file }
  | .start _ => g

abbrev Marked := Process × Marks

abbrev markedStep (K : Primitives) (wallet : WalletPublicKey) :
    Marked → Restart.Event → Option Marked := recording (Restart.step K wallet) note

def Linked (chain : List Mark) : Prop := Chain.Linked Mark.height (fun _ _ => True) chain

/-- The block at the governing height pins the pair. -/
def Pins (chain : List Mark) (pin : Pin) : Prop := 1 ≤ chain.length →
  ∃ m ∈ chain, m.height = governingCheckpointHeight chain.length ∧ m.pin = pin

def nextPin (m : Mark) (pin : Pin) : Pin := if isCheckpointHeight m.height then m.pin else pin

theorem Linked.push {chain : List Mark} {m : Mark} (h : Linked chain)
    (hm : m.height = chain.length+1) : Linked (m :: chain) := ⟨hm, trivial, h⟩

theorem Pins.push {chain : List Mark} {m : Mark} {pin : Pin} (h : Pins chain pin)
    (hm : m.height = chain.length+1) : Pins (m :: chain) (nextPin m pin) := by
  intro _
  rw [List.length_cons, ← hm]
  unfold nextPin
  by_cases hc : isCheckpointHeight m.height = true
  · rw [if_pos hc]
    exact ⟨m, List.mem_cons_self, (governing_of_checkpoint (by omega) hc).symm, rfl⟩
  · rw [if_neg hc]
    rw [hm, Bool.not_eq_true] at hc
    obtain ⟨hpos, hg⟩ := governing_succ hc
    obtain ⟨k, hk, hheight, hpin⟩ := h hpos
    exact ⟨k, List.mem_cons_of_mem _ hk, by rw [hheight, hm, hg], hpin⟩

theorem Pins.between_iff {chain : List Mark} {m : Mark} {pin pin' : Pin} (hl : Linked chain)
    (h : Pins chain pin) (hm : m.height = chain.length+1)
    (hc : isCheckpointHeight m.height = false) : Pins (m :: chain) pin' ↔ pin' = pin := by
  constructor
  · intro h'
    rw [hm] at hc
    obtain ⟨hpos, hg⟩ := governing_succ hc
    have hle := (governing_bounds hpos).2
    obtain ⟨k, hk, hheight, hpin⟩ := h hpos
    obtain ⟨k', hk', hheight', hpin'⟩ := h' (by simp)
    rw [List.length_cons, hg] at hheight'
    rcases List.mem_cons.mp hk' with he | hk'
    · rw [he] at hheight'
      omega
    · rw [← hpin, ← hpin', hl.height_inj hk hk' (hheight.trans hheight'.symm)]
  · rintro rfl
    have hp := h.push hm
    unfold nextPin at hp
    rwa [if_neg (by simp [hc])] at hp

def Tells (b : BlockRecord) (m : Mark) : Prop :=
  hexTo32 b.btcSeed = .ok m.pin.1 ∧ b.btcHeight = m.pin.2

def Kept (store : BlockStore) (chain : List Mark) : Prop := ∀ (height : ℕ) (b : BlockRecord),
  1 ≤ height → height ≤ chain.length → isCheckpointHeight height = true →
    store.get height = some b → ∃ m ∈ chain, m.height = height ∧ Tells b m

def Unshadowed (store : BlockStore) (m : Mark) : Prop :=
  isCheckpointHeight m.height = true → ∀ b, store.get m.height = some b → Tells b m

theorem Kept.congr {store store' : BlockStore} {chain : List Mark} (h : Kept store chain)
    (hs : store'.blocks = store.blocks) : Kept store' chain := by
  intro height b hpos hle hc hg
  rw [BlockStore.get_congr hs] at hg
  exact h height b hpos hle hc hg

theorem Kept.push {store store' : BlockStore} {chain : List Mark} {m : Mark} (h : Kept store chain)
    (hm : m.height = chain.length+1) (hnew : Unshadowed store' m)
    (hold : ∀ height b, height ≠ m.height → store'.get height = some b →
      store.get height = some b) : Kept store' (m :: chain) := by
  intro height b hpos hle hc hg
  rw [List.length_cons] at hle
  by_cases he : height = m.height
  · subst he
    exact ⟨m, List.mem_cons_self, rfl, hnew hc b hg⟩
  · obtain ⟨k, hk, hrest⟩ := h height b hpos (by omega) hc (hold height b he hg)
    exact ⟨k, List.mem_cons_of_mem _ hk, hrest⟩

theorem Kept.insert {store : BlockStore} {chain : List Mark} {m : Mark} {r : BlockRecord}
    {stored : Bool} (h : Kept store chain) (hm : m.height = chain.length+1)
    (hr : r.height = m.height) (ht : isCheckpointHeight m.height = true → Tells r m)
    (hf : stored = false → Unshadowed store m) :
    Kept (if stored then store.insertBlock r else store) (m :: chain) := by
  cases stored with
  | false => exact h.push hm (hf rfl) fun _ _ _ hg => hg
  | true =>
    refine h.push hm (fun hc b hg => ?_) fun height b hne hg => ?_
    · rcases BlockStore.get_insertBlock hg with ⟨-, rfl⟩ | ⟨hne, -⟩
      · exact ht hc
      · exact absurd hr.symm hne
    · rcases BlockStore.get_insertBlock hg with ⟨he, -⟩ | ⟨-, hk⟩
      · exact absurd (he.trans hr) hne
      · exact hk

theorem Kept.rollback {store : BlockStore} {chain : List Mark} {fork : ℕ} (h : Kept store chain)
    (hle : fork ≤ chain.length) :
    Kept (store.rollbackAbove fork) (Chain.cut Mark.height fork chain) := by
  intro height b hpos hcut hc hg
  rw [BlockStore.get_rollbackAbove] at hg
  split at hg
  · rename_i htop
    obtain ⟨m, hm, hheight, ht⟩ := h height b hpos (Nat.le_trans htop hle) hc hg
    exact ⟨m, Chain.mem_cut hm (by omega), hheight, ht⟩
  · simp at hg

def cursorPin (c : Cursor) : Pin := (c.btcSeedHash, c.btcCheckpointTipHeight)

def filePin (file : ChainStateFile) : Option Pin :=
  (Nullifiers.decodeHash file.btcSeedHash).map fun seed => (seed, file.btcCheckpointTipHeight)

def flightPin (f : Finalising) : Pin := (f.cursor.btcSeedHash, f.checkpointTipNow)

/-- Which chain the loop is on while the shared state lags behind. -/
def Standing (n : Node) (g : Marks) : Prop :=
  match n.phase with
  | .recorded f | .saved f => g.loop = markOf f :: g.shared ∧ Pins g.loop (flightPin f)
  | .adopting _ | .rewound _ =>
    g.loop.length = n.cursor.height ∧ Pins g.loop (cursorPin n.cursor)
  | .crashed => True
  | _ => g.loop = g.shared

structure Tracked (n : Node) (g : Marks) : Prop where
  loop : Linked g.loop
  shared : Linked g.shared
  file : Linked g.file
  height : g.shared.length = n.state.chainHeight
  saved : g.file.length = n.chainState.height
  pins : Pins g.shared (pinned n.state)
  filed : ∀ pin, filePin n.chainState = some pin → Pins g.file pin
  kept : Kept n.store g.loop
  standing : Standing n g

theorem Tracked.still {n n' : Node} {g : Marks} (h : Tracked n g)
    (hb : n'.store.blocks = n.store.blocks) (hc : n'.chainState = n.chainState)
    (hh : n'.state.chainHeight = n.state.chainHeight) (hp : pinned n'.state = pinned n.state)
    (hs : Standing n' g) : Tracked n' g where
  loop := h.loop
  shared := h.shared
  file := h.file
  height := by rw [hh, h.height]
  saved := by rw [hc, h.saved]
  pins := by rw [hp]; exact h.pins
  filed := by rw [hc]; exact h.filed
  kept := h.kept.congr hb
  standing := hs

theorem Standing.framed {n n' : Node} {g : Marks} (hf : Framed n n') (h : Standing n g) :
    Standing n' g := by
  unfold Standing at *
  rw [hf.phase, hf.cursor]
  exact h

theorem flight_pin {K : Primitives} {n : Node} {f : Finalising} (hs : Agreed n.state n.cursor)
    (hf : Extends K n f) (hc : f.winning.height = f.height ∧
      f.checkpointTipNow = checkpointTip n.state f.winning f.height)
    (hw : HasProof f.winning) : flightPin f = nextPin (markOf f) (pinned n.state) := by
  unfold HasProof at hw
  rw [hc.1] at hw
  unfold flightPin nextPin
  rw [hf.cursor, hc.2]
  by_cases hck : isCheckpointHeight f.height = true
  · obtain ⟨proof, hproof⟩ := Option.isSome_iff_exists.mp (hw hck)
    simp [markOf, advance, checkpointTip, hck, hproof]
  · simp [markOf, advance, checkpointTip, hck, pinned, hs.seed]

theorem recordOf_tells {K : Primitives} {s : NodeState} {f : Finalising}
    (hc : f.winning.height = f.height ∧ f.checkpointTipNow = checkpointTip s f.winning f.height)
    (hw : HasProof f.winning) (hck : isCheckpointHeight f.height = true) :
    Tells (recordOf K f) (markOf f) := by
  unfold HasProof at hw
  rw [hc.1] at hw
  obtain ⟨proof, hproof⟩ := Option.isSome_iff_exists.mp (hw hck)
  refine ⟨hexTo32_encode _, ?_⟩
  show f.checkpointTipNow = _
  rw [hc.2]
  simp [markOf, checkpointTip, hck, hproof]

theorem filePin_saved (genesisHash tipHash : Hash) (f : Finalising) :
    filePin (chainStateFile genesisHash tipHash f.height f.checkpointTipNow f.cursor) =
      some (flightPin f) := by
  have hd : Nullifiers.decodeHash (Hex.encode f.cursor.btcSeedHash.toList) =
      some f.cursor.btcSeedHash := by
    simp [Nullifiers.decodeHash, Except.toOption, Hex.fixed_toList]
  unfold filePin
  simp only [chainStateFile, hd, Option.map_some]
  rfl

theorem markOfRecord_checked {K : Primitives} {c : Cursor} {l : RewardLedger} {now : ℕ}
    {r : BlockRecord} {claim : Claims.SignedBlockClaim} (h : Checked K c l now r claim) :
    markOfRecord r = some (markOfSynced claim r) := by
  have hseed := (headerFromRecord_ok h.header).2.2.2.2.2.2.2.1
  simp [markOfRecord, markOfSynced, hseed, Except.toOption]

/-- A block between two checkpoints is adopted while the loop's tip height is
that of the shared state; a checkpoint whose insert fails finds no row of
another one; a start finds the checkpoint rows of the pointer's chain and no
row with a Bitcoin height above the pointer's. -/
def Faithful (n : Node) (g : Marks) : Restart.Event → Prop
  | .run (.loop (.adopt _ stored r)) =>
    (isCheckpointHeight r.height = false →
      n.cursor.btcCheckpointTipHeight = n.state.btcCheckpointTipHeight) ∧
    (stored = false → ∀ m, markOfRecord r = some m → Unshadowed n.store m)
  | .run (.loop (.record stored)) =>
    ∀ f, n.phase = .executed f → stored = false → Unshadowed n.store (markOf f)
  | .start (.scope fileReadable checkpointReadable) => fileReadable = true → Kept n.store g.file ∧
    (0 < n.chainState.height → checkpointReadable = true →
      ∀ c, latestCheckpoint n.store = some c → c.2 ≤ n.chainState.btcCheckpointTipHeight)
  | _ => True

structure Grounded (K : Primitives) (n : Node) : Prop where
  resumable : Resumable K n
  backed : Backed n

theorem record_tracked {K : Primitives} {n : Node} {g : Marks} {f : Finalising} {stored : Bool}
    (hg : Grounded K n) (h : Tracked n g) (hp : n.phase = .executed f)
    (hok : stored = false → Unshadowed n.store (markOf f)) :
    Tracked
      { n with
        store := if stored then n.store.insertBlock (recordOf K f) else n.store
        phase := .recorded f }
      { g with loop := markOf f :: g.loop } := by
  have hphase := hg.resumable.closed.coherent.phase
  have hclose := hg.resumable.closed.closing
  have hw := hg.backed.phase
  have hst := h.standing
  simp only [PhaseOk, hp] at hphase
  simp only [Closing, hp] at hclose
  simp only [PhaseBacked, hp] at hw
  simp only [Standing, hp] at hst
  have hm : (markOf f).height = g.loop.length+1 := by
    rw [hst, h.height, hphase.1.height]
    exact hphase.2.height
  refine ⟨h.loop.push hm, h.shared, h.file, h.height, h.saved, h.pins, h.filed, ?_, ?_⟩
  · exact h.kept.insert hm rfl (recordOf_tells hclose hw) hok
  · simp only [Standing, hst, true_and]
    rw [flight_pin hphase.1 hphase.2 hclose hw]
    exact h.pins.push (by rw [← hst]; exact hm)

theorem adopt_tracked {K : Primitives} {n : Node} {g : Marks} {now : ℕ} {stored : Bool}
    {r : BlockRecord} {claim : Claims.SignedBlockClaim} (hg : Grounded K n) (h : Tracked n g)
    (hp : n.phase = .idle) (hc : Checked K n.cursor n.ledger now r claim)
    (hok : Faithful n g (.run (.loop (.adopt now stored r)))) :
    Tracked
      { n with
        ledger := (applyRecord K stored n.parts r claim).ledger
        store := (applyRecord K stored n.parts r claim).store
        cursor := (applyRecord K stored n.parts r claim).cursor
        phase := .adopting r }
      { g with loop := (markOfRecord r).toList++g.loop } := by
  have hphase := hg.resumable.closed.coherent.phase
  have hst := h.standing
  simp only [PhaseOk, hp] at hphase
  simp only [Standing, hp] at hst
  have hmark := markOfRecord_checked hc
  have hseed := (headerFromRecord_ok hc.header).2.2.2.2.2.2.2.1
  have hlen : g.loop.length = n.cursor.height := by rw [hst, h.height, hphase.agreed.height]
  have hm : (markOfSynced claim r).height = g.loop.length+1 := by
    rw [hlen]
    exact hc.height
  have hcur : cursorPin (advanceSynced K n.cursor r claim) =
      nextPin (markOfSynced claim r) (pinned n.state) := by
    by_cases hck : isCheckpointHeight r.height = true
    · simp [cursorPin, advanceSynced, nextPin, markOfSynced, hck]
    · rw [Bool.not_eq_true] at hck
      have htip : n.cursor.btcCheckpointTipHeight = n.state.btcCheckpointTipHeight := hok.1 hck
      simp [cursorPin, advanceSynced, nextPin, markOfSynced, hck, pinned, hphase.agreed.seed, htip]
  rw [hmark, Option.toList_some, List.singleton_append]
  refine ⟨h.loop.push hm, h.shared, h.file, h.height, h.saved, h.pins, h.filed, ?_, ?_, ?_⟩
  · exact h.kept.insert hm rfl (fun _ => ⟨hseed, rfl⟩) fun hf => hok.2 hf _ hmark
  · exact hm.symm
  · show Pins _ (cursorPin (advanceSynced K n.cursor r claim))
    rw [hcur]
    have hpins : Pins g.loop (pinned n.state) := by
      rw [hst]
      exact h.pins
    exact hpins.push hm

theorem rewind_tracked {K : Primitives} {n : Node} {g : Marks} {env : ReorgEnv} {target : ℕ}
    {r : Rollback} (hg : Grounded K n) (h : Tracked n g) (hp : n.phase = .idle)
    (hr : plan env n.parts = .rollback target r) :
    Tracked
      { n with
        ledger := (rewind n.parts r).ledger
        store := (rewind n.parts r).store
        cursor := (rewind n.parts r).cursor
        phase := .rewound r.rolledBack }
      { g with loop := Chain.cut Mark.height r.forkPoint g.loop } := by
  have hphase := hg.resumable.closed.coherent.phase
  have hst := h.standing
  simp only [PhaseOk, hp] at hphase
  simp only [Standing, hp] at hst
  have hrest := plan_restores hr
  have hlen : g.loop.length = n.cursor.height := by rw [hst, h.height, hphase.agreed.height]
  have hle : r.forkPoint ≤ g.loop.length := by
    rw [hlen]
    exact Nat.le_of_lt hrest.below
  have hcut := h.loop.cut_length hle
  obtain ⟨hpos, hgov⟩ := governing_bounds hrest.positive
  obtain ⟨b, hb, hseed, htip⟩ := plan_seed hr
  obtain ⟨m, hm, hheight, htells⟩ := h.kept _ b hpos (Nat.le_trans hgov hle)
    (governing_isCheckpoint hrest.positive) hb
  refine ⟨h.loop.cut _, h.shared, h.file, h.height, h.saved, h.pins, h.filed,
    h.kept.rollback hle, hcut, fun _ => ⟨m, Chain.mem_cut hm (by omega), ?_, ?_⟩⟩
  · rw [hcut]
    exact hheight
  · have hs : m.pin.1 = r.newSeed := Except.ok.inj (htells.1.symm.trans hseed)
    exact Prod.ext hs (htells.2.symm.trans htip)

theorem Tracked.catchUp {n n' : Node} {g : Marks} (h : Tracked n g)
    (hb : n'.store.blocks = n.store.blocks) (hc : n'.chainState = n.chainState)
    (hh : g.loop.length = n'.state.chainHeight) (hp : Pins g.loop (pinned n'.state))
    (hph : n'.phase = .idle) : Tracked n' { g with shared := g.loop } where
  loop := h.loop
  shared := h.loop
  file := h.file
  height := hh
  saved := by rw [hc]; exact h.saved
  pins := hp
  filed := by rw [hc]; exact h.filed
  kept := h.kept.congr hb
  standing := by simp only [Standing, hph]

theorem publish_tracked {K : Primitives} {n : Node} {g : Marks} {f : Finalising}
    {state : NodeState} (hg : Grounded K n) (h : Tracked n g) (hp : n.phase = .saved f)
    (hs : publish K f n.ledger n.state = some state) :
    Tracked { n with state, cursor := f.cursor, phase := .idle }
      { g with shared := g.loop } := by
  have hphase := hg.resumable.closed.coherent.phase
  have hst := h.standing
  simp only [PhaseOk, hp] at hphase
  simp only [Standing, hp] at hst
  unfold Mining.publish at hs
  split at hs
  · simp at hs
  · obtain rfl := Option.some.inj hs
    refine h.catchUp rfl rfl ?_ hst.2 rfl
    rw [hst.1, List.length_cons, h.height, hphase.1.height, ← hphase.2.height]

theorem loop_tracked {K : Primitives} {wallet : WalletPublicKey} {n n' : Node} {g : Marks}
    {e : LoopEvent} (hg : Grounded K n) (h : Tracked n g)
    (hok : Faithful n g (.run (.loop e))) (ht : Transition K wallet n e n') :
    Tracked n' (noteLoop n e n' g) := by
  have hst := h.standing
  unfold Standing at hst
  cases ht with
  | prepare hp =>
    simp only [hp] at hst
    exact h.still rfl rfl rfl rfl hst
  | @mined t p nonce hashesTried elapsedMs signature hp hsign hv =>
    simp only [hp] at hst
    have hkept : (enterLocal n.state p).chainHeight = n.state.chainHeight ∧
        pinned (enterLocal n.state p) = pinned n.state := by
      rw [enterLocal_eq]
      exact ⟨rfl, rfl⟩
    exact h.still rfl rfl hkept.1 hkept.2 hst
  | elect hp =>
    simp only [hp] at hst
    exact h.still rfl rfl rfl rfl hst
  | electNobody => exact h.still rfl rfl rfl rfl trivial
  | execute hp =>
    simp only [hp] at hst
    exact h.still (BlockStore.mempoolRemoves_blocks K _ _) rfl rfl rfl hst
  | @record f stored hp =>
    simp only [noteLoop, hp]
    exact record_tracked hg h hp (hok f hp)
  | @save f written hp =>
    simp only [hp] at hst
    cases written with
    | false => exact h.still rfl rfl rfl rfl hst
    | true =>
      have hphase := hg.resumable.closed.coherent.phase
      simp only [PhaseOk, hp] at hphase
      refine ⟨h.loop, h.shared, h.loop, h.height, ?_, h.pins, fun pin hpin => ?_, h.kept, hst⟩
      · show g.loop.length = f.height
        rw [hst.1, List.length_cons, h.height, hphase.1.height, ← hphase.2.height]
      · rw [if_pos rfl, filePin_saved] at hpin
        obtain rfl := Option.some.inj hpin
        exact hst.2
  | publish hp hs =>
    simp only [noteLoop]
    exact publish_tracked hg h hp hs
  | publishSpent => exact h.still rfl rfl rfl rfl trivial
  | adopt hp hh hc => exact adopt_tracked hg h hp hc hok
  | publishAdopted hp =>
    simp only [hp] at hst
    exact h.catchUp (BlockStore.mempoolRemoves_blocks K _ _) rfl hst.1 hst.2 rfl
  | rewind hp hr => exact rewind_tracked hg h hp hr
  | publishRewound hp =>
    simp only [hp] at hst
    exact h.catchUp (BlockStore.mempoolInserts_blocks K _ _) rfl hst.1 hst.2 rfl

theorem resume_pin {readable : Bool} {store : BlockStore} {file : ChainStateFile} {pin : Pin}
    (h : resumeCheckpoint readable store file = some pin)
    (hle : readable = true → ∀ c, latestCheckpoint store = some c →
      c.2 ≤ file.btcCheckpointTipHeight) : filePin file = some pin := by
  unfold resumeCheckpoint at h
  obtain ⟨seed, hseed, h⟩ := Option.bind_eq_some_iff.mp h
  unfold filePin
  rw [hseed, ← h]
  split
  · rename_i seedHex tipHeight hl
    split at hl
    · rename_i hr
      have : tipHeight ≤ file.btcCheckpointTipHeight := hle hr _ hl
      rw [if_neg (by omega)]
      rfl
    · simp at hl
  · rfl

theorem Kept.nil (store : BlockStore) : Kept store [] := by
  intro height b hpos hle
  simp at hle
  omega

theorem Pins.nil (pin : Pin) : Pins [] pin := fun h => by simp at h

/-- A start under way holds the pair of the pointer's chain. -/
structure Charted (p : Process) (g : Marks) : Prop where
  tracked : Tracked p.node g
  blank : p.starting ≠ none → g.loop = [] ∧ g.shared = []
  held : ∀ stage ∈ p.starting, ∀ pin ∈ stage.pin, Pins g.file pin ∧ Kept p.node.store g.file

theorem serve_charted {p : Process} {g : Marks} (h : Charted p g) (K : Primitives)
    (left : Leftovers) : Charted (serve K left p.node) { g with loop := [], shared := [] } where
  tracked :=
    { loop := trivial
      shared := trivial
      file := h.tracked.file
      height := rfl
      saved := h.tracked.saved
      pins := .nil _
      filed := h.tracked.filed
      kept := .nil _
      standing := rfl }
  blank _ := ⟨rfl, rfl⟩
  held stage hs pin hpin := by
    obtain rfl := Option.some.inj hs
    cases hpin

theorem scope_charted {K : Primitives} {n : Node} {g : Marks}
    {fileReadable checkpointReadable : Bool} {file : ChainStateFile} {pin : Pin} {p' : Process}
    (h : Charted ⟨n, some .serving⟩ g) (hp : n.phase = .idle)
    (hok : Faithful n g (.start (.scope fileReadable checkpointReadable)))
    (hf : loadOrCreateChainState K fileReadable n.chainState = some file)
    (hpin : resumeCheckpoint checkpointReadable n.store file = some pin)
    (hp' : p' = ⟨{ n with chainState := file, ledger := .openScoped n.ledger.csv file.height },
      some (.scoped pin)⟩) :
    Charted p' (note ⟨n, some .serving⟩ (.start (.scope fileReadable checkpointReadable)) p' g) := by
  subst hp'
  obtain ⟨hloop, hshared⟩ := h.blank (by simp)
  have hfile := loaded_eq hf
  have ht := h.tracked
  cases fileReadable with
  | true =>
    obtain ⟨hkept, hlatest⟩ := hok rfl
    rw [if_pos rfl] at hfile
    subst hfile
    have hpins : Pins g.file pin := fun hpos =>
      ht.filed pin (resume_pin hpin (hlatest (by rw [← ht.saved]; exact hpos))) hpos
    refine ⟨⟨ht.loop, ht.shared, ht.file, ht.height, ht.saved, ht.pins, ht.filed, ht.kept, ?_⟩,
      fun _ => ⟨hloop, hshared⟩, fun stage hs pin' hp' => ?_⟩
    · simp only [note, Standing, hp, hloop, hshared]
    · obtain rfl := Option.some.inj hs
      obtain rfl := Option.some.inj hp'
      exact ⟨hpins, hkept⟩
  | false =>
    rw [if_neg Bool.false_ne_true] at hfile
    subst hfile
    refine ⟨⟨ht.loop, ht.shared, trivial, ht.height, rfl, ht.pins, fun _ _ => .nil _, ht.kept, ?_⟩,
      fun _ => ⟨hloop, hshared⟩, fun _ _ _ _ => ⟨.nil _, .nil _⟩⟩
    simp only [note, Standing, hp, hloop, hshared]

theorem resume_charted {K : Primitives} {n : Node} {g : Marks} {pin : Pin} {tipHash : Hash}
    {observed : BtcEntropyState} (h : Charted ⟨n, some (.refilled pin)⟩ g) (hp : n.phase = .idle) :
    Charted ⟨resume K tipHash pin observed n, none⟩ { g with loop := g.file, shared := g.file } := by
  have ht := h.tracked
  obtain ⟨hpins, hkept⟩ := h.held _ rfl pin rfl
  refine ⟨⟨ht.file, ht.file, ht.file, ht.saved, ht.saved, hpins, ht.filed, hkept, ?_⟩,
    fun hr => absurd rfl hr, fun stage hs => by cases hs⟩
  simp only [Standing, resume, hp]

theorem Charted.still {p p' : Process} {g : Marks} (h : Charted p g)
    (hp : p.starting ≠ none) (hb : p'.node.store.blocks = p.node.store.blocks)
    (hc : p'.node.chainState = p.node.chainState)
    (hh : p'.node.state.chainHeight = p.node.state.chainHeight)
    (hpin : pinned p'.node.state = pinned p.node.state) (hst : Standing p'.node g)
    (hs : ∀ stage ∈ p'.starting, ∃ stage' ∈ p.starting, stage'.pin = stage.pin) :
    Charted p' g where
  tracked := h.tracked.still hb hc hh hpin hst
  blank _ := h.blank hp
  held stage hstage pin hpin := by
    obtain ⟨stage', hstage', he⟩ := hs stage hstage
    obtain ⟨hpins, hkept⟩ := h.held stage' hstage' pin (by rw [he]; exact hpin)
    exact ⟨hpins, hkept.congr hb⟩

theorem tracked_boot (K : Primitives) (outcomes : List AppendOutcome)
    (observed : BtcEntropyState) : Tracked (boot K outcomes observed) .start where
  loop := trivial
  shared := trivial
  file := trivial
  height := rfl
  saved := rfl
  pins hpos := by simp [Marks.start] at hpos
  filed pin _ hpos := by simp [Marks.start] at hpos
  kept height b hpos hle := by
    simp [Marks.start] at hle
    omega
  standing := rfl

/-- The pair of the shared state is that of the block at the governing height. -/
structure PinnedByChain (s : NodeState) (g : Marks) : Prop where
  linked : Linked g.shared
  height : g.shared.length = s.chainHeight
  pinned : 1 ≤ s.chainHeight → ∃ m ∈ g.shared,
    m.height = governingCheckpointHeight s.chainHeight ∧ m.pin = pinned s

theorem pinnedByChain_iff {s : NodeState} {g : Marks} (hl : Linked g.shared)
    (hh : g.shared.length = s.chainHeight) :
    PinnedByChain s g ↔ Pins g.shared (Pinning.pinned s) := by
  unfold Pins
  rw [hh]
  exact ⟨fun h => h.pinned, fun h => ⟨hl, hh, h⟩⟩

structure Upheld (K : Primitives) (x : Marked) : Prop where
  ready : Ready K x.1
  backed : Backed x.1.node
  charted : Charted x.1 x.2

theorem Upheld.grounded {K : Primitives} {x : Marked} (h : Upheld K x)
    (hp : x.1.starting = none) : Grounded K x.1.node := ⟨h.ready.running hp, h.backed⟩

theorem run_charted {K : Primitives} {wallet : WalletPublicKey} {p : Process} {g : Marks}
    {n' : Node} {e : System.Event} (h : Upheld K (p, g)) (hok : Faithful p.node g (.run e))
    (ht : takes p.starting e = true) (hs : System.step K wallet p.node e = some n') :
    Charted { p with node := n' } (note p (.run e) { p with node := n' } g) := by
  have htr : Tracked p.node g := h.charted.tracked
  cases e with
  | client e =>
    simp only [System.step] at hs
    split at hs
    · simp at hs
    · have hf := clientStep_framed hs
      refine ⟨htr.still hf.blocks hf.chainState hf.chainHeight
        (Prod.ext hf.btcSeedHash hf.btcCheckpointTipHeight) (htr.standing.framed hf),
        h.charted.blank, fun stage hstage pin hpin => ?_⟩
      obtain ⟨hpins, hkept⟩ := h.charted.held stage hstage pin hpin
      exact ⟨hpins, hkept.congr hf.blocks⟩
  | loop e =>
    have hp : p.starting = none := by
      cases hp : p.starting with
      | none => rfl
      | some stage => simp [hp, takes] at ht
    refine ⟨loop_tracked (h.grounded hp) htr hok (loopStep_transition hs),
      fun hr => absurd hp hr, fun stage hstage => ?_⟩
    simp [hp] at hstage

theorem upheld_step {K : Primitives} {wallet : WalletPublicKey} {x y : Marked}
    {e : Restart.Event} (h : Upheld K x) (hok : Faithful x.1.node x.2 e)
    (hs : markedStep K wallet x e = some y) : Upheld K y := by
  obtain ⟨p, g⟩ := x
  obtain ⟨p', g'⟩ := y
  obtain ⟨hstep, hnote⟩ := recording_eq_some.mp hs
  dsimp only at hstep hnote hok
  subst hnote
  refine ⟨ready_step h.ready hstep, backed_step h.backed hstep, ?_⟩
  have hch : Charted p g := h.charted
  have hidle (hp : p.starting ≠ none) : p.node.phase = .idle := (h.ready.launching hp).phase
  cases step_moves hstep with
  | run ht hs' => exact run_charted h hok ht hs'
  | restart => exact serve_charted hch K _
  | scope hf hpin => exact scope_charted hch (hidle (by simp)) hok hf hpin rfl
  | guard | load =>
    refine hch.still (by simp) rfl rfl rfl rfl hch.tracked.standing fun stage hstage => ?_
    obtain rfl := Option.some.inj hstage
    exact ⟨_, rfl, rfl⟩
  | refill =>
    refine hch.still (by simp) (BlockStore.mempoolRemoves_blocks K _ _) rfl rfl rfl
      hch.tracked.standing fun stage hstage => ?_
    obtain rfl := Option.some.inj hstage
    exact ⟨_, rfl, rfl⟩
  | resume => exact resume_charted hch (hidle (by simp))

/-- A block between two checkpoints writes the loop's tip height back. -/
theorem adopted_pinned_iff {K : Primitives} {wallet : WalletPublicKey} {x y z : Marked}
    {now : ℕ} {stored : Bool} {r : BlockRecord} (h : Upheld K x)
    (hr : isCheckpointHeight r.height = false)
    (hy : markedStep K wallet x (.run (.loop (.adopt now stored r))) = some y)
    (hz : markedStep K wallet y (.run (.loop .publishAdopted)) = some z) :
    PinnedByChain z.1.node.state z.2 ↔
      x.1.node.cursor.btcCheckpointTipHeight = x.1.node.state.btcCheckpointTipHeight := by
  obtain ⟨⟨n, starting⟩, g⟩ := x
  obtain ⟨p₁, g₁⟩ := y
  obtain ⟨p₂, g₂⟩ := z
  obtain ⟨hstep, hnote⟩ := recording_eq_some.mp hy
  obtain ⟨hstep', hnote'⟩ := recording_eq_some.mp hz
  dsimp only at hstep hnote hstep' hnote' ⊢
  subst hnote hnote'
  cases step_moves hstep with
  | run hta hs =>
  cases step_moves hstep' with
  | run htp hs' =>
  have hrun : starting = none := by
    cases starting with
    | none => rfl
    | some stage => simp [takes] at hta
  have hg : Grounded K n := h.grounded hrun
  have ht : Tracked n g := h.charted.tracked
  have htrans : Transition K wallet n (.adopt now stored r) _ := loopStep_transition hs
  have htrans' : Transition K wallet _ .publishAdopted _ := loopStep_transition hs'
  cases htrans with
  | @adopt _ _ _ claim hp hh hc =>
  cases htrans' with
  | publishAdopted =>
    have hphase := hg.resumable.closed.coherent.phase
    have hst := ht.standing
    simp only [PhaseOk, hp] at hphase
    simp only [Standing, hp] at hst
    have hlen : g.loop.length = n.cursor.height := by rw [hst, ht.height, hphase.agreed.height]
    have hm : (markOfSynced claim r).height = g.loop.length+1 := by
      rw [hlen]
      exact hc.height
    have hpins : Pins g.loop (pinned n.state) := by
      rw [hst]
      exact ht.pins
    have hcur : cursorPin (advanceSynced K n.cursor r claim) = cursorPin n.cursor := by
      simp [cursorPin, advanceSynced, hr]
    have hlist : (markOfRecord r).toList++g.loop = markOfSynced claim r :: g.loop := by
      rw [markOfRecord_checked hc]
      rfl
    have hseed : cursorPin n.cursor = pinned n.state ↔
        n.cursor.btcCheckpointTipHeight = n.state.btcCheckpointTipHeight := by
      unfold cursorPin pinned
      rw [hphase.agreed.seed, Prod.mk.injEq]
      exact and_iff_right rfl
    rw [pinnedByChain_iff]
    · show Pins ((markOfRecord r).toList++g.loop) (cursorPin (advanceSynced K n.cursor r claim)) ↔ _
      rw [hlist, hcur, hpins.between_iff ht.loop hm hr, hseed]
    · show Linked ((markOfRecord r).toList++g.loop)
      rw [hlist]
      exact ht.loop.push hm
    · show ((markOfRecord r).toList++g.loop).length = r.height
      rw [hlist]
      exact hm.symm

/-- In a run of faithful steps the pinned pair is that of the governing block. -/
theorem pinned_by_governing {K : Primitives} {wallet : WalletPublicKey}
    {outcomes : List AppendOutcome} {observed : BtcEntropyState} {x : Marked}
    (h : Run (markedStep K wallet) (fun x e => Faithful x.1.node x.2 e)
      (booted K outcomes observed, .start) x) :
    PinnedByChain x.1.node.state x.2 ∧ ∀ now stored r y z, isCheckpointHeight r.height = false →
      markedStep K wallet x (.run (.loop (.adopt now stored r))) = some y →
      markedStep K wallet y (.run (.loop .publishAdopted)) = some z →
      (PinnedByChain z.1.node.state z.2 ↔
        x.1.node.cursor.btcCheckpointTipHeight = x.1.node.state.btcCheckpointTipHeight) := by
  have hinv : Upheld K x := by
    refine h.invariant (P := Upheld K) ⟨ready_booted K outcomes observed,
      backed_boot K outcomes observed, tracked_boot K outcomes observed, fun hr => absurd rfl hr,
      fun stage hs => by cases hs⟩ fun _ _ _ hi hok hs => upheld_step hi hok hs
  have ht := hinv.charted.tracked
  exact ⟨(pinnedByChain_iff ht.shared ht.height).mpr ht.pins,
    fun _ _ _ _ _ => adopted_pinned_iff hinv⟩

def toyObserved : BtcEntropyState := { BtcEntropyState.mock with tipHeight := 7 }

def toyMinedCheckpoint : List System.Event :=
  [.loop (.prepare toyObserved (toyGenesis.cursor.lastBlockTimestampMs+1) []),
    .loop (.mined 0 (toyCheckpoint 7).claim.signature 1 1)]++toyClosing (toyCheckpoint 7)++
  [.loop .publish]

def toyForgotten : List Restart.Event :=
  List.map .run (toyMinedCheckpoint++toyAdoption (toyRecord 2 7 toyFirst []))

set_option maxRecDepth 100000 in
theorem pinned_by_governing_sample :
    ∃ x, exec (markedStep toyPrimitives (toyWalletKey 1)) (toyBooted, .start)
        (List.map .run toyMinedCheckpoint) = some x ∧
      x.1.node.state.chainHeight = 1 ∧ x.1.node.state.btcCheckpointTipHeight = 7 ∧
      PinnedByChain x.1.node.state x.2 := by
  have hrun : (exec (markedStep toyPrimitives (toyWalletKey 1)) (toyBooted, .start)
      (List.map .run toyMinedCheckpoint)).any fun x =>
        x.1.node.state.chainHeight == 1 && x.1.node.state.btcCheckpointTipHeight == 7 := by
    decide +kernel
  have hadm : Admitted (markedStep toyPrimitives (toyWalletKey 1))
      (fun x e => Faithful x.1.node x.2 e) (toyBooted, .start)
      (List.map .run toyMinedCheckpoint) := by
    refine Admitted.of_forall (fun e he s => ?_) _
    simp only [toyMinedCheckpoint, toyClosing, List.cons_append, List.nil_append, List.map_cons,
      List.map_nil, List.mem_cons, List.not_mem_nil, or_false] at he
    rcases he with rfl | rfl | rfl | rfl | rfl | rfl | rfl <;> simp [Faithful]
  obtain ⟨x, hx, hs⟩ := (Option.any_eq_true _ _).mp hrun
  simp only [Bool.and_eq_true, beq_iff_eq] at hs
  exact ⟨x, hx, hs.1, hs.2, (pinned_by_governing (hadm.run hx)).1⟩

set_option maxRecDepth 100000 in
theorem mined_checkpoint_forgotten :
    ∃ x, exec (markedStep toyPrimitives (toyWalletKey 1)) (toyBooted, .start) toyForgotten =
        some x ∧ x.1.node.state.chainHeight = 2 ∧ x.1.node.state.btcCheckpointTipHeight = 0 ∧
      (∃ m ∈ x.2.shared, m.height = governingCheckpointHeight 2 ∧ m.pin.2 = 7) ∧
      ¬ PinnedByChain x.1.node.state x.2 := by
  have hrun : (exec (markedStep toyPrimitives (toyWalletKey 1)) (toyBooted, .start)
      toyForgotten).any fun x =>
        x.1.node.state.chainHeight == 2 && x.1.node.state.btcCheckpointTipHeight == 0 &&
          (x.2.shared.any fun m => m.height == 1 && m.pin.2 == 7) &&
          x.2.shared.all fun m => m.height != 1 || m.pin.2 != 0 := by decide +kernel
  obtain ⟨x, hx, hs⟩ := (Option.any_eq_true _ _).mp hrun
  simp only [Bool.and_eq_true, beq_iff_eq, List.any_eq_true, List.all_eq_true, Bool.or_eq_true,
    bne_iff_ne] at hs
  obtain ⟨⟨⟨hheight, htip⟩, hseven⟩, hnone⟩ := hs
  refine ⟨x, hx, hheight, htip, hseven, fun hp => ?_⟩
  obtain ⟨m, hm, hgov, hpin⟩ := hp.pinned (by rw [hheight]; decide)
  rw [hheight] at hgov
  rcases hnone m hm with h | h
  · exact h hgov
  · apply h
    rw [hpin]
    exact htip

end BinaChain.Checkpoints
