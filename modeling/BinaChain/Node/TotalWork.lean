import BinaChain.Node.Carried
import BinaChain.Node.Requeue
import BinaChain.Node.Restart
import Mathlib.Algebra.Order.Group.Nat

/-!
# The work of the chain a node stands on

The total is kept incrementally: a block adds its own work and a rollback takes
away the work of the rows it reads back. A record of the two chains, the loop's
and the shared state's, tells what the total should be.
-/

set_option autoImplicit false

namespace BinaChain.TotalWork
open BinaChain.Word BinaChain.Text BinaChain.Crypto BinaChain.Block BinaChain.BitcoinEntropy
open BinaChain.Difficulty BinaChain.Rewards BinaChain.State BinaChain.Machine BinaChain.Store
open BinaChain.Admission BinaChain.Mining BinaChain.Sync BinaChain.Reconcile BinaChain.System
open BinaChain.Coherence BinaChain.Range BinaChain.Requeue BinaChain.Carried
open BinaChain.Restart (Resumable resumable_boot resumable_step)

def workSum (chain : List L1BlockHeader) : ℕ := (chain.map fun h => 2^h.difficultyBits).sum

@[simp] theorem workSum_nil : workSum [] = 0 := rfl

@[simp] theorem workSum_cons (h : L1BlockHeader) (chain : List L1BlockHeader) :
    workSum (h :: chain) = 2^h.difficultyBits+workSum chain := rfl

theorem blockWork_bits {bits : ℕ} (h : bits ≤ maxBits) : blockWork bits = 2^bits := by
  unfold maxBits at h
  unfold blockWork
  rw [Nat.min_eq_left (by omega)]

theorem workSum_bound {chain : List L1BlockHeader} (h : ∀ b ∈ chain, b.difficultyBits ≤ maxBits) :
    workSum chain ≤ chain.length*2^maxBits := by
  induction chain with
  | nil => simp
  | cons b chain ih =>
    have hb := Nat.pow_le_pow_right Nat.two_pos (h b List.mem_cons_self)
    have hrest := ih fun c hc => h c (List.mem_cons_of_mem _ hc)
    rw [workSum_cons, List.length_cons, Nat.succ_mul]
    omega

theorem workSum_le {chain : List L1BlockHeader} (h : ∀ b ∈ chain, b.difficultyBits ≤ maxBits)
    (hlen : chain.length ≤ u64Max) : workSum chain ≤ u128Max := by
  have hbound := workSum_bound h
  have hall : u64Max*2^maxBits ≤ u128Max := by decide
  exact Nat.le_trans hbound (Nat.le_trans (Nat.mul_le_mul_right _ hlen) hall)

theorem workSum_filter (p : L1BlockHeader → Bool) (chain : List L1BlockHeader) :
    workSum (chain.filter p)+workSum (chain.filter fun h => !p h) = workSum chain := by
  induction chain with
  | nil => rfl
  | cons b chain ih =>
    cases hp : p b <;> simp [hp] <;> omega

theorem workOf_eq {rows : List BlockRecord} (h : ∀ b ∈ rows, b.difficultyBits ≤ maxBits)
    (hsum : (rows.map fun b => 2^b.difficultyBits).sum ≤ u128Max) :
    workOf rows = (rows.map fun b => 2^b.difficultyBits).sum := by
  have hfold : ∀ (rows : List BlockRecord) (acc : ℕ), (∀ b ∈ rows, b.difficultyBits ≤ maxBits) →
      acc+(rows.map fun b => 2^b.difficultyBits).sum ≤ u128Max →
      rows.foldl (fun acc b => satAdd128 acc (blockWork b.difficultyBits)) acc =
        acc+(rows.map fun b => 2^b.difficultyBits).sum := by
    intro rows
    induction rows with
    | nil => exact fun acc _ _ => rfl
    | cons b rows ih =>
      intro acc hb hle
      rw [List.map_cons, List.sum_cons] at hle ⊢
      have hone : satAdd128 acc (blockWork b.difficultyBits) = acc+2^b.difficultyBits := by
        rw [blockWork_bits (hb b List.mem_cons_self)]
        exact Nat.min_eq_left (by omega)
      rw [List.foldl_cons, hone, ih _ (fun c hc => hb c (List.mem_cons_of_mem _ hc)) (by omega)]
      omega
  have hzero := hfold rows 0 h (by omega)
  rw [Nat.zero_add] at hzero
  exact hzero

abbrev Linked (chain : List L1BlockHeader) : Prop :=
  Chain.Linked L1BlockHeader.height (fun _ _ => True) chain

def Kept (K : Primitives) (store : BlockStore) (chain : List L1BlockHeader) : Prop :=
  ∀ (height : ℕ) (b : BlockRecord), store.get height = some b → ∃ h ∈ chain, h.height = height ∧
    hexTo32 b.blockHash = .ok (h.hash K) ∧ b.difficultyBits = h.difficultyBits

theorem Kept.mono {K : Primitives} {store store' : BlockStore} {chain chain' : List L1BlockHeader}
    (h : Kept K store chain) (hs : ∀ height b, store'.get height = some b →
      store.get height = some b ∧ ∀ e ∈ chain, e.height = height → e ∈ chain') :
    Kept K store' chain' := by
  intro height b hb
  obtain ⟨hold, hmem⟩ := hs height b hb
  obtain ⟨e, he, hh, hrest⟩ := h height b hold
  exact ⟨e, hmem e he hh, hh, hrest⟩

theorem Kept.congr {K : Primitives} {store store' : BlockStore} {chain : List L1BlockHeader}
    (h : Kept K store chain) (hs : store'.blocks = store.blocks) : Kept K store' chain :=
  h.mono fun height b hb => ⟨by rwa [BlockStore.get_congr hs] at hb, fun _ he _ => he⟩

theorem rows_work {K : Primitives} {store : BlockStore} {chain : List L1BlockHeader} {fork : ℕ}
    (hl : Linked chain) (hkeyed : Keyed store) (hk : Kept K store chain)
    (hfull : ∀ height, fork < height → height ≤ chain.length → (store.get height).isSome) :
    ((between store (fork+1) chain.length).map fun b => 2^b.difficultyBits).sum =
      workSum (chain.filter fun h => fork < h.height) := by
  let bitsAt (height : ℕ) : ℕ := 2^(store.get height).elim 0 BlockRecord.difficultyBits
  have hrows : ((between store (fork+1) chain.length).map fun b => 2^b.difficultyBits) =
      ((between store (fork+1) chain.length).map BlockRecord.height).map bitsAt := by
    rw [List.map_map]
    apply List.map_congr_left
    intro b hb
    have hget := ((mem_between hkeyed).mp hb).1
    simp [bitsAt, hget]
  have hblocks : (chain.filter fun h => fork < h.height).map (fun h => 2^h.difficultyBits) =
      ((chain.filter fun h => fork < h.height).map L1BlockHeader.height).map bitsAt := by
    rw [List.map_map]
    apply List.map_congr_left
    intro h hin
    obtain ⟨hin, habove⟩ := List.mem_filter.mp hin
    obtain ⟨b, hb⟩ := Option.isSome_iff_exists.mp
      (hfull h.height (of_decide_eq_true habove) (hl.height_le hin).2)
    obtain ⟨e, he, hheight, -, hbits⟩ := hk h.height b hb
    obtain rfl := hl.height_inj he hin hheight
    simp [bitsAt, hb, hbits]
  have hperm : ((between store (fork+1) chain.length).map BlockRecord.height).Perm
      ((chain.filter fun h => fork < h.height).map L1BlockHeader.height) := by
    have hnodup : (chain.map L1BlockHeader.height).Nodup := by
      rw [hl.heights]
      exact List.nodup_reverse.mpr List.nodup_range'
    rw [List.perm_ext_iff_of_nodup (between_nodup hkeyed _ _)
      (hnodup.sublist (List.filter_sublist.map _))]
    intro height
    constructor
    · intro hin
      obtain ⟨b, hb, rfl⟩ := List.mem_map.mp hin
      obtain ⟨-, hlo, hhi⟩ := (mem_between hkeyed).mp hb
      obtain ⟨h, hin, he⟩ := hl.exists_height (Nat.le_trans (Nat.le_add_left 1 fork) hlo) hhi
      exact List.mem_map.mpr ⟨h, List.mem_filter.mpr ⟨hin, decide_eq_true (by omega)⟩, he⟩
    · intro hin
      obtain ⟨h, hmem, rfl⟩ := List.mem_map.mp hin
      obtain ⟨hmem, habove⟩ := List.mem_filter.mp hmem
      have habove := of_decide_eq_true habove
      have hle := (hl.height_le hmem).2
      obtain ⟨b, hb⟩ := Option.isSome_iff_exists.mp (hfull h.height habove hle)
      have hheight : b.height = h.height := hkeyed _ b hb
      refine List.mem_map.mpr ⟨b, (mem_between hkeyed).mpr ⟨by rw [hheight]; exact hb, ?_⟩, hheight⟩
      omega
  rw [workSum, hrows, hblocks]
  exact (hperm.map bitsAt).sum_eq

/-- The blocks, newest first, that the loop and the shared state stand on. -/
structure Chains where
  loop : List L1BlockHeader
  shared : List L1BlockHeader

def Chains.start : Chains := { loop := [], shared := [] }

def noteLoop (n : Node) (e : LoopEvent) (n' : Node) (g : Chains) : Chains :=
  match e, n.phase, n'.phase with
  | .record _, .executed f, _ => { g with loop := f.winning.claim.header :: g.loop }
  | .publish, _, .idle => { g with shared := g.loop }
  | .adopt _ _ r, _, _ =>
    { g with loop := (headerFromRecord r n.cursor.tipHash).toOption.toList++g.loop }
  | .publishAdopted, _, _ => { g with shared := g.loop }
  | .rewind _, _, _ => { g with loop := Chain.cut L1BlockHeader.height n'.cursor.height g.loop }
  | .publishRewound, _, _ => { g with shared := g.loop }
  | _, _, _ => g

def note (n : Node) (e : Event) (n' : Node) (g : Chains) : Chains :=
  match e with
  | .client _ => g
  | .loop e => noteLoop n e n' g

abbrev Charted := Node × Chains

abbrev chartedStep (K : Primitives) (wallet : WalletPublicKey) :
    Charted → Event → Option Charted := recording (step K wallet) note

def topHash (K : Primitives) : List L1BlockHeader → Hash
  | [] => genesisHash K
  | h :: _ => h.hash K

structure Stands (K : Primitives) (chain : List L1BlockHeader) (height : ℕ) (tip : Hash)
    (work : ℕ) : Prop where
  linked : Linked chain
  bits : ∀ h ∈ chain, h.difficultyBits ≤ maxBits
  word : chain.length ≤ u64Max
  height : height = chain.length
  tip : tip = topHash K chain
  work : work = workSum chain

theorem Stands.push {K : Primitives} {chain : List L1BlockHeader} {height work : ℕ} {tip : Hash}
    (hs : Stands K chain height tip work) {h : L1BlockHeader} (hh : h.height = height+1)
    (hw : height+1 ≤ u64Max) (hb : h.difficultyBits ≤ maxBits) :
    Stands K (h :: chain) (height+1) (h.hash K) (satAdd128 work (blockWork h.difficultyBits)) := by
  have hbits : ∀ b ∈ h :: chain, b.difficultyBits ≤ maxBits := by
    intro b hin
    rcases List.mem_cons.mp hin with rfl | hin
    · exact hb
    · exact hs.bits b hin
  have hword : (h :: chain).length ≤ u64Max := by
    rw [List.length_cons, ← hs.height]
    exact hw
  have hsum := workSum_le hbits hword
  rw [workSum_cons] at hsum
  refine ⟨⟨by rw [hh, hs.height], trivial, hs.linked⟩, hbits, hword, ?_, rfl, ?_⟩
  · rw [List.length_cons, hs.height]
  · rw [blockWork_bits hb, hs.work, workSum_cons]
    unfold satAdd128
    omega

theorem Stands.rewind {K : Primitives} {chain : List L1BlockHeader} {x : Parts} {env : ReorgEnv}
    {target : ℕ} {r : Rollback}
    (hs : Stands K chain x.cursor.height x.cursor.tipHash x.cursor.chainWork)
    (hkeyed : Keyed x.store) (hk : Kept K x.store chain) (hr : plan env x = .rollback target r)
    (hread : env.rangeReadable = true) (hfull : ∀ height, r.forkPoint < height →
      height ≤ x.cursor.height → (x.store.get height).isSome) :
    Stands K (Chain.cut L1BlockHeader.height r.forkPoint chain) (rewind x r).cursor.height
      (rewind x r).cursor.tipHash (rewind x r).cursor.chainWork := by
  have hrest := plan_restores hr
  have hbelow := hrest.below
  have hlen := hs.height
  have htop : r.forkPoint ≤ chain.length := by omega
  have hlength := hs.linked.cut_length htop
  have hsub : ∀ h ∈ Chain.cut L1BlockHeader.height r.forkPoint chain, h ∈ chain := fun h hin =>
    (List.dropWhile_suffix _).subset hin
  have hcut := hs.linked.cut_eq_filter r.forkPoint
  have hsplit := workSum_filter (fun h => decide (r.forkPoint < h.height)) chain
  have hkeptbits : ∀ b ∈ r.rolledBack, b.difficultyBits ≤ maxBits := by
    intro b hb
    rw [plan_rolledBack hkeyed hr hread] at hb
    obtain ⟨e, he, -, -, hbits⟩ := hk _ b ((mem_between hkeyed).mp hb).1
    rw [hbits]
    exact hs.bits e he
  have hrows : (r.rolledBack.map fun b => 2^b.difficultyBits).sum =
      workSum (chain.filter fun h => r.forkPoint < h.height) := by
    rw [plan_rolledBack hkeyed hr hread, hlen]
    exact rows_work hs.linked hkeyed hk fun height hlo hhi => hfull height hlo (by omega)
  have hall := workSum_le hs.bits hs.word
  have hwork : workOf r.rolledBack = workSum (chain.filter fun h => r.forkPoint < h.height) := by
    rw [workOf_eq hkeptbits (by omega), hrows]
  refine ⟨hs.linked.cut _, fun h hin => hs.bits h (hsub h hin), ?_, hlength.symm, ?_, ?_⟩
  · rw [hlength]
    have hword := hs.word
    omega
  · obtain ⟨b, hb, hhash, -⟩ := hrest.block
    obtain ⟨e, he, hheight, hehash, -⟩ := hk r.forkPoint b hb
    obtain ⟨rest, hat⟩ := hs.linked.cut_at he
    rw [hheight] at hat
    rw [hat]
    exact Except.ok.inj (hhash.symm.trans hehash)
  · have hlow : (chain.filter fun h => !decide (r.forkPoint < h.height)) =
        chain.filter fun h => h.height ≤ r.forkPoint := by
      apply List.filter_congr
      intro h _
      by_cases hlt : r.forkPoint < h.height
      · simp [hlt]
      · simp [hlt, Nat.not_lt.mp hlt]
    rw [hlow, ← hcut] at hsplit
    show x.cursor.chainWork-workOf r.rolledBack = _
    rw [hs.work, hwork]
    omega

/-- Where the loop stands while the shared state lags behind, and that the
next height is a word while a block is under way. -/
def Standing (K : Primitives) (n : Node) (g : Chains) : Prop :=
  match n.phase with
  | .idle => g.loop = g.shared
  | .searching _ | .waiting .. | .elected _ | .executed _ =>
    g.loop = g.shared ∧ n.cursor.height+1 ≤ u64Max
  | .recorded f | .saved f => g.loop = f.winning.claim.header :: g.shared ∧ f.height ≤ u64Max
  | .adopting _ | .rewound _ =>
    Stands K g.loop n.cursor.height n.cursor.tipHash n.cursor.chainWork
  | .crashed => True

structure Weighed (K : Primitives) (n : Node) (g : Chains) : Prop where
  shared : Stands K g.shared n.state.chainHeight n.state.tipHash n.state.chainWork
  kept : Kept K n.store g.loop
  keyed : Keyed n.store
  standing : Standing K n g

def Bounded (p : PendingClaim) : Prop := p.claim.header.difficultyBits ≤ maxBits

structure Grounded (K : Primitives) (n : Node) : Prop where
  resumable : Resumable K n
  claims : AllClaims Bounded n
  bits : n.state.difficultyBits ≤ maxBits

/-- A rollback can read the range and finds a row for each block it removes. -/
def Complete (x : Charted) : Event → Prop
  | .loop (.rewind env) => ∀ target r, plan env x.1.parts = .rollback target r →
    env.rangeReadable = true ∧ ∀ height, r.forkPoint < height → height ≤ x.1.cursor.height →
      (x.1.store.get height).isSome
  | _ => True

theorem bits_step {K : Primitives} {wallet : WalletPublicKey} {n n' : Node} {e : Event}
    (h : Grounded K n) (hs : step K wallet n e = some n') : n'.state.difficultyBits ≤ maxBits := by
  have hres := h.resumable
  have hphase := hres.closed.coherent.phase
  unfold PhaseOk at hphase
  cases e with
  | client e =>
    simp only [step] at hs
    split at hs
    · simp at hs
    · rw [(clientStep_framed hs).difficultyBits]
      exact h.bits
  | loop e =>
    have ht : Transition K wallet n e n' := loopStep_transition hs
    cases ht with
    | prepare | publishAdopted => exact hres.adjuster.2
    | mined =>
      rw [enterLocal_eq]
      exact h.bits
    | publish hp hpub =>
      simp only [hp] at hphase
      obtain ⟨hag, -⟩ := publish_agreed hphase.2 hpub
      rw [hag.difficulty]
      exact (hres.flying hphase.2).2
    | elect | electNobody | execute | record | save | publishSpent | adopt | rewind
      | publishRewound => exact h.bits

theorem grounded_step {K : Primitives} {wallet : WalletPublicKey} {n n' : Node} {e : Event}
    (h : Grounded K n) (hs : step K wallet n e = some n') : Grounded K n' where
  resumable := resumable_step h.resumable hs
  claims := by
    refine carried_step h.claims (fun now p reward hcheck => ?_) (fun _ _ _ _ _ _ => ?_) hs
    · have hext := (checkTip_ok.mp hcheck).2.1
      unfold Bounded
      rw [hext.difficulty]
      exact h.bits
    · exact h.resumable.adjuster.2
  bits := bits_step h hs

theorem grounded_boot (K : Primitives) (outcomes : List AppendOutcome)
    (observed : BtcEntropyState) : Grounded K (boot K outcomes observed) where
  resumable := resumable_boot K outcomes observed
  claims := carried_boot K outcomes observed
  bits := show minBits ≤ maxBits by decide

theorem Stands.loop {K : Primitives} {n : Node} {chain : List L1BlockHeader}
    (ha : Agreed n.state n.cursor)
    (h : Stands K chain n.state.chainHeight n.state.tipHash n.state.chainWork) :
    Stands K chain n.cursor.height n.cursor.tipHash n.cursor.chainWork := by
  rwa [ha.height, ha.tip, ha.work] at h

theorem Weighed.still {K : Primitives} {n n' : Node} {g : Chains} (h : Weighed K n g)
    (hb : n'.store.blocks = n.store.blocks) (hh : n'.state.chainHeight = n.state.chainHeight)
    (ht : n'.state.tipHash = n.state.tipHash) (hw : n'.state.chainWork = n.state.chainWork)
    (hs : Standing K n' g) : Weighed K n' g where
  shared := by
    rw [hh, ht, hw]
    exact h.shared
  kept := h.kept.congr hb
  keyed := h.keyed.congr hb
  standing := hs

theorem enterLocal_chain (s : NodeState) (p : PendingClaim) :
    (enterLocal s p).chainHeight = s.chainHeight ∧ (enterLocal s p).tipHash = s.tipHash ∧
      (enterLocal s p).chainWork = s.chainWork := by
  rw [enterLocal_eq]
  exact ⟨rfl, rfl, rfl⟩

theorem keyed_insert {store : BlockStore} (h : Keyed store) (stored : Bool) (r : BlockRecord) :
    Keyed (if stored then store.insertBlock r else store) := by
  cases stored with
  | false => exact h
  | true => exact h.insertBlock r

theorem Kept.insert {K : Primitives} {store : BlockStore} {chain : List L1BlockHeader}
    (hk : Kept K store chain) (stored : Bool) {r : BlockRecord} {h : L1BlockHeader}
    (hh : h.height = r.height) (hhash : hexTo32 r.blockHash = .ok (h.hash K))
    (hb : r.difficultyBits = h.difficultyBits) :
    Kept K (if stored then store.insertBlock r else store) (h :: chain) := by
  intro height b hget
  have hold : store.get height = some b → ∃ e ∈ h :: chain, e.height = height ∧
      hexTo32 b.blockHash = .ok (e.hash K) ∧ b.difficultyBits = e.difficultyBits := by
    intro hg
    obtain ⟨e, he, hrest⟩ := hk height b hg
    exact ⟨e, List.mem_cons_of_mem _ he, hrest⟩
  cases stored with
  | false => exact hold hget
  | true =>
    rcases BlockStore.get_insertBlock hget with ⟨rfl, rfl⟩ | ⟨-, hg⟩
    · exact ⟨h, List.mem_cons_self, hh, hhash, hb⟩
    · exact hold hg

theorem record_weighed {K : Primitives} {n : Node} {g : Chains} {f : Finalising} {stored : Bool}
    (hg : Grounded K n) (h : Weighed K n g) (hp : n.phase = .executed f) :
    Weighed K
      { n with
        store := if stored then n.store.insertBlock (recordOf K f) else n.store
        phase := .recorded f }
      { g with loop := f.winning.claim.header :: g.loop } := by
  have hphase := hg.resumable.closed.coherent.phase
  have hclose := hg.resumable.closed.closing
  have hst := h.standing
  simp only [PhaseOk, hp] at hphase
  simp only [Pinning.Closing, hp] at hclose
  simp only [Standing, hp] at hst
  refine ⟨h.shared, ?_, keyed_insert h.keyed stored _, ?_⟩
  · exact h.kept.insert stored hclose.1 (hexTo32_encode _) rfl
  · refine ⟨by rw [hst.1], ?_⟩
    rw [hphase.2.height]
    exact hst.2

theorem publish_weighed {K : Primitives} {n : Node} {g : Chains} {f : Finalising}
    {state : NodeState} (hg : Grounded K n) (h : Weighed K n g) (hp : n.phase = .saved f)
    (hs : publish K f n.ledger n.state = some state) :
    Weighed K { n with state, cursor := f.cursor, phase := .idle } { g with shared := g.loop } := by
  have hphase := hg.resumable.closed.coherent.phase
  have hclose := hg.resumable.closed.closing
  have hclaim := hg.claims.phase
  have hst := h.standing
  simp only [PhaseOk, hp] at hphase
  simp only [Pinning.Closing, hp] at hclose
  simp only [OfPhase, hp] at hclaim
  simp only [Standing, hp] at hst
  obtain ⟨hag, -, -⟩ := publish_agreed hphase.2 hs
  have hstands := (h.shared.loop hphase.1).push (h := f.winning.claim.header)
    (hclose.1.trans hphase.2.height) (by rw [← hphase.2.height]; exact hst.2) hclaim
  refine ⟨?_, h.kept, h.keyed, rfl⟩
  rw [hag.height, hag.tip, hag.work, hphase.2.cursor, hst.1]
  show Stands K _ f.height _ _
  rw [hphase.2.height]
  exact hstands

theorem adopt_weighed {K : Primitives} {n : Node} {g : Chains} {now : ℕ} {stored : Bool}
    {r : BlockRecord} {claim : Claims.SignedBlockClaim} (hg : Grounded K n) (h : Weighed K n g)
    (hp : n.phase = .idle) (hh : r.height ≤ u64Max) (hc : Checked K n.cursor n.ledger now r claim) :
    Weighed K
      { n with
        ledger := (applyRecord K stored n.parts r claim).ledger
        store := (applyRecord K stored n.parts r claim).store
        cursor := (applyRecord K stored n.parts r claim).cursor
        phase := .adopting r }
      { g with loop := claim.header :: g.loop } := by
  have hphase := hg.resumable.closed.coherent.phase
  have hst := h.standing
  simp only [PhaseOk, hp] at hphase
  simp only [Standing, hp] at hst
  obtain ⟨-, hheight, -, -, -, hbits, -⟩ := headerFromRecord_ok hc.header
  have hclaim : claim.header.difficultyBits ≤ maxBits := by
    rw [hc.difficulty]
    exact hg.resumable.adjuster.2
  have hstands := (h.shared.loop hphase.agreed).push (hheight.trans hc.height)
    (by rw [← hc.height]; exact hh) hclaim
  refine ⟨h.shared, ?_, keyed_insert h.keyed stored r, ?_⟩
  · refine h.kept.insert stored hheight ?_ hbits.symm
    rw [← hc.hash]
    exact hexTo32_encode _
  · show Stands K (claim.header :: g.loop) r.height _ _
    rw [hst, hc.height]
    exact hstands

theorem rewind_weighed {K : Primitives} {n : Node} {g : Chains} {env : ReorgEnv} {target : ℕ}
    {r : Rollback} (hg : Grounded K n) (h : Weighed K n g) (hp : n.phase = .idle)
    (hr : plan env n.parts = .rollback target r) (hread : env.rangeReadable = true)
    (hfull : ∀ height, r.forkPoint < height → height ≤ n.cursor.height →
      (n.store.get height).isSome) :
    Weighed K
      { n with
        ledger := (Reconcile.rewind n.parts r).ledger
        store := (Reconcile.rewind n.parts r).store
        cursor := (Reconcile.rewind n.parts r).cursor
        phase := .rewound r.rolledBack }
      { g with loop := Chain.cut L1BlockHeader.height r.forkPoint g.loop } := by
  have hphase := hg.resumable.closed.coherent.phase
  have hst := h.standing
  simp only [PhaseOk, hp] at hphase
  simp only [Standing, hp] at hst
  have hloop := h.shared.loop hphase.agreed
  rw [← hst] at hloop
  refine ⟨h.shared, ?_, h.keyed.rollbackAbove _, ?_⟩
  · refine h.kept.mono fun height b hb => ?_
    simp only [Reconcile.rewind, BlockStore.get_rollbackAbove] at hb
    split at hb
    · rename_i hle
      exact ⟨hb, fun e he hh => Chain.mem_cut he (by rw [hh]; exact hle)⟩
    · simp at hb
  · exact Stands.rewind (x := n.parts) hloop h.keyed h.kept hr hread hfull

theorem transition_weighed {K : Primitives} {wallet : WalletPublicKey} {n n' : Node} {g : Chains}
    {e : LoopEvent} (hg : Grounded K n) (h : Weighed K n g) (hok : Complete (n, g) (.loop e))
    (ht : Transition K wallet n e n') : Weighed K n' (noteLoop n e n' g) := by
  have hst := h.standing
  cases ht with
  | prepare hp hh ho hm =>
    simp only [Standing, hp] at hst
    exact h.still rfl rfl rfl rfl ⟨hst, hh⟩
  | mined hp hsign hv =>
    simp only [Standing, hp] at hst
    obtain ⟨hheight, htip, hwork⟩ := enterLocal_chain n.state _
    exact h.still rfl hheight htip hwork hst
  | elect hp ho hw =>
    simp only [Standing, hp] at hst
    exact h.still rfl rfl rfl rfl hst
  | electNobody hp ho hw => exact h.still rfl rfl rfl rfl trivial
  | execute hp =>
    simp only [Standing, hp] at hst
    exact h.still (BlockStore.mempoolRemoves_blocks K _ _) rfl rfl rfl hst
  | @record f stored hp =>
    have hn : noteLoop n (.record stored)
        { n with
          store := if stored then n.store.insertBlock (recordOf K f) else n.store
          phase := .recorded f } g = { g with loop := f.winning.claim.header :: g.loop } := by
      simp [noteLoop, hp]
    rw [hn]
    exact record_weighed hg h hp
  | save hp =>
    simp only [Standing, hp] at hst
    exact h.still rfl rfl rfl rfl hst
  | publish hp hs => exact publish_weighed hg h hp hs
  | publishSpent hp hs => exact h.still rfl rfl rfl rfl trivial
  | @adopt now stored r claim hp hh hc =>
    have hn : ∀ m, noteLoop n (.adopt now stored r) m g =
        { g with loop := claim.header :: g.loop } := by
      intro m
      simp [noteLoop, hc.header, Except.toOption]
    rw [hn]
    exact adopt_weighed hg h hp hh hc
  | @publishAdopted r hp =>
    simp only [Standing, hp] at hst
    have hb := BlockStore.mempoolRemoves_blocks K r.transactions n.store
    exact ⟨hst, h.kept.congr hb, h.keyed.congr hb, rfl⟩
  | rewind hp hr =>
    obtain ⟨hread, hfull⟩ := hok _ _ hr
    exact rewind_weighed hg h hp hr hread hfull
  | @publishRewound rolledBack hp =>
    simp only [Standing, hp] at hst
    have hb := BlockStore.mempoolInserts_blocks K
      (rolledBack.flatMap BlockRecord.transactions) n.store
    exact ⟨hst, h.kept.congr hb, h.keyed.congr hb, rfl⟩

theorem weighed_step {K : Primitives} {wallet : WalletPublicKey} {x y : Charted} {e : Event}
    (hg : Grounded K x.1) (h : Weighed K x.1 x.2) (hok : Complete x e)
    (hs : chartedStep K wallet x e = some y) : Grounded K y.1 ∧ Weighed K y.1 y.2 := by
  obtain ⟨n, g⟩ := x
  obtain ⟨n', g'⟩ := y
  obtain ⟨hstep, hn⟩ := recording_eq_some.mp hs
  dsimp only at hstep hn hg h ⊢
  subst hn
  refine ⟨grounded_step hg hstep, ?_⟩
  cases e with
  | client e =>
    simp only [step] at hstep
    split at hstep
    · simp at hstep
    · have hf := clientStep_framed hstep
      refine h.still hf.blocks hf.chainHeight hf.tipHash hf.chainWork ?_
      have hst := h.standing
      unfold Standing at *
      rw [hf.phase, hf.cursor]
      exact hst
  | loop e => exact transition_weighed hg h hok (loopStep_transition hstep)

theorem weighed_boot (K : Primitives) (outcomes : List AppendOutcome)
    (observed : BtcEntropyState) : Weighed K (boot K outcomes observed) .start where
  shared := ⟨trivial, by simp [Chains.start], Nat.zero_le _, rfl, rfl, rfl⟩
  kept height b hb := by simp [boot, BlockStore.empty, BlockStore.get] at hb
  keyed := keyed_empty
  standing := rfl

/-- While every rollback reads back a row for each block it removes, the shared
state's work is that of the blocks at the heights from one up to its own, the
last of which is its tip; and so is the loop's between two blocks. -/
theorem chain_work_of_chain {K : Primitives} {wallet : WalletPublicKey}
    {outcomes : List AppendOutcome} {observed : BtcEntropyState} {x : Charted}
    (h : Run (chartedStep K wallet) Complete (boot K outcomes observed, .start) x) :
    x.2.shared.map L1BlockHeader.height = (List.range' 1 x.1.state.chainHeight).reverse ∧
    x.1.state.tipHash = topHash K x.2.shared ∧ x.1.state.chainWork = workSum x.2.shared ∧
    (x.1.phase = .idle → x.1.cursor.chainWork = workSum x.2.shared) := by
  have hinv : Grounded K x.1 ∧ Weighed K x.1 x.2 :=
    h.invariant (P := fun x => Grounded K x.1 ∧ Weighed K x.1 x.2)
      ⟨grounded_boot K outcomes observed, weighed_boot K outcomes observed⟩
      fun _ _ _ hi hok hs => weighed_step hi.1 hi.2 hok hs
  obtain ⟨hg, hw⟩ := hinv
  refine ⟨by rw [hw.shared.linked.heights, hw.shared.height], hw.shared.tip, hw.shared.work,
    fun hp => ?_⟩
  have hphase := hg.resumable.closed.coherent.phase
  simp only [PhaseOk, hp] at hphase
  rw [← hphase.agreed.work]
  exact hw.shared.work

def toyRollback (rangeReadable : Bool) : List Event :=
  [.loop (.rewind { ChainWork.toySilentPeer ChainWork.toyTwoBlocks with rangeReadable }),
    .loop .publishRewound]

def toyAdoptions : List Event :=
  toyAdoption (toyRecord 1 0 toyGenesis [])++toyAdoption (toyRecord 2 7 toyFirst [])

def toyCharted : Option Charted :=
  exec (chartedStep toyPrimitives (toyWalletKey 1)) (toyBoot, .start) toyAdoptions

theorem toyAdoptions_complete {x : Charted}
    (hx : exec (chartedStep toyPrimitives (toyWalletKey 1)) (toyBoot, .start) toyAdoptions =
      some x) :
    Run (chartedStep toyPrimitives (toyWalletKey 1)) Complete (toyBoot, .start) x := by
  have hadm : Admitted (chartedStep toyPrimitives (toyWalletKey 1)) Complete (toyBoot, .start)
      toyAdoptions := by
    apply Admitted.of_forall
    intro e he s
    unfold toyAdoptions toyAdoption at he
    simp only [List.mem_append, List.mem_cons, List.not_mem_nil, or_false] at he
    rcases he with (rfl | rfl) | rfl | rfl <;> trivial
  exact hadm.run hx

set_option maxRecDepth 100000 in
theorem chain_work_of_chain_sample : ∃ x,
    Run (chartedStep toyPrimitives (toyWalletKey 1)) Complete (toyBoot, .start) x ∧
      x.1.state.chainHeight = 1 ∧ x.1.state.chainWork = workSum x.2.shared := by
  have hfacts : toyCharted.any fun x => x.1.cursor.height == 2 && (x.1.store.get 2).isSome &&
      (exec (chartedStep toyPrimitives (toyWalletKey 1)) x (toyRollback true)).any
        fun y => y.1.state.chainHeight == 1 := by decide +kernel
  obtain ⟨x, hx, hfacts⟩ := (Option.any_eq_true _ _).mp hfacts
  simp only [Bool.and_eq_true, beq_iff_eq] at hfacts
  obtain ⟨⟨hheight, hrow⟩, hrolled⟩ := hfacts
  obtain ⟨y, hy, hone⟩ := (Option.any_eq_true _ _).mp hrolled
  have hadm : Admitted (chartedStep toyPrimitives (toyWalletKey 1)) Complete x
      (toyRollback true) := by
    refine ⟨fun target r hr => ⟨rfl, fun height hlo hhi => ?_⟩, fun _ _ => ⟨trivial, fun _ _ => trivial⟩⟩
    have hpos := (plan_restores hr).positive
    obtain rfl : height = 2 := by omega
    exact hrow
  have hrun := (toyAdoptions_complete hx).trans (hadm.run hy)
  exact ⟨y, hrun, beq_iff_eq.mp hone, (chain_work_of_chain hrun).2.2.1⟩

set_option maxRecDepth 100000 in
theorem unread_work_kept : ∃ x,
    Reach (chartedStep toyPrimitives (toyWalletKey 1)) (toyBoot, .start) x ∧
      x.1.state.chainHeight = 1 ∧ x.1.state.chainWork = 2^26 ∧ workSum x.2.shared = 2^25 := by
  have hrun : (exec (chartedStep toyPrimitives (toyWalletKey 1)) (toyBoot, .start)
      (toyAdoptions++toyRollback false)).any fun x => x.1.state.chainHeight == 1 &&
        x.1.state.chainWork == 2^26 && workSum x.2.shared == 2^25 := by decide +kernel
  obtain ⟨x, hx, hfacts⟩ := (Option.any_eq_true _ _).mp hrun
  simp only [Bool.and_eq_true, beq_iff_eq] at hfacts
  exact ⟨x, exec_reach hx, hfacts.1.1, hfacts.1.2, hfacts.2⟩

end BinaChain.TotalWork
