import BinaChain.Node.ChainWork

/-!
# How deep a fork is repaired

Where the store and the peer answer every probe, the probing loop stops at the
highest common block or at its floor, whichever is higher. The call that follows
takes a stop at the floor for a fork that lies deeper, the genesis block included.
-/

set_option autoImplicit false

namespace BinaChain.ForkPoint
open BinaChain.Word BinaChain.Text BinaChain.Crypto BinaChain.BitcoinEntropy BinaChain.Difficulty
open BinaChain.Rewards BinaChain.State BinaChain.Store BinaChain.Sync BinaChain.Reconcile
open BinaChain.ChainWork

/-- Every read of the store finds a well-formed row, every probe an answer with
a well-formed hash, and every write succeeds. -/
structure Answering (env : ReorgEnv) (x : Parts) : Prop where
  hashReadable : ∀ height, env.hashReadable height = true
  blockReadable : ∀ height, env.blockReadable height = true
  rangeReadable : env.rangeReadable = true
  ledgerReadable : env.ledgerReadable = true
  rollbackWritten : env.rollbackWritten = true
  row : ∀ height, 0 < height → height ≤ x.cursor.height →
    ∃ b hash seed, x.store.get height = some b ∧ hexTo32 b.blockHash = .ok hash ∧
      hexTo32 b.btcSeed = .ok seed
  reply : ∀ height, 0 < height → height ≤ x.cursor.height →
    ∃ hash, peerHashAt env height = some hash

/-- The peer the call turns to: the heaviest, and at least as high as the node. -/
structure Heavier (env : ReorgEnv) (x : Parts) (best : PeerStatus) : Prop where
  client : env.client = true
  heaviest : selectBestPeer env.statuses x.state.genesisHash x.cursor.chainWork = some best
  high : x.cursor.height ≤ best.height

/-- The two chains agree up to `fork` and nowhere on the `depth` blocks the
node has above it. -/
structure Forks (env : ReorgEnv) (x : Parts) (fork depth : ℕ) : Prop where
  depth : fork+depth = x.cursor.height
  shared : ∀ height, 0 < height → height ≤ fork →
    localHashAt env x.store height = peerHashAt env height
  diverged : ∀ height, fork < height → height ≤ x.cursor.height →
    localHashAt env x.store height ≠ peerHashAt env height

/-- The call rolls back to `fork` and makes the local block of that height its
tip; below the first block that is genesis. -/
def RollsBackTo (env : ReorgEnv) (x : Parts) (fork : ℕ) : Prop :=
  ∃ target r, plan env x = .rollback target r ∧ r.forkPoint = fork ∧
    some r.newTip = if fork = 0 then some x.state.genesisHash else localHashAt env x.store fork

theorem Answering.localHash {env : ReorgEnv} {x : Parts} (ha : Answering env x) {height : ℕ}
    (hpos : 0 < height) (hle : height ≤ x.cursor.height) :
    ∃ hash, localHashAt env x.store height = some hash := by
  obtain ⟨b, hash, -, hb, hhash, -⟩ := ha.row height hpos hle
  refine ⟨hash, ?_⟩
  unfold localHashAt
  rw [if_pos (ha.hashReadable height)]
  simp [BlockStore.blockHashAt, hb, hhash, Except.toOption]

/-- Probing stops at the highest common block unless it runs out of steps above it. -/
theorem findForkPoint_eq {env : ReorgEnv} {x : Parts} {fork depth : ℕ} (ha : Answering env x)
    (hf : Forks env x fork depth) (steps : ℕ) :
    ∀ start, steps ≤ start → fork ≤ start → start ≤ x.cursor.height →
      findForkPoint env x.store steps start = some (max fork (start-steps)) := by
  induction steps with
  | zero =>
    intro start _ hlo _
    rw [Nat.sub_zero, Nat.max_eq_right hlo]
    rfl
  | succ steps ih =>
    intro start hsteps hlo hhi
    have hpos : 0 < start := Nat.lt_of_lt_of_le (Nat.succ_pos steps) hsteps
    obtain ⟨peerHash, hpeer⟩ := ha.reply start hpos hhi
    obtain ⟨localHash, hlocal⟩ := ha.localHash hpos hhi
    unfold findForkPoint
    rw [hpeer, hlocal]
    by_cases htop : start = fork
    · have hsame : localHash = peerHash := by
        have := hf.shared start hpos (Nat.le_of_eq htop)
        rwa [hpeer, hlocal, Option.some.injEq] at this
      simp only [if_pos hsame]
      rw [htop, Nat.max_eq_left (Nat.sub_le fork (steps+1))]
    · have hother : localHash ≠ peerHash := by
        have := hf.diverged start (by omega) hhi
        rwa [hpeer, hlocal, Ne, Option.some.injEq] at this
      simp only [if_neg hother, if_neg (Nat.ne_of_gt hpos)]
      rw [ih (start-1) (by omega) (by omega) (by omega),
        show start-1-steps = start-(steps+1) by omega]

theorem planRollback_succeeds {env : ReorgEnv} {x : Parts} (ha : Answering env x) {fork : ℕ}
    (hpos : 0 < fork) (hle : fork ≤ x.cursor.height) :
    ∃ r, planRollback env x fork = some r ∧ r.forkPoint = fork ∧
      localHashAt env x.store fork = some r.newTip := by
  obtain ⟨b, hash, -, hb, hhash, -⟩ := ha.row fork hpos hle
  obtain ⟨hglo, hghi⟩ := governing_bounds hpos
  obtain ⟨g, -, seed, hg, -, hseed⟩ := ha.row _ hglo (Nat.le_trans hghi hle)
  have hlocal : localHashAt env x.store fork = some hash := by
    unfold localHashAt
    rw [if_pos (ha.hashReadable fork)]
    simp [BlockStore.blockHashAt, hb, hhash, Except.toOption]
  rw [hlocal]
  unfold planRollback
  simp [if_neg (Nat.ne_of_gt hpos), Nat.ne_of_gt hglo, blockAt, ha.blockReadable, hb, hg, hhash,
    hseed, Except.toOption, ha.ledgerReadable, ha.rollbackWritten, guard]

/-- With every query answered, a fork of at most the permitted depth inside the
current epoch is repaired exactly when it is shallower than that depth and has
a block below it. -/
theorem rolls_back_iff (env : ReorgEnv) (x : Parts) (best : PeerStatus) (fork depth : ℕ)
    (ha : Answering env x) (hb : Heavier env x best) (hf : Forks env x fork depth)
    (hd : 1 ≤ depth ∧ depth ≤ maxAutoReorgDepth)
    (he : x.cursor.adjuster.epochStartHeight ≤ fork) :
    RollsBackTo env x fork ↔ depth < maxAutoReorgDepth ∧ 0 < fork := by
  have hdepth := hf.depth
  have hfind : findForkPoint env x.store
      (x.cursor.height-(x.cursor.height-maxAutoReorgDepth)) x.cursor.height =
        some (max fork (x.cursor.height-maxAutoReorgDepth)) := by
    rw [findForkPoint_eq ha hf _ _ (by omega) (by omega) (Nat.le_refl _),
      show x.cursor.height-(x.cursor.height-(x.cursor.height-maxAutoReorgDepth)) =
        x.cursor.height-maxAutoReorgDepth by omega]
  have hplan : plan env x =
      if fork ≤ x.cursor.height-maxAutoReorgDepth then .stay
      else (planRollback env x fork).elim .stay (Plan.rollback best.height) := by
    unfold plan
    simp only [hb.client, hb.heaviest, if_true, if_neg (Nat.not_lt.mpr hb.high), hfind]
    by_cases hfloor : fork ≤ x.cursor.height-maxAutoReorgDepth
    · have hne : x.cursor.height-maxAutoReorgDepth ≠ x.cursor.height := by omega
      simp only [Nat.max_eq_right hfloor, if_pos hfloor, if_neg hne, Nat.le_refl, if_true]
    · have hmax : max fork (x.cursor.height-maxAutoReorgDepth) = fork := by omega
      have hne : fork ≠ x.cursor.height := by omega
      cases hp : planRollback env x fork <;>
        simp only [hmax, if_neg hfloor, if_neg hne, if_neg (Nat.not_lt.mpr he), hp,
          Option.elim]
  constructor
  · rintro ⟨target, r, hr, -, -⟩
    rw [hplan] at hr
    by_cases hfloor : fork ≤ x.cursor.height-maxAutoReorgDepth
    · rw [if_pos hfloor] at hr
      cases hr
    · omega
  · rintro ⟨hlt, hpos⟩
    obtain ⟨r, hr, hpoint, htip⟩ := planRollback_succeeds ha hpos (by omega)
    refine ⟨best.height, r, ?_, hpoint, ?_⟩
    · rw [hplan, if_neg (by omega), hr]
      rfl
    · rw [if_neg (Nat.ne_of_gt hpos), htip]

def answersAt (env : ReorgEnv) (store : BlockStore) (height : ℕ) : Bool :=
  (peerHashAt env height).isSome ∧ (store.get height).any fun b =>
    (hexTo32 b.blockHash).toOption.isSome ∧ (hexTo32 b.btcSeed).toOption.isSome

def toyRival (x : Parts) : ReorgEnv :=
  { toySilentPeer x with
    probe := fun h => if h = x.cursor.height then
      some [{ toyRecord 3 9 x [] with height := h }] else (x.store.get h).map fun r => [r] }

theorem toyRival_answering {x : Parts}
    (h : ∀ height, 0 < height → height ≤ x.cursor.height →
      answersAt (toyRival x) x.store height = true) : Answering (toyRival x) x := by
  refine ⟨fun _ => rfl, fun _ => rfl, rfl, rfl, rfl, ?_, ?_⟩
  · intro height hlo hhi
    have ha := h height hlo hhi
    simp only [answersAt, decide_eq_true_eq, Option.any_eq_true, Option.isSome_iff_exists,
      Checked.toOption_eq_some] at ha
    obtain ⟨-, b, hb, ⟨hash, hhash⟩, seed, hseed⟩ := ha
    exact ⟨b, hash, seed, hb, hhash, hseed⟩
  · intro height hlo hhi
    have ha := h height hlo hhi
    simp only [answersAt, decide_eq_true_eq, Option.isSome_iff_exists] at ha
    exact ha.1

def toyBest : PeerStatus :=
  { height := 2, genesisHash := genesisHash toyPrimitives, chainWork := u128Max }

set_option maxRecDepth 100000 in
theorem rolls_back_iff_sample :
    RollsBackTo (toyRival toyTwoBlocks) toyTwoBlocks 1 ↔ 1 < maxAutoReorgDepth ∧ 0 < 1 := by
  obtain ⟨hheight, hbest, hepoch, h1, h2⟩ : toyTwoBlocks.cursor.height = 2 ∧
      selectBestPeer (toyRival toyTwoBlocks).statuses toyTwoBlocks.state.genesisHash
        toyTwoBlocks.cursor.chainWork = some toyBest ∧
      toyTwoBlocks.cursor.adjuster.epochStartHeight = 0 ∧
      (answersAt (toyRival toyTwoBlocks) toyTwoBlocks.store 1 = true ∧
        localHashAt (toyRival toyTwoBlocks) toyTwoBlocks.store 1 =
          peerHashAt (toyRival toyTwoBlocks) 1) ∧
      (answersAt (toyRival toyTwoBlocks) toyTwoBlocks.store 2 = true ∧
        localHashAt (toyRival toyTwoBlocks) toyTwoBlocks.store 2 ≠
          peerHashAt (toyRival toyTwoBlocks) 2) := by decide +kernel
  refine rolls_back_iff (toyRival toyTwoBlocks) toyTwoBlocks toyBest 1 1
    (toyRival_answering ?_) ⟨rfl, hbest, ?_⟩ ⟨by rw [hheight], ?_, ?_⟩
    (by decide) (by rw [hepoch]; decide)
  · intro height hlo hhi
    obtain rfl | rfl : height = 1 ∨ height = 2 := by omega
    · exact h1.1
    · exact h2.1
  · rw [hheight]
    decide
  · intro height hlo hhi
    obtain rfl : height = 1 := by omega
    exact h1.2
  · intro height hlo hhi
    obtain rfl : height = 2 := by omega
    exact h2.2

set_option maxRecDepth 100000 in
theorem first_block_kept :
    Answering (toyRival toyFirst) toyFirst ∧ Heavier (toyRival toyFirst) toyFirst toyBest ∧
      Forks (toyRival toyFirst) toyFirst 0 1 ∧ 1 ≤ maxAutoReorgDepth ∧
      toyFirst.cursor.adjuster.epochStartHeight = 0 ∧
      ¬RollsBackTo (toyRival toyFirst) toyFirst 0 := by
  obtain ⟨hheight, hbest, hepoch, h1, hstay⟩ : toyFirst.cursor.height = 1 ∧
      selectBestPeer (toyRival toyFirst).statuses toyFirst.state.genesisHash
        toyFirst.cursor.chainWork = some toyBest ∧
      toyFirst.cursor.adjuster.epochStartHeight = 0 ∧
      (answersAt (toyRival toyFirst) toyFirst.store 1 = true ∧
        localHashAt (toyRival toyFirst) toyFirst.store 1 ≠ peerHashAt (toyRival toyFirst) 1) ∧
      (plan (toyRival toyFirst) toyFirst).takenBack.isNone := by decide +kernel
  refine ⟨toyRival_answering ?_, ⟨rfl, hbest, ?_⟩, ⟨by rw [hheight], ?_, ?_⟩,
    by decide, hepoch, ?_⟩
  · intro height hlo hhi
    obtain rfl : height = 1 := by omega
    exact h1.1
  · rw [hheight]
    decide
  · intro height hlo hhi
    omega
  · intro height hlo hhi
    obtain rfl : height = 1 := by omega
    exact h1.2
  · rintro ⟨target, r, hr, -, -⟩
    rw [hr] at hstay
    cases hstay

end BinaChain.ForkPoint
