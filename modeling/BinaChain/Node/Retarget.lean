import BinaChain.Node.ChainWork
import BinaChain.Node.Trace

/-!
# The difficulty adjuster follows the chain

A rollback leaves the adjuster as it is. It is still the adjuster of the blocks
that remain, because no rollback passes the start of the current epoch.
-/

set_option autoImplicit false

namespace BinaChain.Retarget
open BinaChain.Word BinaChain.Crypto BinaChain.Difficulty BinaChain.Rewards BinaChain.State
open BinaChain.BitcoinEntropy BinaChain.Machine BinaChain.Mining BinaChain.Sync
open BinaChain.Reconcile BinaChain.System BinaChain.Coherence BinaChain.Trace

/-- A fresh adjuster fed with the heights and timestamps of a chain, oldest first. -/
def folded (K : Primitives) (chain : List (ℕ × ℕ)) : DifficultyAdjuster :=
  Chain.follow (fun a b => a.recordBlock K b.1 b.2) (.new minBits (genesisHeader K).timestamp) chain

abbrev Linked : List (ℕ × ℕ) → Prop := Chain.Linked Prod.fst fun _ _ => True

theorem folded_within (K : Primitives) (chain : List (ℕ × ℕ)) : (folded K chain).InRange := by
  induction chain with
  | nil => exact ⟨Nat.le_refl minBits, show minBits ≤ maxBits by decide⟩
  | cons b rest ih => exact DifficultyAdjuster.recordBlock_within K _ b.1 b.2 ih

theorem folded_cons (K : Primitives) {b : ℕ × ℕ} {rest : List (ℕ × ℕ)} (h : Linked (b :: rest)) :
    (((folded K (b :: rest)).currentBits : ℤ)-(folded K rest).currentBits).natAbs ≤
      maxDeltaBits*((rest.length+1)/epochSize-rest.length/epochSize : ℕ) := by
  have hb : b.1 = rest.length+1 := h.1
  by_cases hin : (rest.length+1)%epochSize = 0
  · have hd := DifficultyAdjuster.recordBlock_delta K (folded K rest) b.1 b.2 (folded_within K rest)
    have hone : (rest.length+1)/epochSize-rest.length/epochSize = 1 := by
      unfold epochSize at *
      omega
    rw [hone]
    exact hd
  · have hsame : folded K (b :: rest) = folded K rest :=
      DifficultyAdjuster.recordBlock_inside K _ _ _ (by rwa [hb])
    rw [hsame]
    unfold maxDeltaBits
    omega

theorem folded_delta (K : Primitives) {chain older : List (ℕ × ℕ)} (hs : older <:+ chain)
    (h : Linked chain) :
    (((folded K chain).currentBits : ℤ)-(folded K older).currentBits).natAbs ≤
      maxDeltaBits*(chain.length/epochSize-older.length/epochSize : ℕ) := by
  induction chain with
  | nil =>
    obtain rfl := List.suffix_nil.mp hs
    simp
  | cons b rest ih =>
    rcases List.suffix_cons_iff.mp hs with rfl | hs
    · simp
    · have hrest := ih hs h.2.2
      have hhead := folded_cons K h
      have hlen := hs.length_le
      have hlow : older.length/epochSize ≤ rest.length/epochSize := Nat.div_le_div_right hlen
      have hhigh : rest.length/epochSize ≤ (rest.length+1)/epochSize :=
        Nat.div_le_div_right (Nat.le_succ _)
      rw [List.length_cons]
      unfold maxDeltaBits at *
      omega

/-- The adjuster of a loop that is running. -/
def adjuster (n : Node) : Option DifficultyAdjuster :=
  match n.phase with
  | .elected f | .executed f | .recorded f | .saved f => some f.cursor.adjuster
  | .crashed => none
  | _ => some n.cursor.adjuster

def blocks (g : History) : List (ℕ × ℕ) := g.chain.map fun e => (e.height, e.header.timestamp)

/-- The blocks of the record, and a winner between its election and its execution. -/
def canonical (x : Traced) : List (ℕ × ℕ) :=
  match x.1.phase with
  | .elected f => (f.height, f.winning.claim.header.timestamp) :: blocks x.2
  | _ => blocks x.2

structure Tracks (K : Primitives) (chain : List (ℕ × ℕ)) (c : Cursor) : Prop where
  linked : Linked chain
  height : c.height = chain.length
  adjuster : c.adjuster = folded K chain

theorem Tracks.extend {K : Primitives} {chain : List (ℕ × ℕ)} {c c' : Cursor} {height ts : ℕ}
    (h : Tracks K chain c) (hh : height = c.height+1) (hc : c'.height = height)
    (ha : c'.adjuster = c.adjuster.recordBlock K height ts) : Tracks K ((height, ts) :: chain) c' :=
  ⟨⟨hh.trans (by rw [h.height]), trivial, h.linked⟩, by rw [hc, hh, h.height]; rfl,
    by rw [ha, h.adjuster]; rfl⟩

theorem absorb_cases (K : Primitives) (a : DifficultyAdjuster) (b : ℕ × ℕ) :
    a.recordBlock K b.1 b.2 = a ∨ (a.recordBlock K b.1 b.2).epochStartHeight = b.1 := by
  unfold DifficultyAdjuster.recordBlock
  split
  · exact Or.inl rfl
  · exact Or.inr rfl

theorem length_cut {chain : List (ℕ × ℕ)} (h : Linked chain) {top : ℕ} (hle : top ≤ chain.length) :
    (Chain.cut Prod.fst top chain).length = top := by
  induction chain with
  | nil => exact (Nat.le_zero.mp hle).symm
  | cons b rest ih =>
    have hb : b.1 = rest.length+1 := h.1
    rw [List.length_cons] at hle
    by_cases hle' : b.1 ≤ top
    · rw [Chain.cut_of_le hle', List.length_cons]
      omega
    · rw [Chain.cut_of_lt (by omega)]
      exact ih h.2.2 (by omega)

/-- A rollback within the epoch keeps the adjuster of the chain that is left. -/
theorem Tracks.rewind {K : Primitives} {chain : List (ℕ × ℕ)} {x : Parts} {r : Rollback}
    (h : Tracks K chain x.cursor) (hr : Restores x r) :
    Tracks K (Chain.cut Prod.fst r.forkPoint chain) (rewind x r).cursor where
  linked := h.linked.cut _
  height := by
    have hbelow := hr.below
    rw [length_cut h.linked (by rw [← h.height]; omega)]
    rfl
  adjuster := by
    have hsince : (folded K chain).epochStartHeight ≤ r.forkPoint := by
      rw [← h.adjuster]
      exact hr.epoch
    exact h.adjuster.trans (Chain.follow_cut (absorb_cases K) hsince).symm

theorem blocks_cut (top : ℕ) (chain : List Entry) :
    (Chain.cut Entry.height top chain).map (fun e => (e.height, e.header.timestamp)) =
      Chain.cut Prod.fst top (chain.map fun e => (e.height, e.header.timestamp)) := by
  unfold Chain.cut
  rw [List.dropWhile_map]
  rfl

def Following (K : Primitives) (n : Node) (chain : List (ℕ × ℕ)) : Prop :=
  match n.phase with
  | .elected f => Tracks K chain n.cursor ∧ f.winning.height = f.height
  | .executed f | .recorded f | .saved f => Tracks K chain f.cursor
  | .crashed => True
  | _ => Tracks K chain n.cursor

structure Tracking (K : Primitives) (x : Traced) : Prop where
  coherent : Coherent K x.1
  shelved : Shelved x.1.state
  following : Following K x.1 (blocks x.2)

theorem tracking_boot (K : Primitives) (outcomes : List AppendOutcome)
    (observed : BtcEntropyState) : Tracking K (boot K outcomes observed, .start) where
  coherent := coherent_boot K outcomes observed
  shelved := shelved_boot K outcomes observed
  following := ⟨trivial, rfl, rfl⟩

theorem Following.still {K : Primitives} {n n' : Node} {g g' : History}
    (h : Following K n (blocks g)) (hc : g'.chain = g.chain)
    (hf : Following K n (blocks g) → Following K n' (blocks g)) : Following K n' (blocks g') := by
  have hb : blocks g' = blocks g := by
    unfold blocks
    rw [hc]
  rw [hb]
  exact hf h

theorem loop_following {K : Primitives} {wallet : WalletPublicKey} {n n' : Node} {g : History}
    {e : LoopEvent} (hc : Coherent K n) (hsh : Shelved n.state)
    (h : Following K n (blocks g)) (ht : Transition K wallet n e n') :
    Following K n' (blocks (noteLoop K wallet n e n' g)) := by
  have hphase := hc.phase
  cases ht with
  | prepare hp | record hp | save hp | publish hp | publishAdopted hp | publishRewound hp =>
    exact h.still rfl fun hf => by simpa only [Following, hp] using hf
  | mined hp =>
    refine h.still ?_ fun hf => by simpa only [Following, hp] using hf
    rw [noteLoop_mined hp]
  | elect hp ho hw =>
    simp only [Following, hp] at h
    exact ⟨h, elect_height hsh ho hw⟩
  | electNobody | publishSpent => trivial
  | @execute f hp =>
    simp only [Following, hp] at h
    simp only [PhaseOk, hp] at hphase
    rw [noteLoop_execute hp]
    obtain ⟨-, hext, -⟩ := hphase
    have hheight : f.winning.claim.header.height = f.height := h.2
    show Tracks K ((f.winning.claim.header.height, _) :: blocks g) f.cursor
    rw [hheight]
    exact h.1.extend hext.height (by rw [hext.cursor]; rfl) (by rw [hext.cursor]; rfl)
  | @adopt now stored r claim hp hh hck =>
    simp only [Following, hp] at h
    rw [noteLoop_adopt hck.header]
    obtain ⟨-, hheight, -⟩ := headerFromRecord_ok hck.header
    show Tracks K ((claim.header.height, _) :: blocks g) _
    rw [hheight]
    exact h.extend hck.height rfl rfl
  | rewind hp hpl =>
    simp only [Following, hp] at h
    have hrest := plan_restores hpl
    show Tracks K (blocks (noteLoop K wallet n (.rewind _) _ g)) _
    unfold blocks noteLoop
    rw [blocks_cut]
    exact h.rewind hrest

theorem tracking_step {K : Primitives} {wallet : WalletPublicKey} {x y : Traced} {e : Event}
    (h : Tracking K x) (hs : tracedStep K wallet x e = some y) : Tracking K y := by
  obtain ⟨n, g⟩ := x
  obtain ⟨n', g'⟩ := y
  obtain ⟨hstep, hg⟩ := recording_eq_some.mp hs
  dsimp only at hstep hg
  subst hg
  refine ⟨h.coherent.step hstep, shelved_step h.shelved hstep, ?_⟩
  cases e with
  | client e =>
    simp only [step] at hstep
    split at hstep
    · simp at hstep
    · have hf := clientStep_framed hstep
      refine h.following.still (noteClient_chain n e n' g) fun hfoll => ?_
      unfold Following at *
      rwa [hf.phase, hf.cursor]
  | loop e => exact loop_following h.coherent h.shelved h.following (loopStep_transition hstep)

theorem Tracking.canonical {K : Primitives} {x : Traced} {a : DifficultyAdjuster}
    (h : Tracking K x) (ha : adjuster x.1 = some a) :
    Linked (canonical x) ∧ a = folded K (canonical x) := by
  have hfoll := h.following
  have hphase := h.coherent.phase
  cases hp : x.1.phase with
  | idle | searching | waiting | executed | recorded | saved | adopting | rewound =>
    simp only [adjuster, hp, Option.some.injEq] at ha
    simp only [Following, hp] at hfoll
    simp only [Retarget.canonical, hp]
    subst ha
    exact ⟨hfoll.linked, hfoll.adjuster⟩
  | elected f =>
    simp only [adjuster, hp, Option.some.injEq] at ha
    simp only [Following, hp] at hfoll
    simp only [PhaseOk, hp] at hphase
    simp only [Retarget.canonical, hp]
    subst ha
    obtain ⟨-, hext, -⟩ := hphase
    have htracks : Tracks K ((f.height, f.winning.claim.header.timestamp) :: blocks x.2) f.cursor :=
      hfoll.1.extend hext.height (by rw [hext.cursor]; rfl) (by rw [hext.cursor]; rfl)
    exact ⟨htracks.linked, htracks.adjuster⟩
  | crashed => simp [adjuster, hp] at ha

/-- Mining, synchronisation and reorganisation keep the adjuster at the fold of
the chain, whose difficulty stays in range and moves slowly. -/
theorem adjuster_follows_chain {K : Primitives} {wallet : WalletPublicKey}
    {outcomes : List AppendOutcome} {observed : BtcEntropyState} {x : Traced}
    {a : DifficultyAdjuster}
    (h : Reach (tracedStep K wallet) (boot K outcomes observed, .start) x)
    (ha : adjuster x.1 = some a) :
    Linked (canonical x) ∧ a = folded K (canonical x) ∧
      minBits ≤ a.currentBits ∧ a.currentBits ≤ maxBits ∧
      ∀ older, older <:+ canonical x →
        ((a.currentBits : ℤ)-(folded K older).currentBits).natAbs ≤
          maxDeltaBits*((canonical x).length/epochSize-older.length/epochSize : ℕ) := by
  have hinv : Tracking K x :=
    h.invariant (tracking_boot K outcomes observed) fun _ _ _ ht _ hs => tracking_step ht hs
  obtain ⟨hl, hf⟩ := hinv.canonical ha
  have hrange := folded_within K (canonical x)
  rw [← hf] at hrange
  refine ⟨hl, hf, hrange.1, hrange.2, fun older ho => ?_⟩
  rw [hf]
  exact folded_delta K ho hl

def toyTurn : List Event :=
  toyAdoption (toyRecord 1 0 toyGenesis [])++toyAdoption (toyRecord 2 7 toyFirst [])++
  [.loop (.rewind (ChainWork.toySilentPeer ChainWork.toyTwoBlocks)), .loop .publishRewound]++
  toyAdoption (toyRecord 1 0 toyFirst [])++
  toyAdoption (toyRecord 3 8 (toyExtend 1 0 toyFirst) [])

set_option maxRecDepth 100000 in
theorem adjuster_follows_chain_sample :
    ∃ x a, exec (tracedStep toyPrimitives (toyWalletKey 1)) (toyBoot, .start) toyTurn = some x ∧
      adjuster x.1 = some a ∧ (canonical x).map Prod.fst = [3, 2, 1] ∧
      a = folded toyPrimitives (canonical x) ∧ minBits ≤ a.currentBits := by
  have hturn : (exec (tracedStep toyPrimitives (toyWalletKey 1)) (toyBoot, .start) toyTurn).any
      fun x => (canonical x).map Prod.fst == [3, 2, 1] && (adjuster x.1).isSome := by
    decide +kernel
  obtain ⟨x, hx, hfacts⟩ := (Option.any_eq_true _ _).mp hturn
  rw [Bool.and_eq_true] at hfacts
  obtain ⟨a, ha⟩ := Option.isSome_iff_exists.mp hfacts.2
  obtain ⟨-, hfolded, hlow, -⟩ := adjuster_follows_chain (exec_reach hx) ha
  exact ⟨x, a, hx, ha, eq_of_beq hfacts.1, hfolded, hlow⟩

end BinaChain.Retarget
