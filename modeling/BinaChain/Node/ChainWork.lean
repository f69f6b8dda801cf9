import BinaChain.Node.Extension
import BinaChain.Node.Reconcile
import Mathlib.Algebra.Order.Group.Nat

/-!
# The work a reorganisation leaves behind

A rollback gives up the work of the blocks it removes before anything is known of
what replaces them. No work is lost when the peer serves enough blocks on top of
the block that both chains have.
-/

set_option autoImplicit false

namespace BinaChain.ChainWork
open BinaChain.Word BinaChain.Text BinaChain.Crypto BinaChain.BitcoinEntropy
open BinaChain.Difficulty BinaChain.Rewards BinaChain.State BinaChain.Machine BinaChain.Store
open BinaChain.Sync BinaChain.Reconcile BinaChain.Extension

def adoptedPage (K : Primitives) (env : SyncEnv) : Parts → List BlockRecord → List BlockRecord
  | _, [] => []
  | x, r :: rest =>
    match syncRecord K env x r with
    | none => []
    | some x' => r :: adoptedPage K env x' rest

/-- The records the peer serves that verify in turn, over all its pages. -/
def adopted (K : Primitives) (env : SyncEnv) (targetHeight : ℕ) :
    Parts → List (Option (List BlockRecord)) → List BlockRecord
  | _, [] => []
  | x, reply :: replies =>
    if x.cursor.height ≥ targetHeight then []
    else
      match reply with
      | none => []
      | some [] => []
      | some page =>
        let (x', stop) := syncPage K env x page
        adoptedPage K env x page++if stop then [] else adopted K env targetHeight x' replies

def totalWork (records : List BlockRecord) : ℕ :=
  (records.map fun r => blockWork r.difficultyBits).sum

@[simp] theorem totalWork_nil : totalWork [] = 0 := rfl

@[simp] theorem totalWork_cons (r : BlockRecord) (rs : List BlockRecord) :
    totalWork (r :: rs) = blockWork r.difficultyBits+totalWork rs := rfl

@[simp] theorem totalWork_append (rs rs' : List BlockRecord) :
    totalWork (rs++rs') = totalWork rs+totalWork rs' := by
  simp [totalWork]

def Agrees (x : Parts) : Prop := x.state.chainWork = x.cursor.chainWork

theorem syncRecord_work {K : Primitives} {env : SyncEnv} {x x' : Parts} {r : BlockRecord}
    (h : syncRecord K env x r = some x') :
    x'.cursor.chainWork = satAdd128 x.cursor.chainWork (blockWork r.difficultyBits) ∧ Agrees x' := by
  unfold syncRecord at h
  obtain ⟨claim, hc, rfl⟩ := Option.map_eq_some_iff.mp h
  have hd := (headerFromRecord_ok (checkRecord_iff.mp hc).header).2.2.2.2.2.1
  refine ⟨?_, rfl⟩
  simp [publishSynced, applyRecord, advanceSynced, hd]

theorem syncPage_work (K : Primitives) (env : SyncEnv) (page : List BlockRecord) :
    ∀ x : Parts, x.cursor.chainWork ≤ u128Max → Agrees x →
      (syncPage K env x page).1.cursor.chainWork =
        satAdd128 x.cursor.chainWork (totalWork (adoptedPage K env x page)) ∧
      Agrees (syncPage K env x page).1 := by
  induction page with
  | nil =>
    intro x hx ha
    exact ⟨(Nat.min_eq_left hx).symm, ha⟩
  | cons r rest ih =>
    intro x hx ha
    unfold syncPage adoptedPage
    cases hs : syncRecord K env x r with
    | none => exact ⟨(Nat.min_eq_left hx).symm, ha⟩
    | some x' =>
      obtain ⟨hw, ha'⟩ := syncRecord_work hs
      have hx' : x'.cursor.chainWork ≤ u128Max := by
        rw [hw]
        exact Nat.min_le_right _ _
      obtain ⟨hrest, hag⟩ := ih x' hx' ha'
      refine ⟨?_, hag⟩
      simp only [hrest, hw, totalWork_cons]
      unfold satAdd128
      omega

theorem sync_work (K : Primitives) (env : SyncEnv) (target : ℕ)
    (replies : List (Option (List BlockRecord))) :
    ∀ x : Parts, x.cursor.chainWork ≤ u128Max → Agrees x →
      (syncForwardFromPeer K env target x replies).cursor.chainWork =
        satAdd128 x.cursor.chainWork (totalWork (adopted K env target x replies)) ∧
      Agrees (syncForwardFromPeer K env target x replies) := by
  induction replies with
  | nil =>
    intro x hx ha
    exact ⟨(Nat.min_eq_left hx).symm, ha⟩
  | cons reply replies ih =>
    intro x hx ha
    have hstay : x.cursor.chainWork = satAdd128 x.cursor.chainWork 0 := (Nat.min_eq_left hx).symm
    unfold syncForwardFromPeer adopted
    split
    · exact ⟨hstay, ha⟩
    · match reply with
      | none => exact ⟨hstay, ha⟩
      | some [] => exact ⟨hstay, ha⟩
      | some (r :: rest) =>
        obtain ⟨hw, ha'⟩ := syncPage_work K env (r :: rest) x hx ha
        simp only
        generalize syncPage K env x (r :: rest) = next at hw ha' ⊢
        obtain ⟨x', stop⟩ := next
        simp only at hw ha' ⊢
        cases stop with
        | true =>
          simp only [if_true, List.append_nil]
          exact ⟨hw, ha'⟩
        | false =>
          have hx' : x'.cursor.chainWork ≤ u128Max := by
            rw [hw]
            exact Nat.min_le_right _ _
          obtain ⟨hrest, hag⟩ := ih x' hx' ha'
          simp only [Bool.false_eq_true, if_false, totalWork_append]
          refine ⟨?_, hag⟩
          rw [hrest, hw]
          unfold satAdd128
          omega

theorem adoptedPage_eq (K : Primitives) (env : SyncEnv) (page : List BlockRecord) :
    ∀ x : Parts, adoptedPage K env x page = carried (syncRecord K env) x page := by
  induction page with
  | nil => exact fun x => rfl
  | cons r rest ih =>
    intro x
    unfold adoptedPage carried
    cases syncRecord K env x r with
    | none => rfl
    | some y => simp only [ih y]

/-- What is adopted is the longest part of what is offered that can be. -/
theorem adopted_eq (K : Primitives) (env : SyncEnv) (target : ℕ)
    (replies : List (Option (List BlockRecord))) : ∀ x : Parts,
      adopted K env target x replies =
        carried (syncRecord K env) x (offered target x.cursor.height replies) := by
  induction replies with
  | nil => exact fun x => rfl
  | cons reply replies ih =>
    intro x
    unfold adopted offered
    split
    · rfl
    · match reply with
      | none => rfl
      | some [] => rfl
      | some (r :: rest) =>
        simp only [adoptedPage_eq]
        cases hx : exec (syncRecord K env) x (r :: rest) with
        | none =>
          rw [syncPage_stops hx, carried_stopped hx, if_pos rfl, List.append_nil]
        | some y =>
          have hall := carried_append hx []
          rw [List.append_nil, carried, List.append_nil] at hall
          rw [syncPage_exec hx, hall, carried_append hx, ← exec_height hx, ← ih y]
          simp

theorem adopted_longest {K : Primitives} {env : SyncEnv} {target : ℕ} {x : Parts}
    {replies : List (Option (List BlockRecord))} {records : List BlockRecord}
    (hp : records <+: offered target x.cursor.height replies)
    (he : Extends K env.now (tipOf x) records) : records <+: adopted K env target x replies := by
  rw [adopted_eq]
  exact carried_longest hp ((exec_iff_extends records).mpr he)

theorem adopted_extends (K : Primitives) (env : SyncEnv) (target : ℕ) (x : Parts)
    (replies : List (Option (List BlockRecord))) :
    adopted K env target x replies <+: offered target x.cursor.height replies ∧
      Extends K env.now (tipOf x) (adopted K env target x replies) := by
  rw [adopted_eq]
  exact ⟨carried_begins _ _, (exec_iff_extends _).mp (exec_carried _ _)⟩

theorem totalWork_begins {rs rs' : List BlockRecord} (h : rs <+: rs') :
    totalWork rs ≤ totalWork rs' := by
  obtain ⟨rest, rfl⟩ := h
  rw [totalWork_append]
  exact Nat.le_add_right _ _

/-- The peer has the node's block at `fork` and another one at each height from
there up to `top`. -/
structure PartAt (env : ReorgEnv) (store : BlockStore) (top fork : ℕ) : Prop where
  shared : ∃ hash, localHashAt env store fork = some hash ∧ peerHashAt env fork = some hash
  differ : ∀ height, fork < height → height ≤ top → ∃ hash other,
    localHashAt env store height = some hash ∧ peerHashAt env height = some other ∧ hash ≠ other

theorem findForkPoint_iff (env : ReorgEnv) (store : BlockStore) {fork : ℕ} (steps : ℕ) :
    ∀ start, steps ≤ start → start-steps < fork →
      (findForkPoint env store steps start = some fork ↔
        fork ≤ start ∧ PartAt env store start fork) := by
  induction steps with
  | zero =>
    intro start _ hfork
    constructor
    · intro h
      obtain rfl := Option.some.inj h
      omega
    · rintro ⟨hle, -⟩
      omega
  | succ steps ih =>
    intro start hsteps hfork
    unfold findForkPoint
    constructor
    · intro h
      split at h
      · cases h
      · cases h
      rename_i peerHash localHash hpeer hlocal
      split at h
      · rename_i hsame
        obtain rfl := Option.some.inj h
        exact ⟨Nat.le_refl _, ⟨⟨localHash, hlocal, hsame ▸ hpeer⟩, fun height hlo hhi => by omega⟩⟩
      · rename_i hother
        rw [if_neg (by omega)] at h
        obtain ⟨hle, hpart⟩ := (ih (start-1) (by omega) (by omega)).mp h
        refine ⟨by omega, hpart.shared, fun height hlo hhi => ?_⟩
        by_cases htop : height = start
        · exact ⟨localHash, peerHash, htop ▸ hlocal, htop ▸ hpeer, hother⟩
        · exact hpart.differ height hlo (by omega)
    · rintro ⟨hle, hpart⟩
      by_cases htop : fork = start
      · obtain ⟨hash, hlocal, hpeer⟩ := hpart.shared
        rw [htop] at hlocal hpeer ⊢
        simp only [hlocal, hpeer, if_true]
      · obtain ⟨hash, other, hlocal, hpeer, hne⟩ :=
          hpart.differ start (by omega) (Nat.le_refl _)
        simp only [hlocal, hpeer, if_neg hne, if_neg (show start ≠ 0 by omega)]
        exact (ih (start-1) (by omega) (by omega)).mpr ⟨by omega, hpart.shared,
          fun height hlo hhi => hpart.differ height hlo (by omega)⟩

def abandoned (env : ReorgEnv) (x : Parts) (fork : ℕ) : List BlockRecord :=
  if env.rangeReadable then
    x.store.getRange (fork+1) x.cursor.height (x.cursor.height-fork+1)
  else []

/-- A peer with more work has the block `t` of the store and other blocks above
it, and nothing that the node reads or writes keeps it from going back there. -/
structure RollsBack (env : ReorgEnv) (x : Parts) (best : PeerStatus) (t : Tip) : Prop where
  client : env.client = true
  heaviest : selectBestPeer env.statuses x.state.genesisHash x.cursor.chainWork = some best
  high : x.cursor.height ≤ best.height
  below : t.height < x.cursor.height
  shallow : x.cursor.height-maxAutoReorgDepth < t.height
  epoch : x.cursor.adjuster.epochStartHeight ≤ t.height
  parts : PartAt env x.store x.cursor.height t.height
  block : ∃ b, blockAt env x.store t.height = some b ∧ hexTo32 b.blockHash = .ok t.hash ∧
    b.timestamp = t.timestamp
  seed : ∃ b, blockAt env x.store (governingCheckpointHeight t.height) = some b ∧
    hexTo32 b.btcSeed = .ok t.seed
  adjuster : t.adjuster = x.cursor.adjuster
  ledger : t.ledger = .openScoped x.ledger.csv t.height
  readable : env.ledgerReadable = true
  written : env.rollbackWritten = true

theorem rollsBack_of_plan {K : Primitives} {env : ReorgEnv} {x : Parts} {target : ℕ} {r : Rollback}
    (h : plan env x = .rollback target r) : ∃ best,
      RollsBack env x best (tipOf (publishRewound K (rewind x r) r.rolledBack)) ∧
      target = best.height ∧ r.rolledBack = abandoned env x r.forkPoint := by
  obtain ⟨best, fork, hclient, hbest, hhigh, htarget, hfork, hne, hfloor, hepoch, hr⟩ :=
    plan_rollback_iff.mp h
  obtain ⟨hle, hpart⟩ := (findForkPoint_iff env x.store _ _ (by omega) (by omega)).mp hfork
  obtain ⟨hblock, ⟨g, hg, hseed, -⟩, hl, hw, rfl, hrolled⟩ :=
    (planRollback_iff (by omega)).mp hr
  exact ⟨best,
    { client := hclient, heaviest := hbest, high := hhigh
      below := show r.forkPoint < x.cursor.height by omega
      shallow := hfloor, epoch := hepoch, parts := hpart, block := hblock
      seed := ⟨g, hg, hseed⟩, adjuster := rfl, ledger := rfl, readable := hl, written := hw },
    htarget, hrolled⟩

theorem plan_of_rollsBack {K : Primitives} {env : ReorgEnv} {x : Parts} {best : PeerStatus}
    {t : Tip} (h : RollsBack env x best t) : ∃ r, plan env x = .rollback best.height r ∧
      tipOf (publishRewound K (rewind x r) r.rolledBack) = t := by
  have hbelow := h.below
  have hshallow := h.shallow
  obtain ⟨b, hb, hhash, hts⟩ := h.block
  obtain ⟨g, hg, hseed⟩ := h.seed
  let r : Rollback :=
    { forkPoint := t.height
      rolledBack := abandoned env x t.height
      newTip := t.hash
      newTs := t.timestamp
      newSeed := t.seed
      newSeedTipHeight := g.btcHeight }
  have hr : planRollback env x t.height = some r :=
    (planRollback_iff (by omega)).mpr
      ⟨⟨b, hb, hhash, hts⟩, ⟨g, hg, hseed, rfl⟩, h.readable, h.written, rfl, rfl⟩
  have hfork := (findForkPoint_iff env x.store _ _
    (Nat.sub_le x.cursor.height (x.cursor.height-maxAutoReorgDepth)) (by omega)).mpr
    ⟨Nat.le_of_lt hbelow, h.parts⟩
  refine ⟨r, plan_rollback_iff.mpr ⟨best, t.height, h.client, h.heaviest, h.high, rfl, hfork,
    Nat.ne_of_lt hbelow, hshallow, h.epoch, hr⟩, ?_⟩
  show ({ height := t.height, hash := t.hash, timestamp := t.timestamp, seed := t.seed
          adjuster := x.cursor.adjuster, ledger := .openScoped x.ledger.csv t.height } : Tip) = t
  rw [← h.adjuster, ← h.ledger]

/-- Whenever the call goes back, the first records of the peer's replies are
blocks on top of the fork that weigh as much as the rows above it. -/
def WorkReplaced (K : Primitives) (env : ReorgEnv) (x : Parts) : Prop :=
  ∀ best t, RollsBack env x best t → ∃ records,
    records <+: offered best.height t.height env.pages ∧ Extends K env.sync.now t records ∧
    min x.cursor.chainWork (workOf (abandoned env x t.height)) ≤ totalWork records

theorem workReplaced_of_stays {K : Primitives} {env : ReorgEnv} {x : Parts}
    (h : ∀ target r, plan env x ≠ .rollback target r) : WorkReplaced K env x := by
  intro best t hb
  obtain ⟨r, hr, -⟩ := plan_of_rollsBack (K := K) hb
  exact absurd hr (h _ _)

theorem workReplaced_iff {K : Primitives} {env : ReorgEnv} {x : Parts} {target : ℕ} {r : Rollback}
    (h : plan env x = .rollback target r) : WorkReplaced K env x ↔
      min x.cursor.chainWork (workOf r.rolledBack) ≤ totalWork
        (adopted K env.sync target (publishRewound K (rewind x r) r.rolledBack) env.pages) := by
  constructor
  · intro hreplaced
    obtain ⟨best, hb, rfl, hrolled⟩ := rollsBack_of_plan (K := K) h
    obtain ⟨records, hp, he, hwork⟩ := hreplaced best _ hb
    rw [hrolled]
    exact Nat.le_trans hwork (totalWork_begins (adopted_longest hp he))
  · intro hwork best t hb
    obtain ⟨r', hr', rfl⟩ := plan_of_rollsBack (K := K) hb
    obtain ⟨rfl, rfl⟩ := Plan.rollback.inj (h.symm.trans hr')
    obtain ⟨-, -, -, hrolled⟩ := rollsBack_of_plan (K := K) h
    obtain ⟨hp, he⟩ := adopted_extends K env.sync best.height
      (publishRewound K (rewind x r) r.rolledBack) env.pages
    refine ⟨_, hp, he, ?_⟩
    show min x.cursor.chainWork (workOf (abandoned env x r.forkPoint)) ≤ _
    rw [← hrolled]
    exact hwork

/-- A call never leaves less work than it found exactly when the peer serves a
valid replacement that weighs as much as the blocks that were rolled back. -/
theorem reconcile_keeps_work_iff (K : Primitives) (env : ReorgEnv) (x : Parts)
    (hx : x.cursor.chainWork ≤ u128Max) (ha : x.state.chainWork = x.cursor.chainWork) :
    (x.cursor.chainWork ≤ (reconcileFork K env x).cursor.chainWork ∧
      x.state.chainWork ≤ (reconcileFork K env x).state.chainWork) ↔ WorkReplaced K env x := by
  unfold reconcileFork
  cases hp : plan env x with
  | stay =>
    have hreplaced : WorkReplaced K env x := workReplaced_of_stays (by simp [hp])
    simp [hreplaced]
  | extend target =>
    have hreplaced : WorkReplaced K env x := workReplaced_of_stays (by simp [hp])
    obtain ⟨hw, hag⟩ := sync_work K env.sync target env.pages x hx ha
    unfold Agrees at hag
    rw [hag, hw, ha]
    simp only [and_self, hreplaced, iff_true]
    unfold satAdd128
    omega
  | rollback target r =>
    rw [workReplaced_iff hp]
    have hr : (publishRewound K (rewind x r) r.rolledBack).cursor.chainWork =
        x.cursor.chainWork-workOf r.rolledBack := rfl
    obtain ⟨hw, hag⟩ := sync_work K env.sync target env.pages
      (publishRewound K (rewind x r) r.rolledBack) (by omega) rfl
    unfold Agrees at hag
    rw [hag, hw, ha, hr]
    simp only [and_self]
    unfold satAdd128
    omega

def toySilentPeer (x : Parts) : ReorgEnv where
  client := true
  statuses := [{ height := 2, genesisHash := x.state.genesisHash, chainWork := u128Max }]
  probe h := if h = 2 then
      some [{ toyRecord 3 9 x [] with height := 2 }]
    else (x.store.get h).map fun r => [r]
  pages := []
  sync := toyEnv
  hashReadable _ := true
  blockReadable _ := true
  rangeReadable := true
  ledgerReadable := true
  rollbackWritten := true

def toyTwoBlocks : Parts := toyExtend 2 7 toyFirst

def toyServingPeer (x : Parts) : ReorgEnv :=
  let second := toyRecord 3 8 toyFirst []
  { toySilentPeer x with
    statuses := [{ height := 3, genesisHash := x.state.genesisHash, chainWork := 3*2^25 }]
    probe := fun h => if h = 2 then some [second] else (x.store.get h).map fun r => [r]
    pages := [some [second, toyRecord 3 8 (toyExtend 3 8 toyFirst) []]] }

def toyKept (env : ReorgEnv) : Prop :=
  toyTwoBlocks.cursor.chainWork ≤
      (reconcileFork toyPrimitives env toyTwoBlocks).cursor.chainWork ∧
    toyTwoBlocks.state.chainWork ≤ (reconcileFork toyPrimitives env toyTwoBlocks).state.chainWork

instance (env : ReorgEnv) : Decidable (toyKept env) :=
  inferInstanceAs (Decidable (_ ∧ _))

set_option maxRecDepth 100000 in
theorem toyTwoBlocks_facts :
    toyTwoBlocks.state.chainWork = 2^26 ∧ toyTwoBlocks.cursor.chainWork = 2^26 ∧
      toyKept (toyServingPeer toyTwoBlocks) ∧
      (reconcileFork toyPrimitives (toySilentPeer toyTwoBlocks) toyTwoBlocks).cursor.chainWork =
        2^25 := by
  decide +kernel

theorem reconcile_keeps_work_iff_sample :
    toyKept (toyServingPeer toyTwoBlocks) ∧
      WorkReplaced toyPrimitives (toyServingPeer toyTwoBlocks) toyTwoBlocks ∧
      ¬ WorkReplaced toyPrimitives (toySilentPeer toyTwoBlocks) toyTwoBlocks := by
  obtain ⟨hstate, hcursor, hkept, hlost⟩ := toyTwoBlocks_facts
  have hiff : ∀ env, toyKept env ↔ WorkReplaced toyPrimitives env toyTwoBlocks := fun env =>
    reconcile_keeps_work_iff toyPrimitives env toyTwoBlocks
      (by rw [hcursor]; decide) (by rw [hstate, hcursor])
  refine ⟨hkept, (hiff _).mp hkept, fun h => ?_⟩
  have hle := ((hiff _).mpr h).1
  rw [hcursor, hlost] at hle
  omega

theorem silent_peer_halves_work :
    let x := toyTwoBlocks
    let y := reconcileFork toyPrimitives (toySilentPeer x) x
    x.cursor.chainWork = 2^26 ∧ y.cursor.chainWork = 2^25 :=
  ⟨toyTwoBlocks_facts.2.1, toyTwoBlocks_facts.2.2.2⟩

end BinaChain.ChainWork
