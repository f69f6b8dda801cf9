import BinaChain.Node.System

/-!
# Whole calls as runs of the machine

A synchronisation, a reorganisation or an accepted submission with nothing in
between is a run of the machine's steps, so what holds on every run holds
after the call.
-/

set_option autoImplicit false

namespace BinaChain.Calls
open BinaChain.Word BinaChain.Crypto BinaChain.Rewards BinaChain.State BinaChain.Machine
open BinaChain.Store BinaChain.Admission BinaChain.Mining BinaChain.Sync BinaChain.Reconcile
open BinaChain.System Std

/-- The node with other parts, between two blocks. -/
def settledOn (n : Node) (x : Parts) : Node :=
  { n with state := x.state, ledger := x.ledger, store := x.store, cursor := x.cursor
           phase := .idle }

variable {K : Primitives} {wallet : WalletPublicKey}

theorem record_reach {env : SyncEnv} {n : Node} {x x' : Parts} {r : BlockRecord}
    (hh : r.height ≤ u64Max) (hs : syncRecord K env x r = some x') :
    Reach (step K wallet) (settledOn n x) (settledOn n x') := by
  obtain ⟨claim, hc, rfl⟩ := Option.map_eq_some_iff.mp hs
  have hadopt : step K wallet (settledOn n x)
      (.loop (.adopt (env.now r.height) (env.stored r.height) r)) =
      some { settledOn n (applyRecord K (env.stored r.height) x r claim) with
        phase := .adopting r } := by
    have hc' : checkRecord K (settledOn n x).cursor (settledOn n x).ledger (env.now r.height) r =
        some claim := hc
    simp only [step, loopStep, hc']
    exact if_pos hh
  exact (Run.single trivial hadopt).tail (e := .loop .publishAdopted) trivial rfl

theorem page_reach {env : SyncEnv} {n : Node} {page : List BlockRecord}
    (hh : ∀ r ∈ page, r.height ≤ u64Max) (x : Parts) :
    Reach (step K wallet) (settledOn n x) (settledOn n (syncPage K env x page).1) := by
  induction page generalizing x with
  | nil => exact .refl _
  | cons r rest ih =>
    rw [syncPage]
    cases hs : syncRecord K env x r with
    | none => exact .refl _
    | some x' =>
      exact (record_reach (hh r List.mem_cons_self) hs).trans
        (ih (fun r hr => hh r (List.mem_cons_of_mem _ hr)) x')

def WordHeights (replies : List (Option (List BlockRecord))) : Prop :=
  ∀ page, some page ∈ replies → ∀ r ∈ page, r.height ≤ u64Max

theorem sync_reach {env : SyncEnv} {n : Node} {target : ℕ}
    {replies : List (Option (List BlockRecord))} (hh : WordHeights replies) (x : Parts) :
    Reach (step K wallet) (settledOn n x)
      (settledOn n (syncForwardFromPeer K env target x replies)) := by
  induction replies generalizing x with
  | nil => exact .refl _
  | cons reply replies ih =>
    have hrest : WordHeights replies := fun page hp => hh page (List.mem_cons_of_mem _ hp)
    unfold syncForwardFromPeer
    split
    · exact .refl _
    · split
      · exact .refl _
      · exact .refl _
      · rename_i page _
        have hpage : Reach (step K wallet) (settledOn n x)
            (settledOn n (syncPage K env x page).1) :=
          page_reach (fun r hr => hh _ List.mem_cons_self r hr) x
        dsimp only
        split
        · exact hpage
        · exact hpage.trans (ih hrest _)

/-- A reorganisation is a run, its rollback and each adopted record included. -/
theorem reconcile_reach {env : ReorgEnv} {n : Node} (hh : WordHeights env.pages) (x : Parts) :
    Reach (step K wallet) (settledOn n x) (settledOn n (reconcileFork K env x)) := by
  unfold reconcileFork
  cases hp : plan env x with
  | stay => exact .refl _
  | extend target => exact sync_reach hh x
  | rollback target r =>
    have hrewind : step K wallet (settledOn n x) (.loop (.rewind env)) =
        some { settledOn n (rewind x r) with phase := .rewound r.rolledBack } := by
      have hp' : plan env (settledOn n x).parts = .rollback target r := hp
      simp only [step, loopStep, hp']
      rfl
    have hback : Reach (step K wallet) (settledOn n x)
        (settledOn n (publishRewound K (rewind x r) r.rolledBack)) :=
      (Run.single trivial hrewind).tail (e := .loop .publishRewound) trivial rfl
    exact hback.trans (sync_reach hh _)

/-- An accepted claim has gone through the locks of its request. -/
theorem submission_reach {n : Node} {now : ℕ} {p : PendingClaim} {a : AcceptedClaim}
    (hl : n.ledgerLocked = false) (hp : n.poisoned = false)
    (ha : (acceptSignedClaim K n.state n.ledger now p).1 = .ok a) :
    ∃ n', Reach (step K wallet) n n' ∧ n'.phase = n.phase ∧
      n'.parts = { n.parts with state := (acceptSignedClaim K n.state n.ledger now p).2 } := by
  obtain ⟨hok, hm⟩ := accepted_acceptable ha
  let reward := blockReward p.height n.state.totalMinedBina
  have hscreen := screen_ok.mpr hok.screened
  have htip : checkTip K n.state now p = .ok reward :=
    checkTip_ok.mpr ⟨hok.genesis, hok.extends_tip, hok.notFuture, hok.seed, rfl⟩
  have hexec : checkExecution K n.ledger p reward = .ok () := checkExecution_ok.mpr hok.executes
  let n₁ := enroll n (.tipChecked p reward)
  let n₂ : Node := { n₁ with requests := n₁.requests.insert n.nextRequest (.executionChecked p) }
  let n₃ : Node :=
    { n₂ with state := n.state.register p, requests := n₂.requests.erase n.nextRequest }
  have hsubmit : step K wallet n (.client (.submit p now)) = some n₁ := by
    simp [step, hp, clientStep, hscreen, htip, n₁]
  have hcheck : step K wallet n₁ (.client (.checkExecution n.nextRequest)) = some n₂ := by
    have hl₁ : n₁.ledgerLocked = false := hl
    have hp₁ : n₁.poisoned = false := hp
    have hreq : n₁.requests[n.nextRequest]? = some (.tipChecked p reward) := by
      simp [n₁, enroll]
    have hexec₁ : checkExecution K n₁.ledger p reward = .ok () := hexec
    simp [step, hp₁, clientStep, hreq, hl₁, hexec₁, n₂]
  have henter : step K wallet n₂ (.client (.enter n.nextRequest)) = some n₃ := by
    have hp₂ : n₂.poisoned = false := hp
    have hreq : n₂.requests[n.nextRequest]? = some (.executionChecked p) := by simp [n₂]
    have hm₂ : (enterCandidate n₂.state p).2 = n.state.register p := by
      have : (enterCandidate n.state p).2 = n.state.register p := by simp [enterCandidate, hm]
      exact this
    simp [step, hp₂, clientStep, hreq, hm₂, n₃]
  refine ⟨n₃, ((Run.single trivial hsubmit).tail trivial hcheck).tail trivial henter, rfl, ?_⟩
  rw [acceptSignedClaim_accepted hok hm]
  rfl

end BinaChain.Calls
