import BinaChain.Core.Block
import BinaChain.Support.Balances
import BinaChain.Support.Schedule
import Mathlib.Algebra.BigOperators.Fin

/-!
# The search for a nonce

The workers stripe the nonces between them and share a flag, a counter and the
winning nonce. A step is one access to what they share; a read of the flag may
return its old value, as a relaxed load may.
-/

set_option autoImplicit false

namespace BinaChain.Pow
open BinaChain.Word BinaChain.Crypto BinaChain.Block BinaChain.Machine BinaChain.Schedule

def flushInterval : ℕ := 500000

def template (height : ℕ) (prevHash merkleRoot stateRoot : Hash) (minerAddress : WalletAddress)
    (bitcoinSeedHash : Hash) (difficultyBits timestamp : ℕ) : L1BlockHeader where
  version := 1
  height
  prevHash
  merkleRoot
  stateRoot
  timestamp
  nonce := 0
  minerAddress
  difficultyBits
  bitcoinSeedHash

/-- The access that a worker makes next. -/
inductive Stage where
  | checking
  | flushing
  | signalling
  | counting
  | announcing
  | stopping
  | done
  deriving DecidableEq

structure Worker where
  nonce : ℕ
  hashes : ℕ
  stage : Stage

structure Search (threads : ℕ) where
  found : Bool
  winner : Option ℕ
  totalHashes : ℕ
  workers : Fin threads → Worker

/-- The worker that goes on, and whether a read of the flag is up to date. -/
abbrev Turn (threads : ℕ) := Fin threads × Bool

variable {threads : ℕ}

def start (threads : ℕ) : Search threads where
  found := false
  winner := none
  totalHashes := 0
  workers tid := { nonce := wrapAdd tid 0, hashes := 0, stage := .checking }

def Search.put (s : Search threads) (tid : Fin threads) (w : Worker) : Search threads :=
  { s with workers := Function.update s.workers tid w }

def meets (K : Primitives) (header : L1BlockHeader) (nonce : ℕ) : Bool :=
  meetsDifficulty (({ header with nonce } : L1BlockHeader).hash K) header.difficultyBits

def tries (s : Search threads) (turn : Turn threads) : Bool :=
  (s.workers turn.1).stage = .checking && !(s.found && turn.2)

def tried (K : Primitives) (header : L1BlockHeader) (threads : ℕ) (w : Worker) : Worker :=
  let hashes := w.hashes+1
  if meets K header w.nonce then { w with hashes, stage := .signalling }
  else
    { nonce := wrapAdd w.nonce threads
      hashes
      stage := if hashes%flushInterval = 0 then .flushing else .checking }

def step (K : Primitives) (header : L1BlockHeader) (s : Search threads) (turn : Turn threads) :
    Option (Search threads) :=
  let w := s.workers turn.1
  match w.stage with
  | .checking => some (s.put turn.1
      (if s.found && turn.2 then { w with stage := .stopping } else tried K header threads w))
  | .flushing => some
      { s.put turn.1 { w with hashes := 0, stage := .checking } with
        totalHashes := wrapAdd s.totalHashes w.hashes }
  | .signalling => some { s.put turn.1 { w with stage := .counting } with found := true }
  | .counting => some
      { s.put turn.1 { w with stage := .announcing } with
        totalHashes := wrapAdd s.totalHashes w.hashes }
  | .announcing => some { s.put turn.1 { w with stage := .done } with winner := some w.nonce }
  | .stopping => some
      { s.put turn.1 { w with stage := .done } with
        totalHashes := wrapAdd s.totalHashes w.hashes }
  | .done => none

structure MineResult where
  block : L1BlockHeader
  hashesTried : ℕ

/-- The result, once every worker has been joined. -/
def mineBlock (header : L1BlockHeader) (s : Search threads) : Option MineResult :=
  if ∀ tid, (s.workers tid).stage = .done then
    some { block := { header with nonce := s.winner.getD 0 }, hashesTried := s.totalHashes }
  else none

abbrev Log (threads : ℕ) := List (Fin threads × ℕ)

def note (s : Search threads) (turn : Turn threads) (_ : Search threads) (log : Log threads) :
    Log threads :=
  if tries s turn then (turn.1, (s.workers turn.1).nonce) :: log else log

def triedBy (tid : Fin threads) (log : Log threads) : List ℕ :=
  (log.filter fun e => e.1 = tid).map Prod.snd

def stripe (threads tid round : ℕ) : ℕ := (tid+round*threads)%0x10000000000000000

def stripes (threads tid : ℕ) : ℕ → List ℕ
  | 0 => []
  | rounds+1 => stripe threads tid rounds :: stripes threads tid rounds

def Stage.searching : Stage → Bool
  | .checking | .flushing | .stopping => true
  | _ => false

def Stage.holding : Stage → Bool
  | .signalling | .counting | .announcing => true
  | _ => false

def Stage.late : Stage → Bool
  | .counting | .announcing | .stopping | .done => true
  | _ => false

def Worker.unreported (w : Worker) : ℕ :=
  match w.stage with
  | .announcing | .done => 0
  | _ => w.hashes

structure Explored (K : Primitives) (header : L1BlockHeader) (tid : Fin threads) (w : Worker)
    (nonces : List ℕ) : Prop where
  striped : nonces = stripes threads tid nonces.length
  once : ∀ n ∈ nonces.tail, meets K header n = false
  ahead : w.stage = .checking ∨ w.stage = .flushing → w.nonce = stripe threads tid nonces.length
  missed : w.stage.searching = true → ∀ n ∈ nonces, meets K header n = false
  hit : w.stage.holding = true → nonces.head? = some w.nonce ∧ meets K header w.nonce = true
  short : w.hashes ≤ flushInterval
  unfull : w.stage = .checking → w.hashes < flushInterval

structure Sound (K : Primitives) (header : L1BlockHeader) (x : Search threads × Log threads) :
    Prop where
  explored : ∀ tid, Explored K header tid (x.1.workers tid) (triedBy tid x.2)
  late : ∀ tid, (x.1.workers tid).stage.late = true → x.1.found = true
  found : x.1.found = true → x.1.winner ≠ none ∨
    ∃ tid, (x.1.workers tid).stage = .counting ∨ (x.1.workers tid).stage = .announcing
  winner : ∀ n ∈ x.1.winner, ∃ tid, (x.1.workers tid).stage = .done ∧
    (triedBy tid x.2).head? = some n ∧ meets K header n = true
  counted : (x.1.totalHashes+∑ tid, (x.1.workers tid).unreported)%0x10000000000000000 =
    x.2.length%0x10000000000000000

inductive Acts (K : Primitives) (header : L1BlockHeader) (s : Search threads) (tid : Fin threads) :
    Bool → Search threads → Prop
  | hash {fresh : Bool} (hstage : (s.workers tid).stage = .checking)
      (htries : tries s (tid, fresh) = true) :
      Acts K header s tid fresh (s.put tid (tried K header threads (s.workers tid)))
  | stop {fresh : Bool} (hstage : (s.workers tid).stage = .checking) (hfound : s.found = true)
      (htries : tries s (tid, fresh) = false) :
      Acts K header s tid fresh (s.put tid { s.workers tid with stage := .stopping })
  | flush {fresh : Bool} (hstage : (s.workers tid).stage = .flushing) :
      Acts K header s tid fresh
        { s.put tid { s.workers tid with hashes := 0, stage := .checking } with
          totalHashes := wrapAdd s.totalHashes (s.workers tid).hashes }
  | signal {fresh : Bool} (hstage : (s.workers tid).stage = .signalling) :
      Acts K header s tid fresh
        { s.put tid { s.workers tid with stage := .counting } with found := true }
  | count {fresh : Bool} (hstage : (s.workers tid).stage = .counting) :
      Acts K header s tid fresh
        { s.put tid { s.workers tid with stage := .announcing } with
          totalHashes := wrapAdd s.totalHashes (s.workers tid).hashes }
  | announce {fresh : Bool} (hstage : (s.workers tid).stage = .announcing) :
      Acts K header s tid fresh
        { s.put tid { s.workers tid with stage := .done } with
          winner := some (s.workers tid).nonce }
  | leave {fresh : Bool} (hstage : (s.workers tid).stage = .stopping) :
      Acts K header s tid fresh
        { s.put tid { s.workers tid with stage := .done } with
          totalHashes := wrapAdd s.totalHashes (s.workers tid).hashes }

theorem step_acts {K : Primitives} {header : L1BlockHeader} {s s' : Search threads}
    {tid : Fin threads} {fresh : Bool} (h : step K header s (tid, fresh) = some s') :
    Acts K header s tid fresh s' := by
  unfold step at h
  cases hstage : (s.workers tid).stage with
  | checking =>
    simp only [hstage] at h
    obtain rfl := Option.some.inj h
    by_cases hread : (s.found && fresh) = true
    · rw [if_pos hread]
      have hfound := (Bool.and_eq_true_iff.mp hread).1
      exact .stop hstage hfound (by simp [tries, hstage, hread])
    · rw [if_neg hread]
      exact .hash hstage (by cases hf : s.found <;> cases fresh <;> simp_all [tries])
  | flushing =>
    simp only [hstage] at h
    obtain rfl := Option.some.inj h
    exact .flush hstage
  | signalling =>
    simp only [hstage] at h
    obtain rfl := Option.some.inj h
    exact .signal hstage
  | counting =>
    simp only [hstage] at h
    obtain rfl := Option.some.inj h
    exact .count hstage
  | announcing =>
    simp only [hstage] at h
    obtain rfl := Option.some.inj h
    exact .announce hstage
  | stopping =>
    simp only [hstage] at h
    obtain rfl := Option.some.inj h
    exact .leave hstage
  | done =>
    simp only [hstage] at h
    cases h

theorem tries_of_stage {s : Search threads} {turn : Turn threads}
    (h : (s.workers turn.1).stage ≠ .checking) : tries s turn = false := by
  simp [tries, h]

@[simp] theorem put_self (s : Search threads) (tid : Fin threads) (w : Worker) :
    (s.put tid w).workers tid = w := Function.update_self _ _ _

theorem put_other (s : Search threads) {tid i : Fin threads} (h : i ≠ tid) (w : Worker) :
    (s.put tid w).workers i = s.workers i := Function.update_of_ne h _ _

theorem triedBy_cons (tid : Fin threads) (e : Fin threads × ℕ) (log : Log threads) :
    triedBy tid (e :: log) = if e.1 = tid then e.2 :: triedBy tid log else triedBy tid log := by
  unfold triedBy
  by_cases h : e.1 = tid
  · simp [h]
  · simp [h]

theorem unreported_put (s : Search threads) (tid : Fin threads) (w : Worker) :
    (∑ i, ((s.put tid w).workers i).unreported)+(s.workers tid).unreported =
      (∑ i, (s.workers i).unreported)+w.unreported := by
  have happly (i : Fin threads) : ((s.put tid w).workers i).unreported =
      Function.update (fun i => (s.workers i).unreported) tid w.unreported i :=
    Function.apply_update (fun _ => Worker.unreported) s.workers tid w i
  rw [Finset.sum_congr rfl fun i _ => happly i]
  exact Balances.total_update (fun i => (s.workers i).unreported) tid w.unreported

theorem stripe_zero (tid : ℕ) : wrapAdd tid 0 = stripe threads tid 0 := by
  simp [wrapAdd, stripe]

theorem stripe_succ (tid round : ℕ) :
    wrapAdd (stripe threads tid round) threads = stripe threads tid (round+1) := by
  unfold wrapAdd stripe
  rw [Nat.mod_add_mod, Nat.add_assoc, Nat.succ_mul]

theorem mem_stripes {tid rounds n : ℕ} :
    n ∈ stripes threads tid rounds ↔ ∃ round < rounds, n = stripe threads tid round := by
  induction rounds with
  | zero => simp [stripes]
  | succ rounds ih =>
    rw [stripes, List.mem_cons, ih]
    constructor
    · rintro (rfl | ⟨round, hround, rfl⟩)
      · exact ⟨rounds, Nat.lt_succ_self rounds, rfl⟩
      · exact ⟨round, hround.trans (Nat.lt_succ_self rounds), rfl⟩
    · rintro ⟨round, hround, rfl⟩
      rcases Nat.lt_succ_iff_lt_or_eq.mp hround with hlt | rfl
      · exact .inr ⟨round, hlt, rfl⟩
      · exact .inl rfl

section Explored

variable {K : Primitives} {header : L1BlockHeader} {tid : Fin threads} {w w' : Worker}
  {nonces : List ℕ}

theorem Explored.start (tid : Fin threads) :
    Explored K header tid ((start threads).workers tid) [] where
  striped := rfl
  once := by simp
  ahead _ := stripe_zero tid.val
  missed _ := by simp
  hit h := by cases h
  short := Nat.zero_le _
  unfull _ := by simp [Pow.start, flushInterval]

theorem Explored.pass (h : Explored K header tid w nonces) (hnonce : w'.nonce = w.nonce)
    (hahead : w'.stage = .checking ∨ w'.stage = .flushing →
      w.stage = .checking ∨ w.stage = .flushing)
    (hsearching : w'.stage.searching = true → w.stage.searching = true)
    (hholding : w'.stage.holding = true → w.stage.holding = true)
    (hshort : w'.hashes ≤ w.hashes) (hunfull : w'.stage = .checking → w'.hashes = 0) :
    Explored K header tid w' nonces where
  striped := h.striped
  once := h.once
  ahead hs := hnonce ▸ h.ahead (hahead hs)
  missed hs := h.missed (hsearching hs)
  hit hs := hnonce ▸ h.hit (hholding hs)
  short := hshort.trans h.short
  unfull hs := by
    rw [hunfull hs]
    decide

theorem Explored.hash (h : Explored K header tid w nonces) (hstage : w.stage = .checking) :
    Explored K header tid (tried K header threads w) (w.nonce :: nonces) := by
  have hnonce := h.ahead (.inl hstage)
  have hmissed := h.missed (by rw [hstage]; rfl)
  have hroom := h.unfull hstage
  have hstriped : w.nonce :: nonces = stripes threads tid (w.nonce :: nonces).length := by
    rw [List.length_cons, stripes, ← hnonce, ← h.striped]
  unfold tried
  by_cases hmeets : meets K header w.nonce = true
  · rw [if_pos hmeets]
    exact
      { striped := hstriped
        once := hmissed
        ahead := by simp
        missed := by simp [Stage.searching]
        hit := fun _ => ⟨rfl, hmeets⟩
        short := hroom
        unfull := by simp }
  · rw [if_neg hmeets]
    have hall : ∀ n ∈ w.nonce :: nonces, meets K header n = false := by
      intro n hn
      rcases List.mem_cons.mp hn with rfl | hn
      · exact Bool.eq_false_iff.mpr hmeets
      · exact hmissed n hn
    exact
      { striped := hstriped
        once := hmissed
        ahead := fun _ => by rw [hnonce, stripe_succ, List.length_cons]
        missed := fun _ => hall
        hit := fun hs => by split at hs <;> cases hs
        short := hroom
        unfull := fun hs => by
          have hne : (w.hashes+1)%flushInterval ≠ 0 := by
            intro hz
            simp [hz] at hs
          have hlt : w.hashes+1 ≠ flushInterval := by
            intro heq
            exact hne (by rw [heq, Nat.mod_self])
          show w.hashes+1 < flushInterval
          omega }

end Explored

section Step

variable {K : Primitives} {header : L1BlockHeader} {s s' : Search threads} {tid : Fin threads}
  {fresh : Bool} {log : Log threads}

theorem note_idle (h : tries s (tid, fresh) = false) : note s (tid, fresh) s' log = log := by
  simp [note, h]

theorem note_tries (h : tries s (tid, fresh) = true) :
    note s (tid, fresh) s' log = (tid, (s.workers tid).nonce) :: log := by
  simp [note, h]

theorem triedBy_note_other {i : Fin threads} (h : i ≠ tid) :
    triedBy i (note s (tid, fresh) s' log) = triedBy i log := by
  unfold note
  split
  · rw [triedBy_cons, if_neg (Ne.symm h)]
  · rfl

theorem Acts.workers_other (h : Acts K header s tid fresh s') {i : Fin threads} (hi : i ≠ tid) :
    s'.workers i = s.workers i := by
  cases h <;> exact put_other s hi _

theorem Acts.explored (h : Acts K header s tid fresh s')
    (hs : ∀ i, Explored K header i (s.workers i) (triedBy i log)) (i : Fin threads) :
    Explored K header i (s'.workers i) (triedBy i (note s (tid, fresh) s' log)) := by
  by_cases hi : i = tid
  · subst hi
    have hw := hs i
    cases h with
    | hash hstage htries =>
      rw [note_tries htries, triedBy_cons, if_pos rfl, put_self]
      exact hw.hash hstage
    | stop hstage hfound htries =>
      rw [note_idle htries, put_self]
      exact hw.pass rfl (by simp) (by simp [hstage, Stage.searching]) (by simp [Stage.holding])
        le_rfl (by simp)
    | flush hstage =>
      rw [note_idle (tries_of_stage (by simp [hstage])), show _ = _ from put_self s i _]
      exact hw.pass rfl (by simp [hstage]) (by simp [hstage, Stage.searching])
        (by simp [Stage.holding]) (Nat.zero_le _) (fun _ => rfl)
    | signal hstage =>
      rw [note_idle (tries_of_stage (by simp [hstage])), show _ = _ from put_self s i _]
      exact hw.pass rfl (by simp) (by simp [Stage.searching]) (by simp [hstage, Stage.holding])
        le_rfl (by simp)
    | count hstage =>
      rw [note_idle (tries_of_stage (by simp [hstage])), show _ = _ from put_self s i _]
      exact hw.pass rfl (by simp) (by simp [Stage.searching]) (by simp [hstage, Stage.holding])
        le_rfl (by simp)
    | announce hstage =>
      rw [note_idle (tries_of_stage (by simp [hstage])), show _ = _ from put_self s i _]
      exact hw.pass rfl (by simp) (by simp [Stage.searching]) (by simp [Stage.holding])
        le_rfl (by simp)
    | leave hstage =>
      rw [note_idle (tries_of_stage (by simp [hstage])), show _ = _ from put_self s i _]
      exact hw.pass rfl (by simp) (by simp [Stage.searching]) (by simp [Stage.holding])
        le_rfl (by simp)
  · rw [h.workers_other hi, triedBy_note_other hi]
    exact hs i

theorem Acts.found_mono (h : Acts K header s tid fresh s') (hs : s.found = true) :
    s'.found = true := by
  cases h with
  | signal hstage => rfl
  | hash | stop | flush | count | announce | leave => exact hs

theorem Acts.late (h : Acts K header s tid fresh s')
    (hs : ∀ i, (s.workers i).stage.late = true → s.found = true) (i : Fin threads)
    (hlate : (s'.workers i).stage.late = true) : s'.found = true := by
  by_cases hi : i = tid
  · subst hi
    cases h with
    | hash hstage htries =>
      rw [put_self, tried] at hlate
      split at hlate
      · cases hlate
      · simp only at hlate
        split at hlate <;> cases hlate
    | stop hstage hfound htries => exact hfound
    | flush hstage =>
      rw [show _ = _ from put_self s i _] at hlate
      cases hlate
    | signal hstage => rfl
    | count hstage => exact hs i (by rw [hstage]; rfl)
    | announce hstage => exact hs i (by rw [hstage]; rfl)
    | leave hstage => exact hs i (by rw [hstage]; rfl)
  · rw [h.workers_other hi] at hlate
    exact h.found_mono (hs i hlate)

theorem Acts.found (h : Acts K header s tid fresh s')
    (hs : s.found = true → s.winner ≠ none ∨
      ∃ i, (s.workers i).stage = .counting ∨ (s.workers i).stage = .announcing)
    (hfound : s'.found = true) : s'.winner ≠ none ∨
      ∃ i, (s'.workers i).stage = .counting ∨ (s'.workers i).stage = .announcing := by
  have hother {stage : Stage} (hstage : (s.workers tid).stage = stage)
      (hc : stage ≠ .counting) (ha : stage ≠ .announcing) (hf : s.found = true)
      (hw : s'.winner = s.winner) : s'.winner ≠ none ∨
        ∃ i, (s'.workers i).stage = .counting ∨ (s'.workers i).stage = .announcing := by
    rcases hs hf with hwin | ⟨i, hi⟩
    · exact .inl (hw ▸ hwin)
    · have hne : i ≠ tid := by
        rintro rfl
        rcases hi with hi | hi
        · exact hc (hstage.symm.trans hi)
        · exact ha (hstage.symm.trans hi)
      refine .inr ⟨i, ?_⟩
      rw [h.workers_other hne]
      exact hi
  cases h with
  | hash hstage htries => exact hother hstage (by simp) (by simp) hfound rfl
  | stop hstage hf htries => exact hother hstage (by simp) (by simp) hf rfl
  | flush hstage => exact hother hstage (by simp) (by simp) hfound rfl
  | signal hstage => exact .inr ⟨tid, .inl (congrArg Worker.stage (put_self s tid _))⟩
  | count hstage => exact .inr ⟨tid, .inr (congrArg Worker.stage (put_self s tid _))⟩
  | announce hstage => exact .inl (by simp)
  | leave hstage => exact hother hstage (by simp) (by simp) hfound rfl

theorem Acts.winner (h : Acts K header s tid fresh s')
    (he : ∀ i, Explored K header i (s.workers i) (triedBy i log))
    (hs : ∀ n ∈ s.winner, ∃ i, (s.workers i).stage = .done ∧
      (triedBy i log).head? = some n ∧ meets K header n = true) (n : ℕ) (hn : n ∈ s'.winner) :
    ∃ i, (s'.workers i).stage = .done ∧
      (triedBy i (note s (tid, fresh) s' log)).head? = some n ∧ meets K header n = true := by
  have hother (hstage : (s.workers tid).stage ≠ .done) (hw : n ∈ s.winner) :
      ∃ i, (s'.workers i).stage = .done ∧
        (triedBy i (note s (tid, fresh) s' log)).head? = some n ∧ meets K header n = true := by
    obtain ⟨i, hdone, hhead, hmeets⟩ := hs n hw
    have hne : i ≠ tid := by
      rintro rfl
      exact hstage hdone
    refine ⟨i, ?_, ?_, hmeets⟩
    · rw [h.workers_other hne]
      exact hdone
    · rw [triedBy_note_other hne]
      exact hhead
  cases h with
  | hash hstage htries => exact hother (by simp [hstage]) hn
  | stop hstage hf htries => exact hother (by simp [hstage]) hn
  | flush hstage => exact hother (by simp [hstage]) hn
  | signal hstage => exact hother (by simp [hstage]) hn
  | count hstage => exact hother (by simp [hstage]) hn
  | announce hstage =>
    obtain rfl : (s.workers tid).nonce = n := Option.some.inj hn
    have hhit := (he tid).hit (by rw [hstage]; rfl)
    refine ⟨tid, congrArg Worker.stage (put_self s tid _), ?_, hhit.2⟩
    rw [note_idle (tries_of_stage (by simp [hstage]))]
    exact hhit.1
  | leave hstage => exact hother (by simp [hstage]) hn

theorem unreported_tried (w : Worker) (hstage : w.stage = .checking) :
    (tried K header threads w).unreported = w.unreported+1 := by
  have hw : w.unreported = w.hashes := by simp [Worker.unreported, hstage]
  rw [hw]
  unfold tried
  split
  · rfl
  · dsimp only [Worker.unreported]
    split <;> rename_i heq
    · split at heq <;> cases heq
    · split at heq <;> cases heq
    · rfl

theorem Acts.counted (h : Acts K header s tid fresh s')
    (hs : (s.totalHashes+∑ i, (s.workers i).unreported)%0x10000000000000000 =
      log.length%0x10000000000000000) :
    (s'.totalHashes+∑ i, (s'.workers i).unreported)%0x10000000000000000 =
      (note s (tid, fresh) s' log).length%0x10000000000000000 := by
  cases h with
  | hash hstage htries =>
    rw [note_tries htries, List.length_cons]
    have hput := unreported_put s tid (tried K header threads (s.workers tid))
    rw [unreported_tried _ hstage] at hput
    show (s.totalHashes+_)%_ = _
    omega
  | stop hstage hf htries =>
    rw [note_idle htries]
    have hput := unreported_put s tid { s.workers tid with stage := .stopping }
    have hold : (s.workers tid).unreported = (s.workers tid).hashes := by
      simp [Worker.unreported, hstage]
    have hnew : Worker.unreported { s.workers tid with stage := .stopping } =
      (s.workers tid).hashes := rfl
    show (s.totalHashes+_)%_ = _
    omega
  | flush hstage =>
    rw [note_idle (tries_of_stage (by simp [hstage]))]
    have hput := unreported_put s tid { s.workers tid with hashes := 0, stage := .checking }
    have hold : (s.workers tid).unreported = (s.workers tid).hashes := by
      simp [Worker.unreported, hstage]
    have hnew : Worker.unreported { s.workers tid with hashes := 0, stage := .checking } = 0 := rfl
    show (wrapAdd s.totalHashes (s.workers tid).hashes+∑ i, ((s.put tid _).workers i).unreported)%_
      = _
    unfold wrapAdd
    omega
  | signal hstage =>
    rw [note_idle (tries_of_stage (by simp [hstage]))]
    have hput := unreported_put s tid { s.workers tid with stage := .counting }
    have hold : (s.workers tid).unreported = (s.workers tid).hashes := by
      simp [Worker.unreported, hstage]
    have hnew : Worker.unreported { s.workers tid with stage := .counting } =
      (s.workers tid).hashes := rfl
    show (s.totalHashes+∑ i, ((s.put tid _).workers i).unreported)%_ = _
    omega
  | count hstage =>
    rw [note_idle (tries_of_stage (by simp [hstage]))]
    have hput := unreported_put s tid { s.workers tid with stage := .announcing }
    have hold : (s.workers tid).unreported = (s.workers tid).hashes := by
      simp [Worker.unreported, hstage]
    have hnew : Worker.unreported { s.workers tid with stage := .announcing } = 0 := rfl
    show (wrapAdd s.totalHashes (s.workers tid).hashes+∑ i, ((s.put tid _).workers i).unreported)%_
      = _
    unfold wrapAdd
    omega
  | announce hstage =>
    rw [note_idle (tries_of_stage (by simp [hstage]))]
    have hput := unreported_put s tid { s.workers tid with stage := .done }
    have hold : (s.workers tid).unreported = 0 := by simp [Worker.unreported, hstage]
    have hnew : Worker.unreported { s.workers tid with stage := .done } = 0 := rfl
    show (s.totalHashes+∑ i, ((s.put tid _).workers i).unreported)%_ = _
    omega
  | leave hstage =>
    rw [note_idle (tries_of_stage (by simp [hstage]))]
    have hput := unreported_put s tid { s.workers tid with stage := .done }
    have hold : (s.workers tid).unreported = (s.workers tid).hashes := by
      simp [Worker.unreported, hstage]
    have hnew : Worker.unreported { s.workers tid with stage := .done } = 0 := rfl
    show (wrapAdd s.totalHashes (s.workers tid).hashes+∑ i, ((s.put tid _).workers i).unreported)%_
      = _
    unfold wrapAdd
    omega

end Step

section Runs

variable {K : Primitives} {header : L1BlockHeader}

theorem sound_start : Sound K header (start threads, []) where
  explored := Explored.start
  late tid h := by cases h
  found h := by cases h
  winner n hn := by cases hn
  counted := by simp [start, Worker.unreported]

theorem sound_step {x y : Search threads × Log threads} {turn : Turn threads}
    (hx : Sound K header x) (h : recording (step K header) note x turn = some y) :
    Sound K header y := by
  obtain ⟨hstep, hnote⟩ := recording_eq_some.mp h
  have hacts := step_acts hstep
  exact
    { explored := hnote ▸ hacts.explored hx.explored
      late := hacts.late hx.late
      found := hacts.found hx.found
      winner := hnote ▸ hacts.winner hx.explored hx.winner
      counted := hnote ▸ hacts.counted hx.counted }

theorem sound_reach {x : Search threads × Log threads}
    (h : Reach (recording (step K header) note) (start threads, []) x) : Sound K header x :=
  h.invariant sound_start fun _ _ _ hx _ hs => sound_step hx hs

theorem mineBlock_eq_some {s : Search threads} {r : MineResult} :
    mineBlock header s = some r ↔ (∀ tid, (s.workers tid).stage = .done) ∧
      r = { block := { header with nonce := s.winner.getD 0 }, hashesTried := s.totalHashes } := by
  unfold mineBlock
  split <;> rename_i h
  · simp [h, eq_comm]
  · simp [h]

theorem mineBlock_of_done {s : Search threads} (h : ∀ tid, (s.workers tid).stage = .done) :
    mineBlock header s =
      some { block := { header with nonce := s.winner.getD 0 }, hashesTried := s.totalHashes } :=
  mineBlock_eq_some.mpr ⟨h, rfl⟩

theorem mem_triedBy {tid : Fin threads} {n : ℕ} {log : Log threads} :
    n ∈ triedBy tid log ↔ (tid, n) ∈ log := by
  simp [triedBy]

theorem Sound.winner_of_done {x : Search threads × Log threads} (h : Sound K header x)
    (hpos : 0 < threads) (hdone : ∀ tid, (x.1.workers tid).stage = .done) :
    ∃ n, x.1.winner = some n := by
  have hfound := h.late ⟨0, hpos⟩ (by rw [hdone]; rfl)
  rcases h.found hfound with hwin | ⟨i, hi⟩
  · exact Option.ne_none_iff_exists'.mp hwin
  · rw [hdone i] at hi
    rcases hi with hi | hi <;> cases hi

theorem unreported_done {s : Search threads} (hdone : ∀ tid, (s.workers tid).stage = .done) :
    ∑ i, (s.workers i).unreported = 0 := by
  apply Finset.sum_eq_zero
  intro i _
  simp [Worker.unreported, hdone i]

theorem total_lt {x : Search threads × Log threads}
    (h : Reach (recording (step K header) note) (start threads, []) x) :
    x.1.totalHashes < 0x10000000000000000 := by
  apply h.invariant
    (P := fun (x : Search threads × Log threads) => x.1.totalHashes < 0x10000000000000000)
    (Nat.zero_lt_succ _)
  rintro x turn y hx - hs
  have hacts := step_acts (recording_eq_some.mp hs).1
  generalize y.1 = s' at hacts
  cases hacts with
  | hash | stop | signal | announce => exact hx
  | flush | count | leave => exact Nat.mod_lt _ (by decide)

/-- However the workers interleave and however late they see the flag, the block
that comes back meets its difficulty, its nonce is the first good one of some
worker's stripe, and the count is that of the hashes computed. -/
theorem mined_block (hpos : 0 < threads) {s : Search threads} {log : Log threads}
    (h : Reach (recording (step K header) note) (start threads, []) (s, log)) {r : MineResult}
    (hr : mineBlock header s = some r) :
    meetsDifficulty (r.block.hash K) r.block.difficultyBits = true ∧
      (∃ (tid : Fin threads) (round : ℕ), (tid, r.block.nonce) ∈ log ∧
        r.block = { header with nonce := stripe threads tid round } ∧
        ∀ earlier < round, meets K header (stripe threads tid earlier) = false) ∧
      r.hashesTried = log.length%0x10000000000000000 := by
  have hsound := sound_reach h
  obtain ⟨hdone, rfl⟩ := mineBlock_eq_some.mp hr
  obtain ⟨n, hn⟩ := hsound.winner_of_done hpos hdone
  obtain ⟨tid, -, hhead, hmeets⟩ := hsound.winner n hn
  have hexplored := hsound.explored tid
  have hstriped := hexplored.striped
  dsimp only at hn hhead hstriped hexplored
  rw [hn, Option.getD_some]
  refine ⟨hmeets, ?_, ?_⟩
  · cases htried : triedBy tid log with
    | nil => rw [htried] at hhead; cases hhead
    | cons m rest =>
      rw [htried] at hhead hstriped hexplored
      obtain rfl : m = n := Option.some.inj hhead
      rw [List.length_cons, stripes] at hstriped
      obtain ⟨hm, hrest⟩ := List.cons.inj hstriped
      refine ⟨tid, rest.length, ?_, by rw [← hm], ?_⟩
      · exact mem_triedBy.mp (htried ▸ List.mem_cons_self)
      · intro earlier hearlier
        apply hexplored.once
        show _ ∈ rest
        rw [hrest]
        exact mem_stripes.mpr ⟨earlier, hearlier, rfl⟩
  · have hcounted := hsound.counted
    have hlt := total_lt h
    rw [unreported_done hdone] at hcounted
    dsimp only at hcounted hlt ⊢
    omega

theorem stripe_of_lt {tid round : ℕ} (h : tid+round*threads < 0x10000000000000000) :
    stripe threads tid round = tid+round*threads := Nat.mod_eq_of_lt h

theorem stripe_injective {tid tid' : Fin threads} {round round' : ℕ}
    (h : (round+1)*threads ≤ 0x10000000000000000) (h' : (round'+1)*threads ≤ 0x10000000000000000)
    (heq : stripe threads tid round = stripe threads tid' round') :
    tid = tid' ∧ round = round' := by
  have htid := tid.isLt
  have htid' := tid'.isLt
  rw [Nat.succ_mul] at h h'
  rw [stripe_of_lt (by omega), stripe_of_lt (by omega)] at heq
  have hmod : tid.val = tid'.val := by
    have hl := Nat.add_mul_mod_self_right tid.val round threads
    have hr := Nat.add_mul_mod_self_right tid'.val round' threads
    rw [Nat.mod_eq_of_lt htid] at hl
    rw [Nat.mod_eq_of_lt htid'] at hr
    rw [← hl, ← hr, heq]
  have hdiv : round = round' := by
    apply Nat.eq_of_mul_eq_mul_right (Nat.zero_lt_of_lt htid)
    omega
  exact ⟨Fin.ext hmod, hdiv⟩

theorem nodup_of_striped {log : Log threads}
    (hstriped : ∀ tid, triedBy tid log = stripes threads tid (triedBy tid log).length)
    (hfew : ∀ tid, (triedBy tid log).length*threads ≤ 0x10000000000000000) :
    (log.map Prod.snd).Nodup := by
  induction log with
  | nil => exact List.nodup_nil
  | cons e log ih =>
    have hlength (tid : Fin threads) :
        (triedBy tid log).length ≤ (triedBy tid (e :: log)).length := by
      rw [triedBy_cons]
      split
      · exact Nat.le_succ _
      · exact le_rfl
    have htail (tid : Fin threads) :
        triedBy tid log = stripes threads tid (triedBy tid log).length := by
      have h := hstriped tid
      rw [triedBy_cons] at h
      split at h
      · exact (List.cons.inj h).2
      · exact h
    have hfew' (tid : Fin threads) :
        (triedBy tid log).length*threads ≤ 0x10000000000000000 :=
      (Nat.mul_le_mul_right threads (hlength tid)).trans (hfew tid)
    have hhead : e.2 = stripe threads e.1 (triedBy e.1 log).length := by
      have h := hstriped e.1
      rw [triedBy_cons, if_pos rfl] at h
      exact (List.cons.inj h).1
    rw [List.map_cons, List.nodup_cons]
    refine ⟨?_, ih htail hfew'⟩
    intro hmem
    obtain ⟨e', he', hsnd⟩ := List.mem_map.mp hmem
    have hin : e'.2 ∈ triedBy e'.1 log := mem_triedBy.mpr he'
    rw [htail e'.1] at hin
    obtain ⟨round, hround, heq⟩ := mem_stripes.mp hin
    have hbound : (round+1)*threads ≤ 0x10000000000000000 :=
      (Nat.mul_le_mul_right threads hround).trans (hfew' e'.1)
    have hnext : ((triedBy e.1 log).length+1)*threads ≤ 0x10000000000000000 := by
      have h := hfew e.1
      rwa [triedBy_cons, if_pos rfl, List.length_cons] at h
    obtain ⟨htid, hlast⟩ := stripe_injective hbound hnext
      (heq.symm.trans (hsnd.trans hhead))
    rw [htid, hlast] at hround
    exact Nat.lt_irrefl _ hround

/-- The workers share the nonces out: what lies below the rounds all of them have
made is tried, and nothing is tried twice before a stripe wraps. -/
theorem nonces_shared_out {s : Search threads} {log : Log threads}
    (h : Reach (recording (step K header) note) (start threads, []) (s, log)) :
    (∀ rounds, (∀ tid, rounds ≤ (triedBy tid log).length) →
      ∀ n < rounds*threads, n ≤ u64Max → n ∈ log.map Prod.snd) ∧
    ((∀ tid, (triedBy tid log).length*threads ≤ u64Max+1) → (log.map Prod.snd).Nodup) := by
  have hsound := sound_reach h
  have hstriped (tid : Fin threads) :
      triedBy tid log = stripes threads tid (triedBy tid log).length :=
    (hsound.explored tid).striped
  constructor
  · intro rounds hrounds n hn hword
    have hpos : 0 < threads := Nat.pos_of_ne_zero (by rintro rfl; omega)
    have hdivmod := Nat.mod_add_div n threads
    rw [Nat.mul_comm] at hdivmod
    have hlt : n/threads < rounds := Nat.div_lt_of_lt_mul (by rwa [Nat.mul_comm])
    have hin : n ∈ triedBy ⟨n%threads, Nat.mod_lt n hpos⟩ log := by
      rw [hstriped]
      refine mem_stripes.mpr ⟨n/threads, hlt.trans_le (hrounds _), ?_⟩
      unfold u64Max at hword
      rw [stripe_of_lt (by dsimp only; omega)]
      exact hdivmod.symm
    exact List.mem_map.mpr ⟨_, mem_triedBy.mp hin, rfl⟩
  · exact nodup_of_striped hstriped

/-- Each worker goes on again and again. -/
def Fair (turns : ℕ → Turn threads) : Prop := ∀ tid t, ∃ t' ≥ t, (turns t').1 = tid

/-- Once the flag is written, the reads of it are up to date from some turn on. -/
def Visible (run : ℕ → Search threads) (turns : ℕ → Turn threads) : Prop :=
  ∀ t, (run t).found = true → ∃ t', ∀ later ≥ t', (turns later).2 = true

def Stage.delay : Stage → ℕ
  | .flushing | .signalling => 1
  | _ => 0

def Stage.left : Stage → ℕ
  | .flushing | .signalling => 3
  | .checking | .counting => 2
  | .announcing | .stopping => 1
  | .done => 0

def toGo (tid : Fin threads) (round : ℕ) (x : Search threads × Log threads) : ℕ :=
  2*(round+1-(triedBy tid x.2).length)+(x.1.workers tid).stage.delay

abbrev taken (K : Primitives) (header : L1BlockHeader) (x : Search threads × Log threads)
    (turn : Turn threads) : Search threads × Log threads :=
  (recording (step K header) note x turn).getD x

theorem stage_of_stuck {s : Search threads} {turn : Turn threads}
    (h : step K header s turn = none) : (s.workers turn.1).stage = .done := by
  cases hstage : (s.workers turn.1).stage with
  | done => rfl
  | checking | flushing | signalling | counting | announcing | stopping => simp [step, hstage] at h

variable (K header) in
theorem taken_cases (x : Search threads × Log threads) (turn : Turn threads) :
    ((x.1.workers turn.1).stage = .done ∧ taken K header x turn = x) ∨
      ∃ s', Acts K header x.1 turn.1 turn.2 s' ∧
        taken K header x turn = (s', note x.1 turn s' x.2) := by
  cases hs : step K header x.1 turn with
  | none => exact .inl ⟨stage_of_stuck hs, by simp [taken, recording, hs]⟩
  | some s' => exact .inr ⟨s', step_acts hs, by simp [taken, recording, hs]⟩

variable (K header) in
theorem taken_other (x : Search threads × Log threads) {turn : Turn threads} {tid : Fin threads}
    (h : tid ≠ turn.1) : (taken K header x turn).1.workers tid = x.1.workers tid ∧
      triedBy tid (taken K header x turn).2 = triedBy tid x.2 := by
  rcases taken_cases K header x turn with ⟨-, heq⟩ | ⟨s', hacts, heq⟩
  · rw [heq]
    exact ⟨rfl, rfl⟩
  · have hlog : triedBy tid (note x.1 (turn.1, turn.2) s' x.2) = triedBy tid x.2 :=
      triedBy_note_other h
    rw [heq]
    exact ⟨hacts.workers_other h, hlog⟩

variable (threads K header) in
theorem tried_delay (w : Worker) : (tried K header threads w).stage.delay ≤ 1 := by
  generalize (tried K header threads w).stage = stage
  cases stage <;> decide

theorem Explored.early {tid : Fin threads} {w : Worker} {nonces : List ℕ} {round : ℕ}
    (h : Explored K header tid w nonces) (hsearching : w.stage.searching = true)
    (hmeets : meets K header (stripe threads tid round) = true) : nonces.length ≤ round := by
  by_contra hlate
  have hin : stripe threads tid round ∈ nonces := by
    rw [h.striped]
    exact mem_stripes.mpr ⟨round, by omega, rfl⟩
  exact absurd hmeets (by simp [h.missed hsearching _ hin])

theorem toGo_own {x : Search threads × Log threads} (hx : Sound K header x) {turn : Turn threads}
    {round : ℕ} (hmeets : meets K header (stripe threads turn.1 round) = true)
    (hfound : x.1.found = false) :
    toGo turn.1 round (taken K header x turn) < toGo turn.1 round x := by
  have hearly : (x.1.workers turn.1).stage.late ≠ true := by
    intro hlate
    exact absurd (hx.late _ hlate) (by simp [hfound])
  rcases taken_cases K header x turn with ⟨hdone, -⟩ | ⟨s', hacts, heq⟩
  · exact absurd (by rw [hdone]; rfl) hearly
  rw [heq]
  dsimp only [toGo]
  cases hacts with
  | hash hstage htries =>
    have hlength := (hx.explored turn.1).early (by rw [hstage]; rfl) hmeets
    have hdelay := tried_delay threads K header (x.1.workers turn.1)
    rw [note_tries htries, triedBy_cons, if_pos rfl, List.length_cons, put_self]
    omega
  | stop hstage hf htries => exact absurd hf (by simp [hfound])
  | flush hstage =>
    rw [note_idle (tries_of_stage (by simp [hstage])), show _ = _ from put_self x.1 turn.1 _,
      hstage]
    exact Nat.lt_succ_self _
  | signal hstage =>
    rw [note_idle (tries_of_stage (by simp [hstage])), show _ = _ from put_self x.1 turn.1 _,
      hstage]
    exact Nat.lt_succ_self _
  | count hstage => exact absurd (by rw [hstage]; rfl) hearly
  | announce hstage => exact absurd (by rw [hstage]; rfl) hearly
  | leave hstage => exact absurd (by rw [hstage]; rfl) hearly

theorem left_own {x : Search threads × Log threads} {turn : Turn threads}
    (hfound : x.1.found = true) (hfresh : turn.2 = true)
    (hstage : (x.1.workers turn.1).stage ≠ .done) :
    ((taken K header x turn).1.workers turn.1).stage.left < (x.1.workers turn.1).stage.left := by
  rcases taken_cases K header x turn with ⟨hdone, -⟩ | ⟨s', hacts, heq⟩
  · exact absurd hdone hstage
  rw [heq]
  dsimp only
  cases hacts with
  | hash hcheck htries => simp [tries, hfound, hfresh] at htries
  | stop hcheck hf htries =>
    rw [put_self, hcheck]
    exact Nat.lt_succ_self 1
  | flush hcheck | signal hcheck | count hcheck | announce hcheck | leave hcheck =>
    rw [show _ = _ from put_self x.1 turn.1 _, hcheck]
    simp [Stage.left]

variable {turns : ℕ → Turn threads}

abbrev course (K : Primitives) (header : L1BlockHeader) (turns : ℕ → Turn threads) :
    ℕ → Search threads × Log threads :=
  states (recording (step K header) note) (start threads, []) turns

theorem course_sound (t : ℕ) : Sound K header (course K header turns t) :=
  sound_reach (states_reach _ t)

theorem course_fst (t : ℕ) : (course K header turns t).1 =
    states (step K header) (start threads) turns t := states_recording _ _ t

theorem course_succ (t : ℕ) :
    course K header turns (t+1) = taken K header (course K header turns t) (turns t) := rfl

theorem eventually_found (hpos : 0 < threads) {n : ℕ} (hn : n ≤ u64Max)
    (hmeets : meets K header n = true) (hfair : Fair turns) :
    ∃ t, (course K header turns t).1.found = true := by
  let tid : Fin threads := ⟨n%threads, Nat.mod_lt n hpos⟩
  have hstripe : stripe threads tid (n/threads) = n := by
    have hdivmod := Nat.mod_add_div n threads
    rw [Nat.mul_comm] at hdivmod
    unfold u64Max at hn
    rw [stripe_of_lt (by dsimp only [tid]; omega)]
    exact hdivmod
  rw [← hstripe] at hmeets
  have hown (t : ℕ) (hno : ¬ (course K header turns t).1.found = true)
      (htid : (turns t).1 = tid) : toGo tid (n/threads) (course K header turns (t+1)) <
        toGo tid (n/threads) (course K header turns t) := by
    rw [course_succ, ← htid]
    exact toGo_own (course_sound t) (htid ▸ hmeets) (Bool.eq_false_iff.mpr hno)
  have hany (t : ℕ) (hno : ¬ (course K header turns t).1.found = true) :
      toGo tid (n/threads) (course K header turns (t+1)) ≤
        toGo tid (n/threads) (course K header turns t) := by
    by_cases htid : tid = (turns t).1
    · exact (hown t hno htid.symm).le
    · obtain ⟨hw, hlog⟩ := taken_other K header (course K header turns t) htid
      rw [course_succ, toGo, toGo, hw, hlog]
  obtain ⟨t, -, hfound⟩ := eventually_of_rank
    (fun (x : Search threads × Log threads) => x.1.found = true) (toGo tid (n/threads)) (hfair tid)
    (fun t (_ : t ≥ 0) => hany t) (fun t _ => hown t)
  exact ⟨t, hfound⟩

theorem found_lasts {t t' : ℕ} (h : t ≤ t') (hfound : (course K header turns t).1.found = true) :
    (course K header turns t').1.found = true := by
  have hstep (x : Search threads × Log threads) (turn : Turn threads)
      (y : Search threads × Log threads) (hx : x.1.found = true)
      (hs : recording (step K header) note x turn = some y) : y.1.found = true :=
    (step_acts (recording_eq_some.mp hs).1).found_mono hx
  exact states_keep (P := fun (x : Search threads × Log threads) => x.1.found = true) hstep h hfound

theorem done_lasts (tid : Fin threads) {t t' : ℕ} (h : t ≤ t')
    (hdone : ((course K header turns t).1.workers tid).stage = .done) :
    ((course K header turns t').1.workers tid).stage = .done := by
  have hkeep (x : Search threads × Log threads) (turn : Turn threads)
      (y : Search threads × Log threads) (hx : (x.1.workers tid).stage = .done)
      (hs : recording (step K header) note x turn = some y) :
      (y.1.workers tid).stage = .done := by
    have hstep := (recording_eq_some.mp hs).1
    by_cases htid : tid = turn.1
    · subst htid
      simp [step, hx] at hstep
    · rw [(step_acts hstep).workers_other htid]
      exact hx
  exact states_keep
    (P := fun (x : Search threads × Log threads) => (x.1.workers tid).stage = .done) hkeep h hdone

theorem eventually_done {t₀ : ℕ} (hfound : (course K header turns t₀).1.found = true)
    (hfresh : ∀ t ≥ t₀, (turns t).2 = true) (hfair : Fair turns) (tid : Fin threads) :
    ∃ t, ((course K header turns t).1.workers tid).stage = .done := by
  have hown (t : ℕ) (ht : t ≥ t₀)
      (hno : ¬ ((course K header turns t).1.workers tid).stage = .done)
      (htid : (turns t).1 = tid) : ((course K header turns (t+1)).1.workers tid).stage.left <
        ((course K header turns t).1.workers tid).stage.left := by
    subst htid
    exact left_own (found_lasts ht hfound) (hfresh t ht) hno
  have hany (t : ℕ) (ht : t ≥ t₀)
      (hno : ¬ ((course K header turns t).1.workers tid).stage = .done) :
      ((course K header turns (t+1)).1.workers tid).stage.left ≤
        ((course K header turns t).1.workers tid).stage.left := by
    by_cases htid : tid = (turns t).1
    · exact (hown t ht hno htid.symm).le
    · rw [course_succ, (taken_other K header (course K header turns t) htid).1]
  obtain ⟨t, -, hdone⟩ := eventually_of_rank
    (fun (x : Search threads × Log threads) => (x.1.workers tid).stage = .done)
    (fun x => (x.1.workers tid).stage.left) (hfair tid) hany hown
  exact ⟨t, hdone⟩

/-- If any nonce is good, every fair schedule in which the flag becomes visible
ends, with a block that meets its difficulty. -/
theorem search_ends (hpos : 0 < threads) {n : ℕ} (hn : n ≤ u64Max)
    (hmeets : meets K header n = true) (hfair : Fair turns)
    (hvisible : Visible (states (step K header) (start threads) turns) turns) :
    ∃ t r, mineBlock header (states (step K header) (start threads) turns t) = some r ∧
      meetsDifficulty (r.block.hash K) r.block.difficultyBits = true := by
  obtain ⟨t₀, hfound⟩ := eventually_found hpos hn hmeets hfair
  obtain ⟨t₁, hfresh⟩ := hvisible t₀ (by rw [← course_fst]; exact hfound)
  have hafter : (course K header turns (max t₀ t₁)).1.found = true :=
    found_lasts (le_max_left _ _) hfound
  obtain ⟨t, hdone⟩ := eventually_all
    (fun tid (x : Search threads × Log threads) => (x.1.workers tid).stage = .done)
    (fun tid _ _ => done_lasts tid)
    (eventually_done hafter (fun t ht => hfresh t ((le_max_right _ _).trans ht)) hfair)
  have hreach : Reach (recording (step K header) note) (start threads, [])
      (course K header turns t) := states_reach _ t
  have hresult : mineBlock header _ = _ := mineBlock_of_done hdone
  refine ⟨t, _, ?_, (mined_block hpos hreach hresult).1⟩
  rw [← course_fst]
  exact hresult

end Runs

def toyHeader : L1BlockHeader :=
  template 1 zeroHash zeroHash zeroHash (Vector.replicate 20 7) zeroHash 58 1000

def toyTurns : List (Turn 2) :=
  [(1, true), (0, false), (0, false), (1, true), (0, false), (1, true), (1, true), (0, true),
    (0, true), (0, true)]

def toySearch : Option (Search 2 × Log 2) :=
  exec (recording (step toyPrimitives toyHeader) note) (start 2, []) toyTurns

theorem mined_block_both_found : ∃ (x : Search 2 × Log 2) (r : MineResult),
    toySearch = some x ∧ mineBlock toyHeader x.1 = some r ∧ r.block.nonce = 4 ∧
      meetsDifficulty (r.block.hash toyPrimitives) r.block.difficultyBits = true ∧
      r.hashesTried = x.2.length%0x10000000000000000 := by
  have hrun : (toySearch.bind fun x => (mineBlock toyHeader x.1).map fun r => r.block.nonce) =
      some 4 := by decide +kernel
  obtain ⟨x, hx, hr⟩ := Option.bind_eq_some_iff.mp hrun
  obtain ⟨r, hr, hnonce⟩ := Option.map_eq_some_iff.mp hr
  obtain ⟨hmeets, -, hcount⟩ := mined_block (by decide) (exec_reach hx) hr
  exact ⟨x, r, hx, hr, hnonce, hmeets, hcount⟩

theorem nonces_shared_out_both_found : ∃ x : Search 2 × Log 2, toySearch = some x ∧
    (∀ n < 1*2, n ≤ u64Max → n ∈ x.2.map Prod.snd) ∧ (x.2.map Prod.snd).Nodup := by
  have hrun : (toySearch.map fun x => (triedBy 0 x.2, triedBy 1 x.2)) = some ([4, 2, 0], [1]) := by
    decide +kernel
  obtain ⟨x, hx, hlog⟩ := Option.map_eq_some_iff.mp hrun
  obtain ⟨h0, h1⟩ := Prod.mk.inj hlog
  obtain ⟨hall, honce⟩ := nonces_shared_out (exec_reach hx)
  refine ⟨x, hx, hall 1 ?_, honce ?_⟩
  · exact Fin.forall_fin_two.mpr ⟨by rw [h0]; decide, by rw [h1]; decide⟩
  · exact Fin.forall_fin_two.mpr ⟨by rw [h0]; decide, by rw [h1]; decide⟩

def toySchedule (t : ℕ) : Turn 2 := (⟨t%2, Nat.mod_lt t (by decide)⟩, true)

theorem toySchedule_fair : Fair toySchedule := by
  intro tid t
  have htid := tid.isLt
  refine ⟨2*t+tid, by omega, Fin.ext ?_⟩
  show (2*t+tid.val)%2 = tid
  omega

theorem search_ends_two_workers : ∃ t r,
    mineBlock toyHeader (states (step toyPrimitives toyHeader) (start 2) toySchedule t) = some r ∧
      meetsDifficulty (r.block.hash toyPrimitives) r.block.difficultyBits = true :=
  search_ends (n := 1) (by decide) (by decide) (by decide +kernel) toySchedule_fair
    fun _ _ => ⟨0, fun _ _ => rfl⟩

end BinaChain.Pow
