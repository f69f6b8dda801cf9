import BinaChain.Evm.BinaWork
import BinaChain.Evm.Committee
import BinaChain.Evm.Ingestion
import BinaChain.Support.Callbacks
import Mathlib.Algebra.BigOperators.Group.Finset.Basic
import Mathlib.Algebra.GroupWithZero.Nat

/-!
# The lottery of miners

A proof of work enters the round that is open, and the randomness of a later
block draws the winner. The winner has control when the pot is paid, before the
next round is opened.
-/

set_option autoImplicit false

namespace BinaChain.MinerLottery
open BinaChain.Crypto BinaChain.Machine BinaChain.Checked BinaChain.Oracle BinaChain.BinaWork
open BinaChain.Frames BinaChain.Callbacks
open BinaChain.BinaOracle (Site ether)
open BinaChain.Committee (getLatestSeed)
open BinaChain.MinedAction (ProofOfBinaWork fetch verifyBinaWork)

structure Round where
  pot : ℕ
  closeHeight : BitVec 64
  drawHeight : BitVec 64
  drawBlockHash : Bytes32
  winner : Address
  settled : Bool
  entryCount : ℕ

def Round.zero : Round :=
  { pot := 0, closeHeight := 0, drawHeight := 0, drawBlockHash := 0, winner := 0,
    settled := false, entryCount := 0 }

def entryFee : ℕ := ether/100

structure BinaMinerLottery where
  work : ProofOfBinaWork
  rounds : ℕ → Round
  entries : ℕ → List Address
  currentRound : ℕ

def BinaMinerLottery.round (l : BinaMinerLottery) : Round := l.rounds l.currentRound

def addHeight (h : BitVec 64) (n : ℕ) : Except Revert (BitVec 64) :=
  if h.toNat+n < 0x10000000000000000 then .ok (h+BitVec.ofNat 64 n) else .error .overflow

def openRound (K : Primitives) (oracle : BinaOracle.Storage) (l : BinaMinerLottery) :
    Except Revert BinaMinerLottery := do
  let currentRound ← add l.currentRound 1
  let latest ← (getLatestSeed K oracle (purposeGeneric K)).mapError .oracle
  let closeHeight ← addHeight latest.height 100
  let drawHeight ← addHeight latest.height 110
  return { l with
    currentRound
    rounds := Function.update l.rounds currentRound { Round.zero with closeHeight, drawHeight } }

def deploy (K : Primitives) (oracle : BinaOracle.Storage) : Except Revert BinaMinerLottery :=
  openRound K oracle
    { work := construct 22 false, rounds := fun _ => .zero, entries := fun _ => [],
      currentRound := 0 }

/-- A payment below the fee is turned away without a reason. -/
def enter (K : Primitives) (oracle : BinaOracle.Storage) (sender : Address) (value : ℕ)
    (blockHash : Bytes32) (binaMiner : Bytes20) (l : BinaMinerLottery) :
    Except Revert BinaMinerLottery := do
  let work ← (verifyBinaWork oracle.registry sender l.work blockHash binaMiner).mapError .proof
  let latest ← (getLatestSeed K oracle (purposeGeneric K)).mapError .oracle
  require (latest.height < l.round.closeHeight) .roundClosed
  require (entryFee ≤ value) .belowEntryFee
  let pot ← add l.round.pot value
  let entryCount ← add l.round.entryCount 1
  return { l with
    work
    rounds := Function.update l.rounds l.currentRound { l.round with pot, entryCount }
    entries := Function.update l.entries l.currentRound (l.entries l.currentRound++[sender]) }

/-- Up to the payment: the lottery and the amount for the winner. -/
def draw (oracle : BinaOracle.Storage) (drawBlockHash : Bytes32) (l : BinaMinerLottery) :
    Except Revert (BinaMinerLottery × ℕ) := do
  require (l.round.settled = false) .roundAlreadySettled
  require (l.round.entryCount ≠ 0) .noEntries
  let output ← (fetch oracle.registry drawBlockHash).mapError .proof
  require (¬ output.height < l.round.drawHeight) .drawHeightNotReached
  require (¬ output.height < l.round.closeHeight) .roundNotClosed
  let winnerIndex := output.randomnessOutput.toNat%l.round.entryCount
  let winner ← read (l.entries l.currentRound) winnerIndex
  return ({ l with
    rounds := Function.update l.rounds l.currentRound
      { l.round with drawBlockHash, winner, settled := true, pot := 0 } }, l.round.pot)

structure Joint where
  oracle : BinaOracle.World
  lottery : BinaMinerLottery
  balance : ℕ

inductive Event where
  | oracle (e : BinaOracle.Event)
  | enter (sender : Address) (value : ℕ) (blockHash : Bytes32) (binaMiner : Bytes20)
  | draw (drawBlockHash : Bytes32)
  | force (amount : ℕ)

def Joint.draw (j : Joint) (drawBlockHash : Bytes32) : Option Joint :=
  (MinerLottery.draw j.oracle.contract drawBlockHash j.lottery).toOption.bind fun p =>
    if p.2 ≤ j.balance then some { j with lottery := p.1, balance := j.balance-p.2 } else none

def Joint.step (K : Primitives) (site : Site) (j : Joint) : Event → Option Joint
  | .oracle e => (j.oracle.step K site e).map fun oracle => { j with oracle }
  | .enter sender value blockHash binaMiner =>
    (enter K j.oracle.contract sender value blockHash binaMiner j.lottery).toOption.map
      fun lottery => { j with lottery, balance := j.balance+value }
  | .draw drawBlockHash => j.draw drawBlockHash
  | .force amount => some { j with balance := j.balance+amount }

/-- After the payment a draw opens the next round. -/
def caller (K : Primitives) (site : Site) : Caller Joint Event where
  step := Joint.step K site
  opens j
    | .oracle e => (BinaOracle.service K site).opens j.oracle e
    | .draw _ => true
    | _ => false
  rest
    | .draw _, j => (openRound K j.oracle.contract j.lottery).toOption.map fun lottery =>
        { j with lottery }
    | _, j => some j
  outermost
    | .oracle e => (BinaOracle.service K site).outermost e
    | _ => false

section Functions

variable {K : Primitives} {oracle : BinaOracle.Storage} {l l' : BinaMinerLottery}

def opened (height : BitVec 64) : Round :=
  { Round.zero with
    closeHeight := height+BitVec.ofNat 64 100, drawHeight := height+BitVec.ofNat 64 110 }

theorem addHeight_eq_ok {h h' : BitVec 64} {n : ℕ} : addHeight h n = .ok h' ↔
    h.toNat+n < 0x10000000000000000 ∧ h' = h+BitVec.ofNat 64 n := by
  unfold addHeight
  split <;> rename_i hc
  · simp [hc, eq_comm]
  · simp [hc]

theorem openRound_ok (h : openRound K oracle l = .ok l') : ∃ latest,
    getLatestSeed K oracle (purposeGeneric K) = .ok latest ∧
    latest.height.toNat+110 < 0x10000000000000000 ∧
    l' = { l with
      currentRound := l.currentRound+1
      rounds := Function.update l.rounds (l.currentRound+1) (opened latest.height) } := by
  unfold openRound at h
  simp only [bind_eq_ok, mapError_eq_ok, add_eq_ok, addHeight_eq_ok, pure_eq_ok] at h
  obtain ⟨-, ⟨-, rfl⟩, latest, hlatest, -, ⟨-, rfl⟩, -, ⟨hroom, rfl⟩, rfl⟩ := h
  exact ⟨latest, hlatest, hroom, rfl⟩

theorem latest_height {purpose : Bytes32} {latest : Committee.LatestSeed}
    (h : getLatestSeed K oracle purpose = .ok latest) :
    latest.height = oracle.registry.latestHeightByPurpose (effectivePurpose K purpose) := by
  unfold getLatestSeed at h
  simp only [bind_eq_ok, require_eq_ok, pure_eq_ok] at h
  obtain ⟨-, -, rfl⟩ := h
  rfl

def genericHeight (K : Primitives) (registry : Registry) : BitVec 64 :=
  registry.latestHeightByPurpose (effectivePurpose K (purposeGeneric K))

theorem enter_ok {sender : Address} {value : ℕ} {blockHash : Bytes32} {binaMiner : Bytes20}
    (h : enter K oracle sender value blockHash binaMiner l = .ok l') :
    genericHeight K oracle.registry < l.round.closeHeight ∧
    Passes oracle.registry l.work blockHash binaMiner ∧ entryFee ≤ value ∧
    l' = { l with
      work := consume l.work sender blockHash
      rounds := Function.update l.rounds l.currentRound
        { l.round with pot := l.round.pot+value, entryCount := l.round.entryCount+1 }
      entries := Function.update l.entries l.currentRound
        (l.entries l.currentRound++[sender]) } := by
  unfold enter at h
  simp only [bind_eq_ok, mapError_eq_ok, verifyBinaWork_eq_ok, require_eq_ok, add_eq_ok,
    pure_eq_ok] at h
  obtain ⟨-, ⟨hp, rfl⟩, latest, hlatest, -, hopen, -, hfee, -, ⟨-, rfl⟩, -, ⟨-, rfl⟩, rfl⟩ := h
  rw [latest_height hlatest] at hopen
  exact ⟨hopen, hp, hfee, rfl⟩

theorem draw_ok {drawBlockHash : Bytes32} {pot : ℕ}
    (h : draw oracle drawBlockHash l = .ok (l', pot)) :
    l.round.settled = false ∧ l.round.entryCount ≠ 0 ∧
    Finalised oracle.registry drawBlockHash ∧
    l.round.drawHeight ≤ (oracle.registry.outputsByBlockHash drawBlockHash).height ∧
    pot = l.round.pot ∧
    ∃ winner, (l.entries l.currentRound)[
        (oracle.registry.outputsByBlockHash drawBlockHash).randomnessOutput.toNat%
          l.round.entryCount]? = some winner ∧
      l' = { l with
        rounds := Function.update l.rounds l.currentRound
          { l.round with drawBlockHash, winner, settled := true, pot := 0 } } := by
  unfold draw at h
  simp only [bind_eq_ok, mapError_eq_ok, require_eq_ok, read_eq_ok, pure_eq_ok,
    Prod.mk.injEq] at h
  obtain ⟨-, hsettled, -, hentries, output, hfetch, -, hdraw, -, -, winner, hwinner, rfl, rfl⟩ := h
  obtain ⟨hfin, -, heq⟩ := fetch_eq_ok.mp hfetch
  have hheight : output.height = (oracle.registry.outputsByBlockHash drawBlockHash).height := by
    rw [heq]
    rfl
  have hrandom : output.randomnessOutput =
      (oracle.registry.outputsByBlockHash drawBlockHash).randomnessOutput := by
    rw [heq]
    rfl
  rw [hheight] at hdraw
  rw [hrandom] at hwinner
  exact ⟨hsettled, hentries, hfin, BitVec.not_lt.mp hdraw, rfl, winner, hwinner, rfl⟩

end Functions

def paying (j : Joint) : Bool := j.lottery.round.settled

def isDraw : Event → Bool
  | .draw _ => true
  | _ => false

theorem round_update (l : BinaMinerLottery) (r : Round) :
    BinaMinerLottery.round { l with rounds := Function.update l.rounds l.currentRound r } = r :=
  Function.update_self _ _ _

section Step

variable {K : Primitives} {site : Site} {j j' : Joint}

theorem Joint.draw_eq_some {b : Bytes32} (h : j.draw b = some j') : ∃ l' pot,
    MinerLottery.draw j.oracle.contract b j.lottery = .ok (l', pot) ∧ pot ≤ j.balance ∧
      j' = { j with lottery := l', balance := j.balance-pot } := by
  unfold Joint.draw at h
  obtain ⟨⟨l', pot⟩, hdraw, hpay⟩ := Option.bind_eq_some_iff.mp h
  split at hpay
  · rename_i hle
    obtain rfl := Option.some.inj hpay
    exact ⟨l', pot, toOption_eq_some.mp hdraw, hle, rfl⟩
  · cases hpay

theorem Joint.enter_eq_some {sender : Address} {value : ℕ} {b : Bytes32} {m : Bytes20}
    (h : j.step K site (.enter sender value b m) = some j') : ∃ l',
    enter K j.oracle.contract sender value b m j.lottery = .ok l' ∧
      j' = { j with lottery := l', balance := j.balance+value } := by
  obtain ⟨l', hl, rfl⟩ := Option.map_eq_some_iff.mp h
  exact ⟨l', toOption_eq_some.mp hl, rfl⟩

theorem rest_draw {b : Bytes32} (h : (caller K site).rest (.draw b) j = some j') : ∃ l',
    openRound K j.oracle.contract j.lottery = .ok l' ∧ j' = { j with lottery := l' } := by
  obtain ⟨l', hl, rfl⟩ := Option.map_eq_some_iff.mp h
  exact ⟨l', toOption_eq_some.mp hl, rfl⟩

theorem caller_locks : Locks (caller K site) paying isDraw where
  free j e j' hs he := by
    cases e with
    | draw b =>
      obtain ⟨l', pot, hdraw, -, -⟩ := Joint.draw_eq_some hs
      exact (draw_ok hdraw).1
    | oracle | enter | force => cases he
  taken j e j' hs := by
    cases e with
    | oracle e =>
      obtain ⟨w, -, rfl⟩ := Option.map_eq_some_iff.mp hs
      simp [paying, isDraw]
    | enter sender value b m =>
      have henter : j.step K site (.enter sender value b m) = some j' := hs
      obtain ⟨l', hl, rfl⟩ := Joint.enter_eq_some henter
      obtain ⟨-, -, -, rfl⟩ := enter_ok hl
      simp [paying, isDraw, BinaMinerLottery.round]
    | draw b =>
      obtain ⟨l', pot, hdraw, -, rfl⟩ := Joint.draw_eq_some hs
      obtain ⟨-, -, -, -, -, winner, -, rfl⟩ := draw_ok hdraw
      simp [paying, isDraw, caller, round_update]
    | force amount =>
      obtain rfl := Option.some.inj hs
      simp [paying, isDraw]
  given e j j' hr := by
    cases e with
    | draw b =>
      obtain ⟨l', hl, rfl⟩ := rest_draw hr
      obtain ⟨latest, -, -, rfl⟩ := openRound_ok hl
      simp [paying, isDraw, BinaMinerLottery.round, opened, Round.zero]
    | oracle | enter | force =>
      obtain rfl := Option.some.inj hr
      simp [isDraw]
  unguarded e j hr := by
    cases e with
    | draw b => rfl
    | oracle | enter | force => cases hr

end Step

/-- An entry, with the latest height of the generic purpose when it came in. It
is late if its round was settled by then. -/
structure Ticket where
  round : ℕ
  entrant : Address
  value : ℕ
  height : BitVec 64
  late : Bool

def Joint.ticket (K : Primitives) (j : Joint) (entrant : Address) (value : ℕ) : Ticket where
  round := j.lottery.currentRound
  entrant := entrant
  value := value
  height := genericHeight K j.oracle.contract.registry
  late := j.lottery.round.settled

def noteTicket (K : Primitives) (j : Joint) (e : Event) (_ : Joint) (g : List Ticket) :
    List Ticket :=
  match e with
  | .enter sender value _ _ => g++[j.ticket K sender value]
  | _ => g

abbrev booked (K : Primitives) (site : Site) : Caller (Joint × List Ticket) Event :=
  (caller K site).recorded (noteTicket K)

def ticketsOf (r : ℕ) (g : List Ticket) : List Ticket := g.filter fun t => t.round == r

theorem ticketsOf_append (r : ℕ) (g : List Ticket) (t : Ticket) :
    ticketsOf r (g++[t]) = if t.round = r then ticketsOf r g++[t] else ticketsOf r g := by
  unfold ticketsOf
  rw [List.filter_append]
  by_cases ht : t.round = r <;> simp [ht]

/-- The word of the drawing block picks the winner among the tickets that were not late. -/
structure Drawn (registry : Registry) (round : Round) (ts : List Ticket) : Prop where
  finalised : Finalised registry round.drawBlockHash
  reached : round.drawHeight ≤ (registry.outputsByBlockHash round.drawBlockHash).height
  winner : ((ts.filter fun t => !t.late).map Ticket.entrant)[
    (registry.outputsByBlockHash round.drawBlockHash).randomnessOutput.toNat%
      (ts.filter fun t => !t.late).length]? = some round.winner

/-- A round and its tickets. The pot is what no draw has paid. -/
structure Kept (registry : Registry) (round : Round) (entries : List Address)
    (ts : List Ticket) : Prop where
  terms : round.closeHeight.toNat+10 = round.drawHeight.toNat
  entrants : entries = ts.map Ticket.entrant
  counted : round.entryCount = ts.length
  fees : ∀ t ∈ ts, entryFee ≤ t.value
  early : ∀ t ∈ ts, t.height < round.closeHeight
  punctual : round.settled = false → ∀ t ∈ ts, t.late = false
  pot : round.pot = ((ts.filter fun t => t.late || !round.settled).map Ticket.value).sum
  drawn : round.settled = true → Drawn registry round ts

section Round

variable {registry : Registry} {round : Round} {entries : List Address} {ts : List Ticket}

theorem kept_opened {height : BitVec 64} (hroom : height.toNat+110 < 0x10000000000000000) :
    Kept registry (opened height) [] [] where
  terms := by
    simp only [opened, BitVec.toNat_add, BitVec.toNat_ofNat]
    omega
  entrants := rfl
  counted := rfl
  fees t ht := by cases ht
  early t ht := by cases ht
  punctual _ t ht := by cases ht
  pot := rfl
  drawn h := by cases h

theorem Kept.entered (h : Kept registry round entries ts) {t : Ticket}
    (hfee : entryFee ≤ t.value) (hearly : t.height < round.closeHeight)
    (hlate : t.late = round.settled) :
    Kept registry { round with pot := round.pot+t.value, entryCount := round.entryCount+1 }
      (entries++[t.entrant]) (ts++[t]) where
  terms := h.terms
  entrants := by rw [h.entrants, List.map_append, List.map_singleton]
  counted := by rw [h.counted, List.length_append, List.length_singleton]
  fees t' ht' := by
    rcases List.mem_append.mp ht' with ht' | ht'
    · exact h.fees t' ht'
    · rwa [List.mem_singleton.mp ht']
  early t' ht' := by
    rcases List.mem_append.mp ht' with ht' | ht'
    · exact h.early t' ht'
    · rwa [List.mem_singleton.mp ht']
  punctual hs t' ht' := by
    rcases List.mem_append.mp ht' with ht' | ht'
    · exact h.punctual hs t' ht'
    · rw [List.mem_singleton.mp ht', hlate]
      exact hs
  pot := by
    rw [List.filter_append, List.map_append, List.sum_append, ← h.pot]
    simp [hlate]
  drawn hs := by
    have hlater : ((ts++[t]).filter fun t => !t.late) = ts.filter fun t => !t.late := by
      rw [List.filter_append]
      simp [hlate, show round.settled = true from hs]
    have hd := h.drawn hs
    exact
      { finalised := hd.finalised
        reached := hd.reached
        winner := by rw [hlater]; exact hd.winner }

theorem Kept.settled (h : Kept registry round entries ts) (hs : round.settled = false)
    {drawBlockHash : Bytes32} {winner : Address} (hfin : Finalised registry drawBlockHash)
    (hreach : round.drawHeight ≤ (registry.outputsByBlockHash drawBlockHash).height)
    (hw : entries[(registry.outputsByBlockHash drawBlockHash).randomnessOutput.toNat%
      round.entryCount]? = some winner) :
    Kept registry { round with drawBlockHash, winner, settled := true, pot := 0 } entries ts where
  terms := h.terms
  entrants := h.entrants
  counted := h.counted
  fees := h.fees
  early := h.early
  punctual hs := by cases hs
  pot := by
    have hnone : (ts.filter fun t => t.late || !true) = [] := by
      rw [List.filter_eq_nil_iff]
      intro t ht
      simp [h.punctual hs t ht]
    rw [hnone]
    rfl
  drawn _ := by
    have hall : (ts.filter fun t => !t.late) = ts := by
      rw [List.filter_eq_self]
      intro t ht
      simp [h.punctual hs t ht]
    exact
      { finalised := hfin
        reached := hreach
        winner := by rw [hall, ← h.entrants, ← h.counted]; exact hw }

theorem Kept.oracle {K : Primitives} {registry' : Registry} {e : Msg × Call}
    (h : Kept registry round entries ts) (hs : Oracle.step K registry e = some registry') :
    Kept registry' round entries ts where
  terms := h.terms
  entrants := h.entrants
  counted := h.counted
  fees := h.fees
  early := h.early
  punctual := h.punctual
  pot := h.pot
  drawn hd := by
    have hdrawn := h.drawn hd
    have hsame := stored_step hs hdrawn.finalised
    exact
      { finalised := by
          unfold Finalised
          rw [hsame]
          exact hdrawn.finalised
        reached := by rw [hsame]; exact hdrawn.reached
        winner := by rw [hsame]; exact hdrawn.winner }

end Round

def pots (l : BinaMinerLottery) : ℕ := ∑ r ∈ Finset.range (l.currentRound+1), (l.rounds r).pot

def Proved (registry : Registry) (work : ProofOfBinaWork) (g : List Ticket) : Prop :=
  ∃ used, Backed registry work used ∧
    ∀ a, (provedBy work used a).card = (g.filter fun t => t.entrant == a).length

structure Sound (j : Joint) (g : List Ticket) : Prop where
  oracle : BinaOracle.Backed j.oracle
  begun : 0 < j.lottery.currentRound
  rounds : ∀ r, 0 < r → r ≤ j.lottery.currentRound →
    Kept j.oracle.contract.registry (j.lottery.rounds r) (j.lottery.entries r) (ticketsOf r g)
  past : ∀ r, 0 < r → r < j.lottery.currentRound → (j.lottery.rounds r).settled = true
  beyond : ∀ r, j.lottery.currentRound < r → j.lottery.rounds r = .zero ∧
    j.lottery.entries r = []
  placed : ∀ t ∈ g, 0 < t.round ∧ t.round ≤ j.lottery.currentRound
  proved : Proved j.oracle.contract.registry j.lottery.work g
  funded : pots j.lottery ≤ j.balance

theorem pots_update (l : BinaMinerLottery) (round : Round) :
    pots { l with rounds := Function.update l.rounds l.currentRound round }+l.round.pot =
      pots l+round.pot := by
  have hrest : ∑ r ∈ Finset.range l.currentRound,
      (Function.update l.rounds l.currentRound round r).pot =
        ∑ r ∈ Finset.range l.currentRound, (l.rounds r).pot := by
    apply Finset.sum_congr rfl
    intro r hr
    rw [Function.update_of_ne (Finset.mem_range.mp hr).ne]
  unfold pots BinaMinerLottery.round
  rw [Finset.sum_range_succ, Finset.sum_range_succ]
  dsimp only
  rw [hrest, Function.update_self]
  omega

section Sound

variable {K : Primitives} {site : Site} {j j' : Joint} {g : List Ticket}

theorem proved_entered {registry : Registry} {work : ProofOfBinaWork} {b : Bytes32} {m : Bytes20}
    (h : Proved registry work g) (hp : Passes registry work b m) (t : Ticket) :
    Proved registry (consume work t.entrant b) (g++[t]) := by
  obtain ⟨used, hbacked, hcount⟩ := h
  have hfresh := hbacked.fresh hp
  refine ⟨insert b used, hbacked.consume hp t.entrant, ?_⟩
  intro a
  rw [provedBy_consume hfresh, List.filter_append, List.length_append, ← hcount a]
  by_cases ha : a = t.entrant
  · subst ha
    have hnew : b ∉ provedBy work used t.entrant := fun hmem => hfresh (Finset.mem_filter.mp hmem).1
    rw [if_pos rfl, Finset.card_insert_of_notMem hnew]
    simp
  · rw [if_neg ha]
    simp [Ne.symm ha]

theorem sound_opened {l : BinaMinerLottery} {height : BitVec 64}
    (h : Sound { j with lottery := l } g) (hs : l.round.settled = true)
    (hroom : height.toNat+110 < 0x10000000000000000) :
    Sound
      { j with
        lottery := { l with
          currentRound := l.currentRound+1
          rounds := Function.update l.rounds (l.currentRound+1) (opened height) } } g where
  oracle := h.oracle
  begun := Nat.succ_pos _
  rounds r hpos hle := by
    by_cases hr : r = l.currentRound+1
    · subst hr
      obtain ⟨-, hentries⟩ := h.beyond (l.currentRound+1) (Nat.lt_succ_self _)
      have htickets : ticketsOf (l.currentRound+1) g = [] := by
        unfold ticketsOf
        rw [List.filter_eq_nil_iff]
        intro t ht
        have hle : t.round ≤ l.currentRound := (h.placed t ht).2
        simp only [beq_iff_eq]
        omega
      dsimp only at hentries ⊢
      rw [Function.update_self, hentries, htickets]
      exact kept_opened hroom
    · dsimp only at hle ⊢
      rw [Function.update_of_ne hr]
      exact h.rounds r hpos (by dsimp only; omega)
  past r hpos hlt := by
    dsimp only at hlt ⊢
    rw [Function.update_of_ne hlt.ne]
    by_cases hr : r = l.currentRound
    · subst hr
      exact hs
    · exact h.past r hpos (by dsimp only; omega)
  beyond r hr := by
    dsimp only at hr ⊢
    rw [Function.update_of_ne hr.ne']
    exact h.beyond r (by dsimp only; omega)
  placed t ht := ⟨(h.placed t ht).1, Nat.le_succ_of_le (h.placed t ht).2⟩
  proved := h.proved
  funded := by
    have hsame : pots { l with
        currentRound := l.currentRound+1
        rounds := Function.update l.rounds (l.currentRound+1) (opened height) } = pots l := by
      have hrest : ∑ r ∈ Finset.range (l.currentRound+1),
          (Function.update l.rounds (l.currentRound+1) (opened height) r).pot = pots l := by
        apply Finset.sum_congr rfl
        intro r hr
        rw [Function.update_of_ne (Finset.mem_range.mp hr).ne]
      unfold pots at hrest ⊢
      rw [Finset.sum_range_succ]
      dsimp only
      rw [hrest, Function.update_self]
      rfl
    dsimp only
    rw [hsame]
    exact h.funded

theorem sound_entered {sender : Address} {value : ℕ} {b : Bytes32} {m : Bytes20}
    (h : Sound j g) (hp : Passes j.oracle.contract.registry j.lottery.work b m)
    (hearly : genericHeight K j.oracle.contract.registry < j.lottery.round.closeHeight)
    (hfee : entryFee ≤ value) :
    Sound
      { j with
        lottery := { j.lottery with
          work := consume j.lottery.work sender b
          rounds := Function.update j.lottery.rounds j.lottery.currentRound
            { j.lottery.round with
              pot := j.lottery.round.pot+value, entryCount := j.lottery.round.entryCount+1 }
          entries := Function.update j.lottery.entries j.lottery.currentRound
            (j.lottery.entries j.lottery.currentRound++[sender]) }
        balance := j.balance+value } (g++[j.ticket K sender value]) where
  oracle := h.oracle
  begun := h.begun
  rounds r hpos hle := by
    have hkept := h.rounds r hpos hle
    have hround : (j.ticket K sender value).round = j.lottery.currentRound := rfl
    dsimp only
    rw [ticketsOf_append, hround]
    by_cases hr : j.lottery.currentRound = r
    · subst hr
      rw [if_pos rfl, Function.update_self, Function.update_self]
      exact hkept.entered (t := j.ticket K sender value) hfee hearly rfl
    · rw [if_neg hr, Function.update_of_ne (Ne.symm hr), Function.update_of_ne (Ne.symm hr)]
      exact hkept
  past r hpos hlt := by
    dsimp only at hlt ⊢
    rw [Function.update_of_ne hlt.ne]
    exact h.past r hpos hlt
  beyond r hr := by
    dsimp only at hr ⊢
    rw [Function.update_of_ne hr.ne', Function.update_of_ne hr.ne']
    exact h.beyond r hr
  placed t ht := by
    rcases List.mem_append.mp ht with ht | ht
    · exact h.placed t ht
    · rw [List.mem_singleton.mp ht]
      exact ⟨h.begun, Nat.le_refl _⟩
  proved := proved_entered h.proved hp (j.ticket K sender value)
  funded := by
    have hfunded := h.funded
    have hpots := pots_update j.lottery { j.lottery.round with
      pot := j.lottery.round.pot+value, entryCount := j.lottery.round.entryCount+1 }
    unfold pots at hpots hfunded ⊢
    dsimp only at hpots ⊢
    omega

theorem sound_settled {b : Bytes32} {winner : Address} (h : Sound j g)
    (hs : j.lottery.round.settled = false)
    (hfin : Finalised j.oracle.contract.registry b)
    (hreach : j.lottery.round.drawHeight ≤
      (j.oracle.contract.registry.outputsByBlockHash b).height)
    (hw : (j.lottery.entries j.lottery.currentRound)[
      (j.oracle.contract.registry.outputsByBlockHash b).randomnessOutput.toNat%
        j.lottery.round.entryCount]? = some winner) :
    Sound
      { j with
        lottery := { j.lottery with
          rounds := Function.update j.lottery.rounds j.lottery.currentRound
            { j.lottery.round with drawBlockHash := b, winner, settled := true, pot := 0 } }
        balance := j.balance-j.lottery.round.pot } g where
  oracle := h.oracle
  begun := h.begun
  rounds r hpos hle := by
    have hkept := h.rounds r hpos hle
    dsimp only
    by_cases hr : r = j.lottery.currentRound
    · subst hr
      rw [Function.update_self]
      exact hkept.settled hs hfin hreach hw
    · rw [Function.update_of_ne hr]
      exact hkept
  past r hpos hlt := by
    dsimp only at hlt ⊢
    rw [Function.update_of_ne hlt.ne]
    exact h.past r hpos hlt
  beyond r hr := by
    dsimp only at hr ⊢
    rw [Function.update_of_ne hr.ne']
    exact h.beyond r hr
  placed := h.placed
  proved := h.proved
  funded := by
    have hfunded := h.funded
    have hpots := pots_update j.lottery { j.lottery.round with
      drawBlockHash := b, winner, settled := true, pot := 0 }
    unfold pots at hpots hfunded ⊢
    dsimp only at hpots ⊢
    omega

theorem sound_registry {w : BinaOracle.World} (h : Sound j g) (hw : BinaOracle.Backed w)
    (hr : w.contract.registry = j.oracle.contract.registry ∨ ∃ e,
      Oracle.step K j.oracle.contract.registry e = some w.contract.registry) :
    Sound { j with oracle := w } g where
  oracle := hw
  begun := h.begun
  rounds r hpos hle := by
    rcases hr with hr | ⟨e, hs⟩
    · dsimp only
      rw [hr]
      exact h.rounds r hpos hle
    · exact (h.rounds r hpos hle).oracle hs
  past := h.past
  beyond := h.beyond
  placed := h.placed
  proved := by
    rcases hr with hr | ⟨e, hs⟩
    · dsimp only
      rw [hr]
      exact h.proved
    · obtain ⟨used, hbacked, hcount⟩ := h.proved
      exact ⟨used, hbacked.oracle hs, hcount⟩
  funded := h.funded

theorem sound_step {e : Event} (h : Sound j g) (hs : j.step K site e = some j') :
    Sound j' (noteTicket K j e j' g) := by
  cases e with
  | oracle e =>
    obtain ⟨w, hw, rfl⟩ := Option.map_eq_some_iff.mp hs
    apply sound_registry (K := K) h (h.oracle.step hw)
    rcases BinaOracle.World.step_registry h.oracle hw with ⟨-, hsame⟩ | ⟨_, _, -, hstep⟩
    · exact Or.inl hsame
    · exact Or.inr ⟨_, hstep⟩
  | enter sender value b m =>
    obtain ⟨l', hl, rfl⟩ := Joint.enter_eq_some hs
    obtain ⟨hearly, hp, hfee, rfl⟩ := enter_ok hl
    exact sound_entered h hp hearly hfee
  | draw b =>
    obtain ⟨l', pot, hl, -, rfl⟩ := Joint.draw_eq_some hs
    obtain ⟨hopen, -, hfin, hreach, rfl, winner, hw, rfl⟩ := draw_ok hl
    exact sound_settled h hopen hfin hreach hw
  | force amount =>
    obtain rfl := Option.some.inj hs
    exact
      { oracle := h.oracle
        begun := h.begun
        rounds := h.rounds
        past := h.past
        beyond := h.beyond
        placed := h.placed
        proved := h.proved
        funded := Nat.le_add_right_of_le h.funded }

theorem sound_rest {e : Event} (h : Sound j g) (hheld : isDraw e = true → paying j = true)
    (hr : (caller K site).rest e j = some j') : Sound j' g := by
  cases e with
  | draw b =>
    obtain ⟨l', hl, rfl⟩ := rest_draw hr
    obtain ⟨latest, -, hroom, rfl⟩ := openRound_ok hl
    exact sound_opened h (hheld rfl) hroom
  | oracle | enter | force =>
    obtain rfl := Option.some.inj hr
    exact h

theorem sound_deploy {w : BinaOracle.World} (hw : BinaOracle.Backed w) {l : BinaMinerLottery}
    (hl : deploy K w.contract = .ok l) (balance : ℕ) :
    Sound { oracle := w, lottery := l, balance } [] := by
  obtain ⟨latest, -, hroom, rfl⟩ := openRound_ok hl
  exact
    { oracle := hw
      begun := Nat.one_pos
      rounds := fun r hpos hle => by
        obtain rfl : r = 1 := Nat.le_antisymm hle hpos
        exact kept_opened hroom
      past := fun r hpos hlt => absurd hlt (Nat.not_lt.mpr hpos)
      beyond := fun r hr => by
        dsimp only at hr ⊢
        rw [Function.update_of_ne hr.ne']
        exact ⟨rfl, rfl⟩
      placed := fun t ht => by cases ht
      proved := ⟨∅, Backed.construct _ 22 false, fun _ => rfl⟩
      funded := by
        have hnone : pots
            { work := construct 22 false
              rounds := Function.update (fun _ => Round.zero) 1 (opened latest.height)
              entries := fun _ => [], currentRound := 1 } = 0 := by
          apply Finset.sum_eq_zero
          intro r hr
          dsimp only
          by_cases h1 : r = 1
          · rw [h1, Function.update_self]
            rfl
          · rw [Function.update_of_ne h1]
            rfl
        exact hnone.trans_le (Nat.zero_le _) }

theorem deploy_unsettled {oracle : BinaOracle.Storage} {l : BinaMinerLottery}
    (hl : deploy K oracle = .ok l) : l.round.settled = false := by
  obtain ⟨latest, -, -, rfl⟩ := openRound_ok hl
  rfl

theorem sound_runs {s : Joint × List Ticket} {x : Framed (Joint × List Ticket) Event}
    (h : (booked K site).Runs s x) (hfree : paying s.1 = false)
    (h0 : Sound s.1 s.2) : Sound x.current.1 x.current.2 := by
  apply (caller_locks.recorded (noteTicket K)).invariant
    (P := fun y : Joint × List Ticket => Sound y.1 y.2) h hfree h0
  · rintro y e z hy hs
    obtain ⟨hstep, hnote⟩ := recording_eq_some.mp hs
    rw [hnote]
    exact sound_step hy hstep
  · rintro e y z hy hheld hr
    obtain ⟨j', hj, rfl⟩ := Option.map_eq_some_iff.mp hr
    exact sound_rest hy hheld hj

def toyGeneric : BinaOracle.Event :=
  .call 1 (.ingestion (.submitOutputForPurposes MinedAction.toySubmission))

def toyOther : BinaOracle.Event :=
  .call 1 (.ingestion (.submitOutputForPurposes
    { MinedAction.toySubmission with
      output := { MinedAction.toyOutput with blockHash := 8, nullifier := 9, height := 120 }
      purposes := [5] }))

def toyOracle : Option BinaOracle.World :=
  exec (BinaOracle.World.step shortDigests BinaOracle.toySite) BinaOracle.toyStart [toyGeneric]

def toyDeployed : Option (Joint × List Ticket) :=
  toyOracle.bind fun w => (deploy shortDigests w.contract).toOption.map fun l =>
    ({ oracle := w, lottery := l, balance := 0 }, [])

def toyLottery (moves : List (Move Event)) : Option (Framed (Joint × List Ticket) Event) :=
  toyDeployed.bind fun s =>
    exec (booked shortDigests BinaOracle.toySite).move (.start s) moves

def toyPaid : List (Move Event) :=
  [.take (.enter 9 entryFee 7 4), .take (.oracle toyOther), .take (.draw 8),
    .take (.enter 9 (entryFee+1) 8 4), .leave true]

def toySilent : List (Move Event) :=
  [.take (.oracle (.call 1 (.ingestion (.submitOutputForPurposes
    { MinedAction.toySubmission with
      output := { MinedAction.toyOutput with blockHash := 8, nullifier := 9, height := 101 } }))))]

theorem toyLottery_runs {moves : List (Move Event)} {x : Framed (Joint × List Ticket) Event}
    (h : toyLottery moves = some x) : ∃ w l,
    Reach (BinaOracle.World.step shortDigests BinaOracle.toySite) (.deploy 1 0 0 5) w ∧
      deploy shortDigests w.contract = .ok l ∧
      (booked shortDigests BinaOracle.toySite).Runs
        ({ oracle := w, lottery := l, balance := 0 }, []) x := by
  obtain ⟨s, hs, hx⟩ := Option.bind_eq_some_iff.mp h
  obtain ⟨w, hw, hs⟩ := Option.bind_eq_some_iff.mp hs
  obtain ⟨l, hl, rfl⟩ := Option.map_eq_some_iff.mp hs
  exact ⟨w, l, exec_reach hw, toOption_eq_some.mp hl, exec_reach hx⟩

/-- The books of the lottery in every run among arbitrary outside code, the
winners in the middle of being paid included: each round has the tickets that
were entered in it, one for each consumed proof; the word of its drawing block
picked its winner among those that came in time, and what came late stays in its
pot. The round is settled exactly while its winner is being paid. -/
theorem tickets_and_pots {sender initialPublisher : Address} {oracleBalance now balance : ℕ}
    {w : BinaOracle.World} {l : BinaMinerLottery}
    (hw : Reach (BinaOracle.World.step K site)
      (.deploy sender initialPublisher oracleBalance now) w)
    (hl : deploy K w.contract = .ok l) {x : Framed (Joint × List Ticket) Event}
    (h : (booked K site).Runs ({ oracle := w, lottery := l, balance }, []) x) :
    Sound x.current.1 x.current.2 ∧
      x.current.1.lottery.round.settled = x.frames.any fun f => f.2.any isDraw := by
  have hfree : paying { oracle := w, lottery := l, balance } = false := deploy_unsettled hl
  constructor
  · apply sound_runs h hfree
    exact sound_deploy (BinaOracle.registry_reach (BinaOracle.backed_deploy _ _ _ _) hw).1 hl balance
  · exact (caller_locks.recorded (noteTicket K)).held_eq h hfree

theorem tickets_and_pots_paid : ∃ x, toyLottery toyPaid = some x ∧
    (x.current.1.lottery.rounds 1).pot = entryFee+1 ∧ Sound x.current.1 x.current.2 := by
  have hrun : (toyLottery toyPaid).map (fun x => (x.current.1.lottery.rounds 1).pot) =
      some (entryFee+1) := by decide +kernel
  obtain ⟨x, hx, hpot⟩ := Option.map_eq_some_iff.mp hrun
  obtain ⟨w, l, hw, hl, hr⟩ := toyLottery_runs hx
  exact ⟨x, hx, hpot, (tickets_and_pots hw hl hr).1⟩

theorem late_by_round (n : ℕ) (h : ∀ t ∈ g, t.late = true → t.round < n) :
    ((g.filter Ticket.late).map Ticket.value).sum =
      ∑ r ∈ Finset.range n, (((ticketsOf r g).filter Ticket.late).map Ticket.value).sum := by
  induction g with
  | nil => simp [ticketsOf]
  | cons t g ih =>
    have ih := ih fun t' ht' => h t' (List.mem_cons_of_mem _ ht')
    have hround (r : ℕ) : (((ticketsOf r (t :: g)).filter Ticket.late).map Ticket.value).sum =
        (if r = t.round then if t.late then t.value else 0 else 0)+
          (((ticketsOf r g).filter Ticket.late).map Ticket.value).sum := by
      unfold ticketsOf
      by_cases hr : t.round = r
      · cases hl : t.late <;> simp [hr, hl]
      · simp [hr, Ne.symm hr]
    rw [Finset.sum_congr rfl fun r _ => hround r, Finset.sum_add_distrib, ← ih,
      Finset.sum_ite_eq']
    cases hl : t.late with
    | false => simp [hl]
    | true =>
      have hlt := h t List.mem_cons_self hl
      simp [hl, hlt]

def Frozen (l l' : BinaMinerLottery) : Prop :=
  l.currentRound ≤ l'.currentRound ∧
    ∀ r < l.currentRound, l'.rounds r = l.rounds r ∧ l'.entries r = l.entries r

theorem frozen_step {l : BinaMinerLottery} {e : Event} (h : Frozen l j.lottery)
    (hs : j.step K site e = some j') : Frozen l j'.lottery := by
  obtain ⟨hle, hsame⟩ := h
  cases e with
  | oracle e =>
    obtain ⟨w, -, rfl⟩ := Option.map_eq_some_iff.mp hs
    exact ⟨hle, hsame⟩
  | enter sender value b m =>
    obtain ⟨l', hl, rfl⟩ := Joint.enter_eq_some hs
    obtain ⟨-, -, -, rfl⟩ := enter_ok hl
    refine ⟨hle, fun r hr => ?_⟩
    dsimp only
    have hne : r ≠ j.lottery.currentRound := by omega
    rw [Function.update_of_ne hne, Function.update_of_ne hne]
    exact hsame r hr
  | draw b =>
    obtain ⟨l', pot, hl, -, rfl⟩ := Joint.draw_eq_some hs
    obtain ⟨-, -, -, -, -, winner, -, rfl⟩ := draw_ok hl
    refine ⟨hle, fun r hr => ?_⟩
    dsimp only
    have hne : r ≠ j.lottery.currentRound := by omega
    rw [Function.update_of_ne hne]
    exact hsame r hr
  | force amount =>
    obtain rfl := Option.some.inj hs
    exact ⟨hle, hsame⟩

theorem frozen_rest {l : BinaMinerLottery} {e : Event} (h : Frozen l j.lottery)
    (hr : (caller K site).rest e j = some j') : Frozen l j'.lottery := by
  obtain ⟨hle, hsame⟩ := h
  cases e with
  | draw b =>
    obtain ⟨l', hl, rfl⟩ := rest_draw hr
    obtain ⟨latest, -, -, rfl⟩ := openRound_ok hl
    refine ⟨Nat.le_succ_of_le hle, fun r hr => ?_⟩
    dsimp only
    have hne : r ≠ j.lottery.currentRound+1 := by omega
    rw [Function.update_of_ne hne]
    exact hsame r hr
  | oracle | enter | force =>
    obtain rfl := Option.some.inj hr
    exact ⟨hle, hsame⟩

theorem Frozen.runs {s : Joint × List Ticket} {x : Framed (Joint × List Ticket) Event}
    (h : (booked K site).Runs s x) :
    Frozen s.1.lottery x.current.1.lottery := by
  apply Caller.invariant (P := fun y : Joint × List Ticket => Frozen s.1.lottery y.1.lottery) h
  · exact ⟨Nat.le_refl _, fun _ _ => ⟨rfl, rfl⟩⟩
  · intro y e z hy hs
    exact frozen_step hy (recording_eq_some.mp hs).1
  · intro e y z hy hr
    obtain ⟨j', hj, rfl⟩ := Option.map_eq_some_iff.mp hr
    exact frozen_rest hy hj

theorem Sound.late (h : Sound j g) (hopen : j.lottery.round.settled = false) :
    ((g.filter Ticket.late).map Ticket.value).sum =
      ∑ r ∈ Finset.range j.lottery.currentRound,
        (((ticketsOf r g).filter Ticket.late).map Ticket.value).sum := by
  apply late_by_round
  intro t ht hlate
  have hcur := h.rounds _ h.begun (Nat.le_refl _)
  have hne : t.round ≠ j.lottery.currentRound := by
    intro heq
    have hmem : t ∈ ticketsOf j.lottery.currentRound g :=
      List.mem_filter.mpr ⟨ht, by simp [heq]⟩
    rw [hcur.punctual hopen t hmem] at hlate
    cases hlate
  exact lt_of_le_of_ne (h.placed t ht).2 hne

theorem Sound.late_pots (h : Sound j g) :
    ∑ r ∈ Finset.range j.lottery.currentRound,
        (((ticketsOf r g).filter Ticket.late).map Ticket.value).sum ≤
      ∑ r ∈ Finset.range j.lottery.currentRound, (j.lottery.rounds r).pot := by
  apply Finset.sum_le_sum
  intro r hr
  have hlt := Finset.mem_range.mp hr
  by_cases h0 : r = 0
  · have hnone : ticketsOf r g = [] := by
      unfold ticketsOf
      rw [List.filter_eq_nil_iff]
      intro t ht
      have hpos := (h.placed t ht).1
      simp only [beq_iff_eq]
      omega
    rw [hnone]
    exact Nat.zero_le _
  · have hpos := Nat.pos_of_ne_zero h0
    have hpot := (h.rounds r hpos hlt.le).pot
    rw [h.past r hpos hlt] at hpot
    rw [hpot]
    simp

/-- The rounds behind a transaction never change again, and what ever came late
stays with the contract: no later balance is below the sum of it. -/
theorem late_money_locked {sender initialPublisher : Address} {oracleBalance now balance : ℕ}
    {w : BinaOracle.World} {l : BinaMinerLottery}
    (hw : Reach (BinaOracle.World.step K site)
      (.deploy sender initialPublisher oracleBalance now) w)
    (hl : deploy K w.contract = .ok l) {x y : Framed (Joint × List Ticket) Event}
    (hx : (booked K site).Runs
      ({ oracle := w, lottery := l, balance }, []) x)
    (htop : x.frames = [])
    (hy : (booked K site).Runs x.current y) :
    (∀ r < x.current.1.lottery.currentRound,
      y.current.1.lottery.rounds r = x.current.1.lottery.rounds r ∧
      y.current.1.lottery.entries r = x.current.1.lottery.entries r) ∧
    ((x.current.2.filter Ticket.late).map Ticket.value).sum ≤ y.current.1.balance := by
  have hfree : paying { oracle := w, lottery := l, balance } = false := deploy_unsettled hl
  have hsound : Sound x.current.1 x.current.2 := sound_runs hx hfree
    (sound_deploy (BinaOracle.registry_reach (BinaOracle.backed_deploy _ _ _ _) hw).1 hl balance)
  have hopen : paying x.current.1 = false := by
    have hheld := (caller_locks.recorded (noteTicket K)).held_eq hx hfree
    rw [hheld, htop]
    rfl
  have hlater : Sound y.current.1 y.current.2 := sound_runs hy hopen hsound
  obtain ⟨hle, hsame⟩ := Frozen.runs hy
  refine ⟨hsame, ?_⟩
  rw [hsound.late hopen]
  calc
    _ ≤ ∑ r ∈ Finset.range x.current.1.lottery.currentRound,
        (x.current.1.lottery.rounds r).pot := hsound.late_pots
    _ = ∑ r ∈ Finset.range x.current.1.lottery.currentRound,
        (y.current.1.lottery.rounds r).pot := by
      apply Finset.sum_congr rfl
      intro r hr
      rw [(hsame r (Finset.mem_range.mp hr)).1]
    _ ≤ pots y.current.1.lottery := by
      apply Finset.sum_le_sum_of_subset
      intro r hr
      have hlt := Finset.mem_range.mp hr
      exact Finset.mem_range.mpr (by omega)
    _ ≤ y.current.1.balance := hlater.funded

theorem late_money_locked_paid : ∃ x, toyLottery toyPaid = some x ∧
    ((x.current.2.filter Ticket.late).map Ticket.value).sum = entryFee+1 ∧
    ∀ y, (booked shortDigests BinaOracle.toySite).Runs x.current y →
      entryFee+1 ≤ y.current.1.balance := by
  have hrun : (toyLottery toyPaid).map (fun x =>
      (x.frames.length, ((x.current.2.filter Ticket.late).map Ticket.value).sum)) =
      some (0, entryFee+1) := by decide +kernel
  obtain ⟨x, hx, hp⟩ := Option.map_eq_some_iff.mp hrun
  obtain ⟨htop, hsum⟩ := Prod.mk.inj hp
  obtain ⟨w, l, hw, hl, hr⟩ := toyLottery_runs hx
  refine ⟨x, hx, hsum, fun y hy => ?_⟩
  rw [← hsum]
  exact (late_money_locked hw hl hr (List.eq_nil_of_length_eq_zero htop) hy).2

/-- The current round has closed without an entry. -/
structure Missed (K : Primitives) (j : Joint) : Prop where
  unsettled : j.lottery.round.settled = false
  empty : j.lottery.round.entryCount = 0
  closed : j.lottery.round.closeHeight ≤ genericHeight K j.oracle.contract.registry

theorem missed_step {e : Event} (hw : BinaOracle.Backed j.oracle) (h : Missed K j)
    (hs : j.step K site e = some j') :
    BinaOracle.Backed j'.oracle ∧ Missed K j' ∧ j'.lottery = j.lottery ∧
      noteTicket K j e j' g = g := by
  cases e with
  | oracle e =>
    obtain ⟨w, hstep, rfl⟩ := Option.map_eq_some_iff.mp hs
    have hheight : genericHeight K j.oracle.contract.registry ≤
        genericHeight K w.contract.registry := by
      rcases BinaOracle.World.step_registry hw hstep with ⟨-, hsame⟩ | ⟨_, _, -, hreg⟩
      · rw [hsame]
        exact BitVec.le_refl _
      · exact BinaOracle.step_latestHeight hreg _
    exact ⟨hw.step hstep,
      { unsettled := h.unsettled
        empty := h.empty
        closed := BitVec.le_trans h.closed hheight }, rfl, rfl⟩
  | enter sender value b m =>
    obtain ⟨l', hl, rfl⟩ := Joint.enter_eq_some hs
    obtain ⟨hearly, -, -, -⟩ := enter_ok hl
    exact absurd h.closed (BitVec.not_le.mpr hearly)
  | draw b =>
    obtain ⟨l', pot, hl, -, rfl⟩ := Joint.draw_eq_some hs
    exact absurd h.empty (draw_ok hl).2.1
  | force amount =>
    obtain rfl := Option.some.inj hs
    exact ⟨hw,
      { unsettled := h.unsettled
        empty := h.empty
        closed := h.closed }, rfl, rfl⟩

/-- Once a round has closed without an entry, no entry and no draw ever succeeds
again. -/
theorem missed_round_is_last {sender initialPublisher : Address}
    {oracleBalance now balance : ℕ} {w : BinaOracle.World} {l : BinaMinerLottery}
    (hw : Reach (BinaOracle.World.step K site)
      (.deploy sender initialPublisher oracleBalance now) w)
    (hl : deploy K w.contract = .ok l) {x y : Framed (Joint × List Ticket) Event}
    (hx : (booked K site).Runs ({ oracle := w, lottery := l, balance }, []) x)
    (hmissed : Missed K x.current.1) (hy : (booked K site).Runs x.current y) :
    y.current.1.lottery = x.current.1.lottery ∧ y.current.2 = x.current.2 := by
  have hfree : paying { oracle := w, lottery := l, balance } = false := deploy_unsettled hl
  have hsound : Sound x.current.1 x.current.2 := sound_runs hx hfree
    (sound_deploy (BinaOracle.registry_reach (BinaOracle.backed_deploy _ _ _ _) hw).1 hl balance)
  have hinv : (BinaOracle.Backed y.current.1.oracle ∧ Missed K y.current.1) ∧
      y.current.1.lottery = x.current.1.lottery ∧ y.current.2 = x.current.2 := by
    apply (caller_locks.recorded (noteTicket K)).invariant
      (P := fun z : Joint × List Ticket => (BinaOracle.Backed z.1.oracle ∧ Missed K z.1) ∧
        z.1.lottery = x.current.1.lottery ∧ z.2 = x.current.2) hy hmissed.unsettled
    · exact ⟨⟨hsound.oracle, hmissed⟩, rfl, rfl⟩
    · rintro z e z' ⟨⟨hb, hm⟩, hlottery, htickets⟩ hs
      obtain ⟨hstep, hnote⟩ := recording_eq_some.mp hs
      obtain ⟨hb', hm', hsame, hsilent⟩ := missed_step (g := z.2) hb hm hstep
      exact ⟨⟨hb', hm'⟩, hsame.trans hlottery, hnote.trans (hsilent.trans htickets)⟩
    · rintro e z z' ⟨⟨hb, hm⟩, hsame⟩ hheld hr
      obtain ⟨j', hj, rfl⟩ := Option.map_eq_some_iff.mp hr
      cases e with
      | draw b =>
        have hset := hheld rfl
        rw [paying, hm.unsettled] at hset
        cases hset
      | oracle | enter | force =>
        obtain rfl := Option.some.inj hj
        exact ⟨⟨hb, hm⟩, hsame⟩
  exact hinv.2

theorem missed_round_is_last_silent : ∃ x, toyLottery toySilent = some x ∧
    ∀ y, (booked shortDigests BinaOracle.toySite).Runs x.current y →
      y.current.1.lottery.currentRound = 1 := by
  have hrun : (toyLottery toySilent).map (fun x =>
      (x.current.1.lottery.currentRound, x.current.1.lottery.round.settled,
        x.current.1.lottery.round.entryCount,
        decide (x.current.1.lottery.round.closeHeight ≤
          genericHeight shortDigests x.current.1.oracle.contract.registry))) =
      some (1, false, 0, true) := by decide +kernel
  obtain ⟨x, hx, hp⟩ := Option.map_eq_some_iff.mp hrun
  simp only [Prod.mk.injEq] at hp
  obtain ⟨hcurrent, hsettled, hentries, hclosed⟩ := hp
  obtain ⟨w, l, hw, hl, hr⟩ := toyLottery_runs hx
  have hmissed : Missed shortDigests x.current.1 :=
    { unsettled := hsettled
      empty := hentries
      closed := of_decide_eq_true hclosed }
  refine ⟨x, hx, fun y hy => ?_⟩
  rw [(missed_round_is_last hw hl hr hmissed hy).1]
  exact hcurrent

end Sound

end BinaChain.MinerLottery
