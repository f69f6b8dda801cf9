import BinaChain.Evm.Utility

/-!
# A raffle on the oracle

The raffle asks the oracle for a word when its entries close, and pays the winner
when it can collect the word. Anybody may collect a word, and only once; anybody
may say from which height on it is to come.
-/

set_option autoImplicit false

namespace BinaChain.Raffle
open BinaChain.Word BinaChain.Text BinaChain.Crypto BinaChain.Machine BinaChain.Frames
open BinaChain.Checked BinaChain.Oracle
open BinaChain.BinaOracle (Site UtilityRequest Entry addressBytes requestUtility fulfillUtility
  requestUtility_effect fulfillUtility_effect Backed Effect Holds)

inductive Revert where
  | overflow
  | underflow
  | outOfBounds
  | divisionByZero
  | alreadyEntered
  | wrongEntryFee
  | drawAlreadyRequested
  | drawNotRequested
  | alreadyDrawn
  | noEntrants
  | oracle (e : BinaOracle.Revert)
  deriving DecidableEq

instance : Panics Revert where
  overflow := .overflow
  underflow := .underflow
  outOfBounds := .outOfBounds

structure Config where
  self : Address
  nonzero : self ≠ 0
  purpose : Bytes32
  entryFee : ℕ

def purposeGaming (K : Primitives) : Bytes32 := keccak K (utf8 "BINA_GAMING")

def construct (K : Primitives) (self : Address) (nonzero : self ≠ 0) (purpose : Bytes32)
    (entryFee : ℕ) : Config where
  self := self
  nonzero := nonzero
  purpose := if purpose = 0 then purposeGaming K else purpose
  entryFee := entryFee

structure Storage where
  entrants : List Address
  entered : Address → Bool
  requestId : ℕ
  drawMinHeight : BitVec 64
  winner : Address
  drawn : Bool

def Storage.initial : Storage :=
  { entrants := [], entered := fun _ => false, requestId := 0, drawMinHeight := 0, winner := 0,
    drawn := false }

def enter (cfg : Config) (sender : Address) (value : ℕ) (s : Storage) : Except Revert Storage := do
  require (value = cfg.entryFee) .wrongEntryFee
  require (s.entered sender = false) .alreadyEntered
  require (s.requestId = 0) .drawAlreadyRequested
  return { s with
    entered := Function.update s.entered sender true
    entrants := s.entrants++[sender] }

abbrev Both := BinaOracle.Storage × Storage

def requestDraw (K : Primitives) (cfg : Config) (now : ℕ) (minHeight : BitVec 64) (b : Both) :
    Except Revert Both := do
  let (oracle, s) := b
  require (s.requestId = 0) .drawAlreadyRequested
  require (s.entrants.length ≠ 0) .noEntrants
  let salt :=
    keccak K (addressBytes cfg.self++wordBytes (BitVec.ofNat 256 s.entrants.length))
  let (oracle, requestId) ← (requestUtility K { sender := cfg.self, timestamp := now } cfg.purpose
    salt minHeight oracle).mapError .oracle
  return (oracle, { s with drawMinHeight := minHeight, requestId })

/-- Up to the payment of the balance to the winner. -/
def drawWinner (K : Primitives) (site : Site) (b : Both) : Except Revert Both := do
  let (oracle, s) := b
  require (s.requestId ≠ 0) .drawNotRequested
  require (s.drawn = false) .alreadyDrawn
  let (oracle, utilityWord) ← (fulfillUtility K site s.requestId oracle).mapError .oracle
  require (s.entrants.length ≠ 0) .divisionByZero
  let winnerIndex := utilityWord.toNat%s.entrants.length
  let winner ← read s.entrants winnerIndex
  return (oracle, { s with drawn := true, winner })

structure Joint where
  oracle : BinaOracle.World
  raffle : Storage
  balance : ℕ

inductive Event where
  | oracle (e : BinaOracle.Event)
  | enter (sender : Address) (value : ℕ)
  | requestDraw (minHeight : BitVec 64)
  | drawWinner
  | force (amount : ℕ)

def calledBy (a : Address) : BinaOracle.Event → Bool
  | .call sender _ => sender == a
  | _ => false

def Joint.start (sender initialPublisher : Address) (balance raffleBalance now : ℕ) : Joint where
  oracle := .deploy sender initialPublisher balance now
  raffle := .initial
  balance := raffleBalance

def Joint.put (j : Joint) (b : Both) : Joint :=
  { j with oracle := { j.oracle with contract := b.1 }, raffle := b.2 }

def Joint.step (K : Primitives) (site : Site) (cfg : Config) (j : Joint) : Event → Option Joint
  | .oracle e =>
    if calledBy cfg.self e then none
    else (j.oracle.step K site e).map fun oracle => { j with oracle }
  | .enter sender value =>
    (enter cfg sender value j.raffle).toOption.map fun raffle =>
      { j with raffle, balance := j.balance+value }
  | .requestDraw minHeight =>
    (requestDraw K cfg j.oracle.now minHeight (j.oracle.contract, j.raffle)).toOption.map j.put
  | .drawWinner =>
    (drawWinner K site (j.oracle.contract, j.raffle)).toOption.map fun b =>
      { j.put b with balance := 0 }
  | .force amount => some { j with balance := j.balance+amount }

/-- The draw ends with the payment; a winner that refuses it reverts the draw. -/
def service (K : Primitives) (site : Site) (cfg : Config) : Service Joint Event where
  step := Joint.step K site cfg
  opens j
    | .oracle e => (BinaOracle.service K site).opens j.oracle e
    | .drawWinner => true
    | _ => false
  finish _ j := j
  outermost
    | .oracle e => (BinaOracle.service K site).outermost e
    | _ => false

def Collects (j : Joint) (e : Event) : Prop :=
  ∃ sender, e = .oracle (.call sender (.fulfillUtility j.raffle.requestId))

/-- The height of the latest output of the purpose. -/
def latestHeight (K : Primitives) (cfg : Config) (j : Joint) : BitVec 64 :=
  j.oracle.contract.registry.latestHeightByPurpose (effectivePurpose K cfg.purpose)

/-- The purpose answers requests for the height. -/
def Answers (K : Primitives) (cfg : Config) (j : Joint) (height : BitVec 64) : Prop :=
  j.oracle.contract.registry.latestSeedByPurpose (effectivePurpose K cfg.purpose) ≠ 0 ∧
    height ≤ latestHeight K cfg j

def Waiting (j : Joint) : Prop := j.raffle.requestId ≠ 0 ∧ j.raffle.drawn = false

def Unfulfilled (j : Joint) : Prop :=
  (j.oracle.contract.requests j.raffle.requestId).fulfilled = false

/-- Somebody else takes the raffle's word, or it is requested from above the
height that the purpose gets to. -/
def Spoils (reached : BitVec 64) (j : Joint) (e : Event) : Prop :=
  (Waiting j ∧ Collects j e) ∨ ∃ minHeight, e = .requestDraw minHeight ∧ reached < minHeight

def askedFor (K : Primitives) (cfg : Config) (salt : Bytes32) (minHeight : BitVec 64) :
    UtilityRequest :=
  { requester := cfg.self, purpose := effectivePurpose K cfg.purpose, salt, minHeight,
    fulfilled := false }

/-- What the oracle has on file for the raffle. -/
structure Filed (K : Primitives) (cfg : Config) (j : Joint) : Prop where
  backed : Backed j.oracle
  next : j.oracle.contract.nextRequestId ≠ 0
  undrawn : j.raffle.requestId = 0 → j.raffle.drawn = false
  entrants : j.raffle.requestId ≠ 0 → j.raffle.entrants.length ≠ 0
  request : j.raffle.requestId ≠ 0 → ∃ salt,
    Holds (askedFor K cfg salt j.raffle.drawMinHeight) j.raffle.requestId j.oracle.contract

theorem filed_start (K : Primitives) (cfg : Config)
    (sender initialPublisher : Address) (balance raffleBalance now : ℕ) :
    Filed K cfg (.start sender initialPublisher balance raffleBalance now) where
  backed := BinaOracle.backed_deploy sender initialPublisher balance now
  next := Nat.one_ne_zero
  undrawn _ := rfl
  entrants h := absurd rfl h
  request h := absurd rfl h

section Steps

variable {K : Primitives} {site : Site} {cfg : Config}

theorem backed_effect {w : BinaOracle.World} {m : Msg} {entry : Entry}
    {s : BinaOracle.Storage} (hw : Backed w) (hv : entry.value = 0)
    (he : Effect K m w.contract entry (s, none)) : Backed { w with contract := s } where
  bonded := he.bonded hw.bonded
  funded := by
    have ht := he.total hw.bonded
    rw [hv, Option.getD_none, Nat.add_zero, Nat.add_zero] at ht
    dsimp only at ht ⊢
    rw [ht]
    exact hw.funded

theorem next_effect {m : Msg} {s : BinaOracle.Storage} {entry : Entry}
    {out : BinaOracle.Outcome} (he : Effect K m s entry out) (h : s.nextRequestId ≠ 0) :
    out.1.nextRequestId ≠ 0 := by
  cases he with
  | requestUtility => exact Nat.succ_ne_zero _
  | _ => exact h

theorem enter_ok {sender : Address} {value : ℕ} {s s' : Storage}
    (h : enter cfg sender value s = .ok s') :
    s.requestId = 0 ∧ s'.requestId = 0 ∧ s'.drawn = s.drawn := by
  unfold enter at h
  simp only [bind_eq_ok, require_eq_ok, pure_eq_ok] at h
  obtain ⟨-, -, -, -, -, hid, rfl⟩ := h
  exact ⟨hid, hid, rfl⟩

theorem requestDraw_ok {now : ℕ} {minHeight : BitVec 64} {b b' : Both}
    (h : requestDraw K cfg now minHeight b = .ok b') :
    b.2.requestId = 0 ∧ b.2.entrants.length ≠ 0 ∧ ∃ salt,
      Effect K { sender := cfg.self, timestamp := now } b.1
        (.requestUtility cfg.purpose salt minHeight) (b'.1, none) ∧
      b'.1.requests b.1.nextRequestId = askedFor K cfg salt minHeight ∧
      b'.1.nextRequestId = b.1.nextRequestId+1 ∧
      b'.2 = { b.2 with drawMinHeight := minHeight, requestId := b.1.nextRequestId } := by
  obtain ⟨oracle, s⟩ := b
  unfold requestDraw at h
  simp only [bind_eq_ok, require_eq_ok, pure_eq_ok] at h
  obtain ⟨-, hid, -, hn, ⟨oracle', id⟩, hreq, rfl⟩ := h
  have hreq := mapError_eq_ok.mp hreq
  refine ⟨hid, hn, _, requestUtility_effect hreq, ?_⟩
  unfold requestUtility at hreq
  simp only [bind_eq_ok, add_eq_ok, pure_eq_ok] at hreq
  obtain ⟨_, ⟨-, rfl⟩, heq⟩ := hreq
  obtain ⟨rfl, rfl⟩ := Prod.mk.inj heq
  exact ⟨Function.update_self _ _ _, rfl, rfl⟩

theorem drawWinner_ok {b b' : Both} (h : drawWinner K site b = .ok b') (m : Msg) :
    b.2.requestId ≠ 0 ∧ (b.1.requests b.2.requestId).fulfilled = false ∧
      Effect K m b.1 (.fulfillUtility b.2.requestId) (b'.1, none) ∧
      ∃ winner, b'.2 = { b.2 with drawn := true, winner } := by
  obtain ⟨oracle, s⟩ := b
  unfold drawWinner at h
  simp only [bind_eq_ok, require_eq_ok, pure_eq_ok] at h
  obtain ⟨-, hid, -, -, ⟨oracle', word⟩, hful, -, -, winner, -, rfl⟩ := h
  have hful := mapError_eq_ok.mp hful
  have heffect := fulfillUtility_effect (m := m) hful
  refine ⟨hid, ?_, heffect, winner, rfl⟩
  unfold fulfillUtility at hful
  simp only [bind_eq_ok, require_eq_ok] at hful
  obtain ⟨-, -, -, hopen, -⟩ := hful
  exact hopen

theorem Filed.step {j j' : Joint} {e : Event} (hj : Filed K cfg j)
    (h : j.step K site cfg e = some j') : Filed K cfg j' := by
  cases e with
  | oracle e =>
    simp only [Joint.step] at h
    split at h
    · cases h
    obtain ⟨w, hw, rfl⟩ := Option.map_eq_some_iff.mp h
    rcases BinaOracle.World.step_effect hj.backed hw with ⟨-, hsame, -⟩ | ⟨_, _, _, -, -, heffect⟩
    · refine ⟨hj.backed.step hw, ?_, hj.undrawn, hj.entrants, ?_⟩
      · dsimp only
        rw [hsame]
        exact hj.next
      · dsimp only
        rw [hsame]
        exact hj.request
    · refine ⟨hj.backed.step hw, next_effect heffect hj.next, hj.undrawn, hj.entrants,
        fun hid => ?_⟩
      obtain ⟨salt, hr⟩ := hj.request hid
      exact ⟨salt, heffect.holds hr⟩
  | enter sender value =>
    obtain ⟨raffle, hr, rfl⟩ := Option.map_eq_some_iff.mp h
    obtain ⟨hbefore, hid, hdrawn⟩ := enter_ok (toOption_eq_some.mp hr)
    exact ⟨hj.backed, hj.next, fun _ => hdrawn.trans (hj.undrawn hbefore),
      fun hne => absurd hid hne, fun hne => absurd hid hne⟩
  | requestDraw minHeight =>
    obtain ⟨b, hb, rfl⟩ := Option.map_eq_some_iff.mp h
    obtain ⟨-, hn, salt, heffect, hreq, hnext, hraffle⟩ := requestDraw_ok (toOption_eq_some.mp hb)
    refine ⟨backed_effect hj.backed rfl heffect, next_effect heffect hj.next, fun hid => ?_,
      fun _ => ?_, fun _ => ⟨salt, ?_⟩⟩
    · simp only [Joint.put, hraffle] at hid
      exact absurd hid hj.next
    · simp only [Joint.put, hraffle]
      exact hn
    · simp only [Joint.put, hraffle]
      exact ⟨by rw [hnext]; exact Nat.lt_succ_self _, .inl hreq⟩
  | drawWinner =>
    obtain ⟨b, hb, rfl⟩ := Option.map_eq_some_iff.mp h
    obtain ⟨hid, -, heffect, winner, hraffle⟩ :=
      drawWinner_ok (toOption_eq_some.mp hb) { sender := cfg.self, timestamp := j.oracle.now }
    obtain ⟨salt, hr⟩ := hj.request hid
    refine ⟨backed_effect hj.backed rfl heffect, next_effect heffect hj.next, fun hnone => ?_,
      fun _ => ?_, fun _ => ⟨salt, ?_⟩⟩
    · simp only [Joint.put, hraffle] at hnone
      exact absurd hnone hid
    · simp only [Joint.put, hraffle]
      exact hj.entrants hid
    · simp only [Joint.put, hraffle]
      exact heffect.holds hr
  | force amount =>
    obtain rfl := Option.some.inj h
    exact ⟨hj.backed, hj.next, hj.undrawn, hj.entrants, hj.request⟩

theorem request_kept {j : Joint} {e : BinaOracle.Event} {w : BinaOracle.World}
    (hj : Filed K cfg j) (hid : j.raffle.requestId ≠ 0) (hs : j.oracle.step K site e = some w)
    (hleft : Unfulfilled j → ¬ Collects j (.oracle e)) :
    w.contract.requests j.raffle.requestId = j.oracle.contract.requests j.raffle.requestId := by
  rcases BinaOracle.World.step_effect hj.backed hs with
    ⟨-, hsame, -⟩ | ⟨sender, entry, _, rfl, -, heffect⟩
  · rw [hsame]
  · obtain ⟨salt, hlt, -⟩ := hj.request hid
    apply heffect.requests hlt
    rintro rfl
    refine hleft ?_ ⟨sender, rfl⟩
    generalize w.contract = s at heffect
    cases heffect with
    | fulfillUtility hr _ hopen =>
      rw [hr] at hopen
      exact hopen

theorem unspoiled_step {reached : BitVec 64} {j j' : Joint} {e : Event} (hj : Filed K cfg j)
    (hopen : Waiting j → Unfulfilled j ∧ j.raffle.drawMinHeight ≤ reached)
    (hfair : ¬ Spoils reached j e) (h : j.step K site cfg e = some j') :
    Waiting j' → Unfulfilled j' ∧ j'.raffle.drawMinHeight ≤ reached := by
  intro hw
  cases e with
  | oracle e =>
    simp only [Joint.step] at h
    split at h
    · cases h
    obtain ⟨w, hstep, rfl⟩ := Option.map_eq_some_iff.mp h
    have hwait : Waiting j := hw
    unfold Unfulfilled
    dsimp only
    rw [request_kept hj hwait.1 hstep fun _ hc => hfair (.inl ⟨hwait, hc⟩)]
    exact hopen hwait
  | enter sender value =>
    obtain ⟨raffle, hr, rfl⟩ := Option.map_eq_some_iff.mp h
    exact absurd (enter_ok (toOption_eq_some.mp hr)).2.1 hw.1
  | requestDraw minHeight =>
    obtain ⟨b, hb, rfl⟩ := Option.map_eq_some_iff.mp h
    obtain ⟨-, -, salt, -, hreq, -, hraffle⟩ := requestDraw_ok (toOption_eq_some.mp hb)
    simp only [Unfulfilled, Joint.put, hraffle, hreq, askedFor, true_and]
    exact BitVec.not_lt.mp fun hfar => hfair (.inr ⟨minHeight, rfl, hfar⟩)
  | drawWinner =>
    obtain ⟨b, hb, rfl⟩ := Option.map_eq_some_iff.mp h
    obtain ⟨-, -, -, winner, hraffle⟩ :=
      drawWinner_ok (toOption_eq_some.mp hb) { sender := cfg.self, timestamp := j.oracle.now }
    have hdrawn := hw.2
    simp only [Joint.put, hraffle] at hdrawn
    cases hdrawn
  | force amount =>
    obtain rfl := Option.some.inj h
    exact hopen hw

theorem Filed.asked {j : Joint} (hj : Filed K cfg j) (hid : j.raffle.requestId ≠ 0) :
    ∃ salt fulfilled, j.oracle.contract.requests j.raffle.requestId =
      { askedFor K cfg salt j.raffle.drawMinHeight with fulfilled } := by
  obtain ⟨salt, -, hr | hr⟩ := hj.request hid
  · exact ⟨salt, false, hr⟩
  · exact ⟨salt, true, hr⟩

/-- Up to the payment the draw succeeds exactly when there is a word to collect. -/
theorem Filed.draws_iff {j : Joint} (hj : Filed K cfg j) (hw : Waiting j) :
    (∃ b, drawWinner K site (j.oracle.contract, j.raffle) = .ok b) ↔
      Unfulfilled j ∧ Answers K cfg j j.raffle.drawMinHeight := by
  obtain ⟨salt, fulfilled, hreq⟩ := hj.asked hw.1
  constructor
  · rintro ⟨b, hb⟩
    unfold drawWinner at hb
    simp only [bind_eq_ok, require_eq_ok] at hb
    obtain ⟨-, -, -, -, ⟨oracle, word⟩, hful, -⟩ := hb
    have hful := mapError_eq_ok.mp hful
    unfold fulfillUtility at hful
    simp only [bind_eq_ok, require_eq_ok, not_or, hreq, askedFor] at hful
    obtain ⟨-, -, -, hopen, -, ⟨hseed, hheight⟩, -⟩ := hful
    refine ⟨?_, hseed, BitVec.not_lt.mp hheight⟩
    rw [Unfulfilled, hreq]
    exact hopen
  · rintro ⟨hopen, hready⟩
    rw [Unfulfilled, hreq] at hopen
    obtain rfl : fulfilled = false := hopen
    have hn := hj.entrants hw.1
    obtain ⟨_, hword⟩ : ∃ word,
        BinaOracle.utilityWord K site j.oracle.contract j.raffle.requestId = some word :=
      ⟨_, BinaOracle.utilityWord_eq_some.mpr
        ⟨_, hreq, cfg.nonzero, rfl, hready.1, hready.2, rfl⟩⟩
    obtain ⟨⟨oracle, word⟩, hful, -⟩ := Option.map_eq_some_iff.mp hword
    have hful := toOption_eq_some.mp hful
    have hlt : word.toNat%j.raffle.entrants.length < j.raffle.entrants.length :=
      Nat.mod_lt _ (Nat.pos_of_ne_zero hn)
    have hread : read j.raffle.entrants (word.toNat%j.raffle.entrants.length) =
        (.ok j.raffle.entrants[word.toNat%j.raffle.entrants.length] : Except Revert Address) :=
      read_eq_ok.mpr (List.getElem?_eq_getElem hlt)
    refine ⟨(oracle, { j.raffle with
      drawn := true, winner := j.raffle.entrants[word.toNat%j.raffle.entrants.length] }), ?_⟩
    simp only [drawWinner, hful, Except.mapError, require, if_pos hw.1, if_pos hw.2, if_pos hn,
      hread, bind, Except.bind, pure, Except.pure]

/-- A draw gives the whole balance to an entrant, and is undone if it is refused. -/
def Pays (K : Primitives) (site : Site) (cfg : Config) (x : Framed Joint Event) : Prop :=
  ∃ y, (service K site cfg).move x (.take .drawWinner) = some y ∧
    y.current.raffle.drawn = true ∧ y.current.raffle.winner ∈ x.current.raffle.entrants ∧
    y.current.balance = 0 ∧
    (service K site cfg).move y (.leave true) = some { y with frames := x.frames } ∧
    (service K site cfg).move y (.leave false) = some x

theorem pays_of_draw {x : Framed Joint Event} {b : Both}
    (h : drawWinner K site (x.current.oracle.contract, x.current.raffle) = .ok b) :
    Pays K site cfg x := by
  obtain ⟨-, -, -, winner, hraffle⟩ := drawWinner_ok h { sender := cfg.self, timestamp := 0 }
  have hwinner : b.2.winner ∈ x.current.raffle.entrants := by
    unfold drawWinner at h
    simp only [bind_eq_ok, require_eq_ok, pure_eq_ok] at h
    obtain ⟨-, -, -, -, _, -, -, -, w, hread, rfl⟩ := h
    exact List.mem_of_getElem? (read_eq_ok.mp hread)
  let drawn : Framed Joint Event :=
    { current := { x.current.put b with balance := 0 }
      frames := (x.current, some .drawWinner) :: x.frames }
  refine ⟨drawn, ?_, ?_, hwinner, rfl, rfl, rfl⟩
  · simp only [Service.move, service, Bool.false_and, Bool.false_eq_true, if_false, Joint.step, h,
      Except.toOption, Option.map_some, if_true, drawn]
  · show b.2.drawn = true
    rw [hraffle]

theorem collected_fails {j : Joint} (hj : Filed K cfg j) (hw : Waiting j)
    (hcollected : ¬ Unfulfilled j) :
    drawWinner K site (j.oracle.contract, j.raffle) =
      .error (.oracle .requestAlreadyFulfilled) := by
  obtain ⟨salt, fulfilled, hreq⟩ := hj.asked hw.1
  have hrequester : (j.oracle.contract.requests j.raffle.requestId).requester ≠ 0 := by
    rw [hreq]
    exact cfg.nonzero
  have hful : fulfillUtility K site j.raffle.requestId j.oracle.contract =
      .error .requestAlreadyFulfilled := by
    unfold Unfulfilled at hcollected
    simp only [fulfillUtility, require, if_pos hrequester, if_neg hcollected, bind, Except.bind]
  simp only [drawWinner, hful, Except.mapError, require, if_pos hw.1, if_pos hw.2, bind,
    Except.bind]

theorem latestHeight_step {j j' : Joint} {e : Event} (hj : Filed K cfg j)
    (h : j.step K site cfg e = some j') : latestHeight K cfg j ≤ latestHeight K cfg j' := by
  cases e with
  | oracle e =>
    simp only [Joint.step] at h
    split at h
    · cases h
    obtain ⟨w, hw, rfl⟩ := Option.map_eq_some_iff.mp h
    exact BinaOracle.reach_latestHeight
      (BinaOracle.registry_reach hj.backed (Run.single trivial hw)).2 _
  | enter sender value =>
    obtain ⟨raffle, -, rfl⟩ := Option.map_eq_some_iff.mp h
    exact BitVec.le_refl _
  | requestDraw minHeight =>
    obtain ⟨b, hb, rfl⟩ := Option.map_eq_some_iff.mp h
    obtain ⟨-, -, salt, heffect, -⟩ := requestDraw_ok (toOption_eq_some.mp hb)
    obtain ⟨oracle, raffle⟩ := b
    simp only [latestHeight, Joint.put] at heffect ⊢
    cases heffect with
    | requestUtility => exact BitVec.le_refl _
  | drawWinner =>
    obtain ⟨b, hb, rfl⟩ := Option.map_eq_some_iff.mp h
    obtain ⟨-, -, heffect, -⟩ :=
      drawWinner_ok (toOption_eq_some.mp hb) { sender := cfg.self, timestamp := j.oracle.now }
    obtain ⟨oracle, raffle⟩ := b
    simp only [latestHeight, Joint.put] at heffect ⊢
    cases heffect with
    | fulfillUtility => exact BitVec.le_refl _
  | force amount =>
    obtain rfl := Option.some.inj h
    exact BitVec.le_refl _

structure Spoiled (reached : BitVec 64) (j : Joint) : Prop where
  waiting : Waiting j
  lost : ¬ Unfulfilled j ∨ reached < j.raffle.drawMinHeight

theorem Spoiled.draw_fails {reached : BitVec 64} {j : Joint} (hj : Filed K cfg j)
    (hs : Spoiled reached j) (hlow : latestHeight K cfg j ≤ reached) :
    ¬ ∃ b, drawWinner K site (j.oracle.contract, j.raffle) = .ok b := by
  rw [hj.draws_iff hs.waiting]
  rintro ⟨hopen, -, hheight⟩
  rcases hs.lost with hgone | hfar
  · exact hgone hopen
  · exact BitVec.not_lt.mpr (BitVec.le_trans hheight hlow) hfar

theorem Spoiled.step {reached : BitVec 64} {j j' : Joint} {e : Event} (hj : Filed K cfg j)
    (hs : Spoiled reached j) (hlow : latestHeight K cfg j ≤ reached)
    (h : j.step K site cfg e = some j') : Spoiled reached j' ∧ j.balance ≤ j'.balance := by
  cases e with
  | oracle e =>
    simp only [Joint.step] at h
    split at h
    · cases h
    obtain ⟨w, hstep, rfl⟩ := Option.map_eq_some_iff.mp h
    refine ⟨⟨hs.waiting, hs.lost.imp_left fun hgone => ?_⟩, Nat.le_refl _⟩
    unfold Unfulfilled
    dsimp only
    rw [request_kept hj hs.waiting.1 hstep fun hopen _ => hgone hopen]
    exact hgone
  | enter sender value =>
    obtain ⟨raffle, hr, rfl⟩ := Option.map_eq_some_iff.mp h
    exact absurd (enter_ok (toOption_eq_some.mp hr)).1 hs.waiting.1
  | requestDraw minHeight =>
    obtain ⟨b, hb, rfl⟩ := Option.map_eq_some_iff.mp h
    exact absurd (requestDraw_ok (toOption_eq_some.mp hb)).1 hs.waiting.1
  | drawWinner =>
    obtain ⟨b, hb, rfl⟩ := Option.map_eq_some_iff.mp h
    exact absurd ⟨b, toOption_eq_some.mp hb⟩ (hs.draw_fails hj hlow)
  | force amount =>
    obtain rfl := Option.some.inj h
    exact ⟨⟨hs.waiting, hs.lost⟩, Nat.le_add_right _ _⟩

theorem Spoiled.reach {reached : BitVec 64} {j k : Joint} (hj : Filed K cfg j)
    (hs : Spoiled reached j) (h : Reach (Joint.step K site cfg) j k) :
    Filed K cfg k ∧ (latestHeight K cfg k ≤ reached →
      Spoiled reached k ∧ j.balance ≤ k.balance) := by
  apply h.invariant (P := fun k => Filed K cfg k ∧ (latestHeight K cfg k ≤ reached →
    Spoiled reached k ∧ j.balance ≤ k.balance)) ⟨hj, fun _ => ⟨hs, Nat.le_refl _⟩⟩
  rintro u e v ⟨hu, hspoiled⟩ - hstep
  refine ⟨hu.step hstep, fun hlow => ?_⟩
  have hbefore := BitVec.le_trans (latestHeight_step hu hstep) hlow
  obtain ⟨hs, hle⟩ := hspoiled hbefore
  obtain ⟨hs', hle'⟩ := hs.step hu hbefore hstep
  exact ⟨hs', hle.trans hle'⟩

theorem spoiled_of_spoils {reached : BitVec 64} {j j' : Joint} {e : Event} (hj : Filed K cfg j)
    (hsp : Spoils reached j e) (h : j.step K site cfg e = some j') : Spoiled reached j' := by
  rcases hsp with ⟨hw, sender, rfl⟩ | ⟨minHeight, rfl, hfar⟩
  · simp only [Joint.step] at h
    split at h
    · cases h
    obtain ⟨w, hstep, rfl⟩ := Option.map_eq_some_iff.mp h
    refine ⟨hw, .inl ?_⟩
    rcases BinaOracle.World.step_effect hj.backed hstep with
      ⟨hcall, -⟩ | ⟨_, _, _, heq, -, heffect⟩
    · exact absurd rfl (hcall _ _)
    · obtain ⟨rfl, rfl⟩ := BinaOracle.Event.call.inj heq
      have hfulfilled : (w.contract.requests j.raffle.requestId).fulfilled = true := by
        generalize w.contract = s at heffect ⊢
        cases heffect with
        | fulfillUtility => simp
      unfold Unfulfilled
      dsimp only
      rw [hfulfilled]
      exact nofun
  · obtain ⟨b, hb, rfl⟩ := Option.map_eq_some_iff.mp h
    obtain ⟨hid, -, salt, -, -, -, hraffle⟩ := requestDraw_ok (toOption_eq_some.mp hb)
    refine ⟨⟨?_, ?_⟩, .inr ?_⟩
    · simp only [Joint.put, hraffle]
      exact hj.next
    · simp only [Joint.put, hraffle]
      exact hj.undrawn hid
    · simp only [Joint.put, hraffle]
      exact hfar

theorem filed_of_runs {sender initialPublisher : Address} {balance raffleBalance now : ℕ}
    {x : Framed Joint Event}
    (h : (service K site cfg).Runs
      (.start sender initialPublisher balance raffleBalance now) x) : Filed K cfg x.current := by
  apply Service.invariant h (filed_start K cfg sender initialPublisher balance raffleBalance now)
  · intro j e j' hj hs
    exact hj.step hs
  · intro _ j hj
    exact hj

/-- As long as nobody spoils it, the raffle's word waits for the raffle, and a draw
pays the pot once the purpose has got to the requested height, which it can reach.
Whoever spoils it locks the pot: no draw succeeds while the purpose stays there. -/
theorem word_waits_for_raffle (K : Primitives) (site : Site) (cfg : Config)
    (sender initialPublisher : Address) (balance raffleBalance now : ℕ) (reached : BitVec 64) :
    (∀ x, (service K site cfg).RunsIn (fun j e => ¬ Spoils reached j e)
        (.start sender initialPublisher balance raffleBalance now) x →
      Waiting x.current →
        Unfulfilled x.current ∧ x.current.raffle.drawMinHeight ≤ reached ∧
        (Answers K cfg x.current x.current.raffle.drawMinHeight → Pays K site cfg x)) ∧
    ∀ x, (service K site cfg).Runs (.start sender initialPublisher balance raffleBalance now) x →
      ∀ e j, Spoils reached x.current e → x.current.step K site cfg e = some j →
      ∀ k, Reach (Joint.step K site cfg) j k → latestHeight K cfg k ≤ reached →
        Waiting k ∧ (¬ Unfulfilled k ∨ reached < k.raffle.drawMinHeight) ∧
        j.balance ≤ k.balance ∧
        ¬ ∃ b, drawWinner K site (k.oracle.contract, k.raffle) = .ok b := by
  constructor
  · intro x h hw
    have hall : Filed K cfg x.current ∧ (Waiting x.current →
        Unfulfilled x.current ∧ x.current.raffle.drawMinHeight ≤ reached) := by
      apply h.invariant (P := fun j => Filed K cfg j ∧ (Waiting j →
        Unfulfilled j ∧ j.raffle.drawMinHeight ≤ reached))
      · exact ⟨filed_start K cfg sender initialPublisher balance raffleBalance now,
          fun hw => absurd rfl hw.1⟩
      · rintro j e j' ⟨hj, hopen⟩ hok hs
        exact ⟨hj.step hs, unspoiled_step hj hopen hok hs⟩
      · intro _ j hj
        exact hj
    obtain ⟨hopen, hheight⟩ := hall.2 hw
    refine ⟨hopen, hheight, fun hanswers => ?_⟩
    obtain ⟨b, hb⟩ := (hall.1.draws_iff hw).mpr ⟨hopen, hanswers⟩
    exact pays_of_draw hb
  · intro x h e j hsp hs k hk hlow
    have hfiled := filed_of_runs h
    obtain ⟨hfiled', hspoiled⟩ :=
      (spoiled_of_spoils hfiled hsp hs).reach (hfiled.step hs) hk
    obtain ⟨hspoiled, hle⟩ := hspoiled hlow
    exact ⟨hspoiled.waiting, hspoiled.lost, hle, hspoiled.draw_fails hfiled' hlow⟩

end Steps

def toyConfig : Config where
  self := 0xaf
  nonzero := by decide
  purpose := 7
  entryFee := 3

def toyMoves : List (Move Event) :=
  [.take (.enter 4 3), .take (.requestDraw 1),
    .take (.oracle (BinaOracle.toyPublish 1 (BinaOracle.toyBlock 1 21 31 41) 7))]

def toyRaffle (moves : List (Move Event)) : Option (Framed Joint Event) :=
  exec (service toyPrimitives BinaOracle.toySite toyConfig).move (.start (.start 1 0 0 0 5))
    (toyMoves++moves)

instance (j : Joint) : Decidable (Waiting j) := inferInstanceAs (Decidable (_ ∧ _))

instance (j : Joint) : Decidable (Unfulfilled j) := inferInstanceAs (Decidable (_ = _))

instance (K : Primitives) (cfg : Config) (j : Joint) (height : BitVec 64) :
    Decidable (Answers K cfg j height) :=
  inferInstanceAs (Decidable (_ ∧ _))

theorem word_waits_toy : ∃ x, toyRaffle [] = some x ∧ Waiting x.current ∧
    x.current.balance = 3 ∧ Unfulfilled x.current ∧
    Pays toyPrimitives BinaOracle.toySite toyConfig x := by
  have hrun : (toyRaffle []).any fun x => decide (Waiting x.current) &&
      decide (x.current.balance = 3) &&
      decide (Answers toyPrimitives toyConfig x.current 1) := by decide +kernel
  obtain ⟨x, hx, hfacts⟩ := (Option.any_eq_true _ _).mp hrun
  simp only [Bool.and_eq_true, decide_eq_true_eq] at hfacts
  obtain ⟨⟨hw, hpot⟩, hanswers⟩ := hfacts
  have hadmitted : Admitted (service toyPrimitives BinaOracle.toySite toyConfig).move
      (onTakes fun j e => ¬ Spoils 1 j e) (.start (.start 1 0 0 0 5)) (toyMoves++[]) := by
    apply Admitted.of_forall
    intro v hv y
    simp only [toyMoves, List.append_nil, List.mem_cons, List.not_mem_nil, or_false] at hv
    rcases hv with rfl | rfl | rfl
    · rintro (⟨-, _, he⟩ | ⟨_, he, -⟩) <;> cases he
    · rintro (⟨-, _, he⟩ | ⟨minHeight, he, hfar⟩)
      · cases he
      · obtain rfl := Event.requestDraw.inj he
        exact absurd hfar (by decide)
    · rintro (⟨-, _, he⟩ | ⟨_, he, -⟩) <;> cases he
  obtain ⟨hwaits, -⟩ :=
    word_waits_for_raffle toyPrimitives BinaOracle.toySite toyConfig 1 0 0 0 5 1
  obtain ⟨hopen, hlow, hpays⟩ := hwaits x (hadmitted.run hx) hw
  exact ⟨x, hx, hw, hpot, hopen, hpays ⟨hanswers.1, BitVec.le_trans hlow hanswers.2⟩⟩

theorem pot_locked_by_collector : ∃ x,
    toyRaffle [.take (.oracle (.call 9 (.fulfillUtility 1)))] = some x ∧
    x.current.raffle.requestId = 1 ∧ x.current.raffle.drawn = false ∧ x.current.balance = 3 ∧
    Answers toyPrimitives toyConfig x.current 1 ∧ ¬ Unfulfilled x.current ∧
    drawWinner toyPrimitives BinaOracle.toySite (x.current.oracle.contract, x.current.raffle) =
      .error (.oracle .requestAlreadyFulfilled) := by
  have hrun : (toyRaffle [.take (.oracle (.call 9 (.fulfillUtility 1)))]).any fun x =>
      decide (x.current.raffle.requestId = 1 ∧ x.current.raffle.drawn = false ∧
        x.current.balance = 3 ∧ Answers toyPrimitives toyConfig x.current 1 ∧
        ¬ Unfulfilled x.current) := by decide +kernel
  obtain ⟨x, hx, hfacts⟩ := (Option.any_eq_true _ _).mp hrun
  obtain ⟨hid, hdrawn, hpot, hready, hcollected⟩ := of_decide_eq_true hfacts
  have hw : Waiting x.current := ⟨by rw [hid]; exact Nat.one_ne_zero, hdrawn⟩
  exact ⟨x, hx, hid, hdrawn, hpot, hready, hcollected,
    collected_fails (filed_of_runs (exec_reach hx)) hw hcollected⟩

end BinaChain.Raffle
