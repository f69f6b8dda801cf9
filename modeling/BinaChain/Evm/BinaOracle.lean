import BinaChain.Evm.Oracle
import BinaChain.Support.Checked
import BinaChain.Support.Frames

/-!
# The oracle contract as a whole

Around the ingestion of outputs stand the bonds of publishers, the commitments
that lock them and the requests that turn a seed into a word. The world adds
the contract's balance and the clock; a call that pays its sender hands control
to it.
-/

set_option autoImplicit false

namespace BinaChain.BinaOracle
open BinaChain.Word BinaChain.Abi BinaChain.Text BinaChain.Crypto BinaChain.Machine
open BinaChain.Frames BinaChain.Checked BinaChain.Oracle

structure UtilityRequest where
  requester : Address
  purpose : Bytes32
  salt : Bytes32
  minHeight : BitVec 64
  fulfilled : Bool
  deriving DecidableEq

def UtilityRequest.zero : UtilityRequest :=
  { requester := 0, purpose := 0, salt := 0, minHeight := 0, fulfilled := false }

structure FutureCommitment where
  purpose : Bytes32
  targetHeight : BitVec 64
  deadline : BitVec 64
  assignedPublisher : Address
  resolved : Bool
  deriving DecidableEq

def FutureCommitment.zero : FutureCommitment :=
  { purpose := 0, targetHeight := 0, deadline := 0, assignedPublisher := 0, resolved := false }

inductive Revert where
  | ingestion (e : OracleError)
  | overflow
  | underflow
  | outOfBounds
  | notPublisher
  | zeroValue
  | requestNotFound
  | requestAlreadyFulfilled
  | purposeNotReady
  | noActivePublishers
  | insufficientFreeBond
  | insufficientBond
  | deadlineInPast
  | deadlineNotReached
  | transferFailed
  deriving DecidableEq

instance : Panics Revert where
  overflow := .overflow
  underflow := .underflow
  outOfBounds := .outOfBounds

def ether : ℕ := 1000000000000000000

def minPublisherBond : ℕ := ether

def commitmentSlashAmount : ℕ := ether/2

structure Storage where
  registry : Registry
  publisherBonds : Address → ℕ
  lockedBonds : Address → ℕ
  activePublishers : List Address
  activePublisherIndex1 : Address → ℕ
  futureCommitments : ℕ → FutureCommitment
  nextCommitmentId : ℕ
  requests : ℕ → UtilityRequest
  nextRequestId : ℕ

def deploy (sender initialPublisher : Address) : Storage where
  registry := Oracle.deploy sender initialPublisher
  publisherBonds _ := 0
  lockedBonds _ := 0
  activePublishers := []
  activePublisherIndex1 _ := 0
  futureCommitments _ := .zero
  nextCommitmentId := 1
  requests _ := .zero
  nextRequestId := 1

structure Site where
  chainId : EvmWord
  self : Address

abbrev Outcome := Storage × Option ℕ

def removeActivePublisher (publisher : Address) (s : Storage) : Except Revert Storage :=
  let idx1 := s.activePublisherIndex1 publisher
  if idx1 = 0 then return s
  else do
    let lastIdx ← sub s.activePublishers.length 1
    let lastPublisher ← read s.activePublishers lastIdx
    let activePublishers ← assign s.activePublishers (idx1-1) lastPublisher
    let activePublisherIndex1 := Function.update s.activePublisherIndex1 lastPublisher idx1
    return { s with
      activePublishers := activePublishers.dropLast
      activePublisherIndex1 := Function.update activePublisherIndex1 publisher 0 }

def depositBond (m : Msg) (value : ℕ) (s : Storage) : Except Revert Storage := do
  require (s.registry.publishers m.sender = true) .notPublisher
  require (value ≠ 0) .zeroValue
  let bond ← add (s.publisherBonds m.sender) value
  let s := { s with publisherBonds := Function.update s.publisherBonds m.sender bond }
  if minPublisherBond ≤ bond ∧ s.activePublisherIndex1 m.sender = 0 then
    let activePublishers := s.activePublishers++[m.sender]
    return { s with
      activePublishers
      activePublisherIndex1 :=
        Function.update s.activePublisherIndex1 m.sender activePublishers.length }
  else return s

/-- The bond falls to `bond`, and its owner leaves the rotation below the minimum. -/
def lowerBond (publisher : Address) (bond : ℕ) (s : Storage) : Except Revert Storage :=
  let s := { s with publisherBonds := Function.update s.publisherBonds publisher bond }
  if bond < minPublisherBond then removeActivePublisher publisher s else return s

def withdrawBond (m : Msg) (amount : ℕ) (s : Storage) : Except Revert Outcome := do
  let free ← sub (s.publisherBonds m.sender) (s.lockedBonds m.sender)
  require (¬ (amount = 0 ∨ free < amount)) .insufficientBond
  let bond ← sub (s.publisherBonds m.sender) amount
  let s ← lowerBond m.sender bond s
  return (s, some amount)

def requestFuturePublication (K : Primitives) (m : Msg) (purpose : Bytes32)
    (targetHeight deadline : BitVec 64) (s : Storage) : Except Revert (Storage × ℕ) := do
  require (m.timestamp < deadline.toNat) .deadlineInPast
  let n := s.activePublishers.length
  require (n ≠ 0) .noActivePublishers
  let assigned ← read s.activePublishers (targetHeight.toNat%n)
  let free ← sub (s.publisherBonds assigned) (s.lockedBonds assigned)
  require (commitmentSlashAmount ≤ free) .insufficientFreeBond
  let locked ← add (s.lockedBonds assigned) commitmentSlashAmount
  let commitmentId := s.nextCommitmentId
  let nextCommitmentId ← add commitmentId 1
  return ({ s with
    lockedBonds := Function.update s.lockedBonds assigned locked
    nextCommitmentId
    futureCommitments := Function.update s.futureCommitments commitmentId
      { purpose := effectivePurpose K purpose, targetHeight, deadline,
        assignedPublisher := assigned, resolved := false } }, commitmentId)

def resolveFutureCommitment (m : Msg) (commitmentId : ℕ) (s : Storage) :
    Except Revert Outcome := do
  let c := s.futureCommitments commitmentId
  let p := c.assignedPublisher
  require (c.deadline ≠ 0) .requestNotFound
  require (c.resolved = false) .requestAlreadyFulfilled
  let published := decide (c.targetHeight ≤ s.registry.latestHeightByPurpose c.purpose)
  require (¬ (published = false ∧ m.timestamp < c.deadline.toNat)) .deadlineNotReached
  let lockAmt :=
    if s.lockedBonds p < commitmentSlashAmount then s.lockedBonds p else commitmentSlashAmount
  let locked ← sub (s.lockedBonds p) lockAmt
  let s := { s with
    futureCommitments :=
      Function.update s.futureCommitments commitmentId { c with resolved := true }
    lockedBonds := Function.update s.lockedBonds p locked }
  if published then return (s, none)
  else
    let bond ← sub (s.publisherBonds p) lockAmt
    let s ← lowerBond p bond s
    return (s, some lockAmt)

def addressBytes (a : Address) : Bytes :=
  (List.range 20).map fun i => UInt8.ofNat (a.toNat >>> (8*(19-i)))

def derive (K : Primitives) (site : Site) (seed purpose salt : Bytes32) (consumer : Address)
    (requestId : ℕ) : Bytes32 :=
  keccak K (utf8 "BINA_EVM_UTILITY_V1"++wordBytes site.chainId++addressBytes site.self++
    wordBytes seed++wordBytes purpose++wordBytes salt++addressBytes consumer++
    wordBytes (BitVec.ofNat 256 requestId))

def requestUtility (K : Primitives) (m : Msg) (purpose salt : Bytes32) (minHeight : BitVec 64)
    (s : Storage) : Except Revert (Storage × ℕ) := do
  let requestId := s.nextRequestId
  let nextRequestId ← add requestId 1
  return ({ s with
    nextRequestId
    requests := Function.update s.requests requestId
      { requester := m.sender, purpose := effectivePurpose K purpose, salt, minHeight,
        fulfilled := false } }, requestId)

def fulfillUtility (K : Primitives) (site : Site) (requestId : ℕ) (s : Storage) :
    Except Revert (Storage × Bytes32) := do
  let request := s.requests requestId
  require (request.requester ≠ 0) .requestNotFound
  require (request.fulfilled = false) .requestAlreadyFulfilled
  let seed := s.registry.latestSeedByPurpose request.purpose
  require (¬ (seed = 0 ∨ s.registry.latestHeightByPurpose request.purpose < request.minHeight))
    .purposeNotReady
  let s := { s with
    requests := Function.update s.requests requestId { request with fulfilled := true } }
  return (s, derive K site seed request.purpose request.salt request.requester requestId)

/-- Deauthorising a publisher also takes it out of the rotation. -/
def ingest (K : Primitives) (m : Msg) (c : Call) (s : Storage) : Except Revert Storage := do
  let registry ← (Oracle.call K m s.registry c).mapError .ingestion
  let s := { s with registry }
  match c with
  | .setPublisher publisher false => removeActivePublisher publisher s
  | _ => return s

inductive Entry where
  | ingestion (c : Call)
  | depositBond (value : ℕ)
  | withdrawBond (amount : ℕ)
  | requestFuturePublication (purpose : Bytes32) (targetHeight deadline : BitVec 64)
  | resolveFutureCommitment (commitmentId : ℕ)
  | requestUtility (purpose salt : Bytes32) (minHeight : BitVec 64)
  | fulfillUtility (requestId : ℕ)

def Entry.value : Entry → ℕ
  | .depositBond value => value
  | _ => 0

def perform (K : Primitives) (site : Site) (m : Msg) (s : Storage) : Entry → Except Revert Outcome
  | .ingestion c => do return (← ingest K m c s, none)
  | .depositBond value => do return (← depositBond m value s, none)
  | .withdrawBond amount => withdrawBond m amount s
  | .requestFuturePublication purpose targetHeight deadline => do
    return ((← requestFuturePublication K m purpose targetHeight deadline s).1, none)
  | .resolveFutureCommitment commitmentId => resolveFutureCommitment m commitmentId s
  | .requestUtility purpose salt minHeight => do
    return ((← requestUtility K m purpose salt minHeight s).1, none)
  | .fulfillUtility requestId => do return ((← fulfillUtility K site requestId s).1, none)

structure World where
  contract : Storage
  balance : ℕ
  now : ℕ

/-- `force` is value that arrives without a call. -/
inductive Event where
  | call (sender : Address) (entry : Entry)
  | force (amount : ℕ)
  | tick (timestamp : ℕ)

def World.deploy (sender initialPublisher : Address) (balance now : ℕ) : World :=
  { contract := BinaOracle.deploy sender initialPublisher, balance, now }

/-- What a call makes of the world, and whether it hands control to its sender. A
payment the balance does not cover fails, and with it the call. -/
def World.call (K : Primitives) (site : Site) (w : World) (sender : Address) (entry : Entry) :
    Except Revert (World × Bool) := do
  let out ← perform K site { sender, timestamp := w.now } w.contract entry
  let received := w.balance+entry.value
  let sent := out.2.getD 0
  require (sent ≤ received) .transferFailed
  return ({ w with contract := out.1, balance := received-sent }, out.2.isSome)

def World.step (K : Primitives) (site : Site) (w : World) : Event → Option World
  | .call sender entry => (w.call K site sender entry).toOption.map Prod.fst
  | .force amount => some { w with balance := w.balance+amount }
  | .tick timestamp => if w.now ≤ timestamp then some { w with now := timestamp } else none

/-- After a payment the calls only emit their events. -/
def service (K : Primitives) (site : Site) : Service World Event where
  step := World.step K site
  opens w
    | .call sender entry => (w.call K site sender entry).toOption.any Prod.snd
    | _ => false
  finish _ w := w
  outermost
    | .tick _ => true
    | _ => false

end BinaChain.BinaOracle
