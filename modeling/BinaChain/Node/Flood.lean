import BinaChain.Node.Relay
import BinaChain.Node.Admission
import Mathlib.Data.Fintype.Card
import Mathlib.Logic.Relation

/-!
# How a claim spreads

A node that accepts a claim posts it on to all its peers with one hop less to
go. However the posts are delayed, lost or repeated, they come to an end; and a
claim with as many hops as there are nodes reaches every node once.
-/

set_option autoImplicit false

namespace BinaChain.Flood
open BinaChain.Word BinaChain.Text BinaChain.Crypto BinaChain.Rewards BinaChain.State
open BinaChain.Admission BinaChain.Peers BinaChain.Seen BinaChain.Relay BinaChain.Machine

def defaultP2pTtl : ℕ := 8

/-- A node as the network sees it. -/
structure Station where
  gossip : Gossip
  state : NodeState
  ledger : RewardLedger

/-- A post on its way, with the address of its connection. -/
structure Packet where
  source : SocketAddr
  target : SocketAddr
  envelope : BlockClaimEnvelope
  deriving DecidableEq

structure Clock where
  secs : ℕ
  millis : ℕ

def submissionOf (e : BlockClaimEnvelope) : PendingClaim where
  claim := e.claim
  btcCheckpoint := e.btcCheckpoint
  transactions := e.transactions

def hop (e : BlockClaimEnvelope) : BlockClaimEnvelope := { e with ttl := e.ttl-1 }

/-- The station after a message, and what it relays. -/
def handleP2pMessage (K : Primitives) (host : Host) (clock : Clock) (st : Station)
    (m : BinaMessage) : Station × Option BlockClaimEnvelope :=
  let answer := handleIncoming K host clock.secs st.gossip m
  match answer.2 with
  | some (.blockClaim e) =>
    let verdict := acceptSignedClaim K st.state st.ledger clock.millis (submissionOf e)
    let st := { st with gossip := answer.1, state := verdict.2 }
    match verdict.1 with
    | .ok _ => (st, if e.ttl > 0 then some e else none)
    | .error _ => (st, none)
  | _ => ({ st with gossip := answer.1 }, none)

def broadcastMessage (l : PeerList) (except : Option SocketAddr) (via : SocketAddr → SocketAddr)
    (e : BlockClaimEnvelope) : List Packet :=
  (l.peers.filter fun peer => some peer ≠ except).map fun peer =>
    { source := via peer, target := peer, envelope := e }

structure Network (ι : Type) where
  station : ι → Station
  flying : List Packet

/-- A node publishes, a post arrives or is lost, a stranger posts something, a
node gets another kind of message, or its state moves on. -/
inductive Event (ι : Type) where
  | publish (i : ι) (host : Host) (via : SocketAddr → SocketAddr) (e : BlockClaimEnvelope)
  | deliver (i : ι) (p : Packet) (host : Host) (clock : Clock) (via : SocketAddr → SocketAddr)
  | lose (p : Packet)
  | inject (p : Packet)
  | chat (i : ι) (host : Host) (clock : Clock) (m : BinaMessage)
  | work (i : ι) (state : NodeState) (ledger : RewardLedger)

section Steps

variable {ι : Type} [DecidableEq ι]

def Network.set (net : Network ι) (i : ι) (st : Station) : Network ι :=
  { net with station := Function.update net.station i st }

def step (K : Primitives) (addr : ι → SocketAddr) (net : Network ι) :
    Event ι → Option (Network ι)
  | .publish i host via e =>
    let st := net.station i
    some
      { station := Function.update net.station i
          { st with gossip := broadcastClaim host st.gossip e }
        flying := net.flying++broadcastMessage st.gossip.peers none via e }
  | .deliver i p host clock via =>
    if p ∈ net.flying ∧ p.target = addr i then
      let answer := handleP2pMessage K host clock (net.station i) (.blockClaim p.envelope)
      some
        { station := Function.update net.station i answer.1
          flying := net.flying.erase p++match answer.2 with
            | some e => broadcastMessage answer.1.gossip.peers (some p.source) via e
            | none => [] }
    else none
  | .lose p =>
    if p ∈ net.flying then some { net with flying := net.flying.erase p } else none
  | .inject p => some { net with flying := p :: net.flying }
  | .chat i host clock m =>
    match m with
    | .blockClaim _ => none
    | m => some (net.set i (handleP2pMessage K host clock (net.station i) m).1)
  | .work i state ledger => some (net.set i { net.station i with state, ledger })

end Steps

section Handling

variable {K : Primitives} {host : Host} {clock : Clock} {st : Station}

def Takes (K : Primitives) (host : Host) (clock : Clock) (st : Station)
    (e : BlockClaimEnvelope) : Prop :=
  (handleIncoming K host clock.secs st.gossip (.blockClaim e)).2.isSome ∧
    (acceptSignedClaim K st.state st.ledger clock.millis (submissionOf e)).1.isOk

instance (K : Primitives) (host : Host) (clock : Clock) (st : Station)
    (e : BlockClaimEnvelope) : Decidable (Takes K host clock st e) :=
  inferInstanceAs (Decidable (_ ∧ _))

theorem handleIncoming_claim (K : Primitives) (host : Host) (now : ℕ) (g : Gossip)
    (e : BlockClaimEnvelope) : (handleIncoming K host now g (.blockClaim e)).2 = none ∨
      (handleIncoming K host now g (.blockClaim e)).2 =
        some (.blockClaim (hop e)) := by
  show (handleClaim K host now g e).2 = _ ∨ (handleClaim K host now g e).2 = _
  unfold handleClaim
  split
  · exact Or.inl rfl
  · split
    · exact Or.inl rfl
    · dsimp only
      split
      · exact Or.inl rfl
      · cases e.verify K with
        | error msg => exact Or.inl rfl
        | ok u => exact Or.inr rfl

theorem handle_gossip (K : Primitives) (host : Host) (clock : Clock) (st : Station)
    (m : BinaMessage) : (handleP2pMessage K host clock st m).1.gossip =
      (handleIncoming K host clock.secs st.gossip m).1 := by
  unfold handleP2pMessage
  dsimp only
  split
  · split <;> rfl
  · rfl

theorem handle_relays (K : Primitives) (host : Host) (clock : Clock) (st : Station)
    (e : BlockClaimEnvelope) : (handleP2pMessage K host clock st (.blockClaim e)).2 =
      if Takes K host clock st e ∧ 0 < e.ttl-1 then some (hop e) else none := by
  unfold handleP2pMessage Takes
  rcases handleIncoming_claim K host clock.secs st.gossip e with hnone | hsome
  · simp [hnone]
  · have hsubmission : submissionOf (hop e) = submissionOf e := rfl
    have httl : (hop e).ttl = e.ttl-1 := rfl
    simp only [hsome, hsubmission, httl, Option.isSome_some, true_and]
    cases (acceptSignedClaim K st.state st.ledger clock.millis (submissionOf e)).1 with
    | error r => simp [Except.isOk, Except.toBool]
    | ok a => simp [Except.isOk, Except.toBool]

end Handling

/-- The deliveries that one post can lead to when nobody has more than `P` peers. -/
def weight (P : ℕ) : ℕ → ℕ
  | 0 => 1
  | 1 => 1
  | ttl+2 => 1+P*weight P (ttl+1)

def load (P : ℕ) (flying : List Packet) : ℕ :=
  (flying.map fun p => weight P p.envelope.ttl).sum

def Bounded {ι : Type} (P : ℕ) (net : Network ι) : Prop := ∀ i,
  (net.station i).gossip.peers.peers.length ≤ (net.station i).gossip.peers.maxPeers ∧
    (net.station i).gossip.peers.maxPeers ≤ P

/-- What an event may add to the deliveries to come. -/
def cost {ι : Type} (P : ℕ) : Event ι → ℕ
  | .publish _ _ _ e => P*weight P e.ttl
  | .inject p => weight P p.envelope.ttl
  | _ => 0

def delivered {ι : Type} : Event ι → ℕ
  | .deliver .. => 1
  | _ => 0

theorem load_append (P : ℕ) (flying flying' : List Packet) :
    load P (flying++flying') = load P flying+load P flying' := by
  unfold load
  rw [List.map_append, List.sum_append]

theorem load_erase {P : ℕ} {p : Packet} {flying : List Packet} (h : p ∈ flying) :
    weight P p.envelope.ttl+load P (flying.erase p) = load P flying :=
  List.sum_map_erase (fun p => weight P p.envelope.ttl) h

theorem load_broadcast {P : ℕ} {l : PeerList} (h : l.peers.length ≤ P)
    (except : Option SocketAddr) (via : SocketAddr → SocketAddr) (e : BlockClaimEnvelope) :
    load P (broadcastMessage l except via e) ≤ P*weight P e.ttl := by
  have hconst : ∀ peers : List SocketAddr, load P (peers.map fun peer =>
      { source := via peer, target := peer, envelope := e }) = peers.length*weight P e.ttl := by
    intro peers
    induction peers with
    | nil => simp [load]
    | cons peer rest ih =>
      rw [List.map_cons, load, List.map_cons, List.sum_cons, List.length_cons, Nat.succ_mul,
        Nat.add_comm]
      exact congrArg (·+weight P e.ttl) ih
  unfold broadcastMessage
  rw [hconst]
  exact Nat.mul_le_mul_right _ (Nat.le_trans (List.length_filter_le _ _) h)

theorem weight_relay (P : ℕ) {ttl : ℕ} (h : 0 < ttl-1) :
    1+P*weight P (ttl-1) = weight P ttl := by
  obtain ⟨n, rfl⟩ : ∃ n, ttl = n+2 := ⟨ttl-2, by omega⟩
  rfl

theorem weight_pos (P ttl : ℕ) : 1 ≤ weight P ttl := by
  unfold weight
  split <;> omega

theorem bounded_peers {P : ℕ} {l l' : PeerList} (h : l.peers.length ≤ l.maxPeers ∧ l.maxPeers ≤ P)
    (hcalls : ∃ calls, l' = l.after calls) : l'.peers.length ≤ l'.maxPeers ∧ l'.maxPeers ≤ P := by
  obtain ⟨calls, rfl⟩ := hcalls
  refine ⟨PeerList.after_length h.1 calls, ?_⟩
  rw [(PeerList.after_policy l calls).1]
  exact h.2

theorem handle_bounded {ι : Type} {K : Primitives} {P : ℕ} {net : Network ι}
    (h : Bounded P net) (i : ι) (host : Host) (clock : Clock) (m : BinaMessage) :
    let st := (handleP2pMessage K host clock (net.station i) m).1
    st.gossip.peers.peers.length ≤ st.gossip.peers.maxPeers ∧ st.gossip.peers.maxPeers ≤ P := by
  dsimp only
  rw [handle_gossip]
  exact bounded_peers (h i) (handle_peers K host clock.secs (net.station i).gossip m)

section Ends

variable {ι : Type} [DecidableEq ι] {K : Primitives} {addr : ι → SocketAddr} {P : ℕ}
  {net net' : Network ι}

theorem Bounded.update (h : Bounded P net) {i : ι} {st : Station} {flying : List Packet}
    (hst : st.gossip.peers.peers.length ≤ st.gossip.peers.maxPeers ∧
      st.gossip.peers.maxPeers ≤ P) :
    Bounded P { station := Function.update net.station i st, flying } := by
  intro j
  by_cases hj : j = i
  · subst hj
    simpa using hst
  · simpa [hj] using h j

theorem bounded_step {e : Event ι} (h : Bounded P net) (hs : step K addr net e = some net') :
    Bounded P net' := by
  cases e with
  | publish i host via e =>
    obtain rfl := Option.some.inj hs
    exact h.update (h i)
  | deliver i p host clock via =>
    simp only [step] at hs
    split at hs
    · obtain rfl := Option.some.inj hs
      exact h.update (handle_bounded h i host clock _)
    · cases hs
  | lose p =>
    simp only [step] at hs
    split at hs
    · obtain rfl := Option.some.inj hs
      exact h
    · cases hs
  | inject p =>
    obtain rfl := Option.some.inj hs
    exact h
  | chat i host clock m =>
    cases m with
    | blockClaim e => cases hs
    | peerHello | peerList | ping =>
      obtain rfl := Option.some.inj hs
      exact h.update (handle_bounded h i host clock _)
  | work i state ledger =>
    obtain rfl := Option.some.inj hs
    exact h.update (h i)

theorem load_step {e : Event ι} (h : Bounded P net) (hs : step K addr net e = some net') :
    delivered e+load P net'.flying ≤ load P net.flying+cost P e := by
  cases e with
  | publish i host via e =>
    obtain rfl := Option.some.inj hs
    have hsent := load_broadcast (Nat.le_trans (h i).1 (h i).2) none via e
    simp only [load_append, delivered, cost]
    omega
  | deliver i p host clock via =>
    simp only [step] at hs
    split at hs
    · rename_i hp
      obtain rfl := Option.some.inj hs
      have herase := load_erase (P := P) hp.1
      have hbound := handle_bounded (K := K) h i host clock (.blockClaim p.envelope)
      dsimp only at hbound ⊢
      simp only [load_append, delivered, cost, handle_relays]
      by_cases hrelay : Takes K host clock (net.station i) p.envelope ∧ 0 < p.envelope.ttl-1
      · have hsent := load_broadcast (Nat.le_trans hbound.1 hbound.2) (some p.source) via
          (hop p.envelope)
        have hweight : 1+P*weight P (hop p.envelope).ttl = weight P p.envelope.ttl :=
          weight_relay P hrelay.2
        rw [if_pos hrelay]
        dsimp only
        omega
      · have hpos := weight_pos P p.envelope.ttl
        rw [if_neg hrelay]
        have hnone : load P [] = 0 := rfl
        dsimp only
        omega
    · cases hs
  | lose p =>
    simp only [step] at hs
    split at hs
    · rename_i hp
      obtain rfl := Option.some.inj hs
      have herase := load_erase (P := P) hp
      simp only [delivered, cost]
      omega
    · cases hs
  | inject p =>
    obtain rfl := Option.some.inj hs
    simp only [delivered, cost, load, List.map_cons, List.sum_cons]
    omega
  | chat i host clock m =>
    cases m with
    | blockClaim e => cases hs
    | peerHello | peerList | ping =>
      obtain rfl := Option.some.inj hs
      exact Nat.le_of_eq (Nat.zero_add _)
  | work i state ledger =>
    obtain rfl := Option.some.inj hs
    exact Nat.le_of_eq (Nat.zero_add _)

theorem load_run {events : List (Event ι)} : ∀ {net net' : Network ι}, Bounded P net →
    exec (step K addr) net events = some net' →
      (events.map delivered).sum+load P net'.flying ≤
        load P net.flying+(events.map (cost P)).sum := by
  induction events with
  | nil =>
    intro net net' _ hs
    obtain rfl := Option.some.inj hs
    simp
  | cons e rest ih =>
    intro net net' h hs
    obtain ⟨mid, hmid, hrest⟩ := Option.bind_eq_some_iff.mp hs
    have hone := load_step h hmid
    have hmore := ih (bounded_step h hmid) hrest
    rw [List.map_cons, List.sum_cons, List.map_cons, List.sum_cons]
    omega

/-- In whatever order posts are delivered, lost and repeated, there are no more
deliveries than the publications and the posts of strangers have paid for: a
claim with `ttl` hops pays for `P+P^2+...+P^ttl`. -/
theorem flood_ends {events : List (Event ι)} (h : exec (step K addr) net events = some net')
    (hidle : net.flying = []) (hpeers : ∀ i, (net.station i).gossip.peers.peers.length ≤
      (net.station i).gossip.peers.maxPeers ∧ (net.station i).gossip.peers.maxPeers ≤ P) :
    (events.map delivered).sum ≤ (events.map (cost P)).sum := by
  have hload := load_run (P := P) hpeers h
  rw [hidle] at hload
  have hzero : load P [] = 0 := rfl
  omega

end Ends

def Network.seen {ι : Type} (net : Network ι) (i : ι) : List Str := (net.station i).gossip.seen.ids

def Network.peers {ι : Type} (net : Network ι) (i : ι) : List SocketAddr :=
  (net.station i).gossip.peers.peers

/-- The filter has room, so it forgets nothing. -/
def Room (g : Gossip) : Prop := g.seen.ids.length < g.seen.maxSize

instance (g : Gossip) : Decidable (Room g) := inferInstanceAs (Decidable (_ < _))

/-- The connections to a node's peers come from addresses where no other node
listens. -/
def Outbound {ι : Type} (addr : ι → SocketAddr) (i : ι) (l : PeerList)
    (via : SocketAddr → SocketAddr) : Prop :=
  ∀ peer ∈ l.peers, ∀ j, via peer = addr j → j = i

instance {ι : Type} [Fintype ι] [DecidableEq ι] (addr : ι → SocketAddr) (i : ι) (l : PeerList)
    (via : SocketAddr → SocketAddr) : Decidable (Outbound addr i l via) :=
  inferInstanceAs (Decidable (∀ _ ∈ _, _))

/-- While the claim spreads, its posts are neither lost nor forged nor published
again, they arrive in time, and whoever has not seen it yet accepts it. -/
def Undisturbed {ι : Type} (K : Primitives) (addr : ι → SocketAddr) (e : BlockClaimEnvelope)
    (net : Network ι) : Event ι → Prop
  | .publish i _ _ e' => e'.messageId ≠ e.messageId ∧ Room (net.station i).gossip
  | .deliver i p _ clock via => Room (net.station i).gossip ∧
    Outbound addr i (net.station i).gossip.peers via ∧
    (p.envelope.messageId = e.messageId → e.messageId ∉ net.seen i →
      clock.secs ≤ satAdd e.sentAtUnix messageMaxAgeSecs ∧
      (acceptSignedClaim K (net.station i).state (net.station i).ledger clock.millis
        (submissionOf e)).1.isOk)
  | .lose p => p.envelope.messageId ≠ e.messageId
  | .inject p => p.envelope.messageId ≠ e.messageId
  | _ => True

instance {ι : Type} [Fintype ι] [DecidableEq ι] (K : Primitives) (addr : ι → SocketAddr)
    (e : BlockClaimEnvelope) (net : Network ι) :
    ∀ event, Decidable (Undisturbed K addr e net event)
  | .publish .. => inferInstanceAs (Decidable (_ ∧ _))
  | .deliver .. => inferInstanceAs (Decidable (_ ∧ _ ∧ (_ → _ → _)))
  | .lose _ => inferInstanceAs (Decidable (_ ≠ _))
  | .inject _ => inferInstanceAs (Decidable (_ ≠ _))
  | .chat .. => inferInstanceAs (Decidable True)
  | .work .. => inferInstanceAs (Decidable True)

def noteTaken {ι : Type} (K : Primitives) (net : Network ι) (event : Event ι) (_ : Network ι)
    (taken : List (ι × Str)) : List (ι × Str) :=
  match event with
  | .deliver i p host clock _ =>
    if Takes K host clock (net.station i) p.envelope then (i, p.envelope.messageId) :: taken
    else taken
  | _ => taken

section Marking

variable {K : Primitives} {host : Host} {clock : Clock} {g : Gossip} {e : BlockClaimEnvelope}

theorem mark_ids (h : Room g) (order : List Str) (id : Str) :
    ∀ a, a ∈ (g.seen.mark order id).2.ids ↔ a = id ∨ a ∈ g.seen.ids := by
  intro a
  by_cases hid : id ∈ g.seen.ids
  · rw [SeenSet.mark_old order hid]
    constructor
    · exact Or.inr
    · rintro (rfl | ha)
      · exact hid
      · exact ha
  · have hkept : g.seen.kept order = g.seen.ids := by
      unfold Room at h
      unfold SeenSet.kept
      rw [if_neg (by omega)]
    rw [SeenSet.mark_ids order hid, hkept, List.mem_cons]

theorem deliver_seen (K : Primitives) (host : Host) (h : Room g) (now : ℕ)
    (e : BlockClaimEnvelope) (a : Str) :
    a ∈ (handleIncoming K host now g (.blockClaim e)).1.seen.ids ↔
      (Admissible g.network now e ∧ a = e.messageId) ∨ a ∈ g.seen.ids := by
  by_cases hadm : Admissible g.network now e
  · rw [(handle_admissible K host hadm).1, mark_ids h]
    simp [hadm]
  · rw [handle_inadmissible hadm]
    simp [hadm]

theorem not_takes_seen {st : Station} (h : e.messageId ∈ st.gossip.seen.ids) :
    ¬Takes K host clock st e := by
  rintro ⟨hsome, -⟩
  by_cases hadm : Admissible st.gossip.network clock.secs e
  · exact (SeenSet.mark_fst _ host.order _).mp ((handle_admissible K host hadm).2.mp hsome).1 h
  · rw [handle_inadmissible hadm] at hsome
    cases hsome

theorem takes_fresh {st : Station} (hadm : Admissible st.gossip.network clock.secs e)
    (hnew : e.messageId ∉ st.gossip.seen.ids) (hv : e.verify K = .ok ())
    (hacc : (acceptSignedClaim K st.state st.ledger clock.millis (submissionOf e)).1.isOk) :
    Takes K host clock st e :=
  ⟨(handle_admissible K host hadm).2.mpr ⟨(SeenSet.mark_fst _ host.order _).mpr hnew, hv⟩, hacc⟩

theorem deliver_claim_peers (K : Primitives) (host : Host) (now : ℕ) (g : Gossip)
    (e : BlockClaimEnvelope) : (handleIncoming K host now g (.blockClaim e)).1.peers = g.peers := by
  by_cases hadm : Admissible g.network now e
  · rw [(handle_admissible K host hadm).1]
  · rw [handle_inadmissible hadm]

theorem deliver_rest (K : Primitives) (host : Host) (now : ℕ) (g : Gossip) (m : BinaMessage) :
    (handleIncoming K host now g m).1.network = g.network ∧
      ∀ peer ∈ g.peers.peers, peer ∈ (handleIncoming K host now g m).1.peers.peers := by
  have hadd : ∀ (l : PeerList) (peer addr : SocketAddr), peer ∈ l.peers →
      peer ∈ (l.add addr).2.peers := by
    intro l peer addr hp
    rcases l.add_cases addr with he | ⟨-, -, -, he⟩
    · rwa [he]
    · rw [he]
      exact List.mem_cons_of_mem _ hp
  cases m with
  | blockClaim e =>
    by_cases hadm : Admissible g.network now e
    · rw [(handle_admissible K host hadm).1]
      exact ⟨rfl, fun _ hp => hp⟩
    · rw [handle_inadmissible hadm]
      exact ⟨rfl, fun _ hp => hp⟩
  | peerHello hello =>
    unfold handleIncoming
    dsimp only
    split
    · exact ⟨rfl, fun _ hp => hp⟩
    · refine ⟨rfl, fun peer hp => ?_⟩
      dsimp only
      split
      · exact hadd _ _ _ hp
      · exact hp
  | peerList list =>
    refine ⟨rfl, fun peer hp => ?_⟩
    show peer ∈ ((list.filterMap host.parse).foldl (fun l addr => (l.add addr).2) g.peers).peers
    generalize list.filterMap host.parse = addrs
    generalize g.peers = l at hp
    induction addrs generalizing l with
    | nil => exact hp
    | cons addr rest ih => exact ih _ (hadd _ _ _ hp)
  | ping nonce height => exact ⟨rfl, fun _ hp => hp⟩

theorem mem_broadcast {l : PeerList} {except : Option SocketAddr} {via : SocketAddr → SocketAddr}
    {p : Packet} : p ∈ broadcastMessage l except via e ↔
      p.target ∈ l.peers ∧ some p.target ≠ except ∧ p.source = via p.target ∧ p.envelope = e := by
  unfold broadcastMessage
  simp only [List.mem_map, List.mem_filter, decide_eq_true_eq]
  constructor
  · rintro ⟨peer, ⟨hmem, hne⟩, rfl⟩
    exact ⟨hmem, hne, rfl, rfl⟩
  · rintro ⟨hmem, hne, hsource, henvelope⟩
    refine ⟨p.target, ⟨hmem, hne⟩, ?_⟩
    rw [← hsource, ← henvelope]

end Marking

structure Ahead {ι : Type} (net net' : Network ι) : Prop where
  network : ∀ i, (net'.station i).gossip.network = (net.station i).gossip.network
  peers : ∀ i, ∀ peer ∈ net.peers i, peer ∈ net'.peers i

section Updates

variable {ι : Type} [DecidableEq ι] {net : Network ι} {i : ι} {st : Station}

theorem ahead_update (hn : st.gossip.network = (net.station i).gossip.network)
    (hp : ∀ peer ∈ net.peers i, peer ∈ st.gossip.peers.peers) (flying : List Packet) :
    Ahead net { station := Function.update net.station i st, flying } where
  network j := by
    by_cases hj : j = i
    · subst hj
      simpa using hn
    · simp [hj]
  peers j := by
    by_cases hj : j = i
    · subst hj
      simpa [Network.peers] using hp
    · simp [Network.peers, hj]

theorem seen_update {id : Str} (hs : id ∈ st.gossip.seen.ids ↔ id ∈ net.seen i)
    (flying : List Packet) (j : ι) :
    id ∈ (Network.mk (Function.update net.station i st) flying).seen j ↔ id ∈ net.seen j := by
  by_cases hj : j = i
  · subst hj
    simpa [Network.seen] using hs
  · simp [Network.seen, hj]

end Updates

section Spread

variable {ι : Type} [Fintype ι] [DecidableEq ι] {K : Primitives} {addr : ι → SocketAddr}
  {e : BlockClaimEnvelope} {start net net' : Network ι} {origin : ι} {taken : List (ι × Str)}

def marked (net : Network ι) (e : BlockClaimEnvelope) : Finset ι :=
  Finset.univ.filter fun i => e.messageId ∈ net.seen i

omit [DecidableEq ι] in
theorem mem_marked {i : ι} : i ∈ marked net e ↔ e.messageId ∈ net.seen i := by
  simp [marked]

structure Spreading (addr : ι → SocketAddr) (e : BlockClaimEnvelope) (start : Network ι)
    (origin : ι) (net : Network ι) (taken : List (ι × Str)) : Prop where
  network : ∀ i, (net.station i).gossip.network = e.network
  peers : ∀ i, ∀ peer ∈ start.peers i, peer ∈ net.peers i
  seen : e.messageId ∈ net.seen origin
  content : ∀ p ∈ net.flying, p.envelope.messageId = e.messageId →
    p.envelope = { e with ttl := p.envelope.ttl }
  hops : ∀ p ∈ net.flying, p.envelope.messageId = e.messageId →
    e.ttl+1 ≤ p.envelope.ttl+(marked net e).card
  source : ∀ p ∈ net.flying, p.envelope.messageId = e.messageId → ∀ j, p.source = addr j →
    e.messageId ∈ net.seen j
  posted : ∀ i, e.messageId ∈ net.seen i → ∀ j, addr j ∈ start.peers i →
    e.messageId ∈ net.seen j ∨
      ∃ p ∈ net.flying, p.target = addr j ∧ p.envelope.messageId = e.messageId
  once : ∀ i, taken.count (i, e.messageId) =
    if e.messageId ∈ net.seen i ∧ i ≠ origin then 1 else 0

theorem Spreading.frame (h : Spreading addr e start origin net taken) {taken' : List (ι × Str)}
    (ha : Ahead net net')
    (hs : ∀ i, e.messageId ∈ net'.seen i ↔ e.messageId ∈ net.seen i)
    (hf : ∀ p, p.envelope.messageId = e.messageId → (p ∈ net'.flying ↔ p ∈ net.flying))
    (ht : ∀ i, taken'.count (i, e.messageId) = taken.count (i, e.messageId)) :
    Spreading addr e start origin net' taken' where
  network i := (ha.network i).trans (h.network i)
  peers i peer hpeer := ha.peers i peer (h.peers i peer hpeer)
  seen := (hs origin).mpr h.seen
  content p hmem hid := h.content p ((hf p hid).mp hmem) hid
  hops p hmem hid := by
    have hmarked : marked net' e = marked net e := by
      ext i
      rw [mem_marked, mem_marked, hs]
    rw [hmarked]
    exact h.hops p ((hf p hid).mp hmem) hid
  source p hmem hid j hj := (hs j).mpr (h.source p ((hf p hid).mp hmem) hid j hj)
  posted i hi j hj := by
    rcases h.posted i ((hs i).mp hi) j hj with hseen | ⟨p, hmem, htarget, hid⟩
    · exact Or.inl ((hs j).mpr hseen)
    · exact Or.inr ⟨p, (hf p hid).mpr hmem, htarget, hid⟩
  once i := by
    rw [ht, h.once]
    simp only [hs]

theorem Spreading.known (h : Spreading addr e start origin net taken)
    (haddr : Function.Injective addr) {i : ι} {p : Packet} (htarget : p.target = addr i)
    (hseen : e.messageId ∈ net.seen i)
    (ha : Ahead net net')
    (hs : ∀ i, e.messageId ∈ net'.seen i ↔ e.messageId ∈ net.seen i)
    (hf : net'.flying = net.flying.erase p) : Spreading addr e start origin net' taken where
  network i := (ha.network i).trans (h.network i)
  peers i peer hpeer := ha.peers i peer (h.peers i peer hpeer)
  seen := (hs origin).mpr h.seen
  content q hmem hid := by
    rw [hf] at hmem
    exact h.content q (List.mem_of_mem_erase hmem) hid
  hops q hmem hid := by
    rw [hf] at hmem
    have hmarked : marked net' e = marked net e := by
      ext i
      rw [mem_marked, mem_marked, hs]
    rw [hmarked]
    exact h.hops q (List.mem_of_mem_erase hmem) hid
  source q hmem hid j hj := by
    rw [hf] at hmem
    exact (hs j).mpr (h.source q (List.mem_of_mem_erase hmem) hid j hj)
  posted k hk j hj := by
    rcases h.posted k ((hs k).mp hk) j hj with hold | ⟨q, hmem, hq, hid⟩
    · exact Or.inl ((hs j).mpr hold)
    · by_cases hqp : q = p
      · have hji : j = i := haddr (hq.symm.trans (by rw [hqp, htarget]))
        rw [hji]
        exact Or.inl ((hs i).mpr hseen)
      · right
        refine ⟨q, ?_, hq, hid⟩
        rw [hf]
        exact (List.mem_erase_of_ne hqp).mpr hmem
  once j := by
    rw [h.once]
    simp only [hs]

theorem Spreading.fresh (h : Spreading addr e start origin net taken)
    (haddr : Function.Injective addr) {i : ι} {p : Packet} (hmem : p ∈ net.flying)
    (htarget : p.target = addr i) (hid : p.envelope.messageId = e.messageId)
    (hnew : e.messageId ∉ net.seen i) {via : SocketAddr → SocketAddr} {l : PeerList}
    (hvia : Outbound addr i l via) (hl : ∀ peer ∈ net.peers i, peer ∈ l.peers)
    (ha : Ahead net net')
    (hs : ∀ j, e.messageId ∈ net'.seen j ↔ j = i ∨ e.messageId ∈ net.seen j)
    (hf : net'.flying = net.flying.erase p++broadcastMessage l (some p.source) via
      (hop p.envelope)) :
    Spreading addr e start origin net' ((i, e.messageId) :: taken) := by
  have hcontent := h.content p hmem hid
  have hhops := h.hops p hmem hid
  have hcard : (marked net' e).card = (marked net e).card+1 := by
    have hinsert : marked net' e = insert i (marked net e) := by
      ext j
      rw [Finset.mem_insert, mem_marked, mem_marked, hs]
    rw [hinsert, Finset.card_insert_of_notMem (by rwa [mem_marked])]
  have hsplit : ∀ q, q ∈ net'.flying → q ∈ net.flying ∨ (q.target ∈ l.peers ∧
      q.source = via q.target ∧ q.envelope = hop p.envelope) := by
    intro q hq
    rw [hf, List.mem_append] at hq
    rcases hq with hq | hq
    · exact Or.inl (List.mem_of_mem_erase hq)
    · obtain ⟨htarget, -, hsource, henvelope⟩ := mem_broadcast.mp hq
      exact Or.inr ⟨htarget, hsource, henvelope⟩
  exact
    { network := fun j => (ha.network j).trans (h.network j)
      peers := fun j peer hpeer => ha.peers j peer (h.peers j peer hpeer)
      seen := (hs origin).mpr (Or.inr h.seen)
      content := fun q hq hqid => by
        rcases hsplit q hq with hold | ⟨-, -, henvelope⟩
        · exact h.content q hold hqid
        · rw [henvelope, hop, hcontent]
      hops := fun q hq hqid => by
        rw [hcard]
        rcases hsplit q hq with hold | ⟨-, -, henvelope⟩
        · have hle := h.hops q hold hqid
          omega
        · rw [henvelope]
          show e.ttl+1 ≤ p.envelope.ttl-1+((marked net e).card+1)
          omega
      source := fun q hq hqid j hj => by
        rcases hsplit q hq with hold | ⟨hpeer, hsource, -⟩
        · exact (hs j).mpr (Or.inr (h.source q hold hqid j hj))
        · exact (hs j).mpr (Or.inl (hvia q.target hpeer j (hsource.symm.trans hj)))
      posted := fun k hk j hj => by
        by_cases hjs : e.messageId ∈ net'.seen j
        · exact Or.inl hjs
        right
        have hji : j ≠ i := fun he => hjs ((hs j).mpr (Or.inl he))
        rcases (hs k).mp hk with rfl | hold
        · have hpeer := hl _ (h.peers k _ hj)
          refine ⟨⟨via (addr j), addr j, hop p.envelope⟩, ?_, rfl, hid⟩
          rw [hf]
          apply List.mem_append_right
          refine mem_broadcast.mpr ⟨hpeer, fun hsame => ?_, rfl, rfl⟩
          exact hjs ((hs j).mpr (Or.inr (h.source p hmem hid j (Option.some.inj hsame).symm)))
        · rcases h.posted k hold j hj with hseen | ⟨q, hq, hqt, hqid⟩
          · exact absurd ((hs j).mpr (Or.inr hseen)) hjs
          · refine ⟨q, ?_, hqt, hqid⟩
            rw [hf]
            apply List.mem_append_left
            refine (List.mem_erase_of_ne fun hqp => ?_).mpr hq
            exact hji (haddr (hqt.symm.trans (by rw [hqp, htarget])))
      once := fun j => by
        have horigin : i ≠ origin := fun he => hnew (he ▸ h.seen)
        rw [List.count_cons, h.once]
        simp only [hs, beq_iff_eq, Prod.mk.injEq, and_true]
        by_cases hji : j = i
        · subst hji
          simp [hnew, horigin]
        · simp [hji, Ne.symm hji] }

theorem spreading_deliver (h : Spreading addr e start origin net taken)
    (haddr : Function.Injective addr) (hv : e.verify K = .ok ())
    (httl : Fintype.card ι ≤ e.ttl) {i : ι} {p : Packet} {host : Host} {clock : Clock}
    {via : SocketAddr → SocketAddr} (hok : Undisturbed K addr e net (.deliver i p host clock via))
    (hs : step K addr net (.deliver i p host clock via) = some net') :
    Spreading addr e start origin net'
      (noteTaken K net (.deliver i p host clock via) net' taken) := by
  obtain ⟨hroom, hvia, haccept⟩ := hok
  simp only [step] at hs
  split at hs
  · rename_i hp
    obtain ⟨hmem, htarget⟩ := hp
    obtain rfl := Option.some.inj hs
    have hgossip := handle_gossip K host clock (net.station i) (.blockClaim p.envelope)
    have hrelay := handle_relays K host clock (net.station i) p.envelope
    obtain ⟨hnetwork, hpeers⟩ := deliver_rest K host clock.secs (net.station i).gossip
      (.blockClaim p.envelope)
    have hseen := deliver_seen K host hroom clock.secs p.envelope
    rw [← deliver_claim_peers K host clock.secs _ p.envelope] at hvia
    rw [← hgossip] at hnetwork hpeers hseen hvia
    by_cases hid : p.envelope.messageId = e.messageId
    · rw [hid] at hseen
      by_cases hknown : e.messageId ∈ net.seen i
      · have hnot : ¬Takes K host clock (net.station i) p.envelope :=
          not_takes_seen (by rw [hid]; exact hknown)
        rw [if_neg fun ht => hnot ht.1] at hrelay
        have hnote : noteTaken K net (.deliver i p host clock via)
            { station := Function.update net.station i (handleP2pMessage K host clock
                (net.station i) (.blockClaim p.envelope)).1
              flying := net.flying.erase p } taken = taken := if_neg hnot
        rw [hrelay]
        dsimp only
        rw [List.append_nil, hnote]
        refine h.known haddr htarget hknown (ahead_update hnetwork hpeers _) ?_ rfl
        apply seen_update
        rw [hseen]
        exact ⟨fun _ => hknown, Or.inr⟩
      · obtain ⟨htime, hacc⟩ := haccept hid hknown
        have hcontent := h.content p hmem hid
        have hhops := h.hops p hmem hid
        have hcard : (marked net e).card < Fintype.card ι :=
          Finset.card_lt_univ_of_notMem (x := i) (by rwa [mem_marked])
        have hadm : Admissible (net.station i).gossip.network clock.secs p.envelope := by
          rw [h.network i, hcontent]
          exact ⟨rfl, by show 0 < p.envelope.ttl; omega, htime⟩
        have hverify : p.envelope.verify K = .ok () := by
          rw [hcontent]
          exact hv
        have htakes : Takes K host clock (net.station i) p.envelope := by
          refine takes_fresh hadm (by rw [hid]; exact hknown) hverify ?_
          rw [hcontent]
          exact hacc
        rw [if_pos ⟨htakes, by omega⟩] at hrelay
        have hnote : ∀ last, noteTaken K net (.deliver i p host clock via) last taken =
            (i, e.messageId) :: taken := by
          intro last
          rw [← hid]
          exact if_pos htakes
        rw [hrelay, hnote]
        refine h.fresh haddr hmem htarget hid hknown hvia hpeers
          (ahead_update hnetwork hpeers _) ?_ rfl
        intro j
        by_cases hj : j = i
        · subst hj
          simp only [Network.seen, Function.update_self]
          rw [hseen]
          simp [hadm]
        · simp [Network.seen, hj]
    · have hother : ∀ a, (i, p.envelope.messageId) ≠ (a, e.messageId) := fun a ha =>
        hid (Prod.mk.inj ha).2
      refine h.frame (ahead_update hnetwork hpeers _) ?_ ?_ ?_
      · apply seen_update
        rw [hseen]
        exact ⟨fun hor => hor.resolve_left fun hand => hid hand.2.symm, Or.inr⟩
      · intro q hq
        have hqp : q ≠ p := fun he => hid (by rw [← he, hq])
        rw [List.mem_append, List.mem_erase_of_ne hqp, hrelay]
        constructor
        · rintro (hold | hnew)
          · exact hold
          · split at hnew
            · rename_i e' hsome
              obtain ⟨-, -, -, henvelope⟩ := mem_broadcast.mp hnew
              split at hsome
              · obtain rfl := Option.some.inj hsome
                rw [henvelope] at hq
                exact absurd hq hid
              · cases hsome
            · cases hnew
        · exact Or.inl
      · intro j
        unfold noteTaken
        dsimp only
        split
        · rw [List.count_cons_of_ne (hother j)]
        · rfl
  · cases hs

theorem spreading_step (h : Spreading addr e start origin net taken)
    (haddr : Function.Injective addr) (hv : e.verify K = .ok ())
    (httl : Fintype.card ι ≤ e.ttl) {event : Event ι} (hok : Undisturbed K addr e net event)
    (hs : step K addr net event = some net') :
    Spreading addr e start origin net' (noteTaken K net event net' taken) := by
  cases event with
  | deliver i p host clock via => exact spreading_deliver h haddr hv httl hok hs
  | publish i host via e' =>
    obtain ⟨hne, hroom⟩ := hok
    obtain rfl := Option.some.inj hs
    have hahead : Ahead net ⟨Function.update net.station i ⟨broadcastClaim host
        (net.station i).gossip e', (net.station i).state, (net.station i).ledger⟩,
        net.flying++broadcastMessage (net.station i).gossip.peers none via e'⟩ :=
      ahead_update (by rfl) (fun _ hp => by exact hp) _
    refine h.frame hahead ?_ ?_ fun _ => rfl
    · apply seen_update
      show e.messageId ∈ ((net.station i).gossip.seen.mark host.order e'.messageId).2.ids ↔ _
      rw [mark_ids hroom]
      exact ⟨fun hor => hor.resolve_left fun he => hne he.symm, Or.inr⟩
    · intro q hq
      rw [List.mem_append, mem_broadcast]
      constructor
      · rintro (hold | ⟨-, -, -, henvelope⟩)
        · exact hold
        · rw [henvelope] at hq
          exact absurd hq hne
      · exact Or.inl
  | lose p =>
    simp only [step] at hs
    split at hs
    · obtain rfl := Option.some.inj hs
      refine h.frame ⟨fun _ => rfl, fun _ _ hp => hp⟩ (fun _ => Iff.rfl) ?_ fun _ => rfl
      intro q hq
      exact List.mem_erase_of_ne fun he => hok (by rw [← he, hq])
    · cases hs
  | inject p =>
    obtain rfl := Option.some.inj hs
    refine h.frame ⟨fun _ => rfl, fun _ _ hp => hp⟩ (fun _ => Iff.rfl) ?_ fun _ => rfl
    intro q hq
    rw [List.mem_cons]
    exact ⟨fun hor => hor.resolve_left fun he => hok (by rw [← he, hq]), Or.inr⟩
  | chat i host clock m =>
    have hother (hm : ∀ e, m ≠ .blockClaim e) :
        Spreading addr e start origin
          (net.set i (handleP2pMessage K host clock (net.station i) m).1) taken := by
      obtain ⟨hseen, -⟩ := handle_other K host clock.secs (net.station i).gossip hm
      obtain ⟨hnetwork, hpeers⟩ := deliver_rest K host clock.secs (net.station i).gossip m
      rw [← handle_gossip] at hseen hnetwork hpeers
      refine h.frame (ahead_update hnetwork hpeers _) ?_ (fun _ _ => Iff.rfl) fun _ => rfl
      apply seen_update
      rw [hseen]
      exact Iff.rfl
    cases m with
    | blockClaim e' => cases hs
    | peerHello | peerList | ping =>
      obtain rfl := Option.some.inj hs
      exact hother fun e he => by cases he
  | work i state ledger =>
    obtain rfl := Option.some.inj hs
    have hahead : Ahead net ⟨Function.update net.station i ⟨(net.station i).gossip, state,
        ledger⟩, net.flying⟩ := ahead_update (by rfl) (fun _ hp => by exact hp) _
    refine h.frame hahead ?_ (fun _ _ => Iff.rfl) fun _ => rfl
    apply seen_update
    exact Iff.rfl

theorem spreading_publish {host : Host} {via : SocketAddr → SocketAddr}
    (hnetwork : ∀ i, (start.station i).gossip.network = e.network)
    (hnew : ∀ i, e.messageId ∉ start.seen i)
    (hnone : ∀ p ∈ start.flying, p.envelope.messageId ≠ e.messageId)
    (hroom : Room (start.station origin).gossip)
    (hvia : Outbound addr origin (start.station origin).gossip.peers via)
    (hs : step K addr start (.publish origin host via e) = some net) :
    Spreading addr e start origin net [] := by
  obtain rfl := Option.some.inj hs
  have hseen : ∀ i, e.messageId ∈ (Network.mk (Function.update start.station origin
      { start.station origin with gossip := broadcastClaim host (start.station origin).gossip e })
      (start.flying++broadcastMessage (start.station origin).gossip.peers none via e)).seen i ↔
        i = origin := by
    intro i
    by_cases hi : i = origin
    · subst hi
      simp [Network.seen, broadcastClaim, mark_ids hroom]
    · have hold := hnew i
      simpa [Network.seen, hi] using hold
  have hsent : ∀ p ∈ start.flying++broadcastMessage (start.station origin).gossip.peers none via e,
      p.envelope.messageId = e.messageId → p.target ∈ (start.station origin).gossip.peers.peers ∧
        p.source = via p.target ∧ p.envelope = e := by
    intro p hp hid
    rcases List.mem_append.mp hp with hold | hnew
    · exact absurd hid (hnone p hold)
    · obtain ⟨htarget, -, hsource, henvelope⟩ := mem_broadcast.mp hnew
      exact ⟨htarget, hsource, henvelope⟩
  have hahead : Ahead start ⟨Function.update start.station origin ⟨broadcastClaim host
      (start.station origin).gossip e, (start.station origin).state,
      (start.station origin).ledger⟩,
      start.flying++broadcastMessage (start.station origin).gossip.peers none via e⟩ :=
    ahead_update (by rfl) (fun _ hp => by exact hp) _
  exact
    { network := fun i => (hahead.network i).trans (hnetwork i)
      peers := hahead.peers
      seen := (hseen origin).mpr rfl
      content := fun p hp hid => by rw [(hsent p hp hid).2.2]
      hops := fun p hp hid => by
        have hpos : 0 < (marked _ e).card :=
          Finset.card_pos.mpr ⟨origin, mem_marked.mpr ((hseen origin).mpr rfl)⟩
        rw [(hsent p hp hid).2.2]
        exact Nat.add_le_add_left hpos _
      source := fun p hp hid j hj => by
        obtain ⟨htarget, hsource, -⟩ := hsent p hp hid
        exact (hseen j).mpr (hvia p.target htarget j (hsource.symm.trans hj))
      posted := fun i hi j hj => by
        obtain rfl := (hseen i).mp hi
        right
        refine ⟨⟨via (addr j), addr j, e⟩, ?_, rfl, rfl⟩
        apply List.mem_append_right
        exact mem_broadcast.mpr ⟨hj, Option.some_ne_none _, rfl, rfl⟩
      once := fun i => by
        rw [List.count_nil, if_neg fun hand => hand.2 ((hseen i).mp hand.1)] }

/-- A claim that is published with at least as many hops as there are nodes, and
then spreads undisturbed until no post of it is left, has been seen by every node
that can be reached over the lists of peers; each of them but the first took it
exactly once, and nobody took it twice. -/
theorem claim_reaches_all (haddr : Function.Injective addr) (hv : e.verify K = .ok ())
    (httl : Fintype.card ι ≤ e.ttl)
    (hnetwork : ∀ i, (start.station i).gossip.network = e.network)
    (hnew : ∀ i, e.messageId ∉ start.seen i)
    (hnone : ∀ p ∈ start.flying, p.envelope.messageId ≠ e.messageId) {host : Host}
    {via : SocketAddr → SocketAddr} (hroom : Room (start.station origin).gossip)
    (hvia : Outbound addr origin (start.station origin).gossip.peers via)
    (hs : step K addr start (.publish origin host via e) = some net)
    {x : Network ι × List (ι × Str)}
    (hrun : Run (recording (step K addr) (noteTaken K)) (fun y => Undisturbed K addr e y.1)
      (net, []) x)
    (hquiet : ∀ p ∈ x.1.flying, p.envelope.messageId ≠ e.messageId) :
    (∀ i, x.2.count (i, e.messageId) ≤ 1) ∧
      ∀ i, Relation.ReflTransGen (fun a b => addr b ∈ start.peers a) origin i →
        e.messageId ∈ x.1.seen i ∧ (i ≠ origin → x.2.count (i, e.messageId) = 1) := by
  have hinv : Spreading addr e start origin x.1 x.2 := by
    apply hrun.invariant (P := fun x => Spreading addr e start origin x.1 x.2)
    · exact spreading_publish hnetwork hnew hnone hroom hvia hs
    · intro y event z hy hok hstep
      obtain ⟨hnext, htaken⟩ := recording_eq_some.mp hstep
      rw [htaken]
      exact spreading_step hy haddr hv httl hok hnext
  constructor
  · intro i
    rw [hinv.once]
    split <;> omega
  · intro i hreach
    have hseen : e.messageId ∈ x.1.seen i := by
      induction hreach with
      | refl => exact hinv.seen
      | @tail a b _ hedge ih =>
        rcases hinv.posted a ih b hedge with hb | ⟨p, hp, -, hid⟩
        · exact hb
        · exact absurd hid (hquiet p hp)
    refine ⟨hseen, fun hne => ?_⟩
    rw [hinv.once, if_pos ⟨hseen, hne⟩]

end Spread

def toyAddr (i : Fin 3) : SocketAddr := .v4 ⟨#v[127, 0, 0, 1]⟩ (8080+i.val)

def toyVia (_ : SocketAddr) : SocketAddr := .v4 ⟨#v[127, 0, 0, 1]⟩ 49152

def toyPeers (i : Fin 3) : PeerList where
  peers := (if i = 1 then [0, 2] else [1]).map toyAddr
  maxPeers := 2
  allowLoopback := true
  allowPrivate := true
  nodup := by
    revert i
    decide

def toyLine : Network (Fin 3) where
  station i :=
    { gossip := .new (toyPeers i) toyNetwork
      state := genesisState toyPrimitives .mock
      ledger := .create [] }
  flying := []

def toyPublication : Event (Fin 3) := .publish 0 toyHost toyVia toyEnvelope

def toyDelivery (i : Fin 3) (ttl : ℕ) : Event (Fin 3) :=
  .deliver i ⟨toyVia (toyAddr i), toyAddr i, { toyEnvelope with ttl }⟩ toyHost
    { secs := 101, millis := toyEnvelope.claim.header.timestamp } toyVia

def toySpread : List (Event (Fin 3)) :=
  [toyDelivery 1 defaultP2pTtl, toyDelivery 0 7, toyDelivery 2 7, toyDelivery 1 6]

theorem flood_ends_line : (exec (step toyPrimitives toyAddr) toyLine
      (toyPublication :: toySpread)).isSome ∧
    ((toyPublication :: toySpread).map delivered).sum ≤
      ((toyPublication :: toySpread).map (cost 2)).sum := by
  have hrun : (exec (step toyPrimitives toyAddr) toyLine
      (toyPublication :: toySpread)).isSome := by decide +kernel
  obtain ⟨net, hnet⟩ := Option.isSome_iff_exists.mp hrun
  exact ⟨hrun, flood_ends hnet rfl (by decide)⟩

theorem toyAddr_injective : Function.Injective toyAddr := by
  intro i j h
  exact Fin.ext (Nat.add_left_cancel (SocketAddr.v4.inj h).2)

theorem claim_reaches_all_line : ∃ net x,
    step toyPrimitives toyAddr toyLine toyPublication = some net ∧
    exec (recording (step toyPrimitives toyAddr) (noteTaken toyPrimitives)) (net, [])
      toySpread = some x ∧ x.2.count (2, toyEnvelope.messageId) = 1 := by
  obtain ⟨net, hnet, hrun, hadm⟩ : ∃ net,
      step toyPrimitives toyAddr toyLine toyPublication = some net ∧
        ((exec (recording (step toyPrimitives toyAddr) (noteTaken toyPrimitives)) (net, [])
          toySpread).any fun x => x.1.flying.isEmpty) ∧
        Admitted (recording (step toyPrimitives toyAddr) (noteTaken toyPrimitives))
          (fun y => Undisturbed toyPrimitives toyAddr toyEnvelope y.1) (net, []) toySpread := by
    refine ⟨_, rfl, ?_⟩
    decide +kernel
  obtain ⟨x, hx, hflying⟩ := (Option.any_eq_true _ _).mp hrun
  have hnone : x.1.flying = [] := List.isEmpty_iff.mp hflying
  have hall := claim_reaches_all toyAddr_injective toyEnvelope_verifies (by decide) (by decide)
    (by decide) (by decide) (by decide) (by decide) hnet (hadm.run hx) (by simp [hnone])
  refine ⟨net, x, hnet, hx, (hall.2 2 ?_).2 (by decide)⟩
  exact .tail (.single (b := 1) (by decide)) (by decide)

end BinaChain.Flood
