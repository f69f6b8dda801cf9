import BinaChain.Node.Mining
import BinaChain.Node.Peers
import BinaChain.Support.Checked
import BinaChain.Support.Machine
import BinaChain.Support.Seen

/-!
# Gossip of block claims

An envelope is recognised by the id its sender wrote into it. The id is marked
as seen before the envelope is verified, whether or not it then verifies.
-/

set_option autoImplicit false

namespace BinaChain.Relay
open BinaChain.Word BinaChain.Text BinaChain.Crypto BinaChain.Block BinaChain.Claims
open BinaChain.Transaction BinaChain.BitcoinEntropy BinaChain.Peers BinaChain.Seen
open BinaChain.Machine

def messageMaxAgeSecs : ℕ := 30

def messageTag : Bytes := utf8 "BINA-P2P-MSG-v1"

structure DerivedFields where
  headerHash : Str
  claimDigest : Str
  workBits : ℕ
  electionScore : Str
  deriving DecidableEq

def DerivedFields.fromClaim (K : Primitives) (claim : SignedBlockClaim) : DerivedFields where
  headerHash := claim.blockHashHex K
  claimDigest := Hex.encode (claimMessage K claim.header).toList
  workBits := claim.workBits K
  electionScore := Hex.encode (claim.score K).toList

structure BlockClaimEnvelope where
  network : Str
  messageId : Str
  sentAtUnix : ℕ
  ttl : ℕ
  claim : SignedBlockClaim
  btcCheckpoint : Option BtcCheckpointProof
  transactions : List SignedTransaction
  derived : DerivedFields
  deriving DecidableEq

/-- Neither the transactions nor the public key are part of it. -/
def messageId (K : Primitives) (network : Str) (sentAtUnix : ℕ) (claim : SignedBlockClaim)
    (derived : DerivedFields) (btcCheckpoint : Option BtcCheckpointProof) : Str :=
  let proof := match btcCheckpoint with
    | some p => (p.seedHash K).toList
    | none => []
  Hex.encode (K.blake3 (messageTag++strBytes network++leBytes 8 sentAtUnix++
    strBytes derived.headerHash++strBytes derived.claimDigest++strBytes derived.electionScore++
    claim.signature++proof)).toList

namespace BlockClaimEnvelope

def fromClaim (K : Primitives) (now : ℕ) (network : Str) (ttl : ℕ) (claim : SignedBlockClaim)
    (btcCheckpoint : Option BtcCheckpointProof) (transactions : List SignedTransaction) :
    BlockClaimEnvelope :=
  let derived := DerivedFields.fromClaim K claim
  { network
    messageId := Relay.messageId K network now claim derived btcCheckpoint
    sentAtUnix := now
    ttl, claim, btcCheckpoint, transactions, derived }

/-- The id is not recomputed. -/
def verify (K : Primitives) (e : BlockClaimEnvelope) : Except String Unit := do
  e.claim.verify K
  if e.derived ≠ DerivedFields.fromClaim K e.claim then
    .error "block claim derived fields do not match claim"
  else if merkleRoot K e.transactions ≠ e.claim.header.merkleRoot then
    .error "block claim transaction list does not match its merkle_root"
  else .ok ()

end BlockClaimEnvelope

structure PeerHelloEnvelope where
  network : Str
  version : ℕ
  bestHeight : ℕ
  bestHash : Str
  listenAddr : Str
  deriving DecidableEq

inductive BinaMessage where
  | blockClaim (e : BlockClaimEnvelope)
  | peerHello (hello : PeerHelloEnvelope)
  | peerList (peers : List Str)
  | ping (nonce height : ℕ)
  deriving DecidableEq

structure Gossip where
  peers : PeerList
  seen : SeenSet Str
  network : Str

def Gossip.new (peers : PeerList) (network : Str) : Gossip :=
  { peers, seen := .empty 10000, network }

/-- `addr.parse()` of the standard library, and the order in which the set of
seen ids is iterated should it be full. -/
structure Host where
  parse : Str → Option SocketAddr
  order : List Str

def broadcastClaim (host : Host) (g : Gossip) (e : BlockClaimEnvelope) : Gossip :=
  { g with seen := (g.seen.mark host.order e.messageId).2 }

def handleClaim (K : Primitives) (host : Host) (now : ℕ) (g : Gossip)
    (e : BlockClaimEnvelope) : Gossip × Option BinaMessage :=
  if e.network ≠ g.network then (g, none)
  else if e.ttl = 0 ∨ satAdd e.sentAtUnix messageMaxAgeSecs < now then (g, none)
  else
    let (fresh, seen) := g.seen.mark host.order e.messageId
    let g := { g with seen }
    if fresh = false then (g, none)
    else
      match e.verify K with
      | .error _ => (g, none)
      | .ok () => (g, some (.blockClaim { e with ttl := e.ttl-1 }))

def handleIncoming (K : Primitives) (host : Host) (now : ℕ) (g : Gossip) :
    BinaMessage → Gossip × Option BinaMessage
  | .blockClaim e => handleClaim K host now g e
  | .peerHello hello =>
    if hello.network ≠ g.network then (g, none)
    else
      let peers := match host.parse hello.listenAddr with
        | some addr => (g.peers.add addr).2
        | none => g.peers
      ({ g with peers }, some (.peerHello hello))
  | .peerList list =>
    ({ g with peers := (list.filterMap host.parse).foldl (fun l addr => (l.add addr).2) g.peers },
      some (.peerList list))
  | .ping nonce height => (g, some (.ping nonce height))

/-- The checks before the filter. -/
def Admissible (network : Str) (now : ℕ) (e : BlockClaimEnvelope) : Prop :=
  e.network = network ∧ 0 < e.ttl ∧ now ≤ satAdd e.sentAtUnix messageMaxAgeSecs

instance (network : Str) (now : ℕ) (e : BlockClaimEnvelope) :
    Decidable (Admissible network now e) := inferInstanceAs (Decidable (_ ∧ _ ∧ _))

theorem handle_inadmissible {K : Primitives} {host : Host} {now : ℕ} {g : Gossip}
    {e : BlockClaimEnvelope} (h : ¬ Admissible g.network now e) :
    handleIncoming K host now g (.blockClaim e) = (g, none) := by
  show handleClaim K host now g e = (g, none)
  unfold handleClaim
  split
  · rfl
  · split
    · rfl
    · rename_i hn ht
      exact absurd ⟨not_not.mp hn, by omega, by omega⟩ h

theorem handle_admissible (K : Primitives) (host : Host) {now : ℕ} {g : Gossip}
    {e : BlockClaimEnvelope} (h : Admissible g.network now e) :
    (handleIncoming K host now g (.blockClaim e)).1 =
        { g with seen := (g.seen.mark host.order e.messageId).2 } ∧
      ((handleIncoming K host now g (.blockClaim e)).2.isSome ↔
        (g.seen.mark host.order e.messageId).1 = true ∧ e.verify K = .ok ()) := by
  obtain ⟨hn, ht, ha⟩ := h
  simp only [handleIncoming]
  unfold handleClaim
  simp only [ne_eq, hn, not_true_eq_false, if_false]
  rw [if_neg (by omega)]
  cases hm : (g.seen.mark host.order e.messageId).1 with
  | false => simp
  | true =>
    cases hv : e.verify K with
    | error msg => simp
    | ok u => simp

theorem handle_other (K : Primitives) (host : Host) (now : ℕ) (g : Gossip) {m : BinaMessage}
    (h : ∀ e, m ≠ .blockClaim e) :
    (handleIncoming K host now g m).1.seen = g.seen ∧
      (handleIncoming K host now g m).1.network = g.network := by
  cases m with
  | blockClaim e => exact absurd rfl (h e)
  | peerHello hello =>
    unfold handleIncoming
    dsimp only
    split <;> exact ⟨rfl, rfl⟩
  | peerList list => exact ⟨rfl, rfl⟩
  | ping nonce height => exact ⟨rfl, rfl⟩

inductive Event where
  | deliver (host : Host) (now : ℕ) (m : BinaMessage)
  | broadcast (host : Host) (e : BlockClaimEnvelope)

def step (K : Primitives) (g : Gossip) : Event → Option Gossip
  | .deliver host now m => some (handleIncoming K host now g m).1
  | .broadcast host e => some (broadcastClaim host g e)

/-- What a node was sent and did with it. -/
structure Log where
  delivered : List (ℕ × BlockClaimEnvelope)
  returned : List Str
  broadcast : List Str
  marked : List Str

def Log.start : Log := { delivered := [], returned := [], broadcast := [], marked := [] }

def logDelivery (K : Primitives) (host : Host) (now : ℕ) (g : Gossip) (e : BlockClaimEnvelope)
    (log : Log) : Log :=
  { log with
    delivered := (now, e) :: log.delivered
    returned := if (handleIncoming K host now g (.blockClaim e)).2.isSome then
      e.messageId :: log.returned else log.returned
    marked := if Admissible g.network now e then noteMark e.messageId log.marked
      else log.marked }

def note (K : Primitives) (g : Gossip) (e : Event) (_ : Gossip) (log : Log) : Log :=
  match e with
  | .deliver host now (.blockClaim e) => logDelivery K host now g e log
  | .deliver _ _ _ => log
  | .broadcast _ e =>
    { log with
      broadcast := e.messageId :: log.broadcast
      marked := noteMark e.messageId log.marked }

abbrev loggedStep (K : Primitives) : Gossip × Log → Event → Option (Gossip × Log) :=
  recording (step K) (note K)

def Forged (K : Primitives) (network : Str) (log : Log) (id : Str) : Prop :=
  ∃ d ∈ log.delivered, Admissible network d.1 d.2 ∧ d.2.messageId = id ∧ d.2.verify K ≠ .ok ()

structure Explained (K : Primitives) (g : Gossip) (log : Log) : Prop where
  remembers : Remembers g.seen log.marked
  cause : ∀ id ∈ log.marked, id ∈ log.broadcast ∨ id ∈ log.returned ∨ Forged K g.network log id
  forged : ∀ id, Forged K g.network log id → id ∈ log.marked

theorem explained_new (K : Primitives) (peers : PeerList) (network : Str) :
    Explained K (Gossip.new peers network) .start where
  remembers := remembers_empty _
  cause _ h := absurd h List.not_mem_nil
  forged := by
    rintro id ⟨d, hd, -⟩
    exact absurd hd List.not_mem_nil

theorem Forged.cons {K : Primitives} {network id : Str} {log : Log} {now : ℕ}
    {e : BlockClaimEnvelope} {returned marked : List Str} :
    Forged K network { log with delivered := (now, e) :: log.delivered, returned, marked } id ↔
      (Admissible network now e ∧ e.messageId = id ∧ e.verify K ≠ .ok ()) ∨
        Forged K network log id := by
  unfold Forged
  simp [or_and_right, exists_or]

theorem delivery_inadmissible {K : Primitives} {host : Host} {now : ℕ} {g : Gossip}
    {e : BlockClaimEnvelope} {log : Log} (h : Explained K g log)
    (ha : ¬ Admissible g.network now e) :
    Explained K (handleIncoming K host now g (.blockClaim e)).1
      (logDelivery K host now g e log) := by
  unfold logDelivery
  rw [handle_inadmissible ha, if_neg ha]
  refine ⟨h.remembers, fun id hid => ?_, fun id hf => ?_⟩
  · rcases h.cause id hid with hb | hr | hf
    · exact Or.inl hb
    · exact Or.inr (Or.inl hr)
    · exact Or.inr (Or.inr (Forged.cons.mpr (Or.inr hf)))
  · rcases Forged.cons.mp hf with ⟨hadm, -⟩ | hf
    · exact absurd hadm ha
    · exact h.forged id hf

theorem delivery_admissible {K : Primitives} {host : Host} {now : ℕ} {g : Gossip}
    {e : BlockClaimEnvelope} {log : Log} (h : Explained K g log)
    (ha : Admissible g.network now e) :
    Explained K (handleIncoming K host now g (.blockClaim e)).1
      (logDelivery K host now g e log) := by
  obtain ⟨hg, hs⟩ := handle_admissible K host ha
  unfold logDelivery
  rw [hg, if_pos ha]
  refine ⟨h.remembers.mark host.order e.messageId, fun id hid => ?_, fun id hf => ?_⟩
  · have hold : id ∈ log.marked → id ∈ log.broadcast ∨
        id ∈ (if (handleIncoming K host now g (.blockClaim e)).2.isSome then
          e.messageId :: log.returned else log.returned) ∨
        Forged K g.network { log with
          delivered := (now, e) :: log.delivered
          returned := if (handleIncoming K host now g (.blockClaim e)).2.isSome then
            e.messageId :: log.returned else log.returned
          marked := noteMark e.messageId log.marked } id := by
      intro hm
      rcases h.cause id hm with hb | hr | hf
      · exact Or.inl hb
      · refine Or.inr (Or.inl ?_)
        split
        · exact List.mem_cons_of_mem _ hr
        · exact hr
      · exact Or.inr (Or.inr (Forged.cons.mpr (Or.inr hf)))
    by_cases hm : id ∈ log.marked
    · exact hold hm
    · rcases mem_noteMark.mp hid with rfl | hin
      · have hfresh : (g.seen.mark host.order e.messageId).1 = true := by
          rw [SeenSet.mark_fst]
          exact fun hin => hm (h.remembers.subset hin)
        by_cases hv : e.verify K = .ok ()
        · rw [if_pos (hs.mpr ⟨hfresh, hv⟩)]
          exact Or.inr (Or.inl List.mem_cons_self)
        · exact Or.inr (Or.inr (Forged.cons.mpr (Or.inl ⟨ha, rfl, hv⟩)))
      · exact hold hin
  · rcases Forged.cons.mp hf with ⟨-, rfl, -⟩ | hf
    · exact mem_noteMark.mpr (Or.inl rfl)
    · exact mem_noteMark.mpr (Or.inr (h.forged id hf))

theorem explained_step {K : Primitives} {x y : Gossip × Log} {e : Event}
    (h : Explained K x.1 x.2) (hs : loggedStep K x e = some y) : Explained K y.1 y.2 := by
  obtain ⟨g, log⟩ := x
  obtain ⟨g', log'⟩ := y
  obtain ⟨hstep, hlog⟩ := recording_eq_some.mp hs
  dsimp only at hstep hlog h
  subst hlog
  cases e with
  | deliver host now m =>
    obtain rfl := Option.some.inj hstep
    by_cases hm : ∃ e, m = .blockClaim e
    · obtain ⟨e, rfl⟩ := hm
      by_cases ha : Admissible g.network now e
      · exact delivery_admissible h ha
      · exact delivery_inadmissible h ha
    · have hother : ∀ e, m ≠ .blockClaim e := fun e he => hm ⟨e, he⟩
      obtain ⟨hseen, hnet⟩ := handle_other K host now g hother
      have hsame : note K g (.deliver host now m) (handleIncoming K host now g m).1 log = log := by
        cases m with
        | blockClaim e => exact absurd rfl (hother e)
        | peerHello | peerList | ping => rfl
      dsimp only
      rw [hsame]
      exact ⟨by rw [hseen]; exact h.remembers, by rw [hnet]; exact h.cause,
        by rw [hnet]; exact h.forged⟩
  | broadcast host e =>
    obtain rfl := Option.some.inj hstep
    refine ⟨h.remembers.mark host.order e.messageId, fun id hid => ?_, fun id hf => ?_⟩
    · rcases mem_noteMark.mp hid with rfl | hid
      · exact Or.inl List.mem_cons_self
      · rcases h.cause id hid with hb | hr | hf
        · exact Or.inl (List.mem_cons_of_mem _ hb)
        · exact Or.inr (Or.inl hr)
        · exact Or.inr (Or.inr hf)
    · exact mem_noteMark.mpr (Or.inr (h.forged id hf))

theorem reachable_explained {K : Primitives} {peers : PeerList} {network : Str}
    {x : Gossip × Log} (h : Reach (loggedStep K) (Gossip.new peers network, .start) x) :
    Explained K x.1 x.2 :=
  h.invariant (P := fun x => Explained K x.1 x.2) (explained_new K peers network)
    fun _ _ _ hx _ hs => explained_step hx hs

/-- An honest envelope whose id was neither broadcast nor returned before gets
through exactly if no message that fails to verify was let in under its id. -/
theorem honest_claim_returned_iff {K : Primitives} {peers : PeerList} {network : Str}
    {x : Gossip × Log} {host : Host} {sentAt now ttl : ℕ} {claim : SignedBlockClaim}
    {btcCheckpoint : Option BtcCheckpointProof} {transactions : List SignedTransaction}
    {e : BlockClaimEnvelope} (h : Reach (loggedStep K) (Gossip.new peers network, .start) x)
    (he : e = .fromClaim K sentAt x.1.network ttl claim btcCheckpoint transactions)
    (httl : 0 < ttl) (hage : now ≤ satAdd sentAt messageMaxAgeSecs) (hv : e.verify K = .ok ())
    (hb : e.messageId ∉ x.2.broadcast) (hr : e.messageId ∉ x.2.returned)
    (hfew : x.2.marked.length < x.1.seen.maxSize) :
    (handleIncoming K host now x.1 (.blockClaim e)).2.isSome ↔
      ∀ d ∈ x.2.delivered, Admissible x.1.network d.1 d.2 → d.2.messageId = e.messageId →
        d.2.verify K = .ok () := by
  have hinv := reachable_explained h
  have hadm : Admissible x.1.network now e := by
    rw [he]
    exact ⟨rfl, httl, hage⟩
  rw [(handle_admissible _ _ hadm).2, hinv.remembers.mark_fst hfew]
  constructor
  · rintro ⟨hfresh, -⟩ d hd hda hid
    by_contra hbad
    exact hfresh (hinv.forged _ ⟨d, hd, hda, hid, hbad⟩)
  · intro hall
    refine ⟨fun hm => ?_, hv⟩
    rcases hinv.cause _ hm with hin | hin | ⟨d, hd, hda, hid, hbad⟩
    · exact hb hin
    · exact hr hin
    · exact hbad (hall d hd hda hid)

theorem handle_peers (K : Primitives) (host : Host) (now : ℕ) (g : Gossip) (m : BinaMessage) :
    ∃ calls, (handleIncoming K host now g m).1.peers = g.peers.after calls := by
  cases m with
  | blockClaim e =>
    refine ⟨[], ?_⟩
    by_cases ha : Admissible g.network now e
    · rw [(handle_admissible K host ha).1]
      rfl
    · rw [handle_inadmissible ha]
      rfl
  | peerHello hello =>
    unfold handleIncoming
    dsimp only
    split
    · exact ⟨[], rfl⟩
    · cases host.parse hello.listenAddr with
      | none => exact ⟨[], rfl⟩
      | some addr => exact ⟨[.add addr], rfl⟩
  | peerList list =>
    refine ⟨(list.filterMap host.parse).map .add, ?_⟩
    rw [PeerList.after, List.foldl_map]
    rfl
  | ping nonce height => exact ⟨[], rfl⟩

theorem reachable_peers {K : Primitives} {peers : PeerList} {network : Str} {g : Gossip}
    (h : Reach (step K) (Gossip.new peers network) g) : ∃ calls, g.peers = peers.after calls := by
  apply h.invariant (P := fun g => ∃ calls, g.peers = peers.after calls) ⟨[], rfl⟩
  rintro g e g' ⟨calls, hcalls⟩ - hs
  cases e with
  | deliver host now m =>
    obtain rfl := Option.some.inj hs
    obtain ⟨more, hmore⟩ := handle_peers K host now g m
    exact ⟨calls++more, by rw [hmore, hcalls, PeerList.after, PeerList.after, PeerList.after,
      List.foldl_append]⟩
  | broadcast host e =>
    obtain rfl := Option.some.inj hs
    exact ⟨calls, hcalls⟩

def toyHost : Host := { parse := fun _ => none, order := [] }

def toyNetwork : Str := "bina-l1".toList

def toyGossip : Gossip := .new (.withPolicy 8 false false) toyNetwork

def toyEnvelope : BlockClaimEnvelope :=
  let p := Mining.toyCandidate 1 0 (State.genesisState toyPrimitives .mock) (.create [])
    (State.genesisCursor toyPrimitives) []
  .fromClaim toyPrimitives 100 toyNetwork 8 p.claim p.btcCheckpoint p.transactions

def toyForgery : BlockClaimEnvelope :=
  { toyEnvelope with claim := { toyEnvelope.claim with publicKey := [] } }

def toyDeliveries (id : Str) : List Event :=
  [.deliver toyHost 100 (.ping 0 0),
    .deliver toyHost 100 (.blockClaim { toyForgery with messageId := id })]

theorem toyEnvelope_verifies : toyEnvelope.verify toyPrimitives = .ok () := by
  obtain ⟨u, hu⟩ := Checked.isOk_iff.mp
    (show (toyEnvelope.verify toyPrimitives).isOk = true by decide +kernel)
  exact hu

set_option maxRecDepth 100000 in
theorem honest_claim_returned_iff_sample :
    ∃ x, exec (loggedStep toyPrimitives) (toyGossip, .start) (toyDeliveries []) = some x ∧
      x.2.delivered.length = 1 ∧
      (handleIncoming toyPrimitives toyHost 130 x.1 (.blockClaim toyEnvelope)).2.isSome := by
  have hrun : (exec (loggedStep toyPrimitives) (toyGossip, .start) (toyDeliveries [])).any
      fun x => x.2.delivered.length == 1 && x.2.broadcast == [] && x.2.returned == [] &&
        x.2.marked.length == 1 && x.1.seen.maxSize == 10000 && x.1.network == toyNetwork &&
        x.2.delivered.all fun d => d.2.messageId != toyEnvelope.messageId := by decide +kernel
  obtain ⟨x, hx, hs⟩ := (Option.any_eq_true _ _).mp hrun
  simp only [Bool.and_eq_true, beq_iff_eq, List.all_eq_true, bne_iff_ne] at hs
  obtain ⟨⟨⟨⟨⟨⟨hlen, hb⟩, hr⟩, hm⟩, hmax⟩, hnet⟩, hids⟩ := hs
  refine ⟨x, hx, hlen, (honest_claim_returned_iff (exec_reach hx) (by rw [hnet]; rfl)
    (show 0 < 8 by decide) (by decide) toyEnvelope_verifies ?_ ?_ ?_).mpr ?_⟩
  · simp [hb]
  · simp [hr]
  · rw [hm, hmax]
    decide
  · intro d hd _ hid
    exact absurd hid (hids d hd)

set_option maxRecDepth 100000 in
theorem forgery_suppresses_claim :
    ∃ x, exec (loggedStep toyPrimitives) (toyGossip, .start)
        (toyDeliveries toyEnvelope.messageId) = some x ∧
      toyEnvelope.verify toyPrimitives = .ok () ∧ toyEnvelope.messageId ∉ x.2.broadcast ∧
      toyEnvelope.messageId ∉ x.2.returned ∧ x.2.marked.length < x.1.seen.maxSize ∧
      (handleIncoming toyPrimitives toyHost 130 x.1 (.blockClaim toyEnvelope)).2 = none := by
  have hrun : (exec (loggedStep toyPrimitives) (toyGossip, .start)
      (toyDeliveries toyEnvelope.messageId)).any fun x => x.2.broadcast == [] &&
        x.2.returned == [] && decide (x.2.marked.length < x.1.seen.maxSize) &&
        (handleIncoming toyPrimitives toyHost 130 x.1 (.blockClaim toyEnvelope)).2.isNone := by
    decide +kernel
  obtain ⟨x, hx, hs⟩ := (Option.any_eq_true _ _).mp hrun
  simp only [Bool.and_eq_true, beq_iff_eq, decide_eq_true_iff, Option.isNone_iff_eq_none] at hs
  obtain ⟨⟨⟨hb, hr⟩, hm⟩, hn⟩ := hs
  exact ⟨x, hx, toyEnvelope_verifies, by simp [hb], by simp [hr], hm, hn⟩

end BinaChain.Relay
