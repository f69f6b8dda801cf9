import BinaChain.Ledger.Names
import BinaChain.Node.Canonical
import BinaChain.Node.Pinning

/-!
# What two nodes agree on

Nodes that stand on one tip have one chain below it, whatever else each of them
went through. Their accounts are then the same, unless one of them has loaded its
ledger from the file since the last block, and they judge the next record alike.
-/

set_option autoImplicit false

namespace BinaChain.Agreement
open BinaChain.Word BinaChain.Text BinaChain.Crypto BinaChain.Block BinaChain.Transaction
open BinaChain.Difficulty BinaChain.Rewards BinaChain.Execution BinaChain.StateRoot
open BinaChain.Names BinaChain.State BinaChain.Machine BinaChain.Store BinaChain.Mining
open BinaChain.Sync BinaChain.Reconcile BinaChain.System BinaChain.Trace BinaChain.Canonical
open BinaChain.BitcoinEntropy BinaChain.Maps

def headerInput (h : L1BlockHeader) : Bytes :=
  domainTag++leBytes 4 h.version++leBytes 8 h.height++h.prevHash.toList++
    h.merkleRoot.toList++h.stateRoot.toList++leBytes 8 h.timestamp++leBytes 8 h.nonce++
    h.minerAddress.toList++leBytes 4 h.difficultyBits++h.bitcoinSeedHash.toList

theorem hash_eq (K : Primitives) (h : L1BlockHeader) : h.hash K = K.blake3 (headerInput h) := rfl

/-- The numbers of a header are of their types. -/
structure Sized (h : L1BlockHeader) : Prop where
  version : h.version < 0x100000000
  height : h.height ≤ u64Max
  timestamp : h.timestamp ≤ u64Max
  nonce : h.nonce ≤ u64Max
  difficulty : h.difficultyBits < 0x100000000

instance (h : L1BlockHeader) : Decidable (Sized h) :=
  decidable_of_iff (h.version < 0x100000000 ∧ h.height ≤ u64Max ∧ h.timestamp ≤ u64Max ∧
      h.nonce ≤ u64Max ∧ h.difficultyBits < 0x100000000)
    ⟨fun h => ⟨h.1, h.2.1, h.2.2.1, h.2.2.2.1, h.2.2.2.2⟩,
      fun h => ⟨h.version, h.height, h.timestamp, h.nonce, h.difficulty⟩⟩

theorem leBytes_u32 {n m : ℕ} (hn : n < 0x100000000) (hm : m < 0x100000000)
    (h : leBytes 4 n = leBytes 4 m) : n = m := by
  have hvalue := congrArg leValue h
  rw [leValue_leBytes, leValue_leBytes] at hvalue
  omega

theorem headerInput_injective {h h' : L1BlockHeader} (hs : Sized h) (hs' : Sized h')
    (he : headerInput h = headerInput h') : h = h' := by
  unfold headerInput at he
  obtain ⟨he, hseed⟩ := List.append_inj' he (by simp)
  obtain ⟨he, hdifficulty⟩ := List.append_inj' he (by simp)
  obtain ⟨he, hminer⟩ := List.append_inj' he (by simp)
  obtain ⟨he, hnonce⟩ := List.append_inj' he (by simp)
  obtain ⟨he, htimestamp⟩ := List.append_inj' he (by simp)
  obtain ⟨he, hstate⟩ := List.append_inj' he (by simp)
  obtain ⟨he, hmerkle⟩ := List.append_inj' he (by simp)
  obtain ⟨he, hprev⟩ := List.append_inj' he (by simp)
  obtain ⟨he, hheight⟩ := List.append_inj' he (by simp)
  obtain ⟨-, hversion⟩ := List.append_inj' he (by simp)
  obtain ⟨version, height, prevHash, merkleRoot, stateRoot, timestamp, nonce, minerAddress,
    difficultyBits, bitcoinSeedHash⟩ := h
  obtain ⟨version', height', prevHash', merkleRoot', stateRoot', timestamp', nonce',
    minerAddress', difficultyBits', bitcoinSeedHash'⟩ := h'
  obtain rfl : version = version' := leBytes_u32 hs.version hs'.version hversion
  obtain rfl : height = height' := leBytes_u64 hs.height hs'.height hheight
  obtain rfl : prevHash = prevHash' := Vector.toList_inj.mp hprev
  obtain rfl : merkleRoot = merkleRoot' := Vector.toList_inj.mp hmerkle
  obtain rfl : stateRoot = stateRoot' := Vector.toList_inj.mp hstate
  obtain rfl : timestamp = timestamp' := leBytes_u64 hs.timestamp hs'.timestamp htimestamp
  obtain rfl : nonce = nonce' := leBytes_u64 hs.nonce hs'.nonce hnonce
  obtain rfl : minerAddress = minerAddress' := Vector.toList_inj.mp hminer
  obtain rfl : difficultyBits = difficultyBits' :=
    leBytes_u32 hs.difficulty hs'.difficulty hdifficulty
  obtain rfl : bitcoinSeedHash = bitcoinSeedHash' := Vector.toList_inj.mp hseed
  rfl

theorem sized_genesis (K : Primitives) : Sized (genesisHeader K) where
  version := by simp [genesisHeader]
  height := Nat.zero_le _
  timestamp := by simp [genesisHeader, u64Max]
  nonce := Nat.zero_le _
  difficulty := by simp [genesisHeader]

def headers (chain : List Entry) : List L1BlockHeader := chain.map Entry.header

/-- What is hashed for the blocks of a chain and for genesis. -/
def hashedHeaders (K : Primitives) (chain : List Entry) : List Bytes :=
  (genesisHeader K :: headers chain).map headerInput

section Past

variable {K : Primitives} {chain chain' : List Entry}

theorem tipHash_eq (chain : List Entry) :
    tipHash K chain = Chain.tip (fun e : Entry => e.header.hash K) (genesisHash K) chain := by
  cases chain <;> rfl

theorem parent_of_valid (rest : List Entry) (e : Entry) (h : ExtendsChain K rest e) :
    e.header.prevHash = Chain.tip (fun e : Entry => e.header.hash K) (genesisHash K) rest := by
  rw [h.parent, tipHash_eq]

structure Told (K : Primitives) (chain chain' : List Entry) : Prop where
  linked : Linked K chain
  linked' : Linked K chain'
  sized : ∀ e ∈ chain, Sized e.header
  sized' : ∀ e ∈ chain', Sized e.header
  free : CollisionFree K (hashedHeaders K chain++hashedHeaders K chain')

theorem Told.header (h : Told K chain chain') {e e' : Entry} (he : e ∈ chain) (he' : e' ∈ chain')
    (hhash : e.header.hash K = e'.header.hash K) : e.header = e'.header := by
  rw [hash_eq, hash_eq] at hhash
  apply headerInput_injective (h.sized e he) (h.sized' e' he')
  apply h.free _ _ _ _ hhash
  · exact List.mem_append_left _ (List.mem_map_of_mem (List.mem_cons_of_mem _
      (List.mem_map_of_mem he)))
  · exact List.mem_append_right _ (List.mem_map_of_mem (List.mem_cons_of_mem _
      (List.mem_map_of_mem he')))

theorem Told.symm (h : Told K chain chain') : Told K chain' chain where
  linked := h.linked'
  linked' := h.linked
  sized := h.sized'
  sized' := h.sized
  free a ha b hb := by
    rw [List.mem_append, or_comm, ← List.mem_append] at ha hb
    exact h.free a ha b hb

theorem Told.not_genesis (h : Told K chain chain') (e : Entry) (he : e ∈ chain) :
    e.header.hash K ≠ genesisHash K := by
  intro hhash
  have hsame : e.header = genesisHeader K := by
    apply headerInput_injective (h.sized e he) (sized_genesis K)
    apply h.free _ _ _ _ hhash
    · exact List.mem_append_left _ (List.mem_map_of_mem (List.mem_cons_of_mem _
        (List.mem_map_of_mem he)))
    · exact List.mem_append_left _ (List.mem_map_of_mem List.mem_cons_self)
  have hpos := (h.linked.height_le he).1
  rw [Entry.height, hsame] at hpos
  exact Nat.not_succ_le_zero 0 hpos

theorem Told.same_block (h : Told K chain chain') {e e' : Entry} (he : e ∈ chain)
    (he' : e' ∈ chain') (hhash : e.header.hash K = e'.header.hash K) :
    headers (Chain.cut Entry.height e.height chain) =
      headers (Chain.cut Entry.height e'.height chain') :=
  h.linked.same_block L1BlockHeader.prevHash parent_of_valid h.linked'
    (fun _ hc _ hc' => h.header hc hc') h.not_genesis h.symm.not_genesis he he' hhash

theorem Told.same_tip (h : Told K chain chain') (htip : tipHash K chain = tipHash K chain') :
    headers chain = headers chain' := by
  rw [tipHash_eq, tipHash_eq] at htip
  exact h.linked.same_tip L1BlockHeader.prevHash parent_of_valid h.linked'
    (fun _ hc _ hc' => h.header hc hc') h.not_genesis h.symm.not_genesis htip

end Past

section Headers

variable {K : Primitives}

def absorbHeader (K : Primitives) (a : DifficultyAdjuster) (h : L1BlockHeader) :
    DifficultyAdjuster := a.recordBlock K h.height h.timestamp

theorem adjusterFor_eq (chain : List Entry) : adjusterFor K chain =
    Chain.follow (absorbHeader K) (genesisCursor K).adjuster (headers chain) := by
  induction chain with
  | nil => rfl
  | cons e rest ih =>
    show absorb K (adjusterFor K rest) e = _
    rw [ih]
    rfl

theorem tipTime_eq (chain : List Entry) : tipTime K chain =
    ((headers chain).head?.getD (genesisHeader K)).timestamp := by
  cases chain <;> rfl

theorem length_headers (chain : List Entry) : (headers chain).length = chain.length :=
  List.length_map _

theorem atTip_agree {chain chain' : List Entry} {c c' : Cursor} (ht : AtTip K chain c)
    (ht' : AtTip K chain' c') (h : headers chain = headers chain') :
    c.height = c'.height ∧ c.lastBlockTimestampMs = c'.lastBlockTimestampMs ∧
      c.adjuster = c'.adjuster := by
  constructor
  · rw [ht.height, ht'.height, ← length_headers, h, length_headers]
  constructor
  · rw [ht.timestamp, ht'.timestamp, tipTime_eq, h, ← tipTime_eq]
  · rw [ht.adjuster, ht'.adjuster, adjusterFor_eq, h, ← adjusterFor_eq]

end Headers

instance (l : RewardLedger) (n reward : ℕ) : Decidable (Roomy l n reward) :=
  decidable_of_iff ((n < u64Max ∧ ∀ e ∈ l.nonces.toList, e.2+n < u64Max) ∧
      total l.balances+reward ≤ u64Max) <| by
    constructor
    · rintro ⟨⟨hn, hall⟩, ht⟩
      refine ⟨fun a => ?_, ht⟩
      show l.nonces.getD a 0+n < u64Max
      rw [Std.ExtTreeMap.getD_eq_getD_getElem?]
      cases hget : l.nonces[a]? with
      | none => simpa using hn
      | some v => exact hall (a, v) (Std.ExtTreeMap.mem_toList_iff_getElem?_eq_some.mpr hget)
    · intro h
      refine ⟨⟨Nat.lt_of_le_of_lt (Nat.le_add_left _ _) (h.nonces []), fun e he => ?_⟩, h.supply⟩
      have hget : l.nonces[e.1]? = some e.2 := Std.ExtTreeMap.mem_toList_iff_getElem?_eq_some.mp he
      have hroom := h.nonces e.1
      rw [RewardLedger.nonce, Std.ExtTreeMap.getD_eq_getD_getElem?, hget] at hroom
      exact hroom

def electedOf : Phase → Option Finalising
  | .elected f => some f
  | _ => none

theorem electedOf_eq {p : Phase} {f : Finalising} : electedOf p = some f ↔ p = .elected f := by
  cases p <;> simp [electedOf]

instance (K : Primitives) (x : Traced) : ∀ e, Decidable (Current K x e)
  | .client _ => isTrue trivial
  | .loop (.prepare ..) => inferInstanceAs (Decidable (_ < _))
  | .loop (.elect order) =>
    inferInstanceAs (Decidable (∀ w ∈ selectWinningPending K order, w ∈ x.2.judged))
  | .loop .execute =>
    decidable_of_iff (∀ f ∈ electedOf x.1.phase,
        Roomy x.1.ledger f.winning.transactions.length f.reward) <|
      forall_congr' fun _ => imp_congr_left electedOf_eq
  | .loop (.adopt _ _ r) =>
    inferInstanceAs (Decidable (Roomy x.1.ledger r.transactions.length r.rewardBina))
  | .loop (.mined ..) | .loop (.record _) | .loop (.save _) | .loop .publish
  | .loop .publishAdopted | .loop (.rewind _) | .loop .publishRewound => isTrue trivial

def toyMiner : List Event :=
  toyMining 1 0 toyGenesis++Pinning.toyClosing (toyCandidate 1 0 toyGenesis.state toyGenesis.ledger
    toyGenesis.cursor [])++[.loop .publish]

def toyFollower : List Event := toyAdoption (toyRecord 1 0 toyGenesis [])

def toyReturned : List Event :=
  toyFollower++toyAdoption (toyRecord 2 7 toyFirst [])++
    [.loop (.rewind (ChainWork.toySilentPeer ChainWork.toyTwoBlocks)), .loop .publishRewound]

def isIdle : Phase → Bool
  | .idle => true
  | _ => false

theorem isIdle_iff {p : Phase} : isIdle p = true ↔ p = .idle := by
  cases p <;> simp [isIdle]

section Runs

variable {K : Primitives} {wallet wallet' : WalletPublicKey}
  {outcomes outcomes' : List AppendOutcome} {observed observed' : BtcEntropyState}

theorem run_onChain {x : Traced}
    (h : Run (tracedStep K wallet) (Current K) (boot K outcomes observed, .start) x) :
    Judged K wallet x ∧ OnChain K x :=
  h.invariant (P := fun x => Judged K wallet x ∧ OnChain K x)
    ⟨judged_boot K wallet outcomes observed, onChain_boot K outcomes observed⟩
    fun _ _ _ hi hok hs => ⟨judged_step hi.1 hok hs, onChain_step hi.1 hi.2 hok hs⟩

theorem stands_atTip {x : Traced} (h : OnChain K x) (hp : x.1.phase = .idle) :
    AtTip K x.2.chain x.1.cursor := by
  have hfoll := h.following
  simpa only [Following, hp] using hfoll

/-- Two nodes that each went their own way: below a block that both have
finalised they have finalised the same blocks, and if they stand on one tip they
are at one height, time and difficulty. -/
theorem one_tip_one_past {x y : Traced}
    (hx : Run (tracedStep K wallet) (Current K) (boot K outcomes observed, .start) x)
    (hy : Run (tracedStep K wallet') (Current K) (boot K outcomes' observed', .start) y)
    (hsx : ∀ e ∈ x.2.chain, Sized e.header) (hsy : ∀ e ∈ y.2.chain, Sized e.header)
    (hfree : CollisionFree K (hashedHeaders K x.2.chain++hashedHeaders K y.2.chain)) :
    (∀ e ∈ x.2.chain, ∀ e' ∈ y.2.chain, e.header.hash K = e'.header.hash K →
      headers (Chain.cut Entry.height e.height x.2.chain) =
        headers (Chain.cut Entry.height e'.height y.2.chain)) ∧
    (x.1.phase = .idle → y.1.phase = .idle → x.1.cursor.tipHash = y.1.cursor.tipHash →
      headers x.2.chain = headers y.2.chain ∧ x.1.cursor.height = y.1.cursor.height ∧
        x.1.cursor.lastBlockTimestampMs = y.1.cursor.lastBlockTimestampMs ∧
        x.1.cursor.adjuster = y.1.cursor.adjuster) := by
  obtain ⟨-, hox⟩ := run_onChain hx
  obtain ⟨-, hoy⟩ := run_onChain hy
  have htold : Told K x.2.chain y.2.chain :=
    { linked := hox.linked
      linked' := hoy.linked
      sized := hsx
      sized' := hsy
      free := hfree }
  constructor
  · intro e he e' he' hhash
    exact htold.same_block he he' hhash
  · intro hpx hpy htip
    have hcx := stands_atTip hox hpx
    have hcy := stands_atTip hoy hpy
    have hsame := htold.same_tip (by rw [← hcx.tip, htip, hcy.tip])
    exact ⟨hsame, atTip_agree hcx hcy hsame⟩

end Runs

set_option maxRecDepth 100000 in
theorem one_tip_one_past_reorganised : ∃ x y,
    exec (tracedStep toyPrimitives (toyWalletKey 1)) (toyBoot, .start) toyMiner = some x ∧
    exec (tracedStep toyPrimitives (toyWalletKey 2)) (toyBoot, .start) toyReturned = some y ∧
    x.2.chain.length = 1 ∧ headers x.2.chain = headers y.2.chain := by
  obtain ⟨hrun, hadm, hadm'⟩ :
      ((exec (tracedStep toyPrimitives (toyWalletKey 1)) (toyBoot, .start) toyMiner).any fun x =>
        (exec (tracedStep toyPrimitives (toyWalletKey 2)) (toyBoot, .start)
            toyReturned).any fun y =>
          decide ((∀ e ∈ x.2.chain, Sized e.header) ∧ (∀ e ∈ y.2.chain, Sized e.header) ∧
            CollisionFree toyPrimitives (hashedHeaders toyPrimitives x.2.chain++
              hashedHeaders toyPrimitives y.2.chain) ∧
            x.2.chain.length = 1 ∧ isIdle x.1.phase ∧ isIdle y.1.phase ∧
            x.1.cursor.tipHash = y.1.cursor.tipHash)) ∧
      Admitted (tracedStep toyPrimitives (toyWalletKey 1)) (Current toyPrimitives)
        (toyBoot, .start) toyMiner ∧
      Admitted (tracedStep toyPrimitives (toyWalletKey 2)) (Current toyPrimitives)
        (toyBoot, .start) toyReturned := by decide +kernel
  obtain ⟨x, hx, hrun⟩ := (Option.any_eq_true _ _).mp hrun
  obtain ⟨y, hy, hrun⟩ := (Option.any_eq_true _ _).mp hrun
  obtain ⟨hsx, hsy, hfree, hlen, hpx, hpy, htip⟩ := of_decide_eq_true hrun
  have hpast := one_tip_one_past (hadm.run hx) (hadm'.run hy) hsx hsy hfree
  exact ⟨x, y, hx, hy, hlen, (hpast.2 (isIdle_iff.mp hpx) (isIdle_iff.mp hpy) htip).1⟩

def noteLoaded (_ : Traced) (e : Event) (_ : Traced) (loaded : Bool) : Bool :=
  match e with
  | .loop (.rewind _) => true
  | .loop .execute | .loop (.adopt ..) => false
  | _ => loaded

abbrev loadedStep (K : Primitives) (wallet : WalletPublicKey) :
    Traced × Bool → Event → Option (Traced × Bool) :=
  recording (tracedStep K wallet) noteLoaded

/-- An adopted record writes its miner as the node writes addresses. -/
def Attributed (K : Primitives) (x : Traced × Bool) (e : Event) : Prop :=
  Current K x.1 e ∧ ∀ now stored r, e = .loop (.adopt now stored r) → IsAddress r.minerAddress

instance (a : Str) : Decidable (IsAddress a) :=
  decidable_of_iff (a.length = 40 ∧ a.all (· ∈ hexDigits))
    ⟨fun h => ⟨h.1, fun c hc => of_decide_eq_true (List.all_eq_true.mp h.2 c hc)⟩,
      fun h => ⟨h.length, List.all_eq_true.mpr fun c hc => decide_eq_true (h.digits c hc)⟩⟩

def adoptedOf : Event → Option BlockRecord
  | .loop (.adopt _ _ r) => some r
  | _ => none

theorem attributed_iff {K : Primitives} {x : Traced × Bool} {e : Event} : Attributed K x e ↔
    Current K x.1 e ∧ ∀ r ∈ adoptedOf e, IsAddress r.minerAddress := by
  apply and_congr_right'
  constructor
  · intro h r hr
    unfold adoptedOf at hr
    split at hr
    · obtain rfl := Option.some.inj hr
      exact h _ _ _ rfl
    · cases hr
  · rintro h now stored r rfl
    exact h r rfl

instance (K : Primitives) (x : Traced × Bool) (e : Event) : Decidable (Attributed K x e) :=
  decidable_of_iff _ attributed_iff.symm

def topRoot (K : Primitives) : List Entry → Hash
  | [] => emptyStateRoot K
  | e :: _ => e.executedRoot

structure Accounted (K : Primitives) (n : Node) (chain : List Entry) (loaded : Bool) : Prop where
  named : Named n.ledger
  root : loaded = false → n.ledger.stateRoot K = topRoot K chain

section Accounts

variable {K : Primitives} {wallet : WalletPublicKey}

theorem accounted_boot (K : Primitives) {outcomes : List AppendOutcome}
    (h : ∀ o ∈ outcomes, ∀ kept, o ≠ .torn kept) (observed : BtcEntropyState) :
    Accounted K (boot K outcomes observed) [] false where
  named := named_create h
  root _ := rfl

theorem Accounted.still {n n' : Node} {g g' : History} {loaded : Bool}
    (h : Accounted K n g.chain loaded) (hl : n'.ledger = n.ledger) (hc : g'.chain = g.chain) :
    Accounted K n' g'.chain loaded where
  named := by
    rw [hl]
    exact h.named
  root hr := by
    rw [hl, hc]
    exact h.root hr

theorem accounted_push {n : Node} (g : History) (header : L1BlockHeader) (h : Named n.ledger) :
    Accounted K n (push K header n.ledger g).chain false where
  named := h
  root _ := rfl

theorem loop_accounted {n n' : Node} {g : History} {e : LoopEvent} {loaded : Bool}
    (h : Accounted K n g.chain loaded)
    (hr : ∀ now stored r, e = .adopt now stored r → IsAddress r.minerAddress)
    (ht : Transition K wallet n e n') :
    Accounted K n' (noteLoop K wallet n e n' g).chain
      (noteLoaded (n, g) (.loop e) (n', noteLoop K wallet n e n' g) loaded) := by
  cases ht with
  | prepare | elect | electNobody | record | save | publish | publishSpent | publishAdopted |
    publishRewound => exact h.still rfl rfl
  | mined hp hsign hv =>
    rw [noteLoop_mined hp]
    exact h.still rfl rfl
  | @execute f hp =>
    rw [noteLoop_execute hp]
    exact accounted_push g _ (h.named.executeBlock (encode_isAddress _) _ _ _ _)
  | @adopt now stored r claim hp hh hc =>
    rw [noteLoop_adopt hc.header]
    exact accounted_push g _ (h.named.executeBlock (hr now stored r rfl) _ _ _ _)
  | rewind hp hpl =>
    exact
      { named := h.named.file.openScoped _
        root := fun hf => by cases hf }

theorem accounted_step {x y : Traced × Bool} {e : Event}
    (h : Accounted K x.1.1 x.1.2.chain x.2) (hok : Attributed K x e)
    (hs : loadedStep K wallet x e = some y) : Accounted K y.1.1 y.1.2.chain y.2 := by
  obtain ⟨⟨n, g⟩, loaded⟩ := x
  obtain ⟨⟨n', g'⟩, loaded'⟩ := y
  obtain ⟨htraced, hl⟩ := recording_eq_some.mp hs
  obtain ⟨hstep, hg⟩ := recording_eq_some.mp htraced
  dsimp only at hstep hg hl
  subst hg hl
  cases e with
  | client e =>
    simp only [step] at hstep
    split at hstep
    · cases hstep
    · exact h.still (clientStep_framed hstep).ledger (noteClient_chain n e n' g)
  | loop e =>
    exact loop_accounted h (fun now stored r he => hok.2 now stored r (congrArg Event.loop he))
      (loopStep_transition hstep)

theorem run_accounted {outcomes : List AppendOutcome} {observed : BtcEntropyState}
    {x : Traced × Bool} (hu : ∀ o ∈ outcomes, ∀ kept, o ≠ .torn kept)
    (h : Run (loadedStep K wallet) (Attributed K) ((boot K outcomes observed, .start), false) x) :
    Accounted K x.1.1 x.1.2.chain x.2 :=
  h.invariant (P := fun x => Accounted K x.1.1 x.1.2.chain x.2) (accounted_boot K hu observed)
    fun _ _ _ hi hok hs => accounted_step hi hok hs

end Accounts

section Verdicts

variable {K : Primitives} {l l' : RewardLedger}

theorem overlayRead_congr (h : ledgerBook l = ledgerBook l') (overlay : RewardLedger.Overlay) :
    l.overlayRead overlay = l'.overlayRead overlay := by
  funext a
  have ha : (l.balance a, l.nonce a) = (l'.balance a, l'.nonce a) :=
    congrFun (congrArg Book.account h) a
  unfold RewardLedger.overlayRead
  rw [ha]

theorem overlayBook_congr (h : ledgerBook l = ledgerBook l') (overlay : RewardLedger.Overlay) :
    overlayBook l overlay = overlayBook l' overlay := by
  have hknown : ∀ a, (a ∈ l.balances ∨ a ∈ l.nonces) ↔ (a ∈ l'.balances ∨ a ∈ l'.nonces) :=
    fun a => Set.ext_iff.mp (congrArg Book.known h) a
  ext a
  · exact congrArg Prod.fst (congrFun (overlayRead_congr h overlay) a)
  · exact congrArg Prod.snd (congrFun (overlayRead_congr h overlay) a)
  · show (a ∈ l.balances ∨ a ∈ l.nonces ∨ a ∈ overlay) ↔
      (a ∈ l'.balances ∨ a ∈ l'.nonces ∨ a ∈ overlay)
    rw [← or_assoc, hknown a, or_assoc]

theorem simulate_congr (h : ledgerBook l = ledgerBook l') (txs : List SignedTransaction)
    (miner : Str) (reward : ℕ) :
    simulateBlockExecution K l txs miner reward = simulateBlockExecution K l' txs miner reward := by
  have hread := fun overlay => overlayRead_congr h overlay
  have hone : simulateTransaction K l miner = simulateTransaction K l' miner := by
    funext acc tx
    unfold simulateTransaction
    simp only [hread]
  rw [simulateBlockExecution_eq, simulateBlockExecution_eq, hone]
  simp only [hread]
  rw [stateRoot_congr K (overlayBook_congr h _)]

theorem checkRecord_congr {c c' : Cursor} (h : ledgerBook l = ledgerBook l')
    (hheight : c.height = c'.height) (htip : c.tipHash = c'.tipHash)
    (htime : c.lastBlockTimestampMs = c'.lastBlockTimestampMs)
    (hadjuster : c.adjuster = c'.adjuster) (hseed : c.btcSeedHash = c'.btcSeedHash) (now : ℕ)
    (r : BlockRecord) : checkRecord K c l now r = checkRecord K c' l' now r := by
  unfold checkRecord
  rw [hheight, htip, htime, hadjuster, hseed, simulate_congr h]

end Verdicts

theorem topRoot_eq {K : Primitives} {chain : List Entry} (h : Linked K chain) :
    topRoot K chain = ((headers chain).head?.map L1BlockHeader.stateRoot).getD
      (emptyStateRoot K) := by
  cases chain with
  | nil => rfl
  | cons e rest => exact h.2.1.root.symm

/-- Two nodes on one tip that have not loaded their ledgers since it was reached
have the same accounts, and with one Bitcoin seed they judge every record alike. -/
theorem one_tip_one_ledger {K : Primitives} {wallet wallet' : WalletPublicKey}
    {outcomes outcomes' : List AppendOutcome} {observed observed' : BtcEntropyState}
    {x y : Traced × Bool}
    (hx : Run (loadedStep K wallet) (Attributed K) ((boot K outcomes observed, .start), false) x)
    (hy : Run (loadedStep K wallet') (Attributed K) ((boot K outcomes' observed', .start), false) y)
    (hu : ∀ o ∈ outcomes, ∀ kept, o ≠ .torn kept)
    (hu' : ∀ o ∈ outcomes', ∀ kept, o ≠ .torn kept)
    (hsx : ∀ e ∈ x.1.2.chain, Sized e.header) (hsy : ∀ e ∈ y.1.2.chain, Sized e.header)
    (hfree : CollisionFree K (hashedHeaders K x.1.2.chain++hashedHeaders K y.1.2.chain++
      [rootInput x.1.1.ledger, rootInput y.1.1.ledger]))
    (hpx : x.1.1.phase = .idle) (hpy : y.1.1.phase = .idle)
    (hlx : x.2 = false) (hly : y.2 = false)
    (htip : x.1.1.cursor.tipHash = y.1.1.cursor.tipHash) :
    (∀ a, x.1.1.ledger.balance a = y.1.1.ledger.balance a ∧
      x.1.1.ledger.nonce a = y.1.1.ledger.nonce a) ∧
    (x.1.1.cursor.btcSeedHash = y.1.1.cursor.btcSeedHash → ∀ now r,
      checkRecord K x.1.1.cursor x.1.1.ledger now r =
        checkRecord K y.1.1.cursor y.1.1.ledger now r) := by
  have hax := run_accounted hu hx
  have hay := run_accounted hu' hy
  obtain ⟨-, hox⟩ := run_onChain (hx.unrecorded fun _ _ h => h.1)
  obtain ⟨-, hoy⟩ := run_onChain (hy.unrecorded fun _ _ h => h.1)
  have htold : Told K x.1.2.chain y.1.2.chain :=
    { linked := hox.linked
      linked' := hoy.linked
      sized := hsx
      sized' := hsy
      free := fun a ha b hb => hfree a (List.mem_append_left _ ha) b (List.mem_append_left _ hb) }
  have hcx := stands_atTip hox hpx
  have hcy := stands_atTip hoy hpy
  have hsame := htold.same_tip (by rw [← hcx.tip, htip, hcy.tip])
  have hroot : K.blake3 (rootInput x.1.1.ledger) = K.blake3 (rootInput y.1.1.ledger) := by
    rw [← stateRoot_eq, ← stateRoot_eq, hax.root hlx, hay.root hly, topRoot_eq hox.linked,
      topRoot_eq hoy.linked, hsame]
  have hbook : ledgerBook x.1.1.ledger = ledgerBook y.1.1.ledger :=
    rootInput_injective hax.named hay.named
      (hfree _ (by simp) _ (by simp) hroot)
  obtain ⟨hheight, htime, hadjuster⟩ := atTip_agree hcx hcy hsame
  constructor
  · intro a
    exact Prod.mk.inj (congrFun (congrArg Book.account hbook) a)
  · intro hseed now r
    exact checkRecord_congr hbook hheight htip htime hadjuster hseed now r

set_option maxRecDepth 100000 in
theorem one_tip_one_ledger_adopted : ∃ x y,
    exec (loadedStep toyPrimitives (toyWalletKey 1)) ((toyBoot, .start), false) toyMiner =
      some x ∧
    exec (loadedStep toyPrimitives (toyWalletKey 2)) ((toyBoot, .start), false) toyFollower =
      some y ∧
    x.1.1.ledger.balance (Hex.encode ((toyWalletKey 1).address toyPrimitives).toList) = 50 ∧
    ∀ a, x.1.1.ledger.balance a = y.1.1.ledger.balance a ∧
      x.1.1.ledger.nonce a = y.1.1.ledger.nonce a := by
  obtain ⟨hrun, hadm, hadm'⟩ :
      ((exec (loadedStep toyPrimitives (toyWalletKey 1)) ((toyBoot, .start), false)
          toyMiner).any fun x =>
        (exec (loadedStep toyPrimitives (toyWalletKey 2)) ((toyBoot, .start), false)
            toyFollower).any fun y =>
          decide ((∀ e ∈ x.1.2.chain, Sized e.header) ∧ (∀ e ∈ y.1.2.chain, Sized e.header) ∧
            CollisionFree toyPrimitives (hashedHeaders toyPrimitives x.1.2.chain++
              hashedHeaders toyPrimitives y.1.2.chain++
              [rootInput x.1.1.ledger, rootInput y.1.1.ledger]) ∧
            isIdle x.1.1.phase ∧ isIdle y.1.1.phase ∧ x.2 = false ∧ y.2 = false ∧
            x.1.1.cursor.tipHash = y.1.1.cursor.tipHash ∧
            x.1.1.ledger.balance
              (Hex.encode ((toyWalletKey 1).address toyPrimitives).toList) = 50)) ∧
      Admitted (loadedStep toyPrimitives (toyWalletKey 1)) (Attributed toyPrimitives)
        ((toyBoot, .start), false) toyMiner ∧
      Admitted (loadedStep toyPrimitives (toyWalletKey 2)) (Attributed toyPrimitives)
        ((toyBoot, .start), false) toyFollower := by decide +kernel
  obtain ⟨x, hx, hrun⟩ := (Option.any_eq_true _ _).mp hrun
  obtain ⟨y, hy, hrun⟩ := (Option.any_eq_true _ _).mp hrun
  obtain ⟨hsx, hsy, hfree, hpx, hpy, hlx, hly, htip, hpaid⟩ := of_decide_eq_true hrun
  have huntorn : ∀ o ∈ ([] : List AppendOutcome), ∀ kept, o ≠ .torn kept := by simp
  exact ⟨x, y, hx, hy, hpaid, (one_tip_one_ledger (hadm.run hx) (hadm'.run hy) huntorn huntorn
    hsx hsy hfree (isIdle_iff.mp hpx) (isIdle_iff.mp hpy) hlx hly htip).1⟩

end BinaChain.Agreement
