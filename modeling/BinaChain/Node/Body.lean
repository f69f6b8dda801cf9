import BinaChain.Support.Checked
import BinaChain.Support.Merkle
import BinaChain.Ledger.Identity
import BinaChain.Node.Mining

/-!
# A header determines its body

The merkle root alone does not determine the list under it, because an odd last
node is paired with itself. A list whose transactions all apply repeats none of
them: the nonces of a sender count up. The root then determines the identifiers,
and an identifier its transaction.
-/

set_option autoImplicit false

namespace BinaChain.Body
open BinaChain.Word BinaChain.Text BinaChain.Crypto BinaChain.Transaction BinaChain.Rewards
open BinaChain.Execution BinaChain.Identity BinaChain.State BinaChain.Admission BinaChain.Mining

def digestInput (t : Transfer) : Bytes :=
  txDomainTag++t.sender.toList++t.recipient.toList++leBytes 8 t.amount++leBytes 8 t.nonce++
    leBytes 8 t.fee

def idInput (K : Primitives) (s : SignedTransaction) : Bytes :=
  txIdTag++(s.tx.digest K).toList++s.signature

def nodeInput (a b : Hash) : Bytes := txMerkleTag++a.toList++b.toList

def merkleInput (K : Primitives) : Merkle.Input SignedTransaction Hash → Bytes
  | .leaf s => idInput K s
  | .pair a b => nodeInput a b

def merkleDigest (K : Primitives) (i : Merkle.Input SignedTransaction Hash) : Hash :=
  K.blake3 (merkleInput K i)

def merkleNode (K : Primitives) (a b : Hash) : Hash := merkleDigest K (.pair a b)

/-- Every input that the root of the list and the checks of its transactions hash. -/
def hashed (K : Primitives) (txs : List SignedTransaction) : List Bytes :=
  txs.map (fun s => digestInput s.tx)++txs.map (idInput K)++
    (Merkle.combined (merkleNode K) txs.length (txs.map (SignedTransaction.txId K))).map
      fun p => nodeInput p.1 p.2

def keyAddress (K : Primitives) (key : Bytes) : WalletAddress :=
  if key.length = ed25519PublicKeyBytes then truncate (K.keccak256 key)
  else truncate (K.blake3 (addrTag++key))

/-- Neither derivation maps two of the keys to one address. -/
def KeysBound (K : Primitives) (txs : List SignedTransaction) : Prop :=
  ∀ s ∈ txs, ∀ t ∈ txs, s.publicKey.length = t.publicKey.length →
    keyAddress K s.publicKey = keyAddress K t.publicKey → s.publicKey = t.publicKey

theorem merkleLayer_eq (K : Primitives) : ∀ layer : List Hash,
    merkleLayer K layer = Merkle.layer (merkleNode K) layer
  | [] => rfl
  | [_] => rfl
  | a :: b :: rest => by
    rw [merkleLayer, merkleLayer_eq K rest]
    rfl

theorem merkleFold_eq (K : Primitives) (fuel : ℕ) (layer : List Hash) :
    merkleFold K fuel layer = Merkle.fold (merkleNode K) fuel layer := by
  induction fuel generalizing layer with
  | zero => rfl
  | succ fuel ih => rw [merkleFold, Merkle.fold, merkleLayer_eq, ih]

theorem toList_injective {n : ℕ} {v w : Vector UInt8 n} (h : v.toList = w.toList) : v = w := by
  have hfix := congrArg (Hex.fixed n) h
  simpa using hfix

theorem digestInput_injective {t t' : Transfer} (ha : t.amount ≤ u64Max) (hn : t.nonce ≤ u64Max)
    (hf : t.fee ≤ u64Max) (ha' : t'.amount ≤ u64Max) (hn' : t'.nonce ≤ u64Max)
    (hf' : t'.fee ≤ u64Max) (h : digestInput t = digestInput t') : t = t' := by
  unfold digestInput at h
  obtain ⟨h, hfee⟩ := List.append_inj' h (by simp)
  obtain ⟨h, hnonce⟩ := List.append_inj' h (by simp)
  obtain ⟨h, hamount⟩ := List.append_inj' h (by simp)
  obtain ⟨h, hto⟩ := List.append_inj' h (by simp)
  have hfrom := List.append_cancel_left h
  obtain ⟨sender, recipient, amount, nonce, fee⟩ := t
  obtain ⟨sender', recipient', amount', nonce', fee'⟩ := t'
  obtain rfl : sender = sender' := toList_injective hfrom
  obtain rfl : recipient = recipient' := toList_injective hto
  obtain rfl : amount = amount' := leBytes_u64 ha ha' hamount
  obtain rfl : nonce = nonce' := leBytes_u64 hn hn' hnonce
  obtain rfl : fee = fee' := leBytes_u64 hf hf' hfee
  rfl

/-- A transaction that can apply: it verifies and its numbers are words. -/
structure Applicable (K : Primitives) (s : SignedTransaction) : Prop where
  verified : s.verify K = .ok ()
  spent : s.tx.amount+s.tx.fee ≤ u64Max
  nonce : s.tx.nonce ≤ u64Max

theorem verified_address {K : Primitives} {s : SignedTransaction} (h : s.verify K = .ok ()) :
    keyAddress K s.publicKey = s.tx.sender := by
  unfold keyAddress
  by_cases hk : s.publicKey.length = ed25519PublicKeyBytes
  · rw [if_pos hk, ((verify_ed25519 hk).mp h).sender]
  · obtain ⟨pk, sig, hv⟩ := (verify_hybrid hk).mp h
    rw [if_neg hk, ← hv.sender]
    obtain ⟨hpk, -⟩ := fromBytes_key hv.key
    rw [WalletPublicKey.address, List.append_assoc, hpk]

theorem same_kind {K : Primitives} {s t : SignedTransaction} (hs : s.verify K = .ok ())
    (ht : t.verify K = .ok ()) (h : s.signature = t.signature) :
    s.publicKey.length = t.publicKey.length := by
  by_cases hk : s.publicKey.length = ed25519PublicKeyBytes <;>
    by_cases hk' : t.publicKey.length = ed25519PublicKeyBytes
  · rw [hk, hk']
  · obtain ⟨pk, sig, hv⟩ := (verify_hybrid hk').mp ht
    have hlen := ((verify_ed25519 hk).mp hs).length
    have hlong := fromBytes_long hv.decoded
    rw [← h, hlen] at hlong
    exact absurd hlong (by decide)
  · obtain ⟨pk, sig, hv⟩ := (verify_hybrid hk).mp hs
    have hlen := ((verify_ed25519 hk').mp ht).length
    have hlong := fromBytes_long hv.decoded
    rw [h, hlen] at hlong
    exact absurd hlong (by decide)
  · obtain ⟨pk, sig, hv⟩ := (verify_hybrid hk).mp hs
    obtain ⟨pk', sig', hv'⟩ := (verify_hybrid hk').mp ht
    rw [(fromBytes_key hv.key).2, (fromBytes_key hv'.key).2]

theorem idInput_injective {K : Primitives} {inputs : List Bytes} {txs : List SignedTransaction}
    {s t : SignedTransaction} (hfree : CollisionFree K inputs) (hkeys : KeysBound K txs)
    (hdigests : ∀ u ∈ txs, digestInput u.tx ∈ inputs) (hs : s ∈ txs) (ht : t ∈ txs)
    (has : Applicable K s) (hat : Applicable K t) (h : idInput K s = idInput K t) : s = t := by
  unfold idInput at h
  obtain ⟨hdig, hsig⟩ := List.append_inj h (by simp)
  have hdigest : K.blake3 (digestInput s.tx) = K.blake3 (digestInput t.tx) :=
    toList_injective (List.append_cancel_left hdig)
  have hsp := has.spent
  have htp := hat.spent
  have htx : s.tx = t.tx := digestInput_injective (by omega) has.nonce (by omega) (by omega)
    hat.nonce (by omega) (hfree _ (hdigests s hs) _ (hdigests t ht) hdigest)
  have hkey : s.publicKey = t.publicKey := by
    apply hkeys s hs t ht (same_kind has.verified hat.verified hsig)
    rw [verified_address has.verified, verified_address hat.verified, htx]
  obtain ⟨tx, publicKey, signature⟩ := s
  obtain ⟨tx', publicKey', signature'⟩ := t
  dsimp only at htx hkey hsig
  rw [htx, hkey, hsig]

theorem idInput_ne_nodeInput (K : Primitives) (s : SignedTransaction) (a b : Hash) :
    idInput K s ≠ nodeInput a b := by
  intro h
  have hid : (idInput K s).take 8 = txIdTag.take 8 := by
    rw [idInput, List.append_assoc, List.take_append_of_le_length (by decide)]
  have hnode : (nodeInput a b).take 8 = txMerkleTag.take 8 := by
    rw [nodeInput, List.append_assoc, List.take_append_of_le_length (by decide)]
  rw [h, hnode] at hid
  exact absurd hid (by decide)

theorem nodeInput_injective {a b c d : Hash} (h : nodeInput a b = nodeInput c d) :
    a = c ∧ b = d := by
  unfold nodeInput at h
  obtain ⟨hl, hr⟩ := List.append_inj' h (by simp)
  exact ⟨toList_injective (List.append_cancel_left hl), toList_injective hr⟩

def Numbered (K : Primitives) : (Str → ℕ) → List SignedTransaction → Prop
  | _, [] => True
  | nonce, s :: rest => s.verify K = .ok () ∧ s.tx.amount+s.tx.fee ≤ u64Max ∧
    s.tx.nonce = nonce s.fromHex ∧
    Numbered K (Function.update nonce s.fromHex (wrapAdd s.tx.nonce 1)) rest

theorem simulateTransaction_nonce {K : Primitives} {l : RewardLedger} (miner : Str)
    {overlay : RewardLedger.Overlay} {s : SignedTransaction}
    (h : (overlayBook l overlay).Admits K s) (applied : List SignedTransaction) :
    ∃ overlay', simulateTransaction K l miner (overlay, applied) s = (overlay', applied++[s]) ∧
      (fun a => (l.overlayRead overlay' a).2) = Function.update
        (fun a => (l.overlayRead overlay a).2) s.fromHex (wrapAdd s.tx.nonce 1) := by
  have hc : checkedAdd s.tx.amount s.tx.fee = some (s.tx.amount+s.tx.fee) :=
    checkedAdd_eq_some.mpr ⟨h.fits, rfl⟩
  have hsn : s.tx.nonce = (l.overlayRead overlay s.fromHex).2 := h.nonce
  have hb : ¬ (l.overlayRead overlay s.fromHex).1 < s.tx.amount+s.tx.fee :=
    Nat.not_lt.mpr h.funded
  have hread : ∀ (o : RewardLedger.Overlay) (k : Str) (v : ℕ × ℕ),
      (fun a => (l.overlayRead (o.insert k v) a).2) =
        Function.update (fun a => (l.overlayRead o a).2) k v.2 := by
    intro o k v
    funext a
    simp only [RewardLedger.overlayRead, Maps.getElem?_insert_eq, Function.update_apply]
    by_cases ha : k = a
    · rw [if_pos ha, if_pos ha.symm]
      rfl
    · rw [if_neg ha, if_neg (fun e => ha e.symm)]
  have hsame : ∀ (o : RewardLedger.Overlay) (k : Str) (x : ℕ),
      (fun a => (l.overlayRead (o.insert k (x, (l.overlayRead o k).2)) a).2) =
        fun a => (l.overlayRead o a).2 := by
    intro o k x
    rw [hread]
    exact Function.update_eq_self k _
  unfold simulateTransaction
  simp only [h.verified, hsn, ne_eq, not_true_eq_false, if_false, hc, if_neg hb]
  refine ⟨_, rfl, ?_⟩
  split
  · rw [hsame, hsame, hread]
  · rw [hsame, hread]

theorem simulate_numbered (K : Primitives) (l : RewardLedger) (miner : Str)
    (txs : List SignedTransaction) :
    ∀ (overlay : RewardLedger.Overlay) (applied : List SignedTransaction),
      (txs.foldl (simulateTransaction K l miner) (overlay, applied)).2.length =
        applied.length+txs.length →
      Numbered K (fun a => (l.overlayRead overlay a).2) txs := by
  induction txs with
  | nil => exact fun _ _ _ => trivial
  | cons s txs ih =>
    intro overlay applied hlen
    rw [List.foldl_cons] at hlen
    by_cases hadm : (overlayBook l overlay).Admits K s
    · obtain ⟨overlay', hsim, hnonce⟩ := simulateTransaction_nonce miner hadm applied
      rw [hsim] at hlen
      have hrest := ih overlay' (applied++[s]) (by
        rw [hlen]
        simp only [List.length_append, List.length_cons, List.length_nil]
        omega)
      rw [hnonce] at hrest
      exact ⟨hadm.verified, hadm.fits, hadm.nonce, hrest⟩
    · rw [simulateTransaction_refused hadm] at hlen
      obtain ⟨selected, happ, -, hle⟩ := simulate_selected K l miner txs (overlay, applied)
      rw [happ, List.length_append, List.length_cons] at hlen
      dsimp only at hlen
      omega

theorem wrapAdd_lt (a b : ℕ) : wrapAdd a b ≤ u64Max := by
  unfold wrapAdd u64Max
  omega

theorem Numbered.applicable {K : Primitives} {nonce : Str → ℕ} {txs : List SignedTransaction}
    (h : Numbered K nonce txs) (hn : ∀ a, nonce a ≤ u64Max) : ∀ s ∈ txs, Applicable K s := by
  induction txs generalizing nonce with
  | nil => simp
  | cons s txs ih =>
    obtain ⟨hv, hfit, hnonce, hrest⟩ := h
    intro t ht
    rcases List.mem_cons.mp ht with rfl | ht
    · exact ⟨hv, hfit, by rw [hnonce]; exact hn _⟩
    · refine ih hrest (fun a => ?_) t ht
      rw [Function.update_apply]
      split
      · exact wrapAdd_lt _ _
      · exact hn a

theorem Numbered.later {K : Primitives} {nonce : Str → ℕ} {txs : List SignedTransaction}
    (h : Numbered K nonce txs) {s : SignedTransaction} (hs : s ∈ txs) :
    ∃ j < txs.length, s.tx.nonce%0x10000000000000000 = (nonce s.fromHex+j)%0x10000000000000000 ∧
      (nonce s.fromHex ≤ u64Max → s.tx.nonce ≤ u64Max) := by
  induction txs generalizing nonce with
  | nil => simp at hs
  | cons t txs ih =>
    obtain ⟨-, -, hnonce, hrest⟩ := h
    rcases List.mem_cons.mp hs with rfl | hs
    · exact ⟨0, by simp, by rw [hnonce, Nat.add_zero], fun hle => by rw [hnonce]; exact hle⟩
    · obtain ⟨j, hj, hmod, hle⟩ := ih hrest hs
      rw [List.length_cons]
      rw [Function.update_apply] at hmod hle
      split at hmod
      · rename_i hst
        rw [if_pos hst] at hle
        refine ⟨j+1, by omega, ?_, fun _ => hle (wrapAdd_lt _ _)⟩
        rw [hmod, hst, ← hnonce]
        unfold wrapAdd
        omega
      · rename_i hst
        rw [if_neg hst] at hle
        exact ⟨j, by omega, hmod, hle⟩

theorem Numbered.nodup {K : Primitives} {nonce : Str → ℕ} {txs : List SignedTransaction}
    (h : Numbered K nonce txs) (hlen : txs.length ≤ maxTxsPerBlock) : txs.Nodup := by
  unfold maxTxsPerBlock at hlen
  induction txs generalizing nonce with
  | nil => exact List.nodup_nil
  | cons s txs ih =>
    obtain ⟨-, -, -, hrest⟩ := h
    rw [List.length_cons] at hlen
    refine List.nodup_cons.mpr ⟨fun hs => ?_, ih hrest (by omega)⟩
    obtain ⟨j, hj, hmod, hle⟩ := hrest.later hs
    rw [Function.update_apply, if_pos rfl] at hmod hle
    have hword := hle (wrapAdd_lt _ _)
    unfold wrapAdd at hmod
    unfold u64Max at hword
    omega

theorem mem_hashed_digest {K : Primitives} {txs : List SignedTransaction} {s : SignedTransaction}
    (hs : s ∈ txs) : digestInput s.tx ∈ hashed K txs := by
  apply List.mem_append_left
  apply List.mem_append_left
  exact List.mem_map_of_mem (f := fun s : SignedTransaction => digestInput s.tx) hs

theorem mem_hashed {K : Primitives} {txs : List SignedTransaction}
    {i : Merkle.Input SignedTransaction Hash} (hi : i ∈ Merkle.hashed (merkleDigest K) txs) :
    merkleInput K i ∈ hashed K txs := by
  rcases hi with ⟨s, hs, rfl⟩ | ⟨p, hp, rfl⟩
  · apply List.mem_append_left
    apply List.mem_append_right
    exact List.mem_map_of_mem (f := idInput K) hs
  · apply List.mem_append_right
    exact List.mem_map_of_mem (f := fun p : Hash × Hash => nodeInput p.1 p.2) hp

theorem merkleDigest_injOn {K : Primitives} {txs txs' : List SignedTransaction}
    (hfree : CollisionFree K (hashed K txs++hashed K txs')) (hkeys : KeysBound K (txs++txs'))
    (happ : ∀ s ∈ txs++txs', Applicable K s) : Set.InjOn (merkleDigest K)
      (Merkle.hashed (merkleDigest K) txs ∪ Merkle.hashed (merkleDigest K) txs') := by
  have hinput : ∀ i ∈ Merkle.hashed (merkleDigest K) txs ∪ Merkle.hashed (merkleDigest K) txs',
      merkleInput K i ∈ hashed K txs++hashed K txs' := by
    intro i hi
    rcases hi with hi | hi
    · exact List.mem_append_left _ (mem_hashed hi)
    · exact List.mem_append_right _ (mem_hashed hi)
  have hdigests : ∀ u ∈ txs++txs', digestInput u.tx ∈ hashed K txs++hashed K txs' := by
    intro u hu
    rcases List.mem_append.mp hu with hu | hu
    · exact List.mem_append_left _ (mem_hashed_digest hu)
    · exact List.mem_append_right _ (mem_hashed_digest hu)
  have hleaf : ∀ s, Merkle.Input.leaf s ∈ Merkle.hashed (merkleDigest K) txs ∪
      Merkle.hashed (merkleDigest K) txs' → s ∈ txs++txs' := by
    intro s hs
    rcases hs with (⟨t, ht, he⟩ | ⟨p, hp, he⟩) | ⟨t, ht, he⟩ | ⟨p, hp, he⟩
    · rw [Merkle.Input.leaf.inj he]
      exact List.mem_append_left _ ht
    · nomatch he
    · rw [Merkle.Input.leaf.inj he]
      exact List.mem_append_right _ ht
    · nomatch he
  intro i hi j hj h
  have hin := hfree _ (hinput i hi) _ (hinput j hj) h
  match i, j with
  | .leaf s, .leaf t =>
    have hs := hleaf s hi
    have ht := hleaf t hj
    rw [idInput_injective hfree hkeys hdigests hs ht (happ s hs) (happ t ht) hin]
  | .leaf s, .pair a b => exact absurd hin (idInput_ne_nodeInput K s a b)
  | .pair a b, .leaf s => exact absurd hin.symm (idInput_ne_nodeInput K s a b)
  | .pair a b, .pair c d =>
    obtain ⟨hl, hr⟩ := nodeInput_injective hin
    rw [hl, hr]

theorem merkleRoot_eq (K : Primitives) {txs : List SignedTransaction} (h : txs ≠ []) :
    ∃ i ∈ Merkle.hashed (merkleDigest K) txs, merkleRoot K txs = merkleDigest K i ∧
      Merkle.fold (merkleNode K) txs.length (txs.map (SignedTransaction.txId K)) =
        [merkleRoot K txs] := by
  obtain ⟨t, ht, -, hin, -⟩ := Merkle.exists_tree (merkleDigest K) h
  obtain ⟨i, hi, hroot⟩ := t.root_hashed
  have hfold : Merkle.fold (merkleNode K) txs.length (txs.map (SignedTransaction.txId K)) =
      [t.root (merkleDigest K)] := ht
  have hmerkle : merkleRoot K txs = t.root (merkleDigest K) := by
    unfold merkleRoot
    dsimp only
    rw [if_neg (by simpa using h), List.length_map, merkleFold_eq, hfold]
    rfl
  exact ⟨i, hin hi, hmerkle.trans hroot, by rw [hfold, hmerkle]⟩

theorem merkleRoot_injective {K : Primitives} {txs txs' : List SignedTransaction}
    (hfree : CollisionFree K (hashed K txs++hashed K txs'))
    (hzero : ∀ x ∈ hashed K txs++hashed K txs', K.blake3 x ≠ zeroHash)
    (hkeys : KeysBound K (txs++txs')) (happ : ∀ s ∈ txs++txs', Applicable K s)
    (hnd : txs.Nodup) (hnd' : txs'.Nodup) (h : merkleRoot K txs = merkleRoot K txs') :
    txs = txs' := by
  have hempty : merkleRoot K [] = zeroHash := rfl
  by_cases he : txs = [] <;> by_cases he' : txs' = []
  · rw [he, he']
  · obtain ⟨i, hi, hroot, -⟩ := merkleRoot_eq K he'
    rw [he, hempty, hroot] at h
    exact absurd h.symm (hzero _ (List.mem_append_right _ (mem_hashed hi)))
  · obtain ⟨i, hi, hroot, -⟩ := merkleRoot_eq K he
    rw [he', hempty, hroot] at h
    exact absurd h (hzero _ (List.mem_append_left _ (mem_hashed hi)))
  · obtain ⟨-, -, -, hfold⟩ := merkleRoot_eq K he
    obtain ⟨-, -, -, hfold'⟩ := merkleRoot_eq K he'
    apply Merkle.fold_injective hnd hnd' he he' (merkleDigest_injOn hfree hkeys happ)
    exact hfold.trans (by rw [h]; exact hfold'.symm)

theorem executes_numbered {K : Primitives} {l : RewardLedger} {p : PendingClaim} {reward : ℕ}
    (h : Executes K l p reward) : Numbered K l.nonce p.transactions := by
  have happ := h.applied
  rw [simulateBlockExecution_eq] at happ
  have hnum := simulate_numbered K l p.minerHex p.transactions ∅ [] (by simpa using happ)
  have hread : (fun a => (l.overlayRead ∅ a).2) = l.nonce := by
    funext a
    simp [RewardLedger.overlayRead]
  rwa [hread] at hnum

/-- Two bodies accepted for one header in one state are the same list. -/
theorem header_determines_body {K : Primitives} {s : NodeState} {l : RewardLedger} {now now' : ℕ}
    {p p' : PendingClaim} {a a' : AcceptedClaim} (ha : (acceptSignedClaim K s l now p).1 = .ok a)
    (ha' : (acceptSignedClaim K s l now' p').1 = .ok a')
    (hh : p.claim.header = p'.claim.header) (hwords : ∀ addr, l.nonce addr ≤ u64Max)
    (hfree : CollisionFree K (hashed K p.transactions++hashed K p'.transactions))
    (hzero : ∀ x ∈ hashed K p.transactions++hashed K p'.transactions, K.blake3 x ≠ zeroHash)
    (hkeys : KeysBound K (p.transactions++p'.transactions)) :
    p.transactions = p'.transactions := by
  have hok := (accepted_acceptable ha).1
  have hok' := (accepted_acceptable ha').1
  have hnum := executes_numbered hok.executes
  have hnum' := executes_numbered hok'.executes
  apply merkleRoot_injective hfree hzero hkeys _ (hnum.nodup hok.screened.size)
    (hnum'.nodup hok'.screened.size)
  · rw [hok.screened.merkle, hok'.screened.merkle, hh]
  · intro t ht
    rcases List.mem_append.mp ht with ht | ht
    · exact hnum.applicable hwords t ht
    · exact hnum'.applicable hwords t ht

def toyBody : List SignedTransaction :=
  [toyTransfer 1 (toySender 2) 30 0 1, toyTransfer 1 (toySender 2) 10 1 0]

def toyBodyClaim (tipHeight : ℕ) : PendingClaim :=
  let p := toyCandidate 1 0 (genesisState toyPrimitives .mock) toyLedger
    (genesisCursor toyPrimitives) toyBody
  { p with btcCheckpoint := p.btcCheckpoint.map fun proof => { proof with tipHeight } }

def toyBodyAcceptance (tipHeight : ℕ) : Except ClaimReject AcceptedClaim :=
  let s := genesisState toyPrimitives .mock
  (acceptSignedClaim toyPrimitives s toyLedger (s.lastBlockTimestampMs+2)
    (toyBodyClaim tipHeight)).1

theorem header_determines_body_sample :
    toyBodyClaim 0 ≠ toyBodyClaim 1 ∧ (toyBodyClaim 0).transactions.length = 2 ∧
      (toyBodyClaim 0).transactions = (toyBodyClaim 1).transactions := by
  obtain ⟨hok, htx⟩ : (∀ tipHeight ∈ [0, 1], (toyBodyAcceptance tipHeight).isOk) ∧
      (toyBodyClaim 0).transactions = toyBody := by decide +kernel
  obtain ⟨a, ha⟩ := Checked.isOk_iff.mp (hok 0 (by simp))
  obtain ⟨a', ha'⟩ := Checked.isOk_iff.mp (hok 1 (by simp))
  have htx' : (toyBodyClaim 1).transactions = toyBody := htx
  have hfree : CollisionFree toyPrimitives (hashed toyPrimitives toyBody) := by decide +kernel
  have hzero : ∀ x ∈ hashed toyPrimitives toyBody, toyPrimitives.blake3 x ≠ zeroHash := by
    decide +kernel
  have hkeys : KeysBound toyPrimitives toyBody := by
    unfold KeysBound
    decide +kernel
  have hproof : (toyBodyClaim 0).btcCheckpoint ≠ (toyBodyClaim 1).btcCheckpoint := by
    decide +kernel
  refine ⟨fun h => hproof (by rw [h]), by rw [htx]; rfl,
    header_determines_body ha ha' rfl (by simp [toyLedger_nonce]) ?_ ?_ ?_⟩
  · rw [htx, htx']
    simpa [CollisionFree] using hfree
  · rw [htx, htx']
    simpa using hzero
  · rw [htx, htx']
    simpa [KeysBound] using hkeys

end BinaChain.Body
