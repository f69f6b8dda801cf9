import BinaChain.Core.Transaction
import BinaChain.Support.Checked

/-!
# What identifies a transaction

The identifier covers the fields and the raw bytes of the signature, while
verification reads the two component signatures only. Bytes that verification
does not read therefore change the identifier of a transaction and nothing
else about it.
-/

set_option autoImplicit false

namespace BinaChain.Identity
open BinaChain.Word BinaChain.Crypto BinaChain.Transaction

structure Sensible (t : Transfer) : Prop where
  amount : t.amount ≠ 0
  recipient : t.sender ≠ t.recipient

structure VerifiedEd25519 (K : Primitives) (s : SignedTransaction) : Prop where
  sensible : Sensible s.tx
  sender : s.tx.sender = truncate (K.keccak256 s.publicKey)
  length : s.signature.length = ed25519SignatureBytes
  key : K.ed25519Key s.publicKey = .ok ()
  signature : K.ed25519Verify s.publicKey (s.tx.digest K).toList s.signature = .ok ()

structure VerifiedHybrid (K : Primitives) (s : SignedTransaction) (pk : WalletPublicKey)
    (sig : HybridSignature) : Prop where
  sensible : Sensible s.tx
  key : WalletPublicKey.fromBytes K s.publicKey = .ok pk
  sender : pk.address K = s.tx.sender
  decoded : HybridSignature.fromBytes s.signature = .ok sig
  signature : pk.verify K (s.tx.digest K).toList sig = .ok ()

theorem validateFields_ok {s : SignedTransaction} :
    s.validateFields = .ok () ↔ Sensible s.tx := by
  unfold SignedTransaction.validateFields
  split
  · rename_i h
    exact ⟨fun h => by simp at h, fun hs => absurd h hs.amount⟩
  · split
    · rename_i h
      exact ⟨fun h => by simp at h, fun hs => absurd h hs.recipient⟩
    · rename_i ha hr
      exact ⟨fun _ => ⟨ha, hr⟩, fun _ => rfl⟩

theorem verify_ed25519 {K : Primitives} {s : SignedTransaction}
    (hk : s.publicKey.length = ed25519PublicKeyBytes) :
    s.verify K = .ok () ↔ VerifiedEd25519 K s := by
  unfold SignedTransaction.verify SignedTransaction.verifyEd25519Only ed25519OnlyAddress
  rw [if_pos hk, if_neg (not_not.mpr hk)]
  cases hf : s.validateFields with
  | error e =>
    refine ⟨fun h => by simp [bind, Except.bind] at h, fun h => ?_⟩
    simp [validateFields_ok.mpr h.sensible] at hf
  | ok u =>
    have hsens := validateFields_ok.mp hf
    simp only [bind, Except.bind]
    split
    · rename_i ha
      exact ⟨fun h => by simp at h, fun h => absurd h.sender ha⟩
    rename_i ha
    split
    · rename_i hl
      exact ⟨fun h => by simp at h, fun h => absurd h.length hl⟩
    rename_i hl
    cases hkey : K.ed25519Key s.publicKey with
    | error e => exact ⟨fun h => by simp [Except.mapError] at h, fun h => by simp [h.key] at hkey⟩
    | ok u =>
      simp only [Except.mapError]
      constructor
      · intro h
        exact ⟨hsens, not_not.mp ha, not_not.mp hl, hkey, Checked.mapError_eq_ok.mp h⟩
      · intro h
        exact Checked.mapError_eq_ok.mpr h.signature

theorem verify_hybrid {K : Primitives} {s : SignedTransaction}
    (hk : s.publicKey.length ≠ ed25519PublicKeyBytes) :
    s.verify K = .ok () ↔ ∃ pk sig, VerifiedHybrid K s pk sig := by
  unfold SignedTransaction.verify
  rw [if_neg hk]
  cases hf : s.validateFields with
  | error e =>
    refine ⟨fun h => by simp [bind, Except.bind] at h, ?_⟩
    rintro ⟨pk, sig, h⟩
    simp [validateFields_ok.mpr h.sensible] at hf
  | ok u =>
    have hsens := validateFields_ok.mp hf
    simp only [bind, Except.bind]
    cases hp : WalletPublicKey.fromBytes K s.publicKey with
    | error e =>
      refine ⟨fun h => by simp at h, ?_⟩
      rintro ⟨pk, sig, h⟩
      simp [h.key] at hp
    | ok pk =>
      dsimp only
      split
      · rename_i ha
        refine ⟨fun h => by simp at h, ?_⟩
        rintro ⟨pk', sig, h⟩
        obtain rfl := Except.ok.inj (hp.symm.trans h.key)
        exact absurd h.sender ha
      · rename_i ha
        cases hd : HybridSignature.fromBytes s.signature with
        | error e =>
          refine ⟨fun h => by simp at h, ?_⟩
          rintro ⟨pk', sig, h⟩
          simp [h.decoded] at hd
        | ok sig =>
          constructor
          · intro h
            exact ⟨pk, sig, hsens, hp, not_not.mp ha, hd, Checked.mapError_eq_ok.mp h⟩
          · rintro ⟨pk', sig', h⟩
            obtain rfl := Except.ok.inj (hp.symm.trans h.key)
            obtain rfl := Except.ok.inj (hd.symm.trans h.decoded)
            exact Checked.mapError_eq_ok.mpr h.signature

theorem verify_sensible {K : Primitives} {s : SignedTransaction} (h : s.verify K = .ok ()) :
    Sensible s.tx := by
  by_cases hk : s.publicKey.length = ed25519PublicKeyBytes
  · exact ((verify_ed25519 hk).mp h).sensible
  · obtain ⟨pk, sig, hv⟩ := (verify_hybrid hk).mp h
    exact hv.sensible

theorem fromBytes_key {K : Primitives} {b : Bytes} {pk : WalletPublicKey}
    (h : WalletPublicKey.fromBytes K b = .ok pk) :
    pk.ed25519++pk.falcon = b ∧ b.length = 32+falconPkBytes := by
  unfold WalletPublicKey.fromBytes at h
  simp only at h
  split at h
  · simp at h
  · rename_i hlen
    cases hed : K.ed25519Key (b.take 32) with
    | error e => simp [hed, Except.mapError, bind, Except.bind] at h
    | ok u =>
      cases hfal : K.falconKey (b.drop 32) with
      | error e => simp [hed, hfal, Except.mapError, bind, Except.bind] at h
      | ok u =>
        simp only [hed, hfal, Except.mapError, bind, Except.bind, pure, Except.pure] at h
        obtain rfl := Except.ok.inj h
        exact ⟨List.take_append_drop 32 b, not_not.mp hlen⟩

theorem fromBytes_long {b : Bytes} {sig : HybridSignature}
    (h : HybridSignature.fromBytes b = .ok sig) : 66 ≤ b.length := by
  unfold HybridSignature.fromBytes at h
  split at h
  · simp at h
  · omega

/-- The component signatures; a native wallet signs with both. -/
def components (s : SignedTransaction) : Except String HybridSignature :=
  if s.publicKey.length = ed25519PublicKeyBytes then .ok { ed25519 := s.signature, falcon := [] }
  else HybridSignature.fromBytes s.signature

/-- The Falcon length that a hybrid signature declares. -/
def declaredFalcon (b : Bytes) : ℕ := (b.getD 0 0).toNat+256*(b.getD 1 0).toNat

/-- The signature bytes that no component comes from. -/
def unread (s : SignedTransaction) : Bytes :=
  if s.publicKey.length = ed25519PublicKeyBytes then []
  else s.signature.drop (66+declaredFalcon s.signature)

theorem declaredFalcon_toBytes {sig : HybridSignature} (h : sig.Sized) (rest : Bytes) :
    declaredFalcon (sig.toBytes++rest) = sig.falcon.length := by
  have hfal := h.falcon
  simp only [declaredFalcon, HybridSignature.toBytes, leBytes_two, List.cons_append,
    List.getD_cons_zero, List.getD_cons_succ, UInt8.toNat_ofNat']
  omega

theorem signature_split {s : SignedTransaction} {sig : HybridSignature}
    (hk : s.publicKey.length ≠ ed25519PublicKeyBytes) (hc : components s = .ok sig) :
    s.signature = sig.toBytes++unread s := by
  unfold components at hc
  rw [if_neg hk] at hc
  obtain ⟨hsize, rest, hrest⟩ := HybridSignature.fromBytes_iff.mp hc
  have hlen : sig.toBytes.length = 66+sig.falcon.length := by
    simp [HybridSignature.toBytes, hsize.ed25519]
    omega
  unfold unread
  rw [if_neg hk, hrest, declaredFalcon_toBytes hsize, ← hlen, List.drop_left]

theorem components_ok {K : Primitives} {s : SignedTransaction} (h : s.verify K = .ok ()) :
    ∃ sig, components s = .ok sig := by
  unfold components
  by_cases hk : s.publicKey.length = ed25519PublicKeyBytes
  · exact ⟨_, if_pos hk⟩
  · obtain ⟨pk, sig, hv⟩ := (verify_hybrid hk).mp h
    exact ⟨sig, by rw [if_neg hk]; exact hv.decoded⟩

theorem appended_verifies {K : Primitives} {s : SignedTransaction}
    (hk : s.publicKey.length ≠ ed25519PublicKeyBytes) (h : s.verify K = .ok ()) (more : Bytes) :
    let t := { s with signature := s.signature++more }
    t.verify K = .ok () ∧ components t = components s := by
  intro t
  obtain ⟨pk, sig, hv⟩ := (verify_hybrid hk).mp h
  have hkt : t.publicKey.length ≠ ed25519PublicKeyBytes := hk
  have hdec : HybridSignature.fromBytes t.signature = .ok sig := by
    obtain ⟨hsize, rest, hrest⟩ := HybridSignature.fromBytes_iff.mp hv.decoded
    show HybridSignature.fromBytes (s.signature++more) = .ok sig
    rw [hrest, List.append_assoc]
    exact HybridSignature.fromBytes_append hsize _
  have hvt : VerifiedHybrid K t pk sig := ⟨hv.sensible, hv.key, hv.sender, hdec, hv.signature⟩
  refine ⟨(verify_hybrid hkt).mpr ⟨pk, sig, hvt⟩, ?_⟩
  unfold components
  rw [if_neg hk, if_neg hkt, hdec, hv.decoded]

/-- One transfer under one key with the same component signatures has one
identifier exactly when the unread bytes agree; an Ed25519-only signature has
none. -/
theorem same_identity_iff {K : Primitives} {s t : SignedTransaction} (hs : s.verify K = .ok ())
    (htx : s.tx = t.tx) (hkey : s.publicKey = t.publicKey)
    (hc : components s = components t) :
    (s.signature = t.signature ∧ s.txId K = t.txId K) ↔ unread s = unread t := by
  by_cases hk : s.publicKey.length = ed25519PublicKeyBytes
  · have hsig : s.signature = t.signature := by
      unfold components at hc
      rw [if_pos hk, if_pos (by rw [← hkey]; exact hk)] at hc
      exact (HybridSignature.mk.inj (Except.ok.inj hc)).1
    constructor
    · intro _
      unfold unread
      rw [if_pos hk, if_pos (by rw [← hkey]; exact hk)]
    · intro _
      exact ⟨hsig, by rw [SignedTransaction.txId, SignedTransaction.txId, htx, hsig]⟩
  · obtain ⟨sig, hsig⟩ := components_ok hs
    have hsplit := signature_split hk hsig
    have hsplit' := signature_split (by rwa [← hkey]) (hc.symm.trans hsig)
    constructor
    · intro h
      exact List.append_cancel_left (hsplit.symm.trans (h.1.trans hsplit'))
    · intro h
      have hbytes : s.signature = t.signature := by
        rw [hsplit, hsplit', h]
      exact ⟨hbytes, by rw [SignedTransaction.txId, SignedTransaction.txId, htx, hbytes]⟩

def toyHybridTransfer (key : UInt8) (recipient : WalletAddress) (amount nonce fee : ℕ) :
    SignedTransaction :=
  let publicKey := List.replicate (32+falconPkBytes) key
  let sender := WalletPublicKey.address toyPrimitives
    { ed25519 := publicKey.take 32, falcon := publicKey.drop 32 }
  let tx : Transfer := { sender, recipient, amount, nonce, fee }
  let msg := (tx.digest toyPrimitives).toList
  { tx, publicKey, signature :=
      HybridSignature.toBytes { ed25519 := msg++publicKey.take 32, falcon := msg } }

def toySigned : SignedTransaction := toyHybridTransfer 1 (Vector.replicate 20 0) 42 7 1

def toyAppended : SignedTransaction := { toySigned with signature := toySigned.signature++[0] }

theorem same_identity_iff_sample :
    toyAppended.verify toyPrimitives = .ok () ∧ unread toySigned ≠ unread toyAppended ∧
      ¬ (toySigned.signature = toyAppended.signature ∧
        toySigned.txId toyPrimitives = toyAppended.txId toyPrimitives) := by
  have hk : toySigned.publicKey.length ≠ ed25519PublicKeyBytes := by decide +kernel
  have hv : toySigned.verify toyPrimitives = .ok () := by decide +kernel
  have hne : unread toySigned ≠ unread toyAppended := by decide +kernel
  obtain ⟨hv', hc⟩ := appended_verifies hk hv [0]
  exact ⟨hv', hne, (same_identity_iff hv (by simp only) (by simp only) hc.symm).not.mpr hne⟩

theorem appended_byte_new_identity :
    toySigned.verify toyPrimitives = .ok () ∧ toyAppended.verify toyPrimitives = .ok () ∧
      toySigned.tx = toyAppended.tx ∧ toySigned.publicKey = toyAppended.publicKey ∧
      components toySigned = components toyAppended ∧
      toySigned.txId toyPrimitives ≠ toyAppended.txId toyPrimitives := by
  have hk : toySigned.publicKey.length ≠ ed25519PublicKeyBytes := by decide +kernel
  have hv : toySigned.verify toyPrimitives = .ok () := by decide +kernel
  have hid : toySigned.txId toyPrimitives ≠ toyAppended.txId toyPrimitives := by decide +kernel
  obtain ⟨hv', hc⟩ := appended_verifies hk hv [0]
  exact ⟨hv, hv', by simp only [toyAppended], by simp only [toyAppended], hc.symm, hid⟩

end BinaChain.Identity
