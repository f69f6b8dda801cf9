import BinaChain.Core.Crypto

/-!
# Signed transfers and their commitment

Native wallets sign with the hybrid key; a 32-byte public key selects the
Ed25519-only path. A block commits to the exact sequence of its transactions
through the root over their identifiers.
-/

set_option autoImplicit false

namespace BinaChain.Transaction
open BinaChain.Word BinaChain.Text BinaChain.Crypto

def txDomainTag : Bytes := utf8 "BINA-TX-v1"
def txIdTag : Bytes := utf8 "BINA-TXID-v1"
def txMerkleTag : Bytes := utf8 "BINA-TXMERKLE-v1"
def ed25519PublicKeyBytes : ℕ := 32
def ed25519SignatureBytes : ℕ := 64
def maxTxsPerBlock : ℕ := 2000

structure Transfer where
  sender : WalletAddress
  recipient : WalletAddress
  amount : ℕ
  nonce : ℕ
  fee : ℕ
  deriving DecidableEq

structure SignedTransaction where
  tx : Transfer
  publicKey : Bytes
  signature : Bytes
  deriving DecidableEq

def Transfer.digest (K : Primitives) (t : Transfer) : Hash :=
  K.blake3 (txDomainTag++t.sender.toList++t.recipient.toList++leBytes 8 t.amount++
    leBytes 8 t.nonce++leBytes 8 t.fee)

def ed25519OnlyAddress (K : Primitives) (publicKey : Bytes) : Except String WalletAddress :=
  if publicKey.length ≠ ed25519PublicKeyBytes then
    .error s!"Ed25519 public key must be {ed25519PublicKeyBytes} bytes, got {publicKey.length}"
  else .ok (truncate (K.keccak256 publicKey))

namespace SignedTransaction

def validateFields (s : SignedTransaction) : Except String Unit :=
  if s.tx.amount = 0 then .error "transaction amount must be non-zero"
  else if s.tx.sender = s.tx.recipient then .error "transaction cannot send to self"
  else .ok ()

def verifyEd25519Only (K : Primitives) (s : SignedTransaction) : Except String Unit := do
  let address ← ed25519OnlyAddress K s.publicKey
  if s.tx.sender ≠ address then
    .error "transaction Ed25519 public key does not derive the from address"
  else if s.signature.length ≠ ed25519SignatureBytes then
    .error (s!"Ed25519-only signature must be {ed25519SignatureBytes} bytes, " ++
      s!"got {s.signature.length}")
  else do
    (K.ed25519Key s.publicKey).mapError fun e => s!"Ed25519 public key invalid: {e}"
    (K.ed25519Verify s.publicKey (s.tx.digest K).toList s.signature).mapError
      fun e => s!"Ed25519 transaction signature verification failed: {e}"

def verify (K : Primitives) (s : SignedTransaction) : Except String Unit := do
  s.validateFields
  if s.publicKey.length = ed25519PublicKeyBytes then s.verifyEd25519Only K
  else do
    let publicKey ← WalletPublicKey.fromBytes K s.publicKey
    if publicKey.address K ≠ s.tx.sender then
      .error "transaction public key does not derive the from address"
    else do
      let signature ← HybridSignature.fromBytes s.signature
      (publicKey.verify K (s.tx.digest K).toList signature).mapError
        fun e => s!"transaction signature verification failed: {e}"

def txId (K : Primitives) (s : SignedTransaction) : Hash :=
  K.blake3 (txIdTag++(s.tx.digest K).toList++s.signature)

def txIdHex (K : Primitives) (s : SignedTransaction) : Str := Hex.encode (s.txId K).toList

def fromHex (s : SignedTransaction) : Str := Hex.encode s.tx.sender.toList

def toHex (s : SignedTransaction) : Str := Hex.encode s.tx.recipient.toList

end SignedTransaction

def parseAddressHex (address : Str) : Except String WalletAddress :=
  let trimmed := match address with
    | '0' :: 'x' :: rest => rest
    | _ => address
  match Hex.decode trimmed with
  | .error e => .error s!"address is not valid hex: {e}"
  | .ok bytes =>
    match Hex.fixed 20 bytes with
    | none => .error s!"address must be 20 bytes / 40 hex chars, got {bytes.length} bytes"
    | some out => .ok out

/-- One layer of the tree: an odd last node is paired with itself. -/
def merkleLayer (K : Primitives) : List Hash → List Hash
  | [] => []
  | [a] => [K.blake3 (txMerkleTag++a.toList++a.toList)]
  | a :: b :: rest => K.blake3 (txMerkleTag++a.toList++b.toList) :: merkleLayer K rest

theorem merkleLayer_length (K : Primitives) :
    ∀ layer : List Hash, (merkleLayer K layer).length = (layer.length+1)/2
  | [] => by simp [merkleLayer]
  | [_] => by simp [merkleLayer]
  | _ :: _ :: rest => by
    simp only [merkleLayer, List.length_cons, merkleLayer_length K rest]
    omega

/-- The `while layer.len() > 1` loop, cut off after `fuel` rounds. -/
def merkleFold (K : Primitives) : ℕ → List Hash → List Hash
  | 0, layer => layer
  | fuel+1, layer => if layer.length > 1 then merkleFold K fuel (merkleLayer K layer) else layer

def merkleRoot (K : Primitives) (txs : List SignedTransaction) : Hash :=
  if txs.isEmpty then zeroHash
  else
    let layer := txs.map (SignedTransaction.txId K)
    (merkleFold K layer.length layer).headD zeroHash

theorem merkleFold_single (K : Primitives) (fuel : ℕ) (layer : List Hash)
    (hne : layer ≠ []) (hf : layer.length ≤ fuel) : (merkleFold K fuel layer).length = 1 := by
  have hpos : 0 < layer.length := List.length_pos_iff.mpr hne
  induction fuel generalizing layer with
  | zero => omega
  | succ fuel ih =>
    rw [merkleFold]
    split
    · rename_i hlen
      have hl := merkleLayer_length K layer
      have hp : 0 < (merkleLayer K layer).length := by omega
      exact ih _ (List.length_pos_iff.mp hp) (by omega) hp
    · omega

theorem parseAddressHex_bytes {bs : Bytes} {a : WalletAddress} :
    parseAddressHex (Hex.encode bs) = .ok a ↔ bs = a.toList := by
  have hx : ∀ rest, Hex.encode bs ≠ '0' :: 'x' :: rest := by
    intro rest he
    have hd := Hex.decode_encode bs
    rw [he] at hd
    have hx := Hex.decode_digits hd 'x' (by simp)
    simp [show Hex.hexValue 'x' = none from by decide] at hx
  unfold parseAddressHex
  split
  · rename_i rest he
    exact absurd he (hx rest)
  · simp only [Hex.decode_encode]
    cases hf : Hex.fixed 20 bs with
    | none =>
      refine ⟨fun h => by simp at h, ?_⟩
      rintro rfl
      simp at hf
    | some out =>
      have hbs := Hex.fixed_length hf
      simp only [Except.ok.injEq]
      refine ⟨fun h => by rw [← h, hbs], fun h => ?_⟩
      rw [h] at hf
      simpa using hf.symm

@[simp] theorem parseAddressHex_encode (a : WalletAddress) :
    parseAddressHex (Hex.encode a.toList) = .ok a :=
  parseAddressHex_bytes.mpr rfl

theorem parseAddressHex_plain {s : Str} {a : WalletAddress} (h : parseAddressHex s = .ok a) :
    Plain s := by
  unfold parseAddressHex at h
  split at h
  · rename_i rest
    cases hd : Hex.decode rest with
    | error e => simp [hd] at h
    | ok bytes =>
      have hp := Hex.decode_plain hd
      intro c hc
      simp only [List.mem_cons] at hc
      rcases hc with rfl | rfl | hc
      · decide
      · decide
      · exact hp c hc
  · cases hd : Hex.decode s with
    | error e => simp [hd] at h
    | ok bytes => exact Hex.decode_plain hd

end BinaChain.Transaction
