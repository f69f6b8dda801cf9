import BinaChain.Support.Hex
import Mathlib.Data.Int.Notation

/-!
# Hybrid wallet keys over abstract primitives

The hash functions, the two signature schemes and the logarithm of the
difficulty retarget come from outside the repository and are parameters. The
byte layouts around them are the repository's own.
-/

set_option autoImplicit false

namespace BinaChain.Crypto
open BinaChain.Word BinaChain.Text

abbrev Hash := Vector UInt8 32

instance : Std.TransOrd Hash := Vector.instTransOrd

abbrev WalletAddress := Vector UInt8 20

/-- Code the repository calls and does not contain. -/
structure Primitives where
  blake3 : Bytes → Hash
  keccak256 : Bytes → Hash
  /-- `VerifyingKey::from_bytes` on 32 bytes. -/
  ed25519Key : Bytes → Except String Unit
  /-- Key, message, signature. -/
  ed25519Verify : Bytes → Bytes → Bytes → Except String Unit
  falconKey : Bytes → Except String Unit
  falconSignature : Bytes → Except String Unit
  falconVerify : Bytes → Bytes → Bytes → Except String Unit
  /-- `(-(actual as f64 / target as f64).log2()).round() as i32`. -/
  negLog2Round : ℕ → ℕ → ℤ

def utf8 (s : String) : Bytes := s.toUTF8.data.toList

def strBytes (s : Str) : Bytes := s.flatMap String.utf8EncodeChar

def zeroHash : Hash := Vector.replicate 32 0

def truncate (h : Hash) : WalletAddress := Vector.ofFn fun i => h[i.val]

def CollisionFree (K : Primitives) (inputs : List Bytes) : Prop :=
  ∀ x ∈ inputs, ∀ y ∈ inputs, K.blake3 x = K.blake3 y → x = y

instance (K : Primitives) (inputs : List Bytes) : Decidable (CollisionFree K inputs) :=
  inferInstanceAs (Decidable (∀ x ∈ inputs, ∀ y ∈ inputs, K.blake3 x = K.blake3 y → x = y))

def falconPkBytes : ℕ := 897

def addrTag : Bytes := utf8 "BINA-ADDR-v1"

structure WalletPublicKey where
  ed25519 : Bytes
  falcon : Bytes
  deriving DecidableEq

def WalletPublicKey.address (K : Primitives) (pk : WalletPublicKey) : WalletAddress :=
  truncate (K.blake3 (addrTag++pk.ed25519++pk.falcon))

def WalletPublicKey.fromBytes (K : Primitives) (b : Bytes) : Except String WalletPublicKey :=
  let expected := 32+falconPkBytes
  if b.length ≠ expected then
    .error s!"WalletPublicKey: expected {expected} bytes, got {b.length}"
  else do
    (K.ed25519Key (b.take 32)).mapError fun e => s!"Ed25519 public key invalid: {e}"
    (K.falconKey (b.drop 32)).mapError fun _ => "Falcon-512 public key invalid"
    pure { ed25519 := b.take 32, falcon := b.drop 32 }

structure HybridSignature where
  ed25519 : Bytes
  falcon : Bytes
  deriving DecidableEq

/-- Layout: `u16_le(falcon_len) ‖ 64 (ed25519) ‖ falcon_bytes`. -/
def HybridSignature.toBytes (s : HybridSignature) : Bytes :=
  leBytes 2 s.falcon.length++s.ed25519++s.falcon

/-- Bytes after the declared Falcon length are ignored. -/
def HybridSignature.fromBytes (b : Bytes) : Except String HybridSignature :=
  if b.length < 2+64 then .error s!"HybridSignature too short ({b.length} bytes)"
  else
    let flen := (b.getD 0 0).toNat+256*(b.getD 1 0).toNat
    if b.length < 2+64+flen then
      .error s!"HybridSignature truncated (declared falcon len = {flen})"
    else .ok { ed25519 := (b.drop 2).take 64, falcon := (b.drop 66).take flen }

/-- Both signatures must pass, the classical one first. -/
def WalletPublicKey.verify (K : Primitives) (pk : WalletPublicKey) (msg : Bytes)
    (sig : HybridSignature) : Except String Unit := do
  (K.ed25519Verify pk.ed25519 msg sig.ed25519).mapError
    fun e => s!"Ed25519 verification failed: {e}"
  (K.falconSignature sig.falcon).mapError fun _ => "Falcon-512 signature bytes invalid"
  (K.falconVerify pk.falcon msg sig.falcon).mapError fun _ => "Falcon-512 verification failed"

structure HybridSignature.Sized (s : HybridSignature) : Prop where
  ed25519 : s.ed25519.length = 64
  falcon : s.falcon.length < 65536

theorem leBytes_two (n : ℕ) : leBytes 2 n = [UInt8.ofNat n, UInt8.ofNat (n/256)] := by
  rw [leBytes_succ, leBytes_succ]
  rfl

theorem HybridSignature.fromBytes_append {s : HybridSignature} (h : s.Sized) (rest : Bytes) :
    fromBytes (s.toBytes++rest) = .ok s := by
  obtain ⟨ed25519, falcon⟩ := s
  obtain ⟨hed, hfal⟩ := h
  dsimp only at hed hfal
  have hlow : (UInt8.ofNat falcon.length).toNat+256*(UInt8.ofNat (falcon.length/256)).toNat =
      falcon.length := by
    rw [UInt8.toNat_ofNat', UInt8.toNat_ofNat']
    omega
  have hbytes : toBytes ⟨ed25519, falcon⟩++rest = UInt8.ofNat falcon.length ::
      UInt8.ofNat (falcon.length/256) :: (ed25519++(falcon++rest)) := by
    simp [toBytes, leBytes_two]
  rw [hbytes]
  unfold fromBytes
  simp only [List.getD_cons_zero, List.getD_cons_succ, hlow]
  rw [if_neg (by simp; omega), if_neg (by simp; omega)]
  simp [List.drop_append, hed]

/-- What decodes is the encoding of what it decodes to, up to the ignored bytes. -/
theorem HybridSignature.fromBytes_iff {b : Bytes} {s : HybridSignature} :
    fromBytes b = .ok s ↔ s.Sized ∧ ∃ rest, b = s.toBytes++rest := by
  constructor
  · intro h
    match b, h with
    | [], h => simp [fromBytes] at h
    | [_], h => simp [fromBytes] at h
    | b₀ :: b₁ :: body, h =>
      unfold fromBytes at h
      simp only [List.getD_cons_zero, List.getD_cons_succ, List.length_cons] at h
      split at h
      · simp at h
      · split at h
        · simp at h
        · rename_i hshort hlong
          obtain rfl := Except.ok.inj h
          have h₀ : b₀.toNat < 256 := b₀.toNat_lt
          have h₁ : b₁.toNat < 256 := b₁.toNat_lt
          have hlen : ((body.drop 64).take (b₀.toNat+256*b₁.toNat)).length =
              b₀.toNat+256*b₁.toNat := by
            rw [List.length_take, List.length_drop]
            omega
          refine ⟨⟨?_, ?_⟩, (body.drop 64).drop (b₀.toNat+256*b₁.toNat), ?_⟩
          · simp
            omega
          · show ((body.drop 64).take (b₀.toNat+256*b₁.toNat)).length < 65536
            omega
          · show b₀ :: b₁ :: body = toBytes ⟨body.take 64,
              (body.drop 64).take (b₀.toNat+256*b₁.toNat)⟩++_
            have hb₀ : UInt8.ofNat (b₀.toNat+256*b₁.toNat) = b₀ := by
              apply UInt8.toNat_inj.mp
              rw [UInt8.toNat_ofNat']
              omega
            have hb₁ : UInt8.ofNat ((b₀.toNat+256*b₁.toNat)/256) = b₁ := by
              apply UInt8.toNat_inj.mp
              rw [UInt8.toNat_ofNat']
              omega
            simp only [toBytes, leBytes_two, hlen, hb₀, hb₁, List.append_assoc,
              List.take_append_drop, List.cons_append, List.nil_append]
  · rintro ⟨hs, rest, rfl⟩
    exact fromBytes_append hs rest

def toyDigest (b : Bytes) : Hash :=
  let n := b.foldl (fun acc x => (acc*257+x.toNat+1)%((1 <<< 200)-75)) 7
  Vector.ofFn fun i => if i.val < 7 then 0 else UInt8.ofNat (n >>> (8*(i.val-7)))

/-- An instance for evaluation: a signature repeats the message, the classical
one followed by its key. -/
def toyPrimitives : Primitives where
  blake3 := toyDigest
  keccak256 b := toyDigest (0x4b :: b)
  ed25519Key _ := .ok ()
  ed25519Verify key msg sig := if sig = msg++key then .ok () else .error "signature error"
  falconKey _ := .ok ()
  falconSignature _ := .ok ()
  falconVerify _ msg sig := if sig = msg then .ok () else .error "verification failed"
  negLog2Round _ _ := 0

end BinaChain.Crypto
