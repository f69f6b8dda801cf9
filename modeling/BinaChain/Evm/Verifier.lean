import BinaChain.Evm.Deauthorised
import BinaChain.Node.Store
import BinaChain.Support.HexWord

/-!
# Relayed outputs and their public verifier

The relay builds the submission of a block from what the node serves, the
contract stores its fields, and the verifier compares them with what the node
serves as texts and numbers. The relay caps the work at 64 and pads or cuts
texts of another width; the verifier does neither.
-/

set_option autoImplicit false

namespace BinaChain.Verifier
open BinaChain.Word BinaChain.Text BinaChain.Hex BinaChain.Abi BinaChain.Crypto BinaChain.Machine
open BinaChain.Store BinaChain.Oracle BinaChain.BinaOracle

/-- A number of a JSON text is a double: 53 significant bits, ties to even. -/
def jsNumber (n : ℕ) : ℕ :=
  if n < 0x20000000000000 then n
  else
    let unit := 2^(n.log2-52)
    let q := n/unit
    let rest := n%unit
    (if unit < 2*rest ∨ (unit = 2*rest ∧ q%2 = 1) then q+1 else q)*unit

structure Block where
  height : ℕ
  blockHash : Str
  randomnessOutput : Str
  nullifier : Str
  minerAddress : Str
  btcHeight : ℕ
  btcSeed : Str
  minedTimestampSecs : ℕ
  zeroBits : ℕ
  claimDigest : Str
  electionScore : Str
  deriving DecidableEq

def binaBlock (r : BlockRecord) : Block where
  height := jsNumber r.height
  blockHash := r.blockHash
  randomnessOutput := r.randomnessOutput
  nullifier := r.nullifier
  minerAddress := r.minerAddress
  btcHeight := jsNumber r.btcHeight
  btcSeed := r.btcSeed
  minedTimestampSecs := jsNumber r.minedTimestampSecs
  zeroBits := jsNumber r.zeroBits
  claimDigest := r.claimDigest
  electionScore := r.electionScore

/-- The tuple handed to `submitOutput`. -/
structure OutputArgs where
  height : ℕ
  blockHash : Str
  randomnessOutput : Str
  nullifier : Str
  binaMiner : Str
  btcHeight : ℕ
  btcSeed : Str
  minedTimestamp : ℕ
  workBits : ℕ
  claimDigest : Str
  electionScore : Str
  falconVerified : Bool

def stripHexPrefix : Str → Str
  | '0' :: 'x' :: rest => rest
  | s => s

def padStart (n : ℕ) (s : Str) : Str := List.replicate (n-s.length) '0'++s

def lastChars (n : ℕ) (s : Str) : Str := s.drop (s.length-n)

def h32 (s : Str) : Str := '0' :: 'x' :: padStart 64 (stripHexPrefix s)

def h20 (s : Str) : Str := '0' :: 'x' :: padStart 40 (lastChars 40 (stripHexPrefix s))

def buildBinaOutput (block : Block) : OutputArgs where
  height := block.height
  blockHash := h32 block.blockHash
  randomnessOutput := h32 block.randomnessOutput
  nullifier := h32 block.nullifier
  binaMiner := h20 block.minerAddress
  btcHeight := block.btcHeight
  btcSeed := h32 block.btcSeed
  minedTimestamp := block.minedTimestampSecs
  workBits := min block.zeroBits 64
  claimDigest := h32 block.claimDigest
  electionScore := h32 block.electionScore
  falconVerified := true

def bytesValue (n : ℕ) : Str → Option ℕ
  | '0' :: 'x' :: ds => if ds.length = 2*n then numeral ds else none
  | _ => none

/-- The output that the tuple denotes. The coder refuses a number that does not
fit its type and a text that is not the bytes of its type. -/
structure Encodes (args : OutputArgs) (o : BinaOutput) : Prop where
  height : o.height.toNat = args.height
  blockHash : bytesValue 32 args.blockHash = some o.blockHash.toNat
  randomnessOutput : bytesValue 32 args.randomnessOutput = some o.randomnessOutput.toNat
  nullifier : bytesValue 32 args.nullifier = some o.nullifier.toNat
  binaMiner : bytesValue 20 args.binaMiner = some o.binaMiner.toNat
  btcHeight : o.btcHeight.toNat = args.btcHeight
  btcSeed : bytesValue 32 args.btcSeed = some o.btcSeed.toNat
  minedTimestamp : o.minedTimestamp.toNat = args.minedTimestamp
  workBits : o.workBits.toNat = args.workBits
  claimDigest : bytesValue 32 args.claimDigest = some o.claimDigest.toNat
  electionScore : bytesValue 32 args.electionScore = some o.electionScore.toNat
  falconVerified : o.falconVerified = args.falconVerified

def relayCall (o : BinaOutput) (purpose : Bytes32) (proofURI : Str) : Call :=
  .submitOutput o purpose [] proofURI

def isLowerHex (c : Char) : Bool :=
  let n := c.toNat
  (48 ≤ n && n ≤ 57) || (97 ≤ n && n ≤ 102)

def hex32 (value : Str) : Option Str :=
  let clean := stripHexPrefix (toLowerCase value)
  if clean.length = 64 ∧ clean.all isLowerHex then some ('0' :: 'x' :: clean) else none

def bigInt (ds : Str) : Option ℕ := if ds = [] then none else numeral ds

def wordText (raw : Str) (i : ℕ) : Str := (raw.drop (i*64)).take 64

structure DecodedOutput where
  randomnessOutput : Str
  nullifier : Str
  binaMiner : Str
  height : ℕ
  btcHeight : ℕ
  minedTimestamp : ℕ
  workBits : ℕ
  falconVerified : Bool
  proofHash : Str
  attestationCount : ℕ
  publisher : Str

def decodeStoredOutput (hexResult : Str) : Option DecodedOutput :=
  let raw := stripHexPrefix hexResult
  if raw.length < 64*11 then none
  else do
    let height ← bigInt (wordText raw 3)
    let btcHeight ← bigInt (wordText raw 4)
    let minedTimestamp ← bigInt (wordText raw 5)
    let workBits ← bigInt (wordText raw 6)
    let falconVerified ← bigInt (wordText raw 7)
    let attestationCount ← bigInt (wordText raw 9)
    return {
      randomnessOutput := '0' :: 'x' :: wordText raw 0
      nullifier := '0' :: 'x' :: wordText raw 1
      binaMiner := '0' :: 'x' :: (wordText raw 2).take 40
      height, btcHeight, minedTimestamp, workBits
      falconVerified := falconVerified = 1
      proofHash := '0' :: 'x' :: wordText raw 8
      attestationCount
      publisher := '0' :: 'x' :: (wordText raw 10).drop 24 }

structure AttestationStatus where
  count : ℕ
  threshold : ℕ
  finalized : Bool

def decodeAttestationStatus (hexResult : Str) : Option AttestationStatus := do
  let raw := stripHexPrefix hexResult
  let count ← bigInt (wordText raw 0)
  let threshold ← bigInt (wordText raw 1)
  let finalized ← bigInt (wordText raw 2)
  return { count, threshold, finalized := finalized = 1 }

def attestationStatus (s : Registry) (blockHash : Bytes32) : List EvmWord :=
  [(s.attestations blockHash).count.setWidth 256, s.quorumThreshold.setWidth 256,
    if Finalised s blockHash then 1 else 0]

def ethCall (r : Except OracleError (List EvmWord)) : Option Str :=
  r.toOption.map fun ws => '0' :: 'x' :: encode (ws.flatMap wordBytes)

def checkText (onChain fromNode : Str) : Bool := toLowerCase onChain = toLowerCase fromNode

def checkNumber (onChain fromNode : ℕ) : Bool := onChain = fromNode

/-- Whether the verifier reports the block as verified; nothing when it fails. -/
def verifyOutput (s : Registry) (block : Block) : Option Bool := do
  let blockHash ← hex32 block.blockHash
  let key := BitVec.ofNat 256 (← numeral (blockHash.drop 2))
  let stored ← decodeStoredOutput
    (← ethCall ((getOutput s key).map StoredOutput.codec.encode))
  let status ← decodeAttestationStatus (← ethCall (.ok (attestationStatus s key)))
  let randomnessOutput ← hex32 block.randomnessOutput
  let nullifier ← hex32 block.nullifier
  let results :=
    [checkText stored.randomnessOutput randomnessOutput,
      checkText stored.nullifier nullifier,
      checkText stored.binaMiner ('0' :: 'x' :: stripHexPrefix (toLowerCase block.minerAddress)),
      checkNumber stored.height block.height,
      checkNumber stored.btcHeight block.btcHeight,
      checkNumber stored.minedTimestamp block.minedTimestampSecs,
      checkNumber stored.workBits block.zeroBits]
  return results.all id && status.finalized

theorem stripHexPrefix_cases (s : Str) :
    (∃ rest, s = '0' :: 'x' :: rest ∧ stripHexPrefix s = rest) ∨ stripHexPrefix s = s := by
  unfold stripHexPrefix
  split
  · exact Or.inl ⟨_, rfl, rfl⟩
  · exact Or.inr rfl

theorem stripHexPrefix_suffix (s : Str) : stripHexPrefix s <:+ s := by
  rcases stripHexPrefix_cases s with ⟨rest, rfl, h⟩ | h
  · rw [h]
    exact ⟨['0', 'x'], rfl⟩
  · rw [h]

theorem hexDigit_ne_x : ∀ n < 16, hexDigit n ≠ 'x' ∧ isLowerHex (hexDigit n) = true := by decide

theorem mem_digits {n m : ℕ} {c : Char} (h : c ∈ digits n m) :
    c ≠ 'x' ∧ isLowerHex c = true := by
  induction n generalizing m with
  | zero => simp [digits] at h
  | succ n ih =>
    rw [digits, List.mem_append, List.mem_singleton] at h
    rcases h with h | rfl
    · exact ih h
    · exact hexDigit_ne_x _ (Nat.mod_lt m (by decide))

theorem stripHexPrefix_digits (n m : ℕ) : stripHexPrefix (digits n m) = digits n m := by
  rcases stripHexPrefix_cases (digits n m) with ⟨rest, h, -⟩ | h
  · have hx : 'x' ∈ digits n m := by
      rw [h]
      exact List.mem_cons_of_mem _ List.mem_cons_self
    exact absurd rfl (mem_digits hx).1
  · exact h

theorem stripHexPrefix_lower {s : Str} {v : ℕ} (h : numeral (stripHexPrefix s) = some v) :
    stripHexPrefix (toLowerCase s) = digits (stripHexPrefix s).length v := by
  have hlower := (numeral_eq_some h).2
  rcases stripHexPrefix_cases s with ⟨rest, rfl, hs⟩ | hs
  · rw [hs] at hlower ⊢
    exact hlower
  · rw [hs] at hlower ⊢
    rw [hlower, stripHexPrefix_digits]

theorem stripHexPrefix_lower_length (s : Str) :
    (stripHexPrefix (toLowerCase s)).length ≤ (stripHexPrefix s).length := by
  rcases stripHexPrefix_cases s with ⟨rest, rfl, hs⟩ | hs
  · rw [hs]
    exact (toLowerCase_length rest).le
  · rw [hs, ← toLowerCase_length s]
    exact (stripHexPrefix_suffix _).length_le

theorem hex32_digits {s : Str} {v : ℕ} (h : numeral (stripHexPrefix s) = some v) :
    hex32 s =
      if (stripHexPrefix s).length = 64 then some ('0' :: 'x' :: digits 64 v) else none := by
  unfold hex32
  dsimp only
  rw [stripHexPrefix_lower h, digits_length]
  by_cases hlen : (stripHexPrefix s).length = 64
  · have hall : (digits 64 v).all isLowerHex = true :=
      List.all_eq_true.mpr fun c hc => (mem_digits hc).2
    rw [hlen, if_pos ⟨rfl, hall⟩, if_pos rfl]
  · rw [if_neg fun hc => hlen hc.1, if_neg hlen]

def FullWidth (n : ℕ) (s : Str) : Prop := (stripHexPrefix (toLowerCase s)).length = n

instance (n : ℕ) (s : Str) : Decidable (FullWidth n s) := inferInstanceAs (Decidable (_ = _))

theorem bytesValue_hex (n : ℕ) (ds : Str) :
    bytesValue n ('0' :: 'x' :: ds) = if ds.length = 2*n then numeral ds else none := rfl

theorem bytesValue_h32 {s : Str} {v : ℕ} (h : bytesValue 32 (h32 s) = some v) :
    numeral (stripHexPrefix s) = some v := by
  rw [h32, bytesValue_hex] at h
  split at h
  · rwa [padStart, numeral_pad] at h
  · simp at h

theorem hex32_h32 {s : Str} {v : ℕ} (h : bytesValue 32 (h32 s) = some v) :
    hex32 s = if FullWidth 64 s then some ('0' :: 'x' :: digits 64 v) else none := by
  have hn := bytesValue_h32 h
  have hw : FullWidth 64 s ↔ (stripHexPrefix s).length = 64 := by
    unfold FullWidth
    rw [stripHexPrefix_lower hn, digits_length]
  simp only [hex32_digits hn, hw]

theorem miner_digits_iff {s : Str} {v : ℕ} (h : bytesValue 20 (h20 s) = some v) :
    digits 40 v = stripHexPrefix (toLowerCase s) ↔ FullWidth 40 s := by
  rw [h20, bytesValue_hex] at h
  split at h
  · rename_i hlen
    constructor
    · intro heq
      rw [FullWidth, ← heq, digits_length]
    · intro hw
      have hlong : 40 ≤ (stripHexPrefix s).length := by
        rw [← hw]
        exact stripHexPrefix_lower_length s
      have hlast : (lastChars 40 (stripHexPrefix s)).length = 40 := by
        rw [lastChars, List.length_drop]
        omega
      rw [padStart, numeral_pad] at h
      have hlower := (numeral_eq_some h).2
      rw [hlast] at hlower
      rw [← hlower]
      have hsuffix : toLowerCase (lastChars 40 (stripHexPrefix s)) <:+ toLowerCase s :=
        ((List.drop_suffix _ _).trans (stripHexPrefix_suffix s)).map Char.toLower
      have hlen' : (toLowerCase (lastChars 40 (stripHexPrefix s))).length =
          (stripHexPrefix (toLowerCase s)).length := by
        rw [toLowerCase_length, hlast, hw]
      exact (List.suffix_of_suffix_length_le hsuffix (stripHexPrefix_suffix _)
        hlen'.le).eq_of_length hlen'
  · simp at h

theorem encode_words (ws : List EvmWord) :
    encode (ws.flatMap wordBytes) = ws.flatMap fun w => digits 64 w.toNat := by
  unfold encode
  rw [List.flatMap_assoc]
  apply List.flatMap_congr
  intro w _
  rw [wordBytes_eq]
  exact encode_leBytes 32 w.toNat

theorem wordText_words {ws : List EvmWord} {i : ℕ} {w : EvmWord} (h : ws[i]? = some w) :
    wordText (encode (ws.flatMap wordBytes)) i = digits 64 w.toNat := by
  rw [encode_words]
  induction ws generalizing i with
  | nil => simp at h
  | cons v ws ih =>
    unfold wordText
    rw [List.flatMap_cons]
    cases i with
    | zero =>
      obtain rfl := Option.some.inj h
      rw [Nat.zero_mul, List.drop_zero, List.take_left' (digits_length _ _)]
    | succ i =>
      rw [Nat.succ_mul, Nat.add_comm, ← List.drop_drop, List.drop_left' (digits_length _ _)]
      exact ih h

theorem words_length (ws : List EvmWord) :
    (encode (ws.flatMap wordBytes)).length = 64*ws.length := by
  rw [encode_words]
  induction ws with
  | nil => rfl
  | cons w ws ih =>
    rw [List.flatMap_cons, List.length_append, ih, digits_length, List.length_cons]
    omega

theorem numeral_word (w : EvmWord) : numeral (digits 64 w.toNat) = some w.toNat := by
  rw [numeral_digits]
  exact congrArg some (Nat.mod_eq_of_lt w.isLt)

theorem bigInt_word (w : EvmWord) : bigInt (digits 64 w.toNat) = some w.toNat := by
  have hne : digits 64 w.toNat ≠ [] := by
    intro h
    have hlen := digits_length 64 w.toNat
    rw [h] at hlen
    exact absurd hlen (by decide)
  rw [bigInt, if_neg hne, numeral_word]

theorem widened {n : ℕ} (hn : n ≤ 256) (v : BitVec n) : (v.setWidth 256).toNat = v.toNat :=
  BitVec.toNat_setWidth_of_le hn

theorem leading_digits (v : Bytes20) :
    (digits 64 (v.setWidth 256 <<< 96).toNat).take 40 = digits 40 v.toNat := by
  have hv := v.isLt
  have hshift : (v.setWidth 256 <<< 96).toNat/16^24 = v.toNat := by
    rw [BitVec.toNat_shiftLeft, widened (by decide), Nat.shiftLeft_eq]
    omega
  rw [show 64 = 40+24 from rfl, digits_append, hshift, List.take_left' (digits_length _ _)]

theorem trailing_digits (n : ℕ) : (digits 64 n).drop 24 = digits 40 n := by
  rw [show 64 = 24+40 from rfl, digits_append, List.drop_left' (digits_length _ _)]

def decodedOutput (o : StoredOutput) : DecodedOutput where
  randomnessOutput := '0' :: 'x' :: digits 64 o.randomnessOutput.toNat
  nullifier := '0' :: 'x' :: digits 64 o.nullifier.toNat
  binaMiner := '0' :: 'x' :: digits 40 o.binaMiner.toNat
  height := o.height.toNat
  btcHeight := o.btcHeight.toNat
  minedTimestamp := o.minedTimestamp.toNat
  workBits := o.workBits.toNat
  falconVerified := o.falconVerified
  proofHash := '0' :: 'x' :: digits 64 o.proofHash.toNat
  attestationCount := o.attestationCount.toNat
  publisher := '0' :: 'x' :: digits 40 o.publisher.toNat

theorem decode_stored (o : StoredOutput) :
    decodeStoredOutput ('0' :: 'x' :: encode ((StoredOutput.codec.encode o).flatMap wordBytes)) =
      some (decodedOutput o) := by
  have hfalcon : decide ((if o.falconVerified then 1 else 0 : EvmWord).toNat = 1) =
      o.falconVerified := by
    cases o.falconVerified <;> rfl
  have hstrip (raw : Str) : stripHexPrefix ('0' :: 'x' :: raw) = raw := rfl
  rw [StoredOutput.codec_words]
  generalize hws : [o.randomnessOutput, o.nullifier, _, _, _, _, _, _, _, _, _] = ws
  have hword {i : ℕ} {w : EvmWord} (h : ws[i]? = some w) := wordText_words h
  have hlong : ¬ (encode (ws.flatMap wordBytes)).length < 64*11 := by
    rw [words_length, ← hws]
    exact Nat.lt_irrefl _
  have hget (i : ℕ) := congrArg (·[i]?) hws.symm
  unfold decodeStoredOutput
  dsimp only
  rw [hstrip, if_neg hlong, hword (hget 0), hword (hget 1), hword (hget 2), hword (hget 3),
    hword (hget 4), hword (hget 5), hword (hget 6), hword (hget 7), hword (hget 8),
    hword (hget 9), hword (hget 10)]
  simp only [bigInt_word, bind, Option.bind, pure, leading_digits, trailing_digits, hfalcon]
  simp only [widened (show 8 ≤ 256 by decide), widened (show 32 ≤ 256 by decide),
    widened (show 64 ≤ 256 by decide), widened (show 160 ≤ 256 by decide), decodedOutput]

theorem decode_status {s : Registry} {blockHash : Bytes32} (hf : Finalised s blockHash) :
    decodeAttestationStatus
        ('0' :: 'x' :: encode ((attestationStatus s blockHash).flatMap wordBytes)) =
      some { count := (s.attestations blockHash).count.toNat,
             threshold := s.quorumThreshold.toNat, finalized := true } := by
  have hstrip (raw : Str) : stripHexPrefix ('0' :: 'x' :: raw) = raw := rfl
  have hone : decide ((1 : EvmWord).toNat = 1) = true := rfl
  have hwords : attestationStatus s blockHash =
      [(s.attestations blockHash).count.setWidth 256, s.quorumThreshold.setWidth 256, 1] := by
    rw [attestationStatus, if_pos hf]
  generalize attestationStatus s blockHash = ws at hwords ⊢
  have hword {i : ℕ} {w : EvmWord} (h : ws[i]? = some w) := wordText_words h
  have hget (i : ℕ) := congrArg (·[i]?) hwords
  unfold decodeAttestationStatus
  dsimp only
  rw [hstrip, hword (hget 0), hword (hget 1), hword (hget 2)]
  simp only [bigInt_word, bind, Option.bind, pure, hone]
  simp only [widened (show 32 ≤ 256 by decide)]

/-- No submission of the schedule shares its fingerprint with another output. -/
def Uncollided (K : Primitives) (o : BinaOutput) (purposes : List Bytes32)
    (es : List (Msg × Call)) : Prop :=
  ∀ e ∈ es, ∀ x, e.2.submission = some x → keccak K (packed x.output x.purposes) =
    keccak K (packed o purposes) → packed x.output x.purposes = packed o purposes

/-- The block waits for more attestations of this output, or the output is stored. -/
def Settles (K : Primitives) (o : BinaOutput) (purposes : List Bytes32) (s : Registry) : Prop :=
  (¬ Finalised s o.blockHash ∧ (s.attestations o.blockHash).count ≠ 0 ∧
    (s.attestations o.blockHash).fingerprint = fingerprint K o purposes) ∨
  ∃ m bundle count, s.outputsByBlockHash o.blockHash = storedOutput K m o bundle count

theorem settles_submitted {K : Primitives} {m : Msg} {x : Submission} {s s' : Registry}
    (hacc : Accepted K m s x)
    (h : ¬ Completes s x ∧ s' = attested K m x s ∨
      Completes s x ∧ Current K s x.output x.purposes ∧
        s' = finalize K m x ((s.attestations x.output.blockHash).count+1) (attested K m x s)) :
    Settles K x.output x.purposes s' := by
  rcases h with ⟨-, rfl⟩ | ⟨-, -, rfl⟩
  · have hcount : (s.attestations x.output.blockHash).count+1 ≠ 0 := by
      intro hzero
      have hsucc := count_succ hacc.room
      rw [hzero] at hsucc
      exact absurd hsucc (Nat.succ_ne_zero _).symm
    refine Or.inl ⟨hacc.fresh, ?_, ?_⟩
    · simpa [attested] using hcount
    · simp [attested]
  · refine Or.inr ⟨m, x.proofBundle, (s.attestations x.output.blockHash).count+1, ?_⟩
    rw [finalize_outputs, Function.update_self]

theorem Settles.step {K : Primitives} {o : BinaOutput} {purposes : List Bytes32} {m : Msg}
    {c : Call} {s s' : Registry} (ho : o.randomnessOutput ≠ 0) (h : Settles K o purposes s)
    (hcoll : Uncollided K o purposes [(m, c)]) (hs : Oracle.step K s (m, c) = some s') :
    Settles K o purposes s' := by
  rcases h with ⟨hopen, hcount, hprint⟩ | ⟨m', bundle, count, hstored⟩
  · rcases call_cases (step_ok.mp hs) with ⟨-, _, _, _, _, rfl⟩ | ⟨x, hx, -, -, hattest⟩
    · exact Or.inl ⟨hopen, hcount, hprint⟩
    · obtain ⟨hacc, hout⟩ := attest_ok.mp hattest
      by_cases hb : x.output.blockHash = o.blockHash
      · have hfp : fingerprint K x.output x.purposes = fingerprint K o purposes := by
          rw [← hprint, ← hb]
          exact (hacc.agrees (by rwa [hb])).symm
        obtain ⟨rfl, rfl⟩ := packed_injective (hcoll _ List.mem_cons_self x hx hfp)
        exact settles_submitted hacc hout
      · have hb' : o.blockHash ≠ x.output.blockHash := fun e => hb e.symm
        left
        rcases hout with ⟨-, rfl⟩ | ⟨-, -, rfl⟩
        · unfold attested
          dsimp only
          rw [Function.update_of_ne hb']
          exact ⟨hopen, hcount, hprint⟩
        · obtain ⟨hatt, -⟩ := finalize_attestations (K := K) (m := m) (x := x)
            (s := attested K m x s) ((s.attestations x.output.blockHash).count+1)
          rw [hatt, finalize_finalised (valid_fields hacc.valid).1]
          unfold attested
          dsimp only
          rw [Function.update_of_ne hb']
          exact ⟨fun hf => hf.elim hb' hopen, hcount, hprint⟩
  · right
    rcases step_outputs hs o.blockHash with hsame | ⟨hfresh, -⟩
    · exact ⟨m', bundle, count, hsame.trans hstored⟩
    · unfold Finalised at hfresh
      rw [hstored] at hfresh
      exact absurd ho hfresh

theorem Settles.run {K : Primitives} {o : BinaOutput} {purposes : List Bytes32}
    {es : List (Msg × Call)} {s t : Registry} (ho : o.randomnessOutput ≠ 0)
    (h : Settles K o purposes s) (hcoll : Uncollided K o purposes es)
    (hrun : exec (Oracle.step K) s es = some t) : Settles K o purposes t := by
  induction es generalizing s with
  | nil =>
    obtain rfl := Option.some.inj hrun
    exact h
  | cons e es ih =>
    obtain ⟨u, hu, ht⟩ := Option.bind_eq_some_iff.mp hrun
    have hfirst : Uncollided K o purposes [e] := fun e' he =>
      hcoll e' (List.mem_cons.mpr (Or.inl (List.mem_singleton.mp he)))
    exact ih (h.step ho hfirst hu) (fun e' he => hcoll e' (List.mem_cons_of_mem _ he)) ht

theorem relayed_stored {K : Primitives} {s s' t : Registry} {m : Msg} {o : BinaOutput}
    {purpose : Bytes32} {proofURI : Str} {es : List (Msg × Call)}
    (hs : Oracle.step K s (m, relayCall o purpose proofURI) = some s')
    (hrun : exec (Oracle.step K) s' es = some t) (hcoll : Uncollided K o [purpose] es)
    (hfin : Finalised t o.blockHash) :
    ∃ m' bundle count, t.outputsByBlockHash o.blockHash = storedOutput K m' o bundle count := by
  rcases call_cases (step_ok.mp hs) with ⟨hnone, -⟩ | ⟨x, hx, -, -, hattest⟩
  · simp [relayCall, Call.submission] at hnone
  · obtain rfl := Option.some.inj hx
    obtain ⟨hacc, hout⟩ := attest_ok.mp hattest
    have hstart : Settles K o [purpose] s' := settles_submitted hacc hout
    have hlast := hstart.run (valid_fields hacc.valid).1 hcoll hrun
    exact hlast.resolve_left fun hopen => hopen.1 hfin

theorem jsNumber_le_cap (n : ℕ) : jsNumber n ≤ 64 ↔ n ≤ 64 := by
  unfold jsNumber
  dsimp only
  split
  · exact Iff.rfl
  · rename_i hn
    have hbits : 53 ≤ n.log2 := by
      rw [Nat.le_log2 (by omega)]
      exact Nat.not_lt.mp hn
    have hself : 2^52*2^(n.log2-52) ≤ n := by
      rw [← Nat.pow_add, show 52+(n.log2-52) = n.log2 by omega]
      exact Nat.log2_self_le (by omega)
    have hunit : 0 < 2^(n.log2-52) := Nat.two_pow_pos _
    have hq : 2^52 ≤ n/2^(n.log2-52) := (Nat.le_div_iff_mul_le hunit).mpr hself
    have hround : 2^52 ≤ (if 2^(n.log2-52) < 2*(n%2^(n.log2-52)) ∨
        (2^(n.log2-52) = 2*(n%2^(n.log2-52)) ∧ n/2^(n.log2-52)%2 = 1)
        then n/2^(n.log2-52)+1 else n/2^(n.log2-52))*2^(n.log2-52) := by
      apply Nat.le_mul_of_pos_right _ hunit |>.trans'
      split <;> omega
    omega

/-- The work is below the cap and every text has the width of its type. -/
structure Verifiable (r : BlockRecord) : Prop where
  zeroBits : r.zeroBits ≤ 64
  blockHash : FullWidth 64 r.blockHash
  randomnessOutput : FullWidth 64 r.randomnessOutput
  nullifier : FullWidth 64 r.nullifier
  minerAddress : FullWidth 40 r.minerAddress

theorem checkText_self (s : Str) : checkText s s = true := decide_eq_true rfl

theorem checkText_miner {s : Str} {v : ℕ} (h : bytesValue 20 (h20 s) = some v) :
    checkText ('0' :: 'x' :: digits 40 v) ('0' :: 'x' :: stripHexPrefix (toLowerCase s)) = true ↔
      FullWidth 40 s := by
  constructor
  · intro hcheck
    have hlen := congrArg List.length (of_decide_eq_true hcheck)
    simpa [FullWidth] using hlen.symm
  · intro hw
    rw [← (miner_digits_iff h).mpr hw]
    exact checkText_self _

theorem verifyOutput_stored {K : Primitives} {t : Registry} {m : Msg} {b : Block}
    {o : BinaOutput} {bundle : Bytes} {count : BitVec 32} (henc : Encodes (buildBinaOutput b) o)
    (hstored : t.outputsByBlockHash o.blockHash = storedOutput K m o bundle count)
    (hfin : Finalised t o.blockHash) (hwidth : FullWidth 64 b.blockHash) :
    verifyOutput t b = some true ↔ b.zeroBits ≤ 64 ∧ FullWidth 64 b.randomnessOutput ∧
      FullWidth 64 b.nullifier ∧ FullWidth 40 b.minerAddress := by
  have hkey : BitVec.ofNat 256 o.blockHash.toNat = o.blockHash := by simp
  have hget : getOutput t o.blockHash = .ok (storedOutput K m o bundle count) := by
    rw [← hstored]
    exact if_neg hfin
  have hcall (ws : List EvmWord) :
      ethCall (.ok ws) = some ('0' :: 'x' :: encode (ws.flatMap wordBytes)) := rfl
  have hwork : checkNumber o.workBits.toNat b.zeroBits = true ↔ b.zeroBits ≤ 64 := by
    rw [checkNumber, decide_eq_true_iff, henc.workBits]
    exact min_eq_left_iff
  have hheight : checkNumber o.height.toNat b.height = true := decide_eq_true henc.height
  have hbtc : checkNumber o.btcHeight.toNat b.btcHeight = true := decide_eq_true henc.btcHeight
  have hmined : checkNumber o.minedTimestamp.toNat b.minedTimestampSecs = true :=
    decide_eq_true henc.minedTimestamp
  have hdrop (ds : Str) : ('0' :: 'x' :: ds).drop 2 = ds := rfl
  unfold verifyOutput
  rw [hex32_h32 henc.blockHash, hex32_h32 henc.randomnessOutput, hex32_h32 henc.nullifier,
    if_pos hwidth]
  simp only [bind, Option.bind, hdrop, numeral_word, hkey, hget, Except.map, hcall,
    decode_stored, decode_status hfin]
  by_cases hr : FullWidth 64 b.randomnessOutput
  · by_cases hn : FullWidth 64 b.nullifier
    · rw [if_pos hr, if_pos hn]
      simp only [pure, Option.some.injEq, decodedOutput, storedOutput, List.all_cons, List.all_nil,
        id, checkText_self, hheight, hbtc, hmined, Bool.and_true, Bool.true_and,
        Bool.and_eq_true, checkText_miner henc.binaMiner, hwork, hr, hn, true_and]
      exact And.comm
    · rw [if_pos hr, if_neg hn]
      simp [hn]
  · rw [if_neg hr]
    simp [hr]

/-- A block whose output the relay submitted, and the contract finalised, is
reported as verified exactly when its work is within the cap and its texts have
the width of their types. -/
theorem relayed_output_verified_iff {K : Primitives} {s s' t : Registry} {m : Msg}
    {r : BlockRecord} {o : BinaOutput} {purpose : Bytes32} {proofURI : Str}
    {es : List (Msg × Call)} (henc : Encodes (buildBinaOutput (binaBlock r)) o)
    (hs : Oracle.step K s (m, relayCall o purpose proofURI) = some s')
    (hrun : exec (Oracle.step K) s' es = some t) (hcoll : Uncollided K o [purpose] es)
    (hfin : Finalised t o.blockHash) :
    verifyOutput t (binaBlock r) = some true ↔ Verifiable r := by
  obtain ⟨m', bundle, count, hstored⟩ := relayed_stored hs hrun hcoll hfin
  by_cases hb : FullWidth 64 r.blockHash
  · rw [verifyOutput_stored henc hstored hfin hb]
    constructor
    · rintro ⟨hz, hr, hn, hm⟩
      exact ⟨(jsNumber_le_cap _).mp hz, hb, hr, hn, hm⟩
    · intro h
      exact ⟨(jsNumber_le_cap _).mpr h.zeroBits, h.randomnessOutput, h.nullifier, h.minerAddress⟩
  · have hnone : hex32 (binaBlock r).blockHash = none := by
      rw [hex32_h32 henc.blockHash]
      exact if_neg hb
    constructor
    · intro h
      simp [verifyOutput, hnone] at h
    · intro h
      exact absurd h.blockHash hb

def toyServed (zeroBits : ℕ) : BlockRecord where
  height := 1
  blockHash := digits 64 7
  prevHash := digits 64 0
  nonce := 0
  timestamp := 0
  minedTimestampSecs := 0
  zeroBits
  difficultyBits := 22
  hashesTried := 0
  elapsedMs := 0
  minerAddress := digits 40 4
  minerPublicKey := []
  minerSignature := []
  claimDigest := digits 64 6
  electionScore := digits 64 8
  source := []
  rewardBina := 0
  randomnessOutput := digits 64 2
  nullifier := digits 64 3
  btcSeed := digits 64 5
  btcHeight := 9
  merkleRoot := []
  stateRoot := []
  chainWorkHex := []
  transactions := []

def toyRelayed (workBits : BitVec 8) : BinaOutput :=
  { height := 1, blockHash := 7, randomnessOutput := 2, nullifier := 3, binaMiner := 4,
    btcHeight := 9, btcSeed := 5, minedTimestamp := 0, workBits, claimDigest := 6,
    electionScore := 8, falconVerified := true }

def toySubmitted (workBits : BitVec 8) : Option Registry :=
  Oracle.step toyPrimitives (Oracle.deploy 1 0)
    ({ sender := 1, timestamp := 0 }, relayCall (toyRelayed workBits) 0 [])

theorem toyTexts : (∀ n < 9, bytesValue 32 (h32 (digits 64 n)) = some n) ∧
    bytesValue 20 (h20 (digits 40 4)) = some 4 := by decide +kernel

theorem toyServed_encodes {zeroBits : ℕ} {workBits : BitVec 8} (hz : jsNumber zeroBits = zeroBits)
    (hw : workBits.toNat = min zeroBits 64) :
    Encodes (buildBinaOutput (binaBlock (toyServed zeroBits))) (toyRelayed workBits) where
  height := rfl
  blockHash := toyTexts.1 7 (by decide)
  randomnessOutput := toyTexts.1 2 (by decide)
  nullifier := toyTexts.1 3 (by decide)
  binaMiner := toyTexts.2
  btcHeight := rfl
  btcSeed := toyTexts.1 5 (by decide)
  minedTimestamp := rfl
  workBits := by
    change workBits.toNat = min (jsNumber zeroBits) 64
    rw [hz, hw]
  claimDigest := toyTexts.1 6 (by decide)
  electionScore := toyTexts.1 8 (by decide)
  falconVerified := rfl

theorem relayed_output_verified_toy : ∃ t, toySubmitted 64 = some t ∧
    verifyOutput t (binaBlock (toyServed 64)) = some true := by
  have hrun : (toySubmitted 64).any fun t => decide (Finalised t 7) := by decide +kernel
  obtain ⟨t, ht, hfin⟩ := (Option.any_eq_true _ _).mp hrun
  have hok : Verifiable (toyServed 64) :=
    ⟨by decide, by decide +kernel, by decide +kernel, by decide +kernel, by decide +kernel⟩
  have hnone : Uncollided toyPrimitives (toyRelayed 64) [0] [] :=
    fun e he => absurd he List.not_mem_nil
  exact ⟨t, ht, (relayed_output_verified_iff (toyServed_encodes rfl rfl) ht rfl hnone
    (of_decide_eq_true hfin)).mpr hok⟩

theorem capped_work_rejected : ∃ t,
    Encodes (buildBinaOutput (binaBlock (toyServed 65))) (toyRelayed 64) ∧
    toySubmitted 64 = some t ∧ Finalised t (toyRelayed 64).blockHash ∧
    verifyOutput t (binaBlock (toyServed 65)) = some false := by
  have hrun : (toySubmitted 64).any fun t => decide (Finalised t 7) &&
      decide (verifyOutput t (binaBlock (toyServed 65)) = some false) := by decide +kernel
  obtain ⟨t, ht, hb⟩ := (Option.any_eq_true _ _).mp hrun
  rw [Bool.and_eq_true, decide_eq_true_iff, decide_eq_true_iff] at hb
  exact ⟨t, toyServed_encodes rfl rfl, ht, hb.1, hb.2⟩

end BinaChain.Verifier
