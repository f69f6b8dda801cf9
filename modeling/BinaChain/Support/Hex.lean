import BinaChain.Support.Text

/-!
# Hexadecimal text and fixed-size byte arrays

Encoding writes lowercase digits. Decoding accepts both cases, so a decoded
value does not determine the text it came from.
-/

set_option autoImplicit false

namespace BinaChain.Hex
open BinaChain.Word BinaChain.Text

def hexDigit (n : ℕ) : Char := Char.ofNat (if n < 10 then 48+n else 87+n)

def encodeByte (b : UInt8) : Str := [hexDigit (b.toNat/16), hexDigit (b.toNat%16)]

def encode (bs : Bytes) : Str := bs.flatMap encodeByte

def hexValue (c : Char) : Option ℕ :=
  let n := c.toNat
  if 48 ≤ n ∧ n ≤ 57 then some (n-48)
  else if 97 ≤ n ∧ n ≤ 102 then some (n-87)
  else if 65 ≤ n ∧ n ≤ 70 then some (n-55)
  else none

def invalidCharacter (c : Char) (index : ℕ) : String :=
  "Invalid character " ++ c.quote ++ " at position " ++ toString index

def decodeFrom : ℕ → Str → Except String Bytes
  | _, [] => .ok []
  | _, [_] => .error "Odd number of digits"
  | i, a :: b :: rest =>
    match hexValue a, hexValue b with
    | some x, some y => (decodeFrom (i+2) rest).map (UInt8.ofNat (16*x+y) :: ·)
    | none, _ => .error (invalidCharacter a i)
    | _, none => .error (invalidCharacter b (i+1))

/-- The bytes of a text, each as the character of its number. -/
def byteChars (s : Str) : Str :=
  s.flatMap fun c =>
    if c.toNat < 128 then [c] else (String.utf8EncodeChar c).map fun b => Char.ofNat b.toNat

/-- `hex::decode`: the length is checked before any digit. -/
def decode (s : Str) : Except String Bytes :=
  let bytes := byteChars s
  if bytes.length%2 ≠ 0 then .error "Odd number of digits" else decodeFrom 0 bytes

def fixed (n : ℕ) (bs : Bytes) : Option (Vector UInt8 n) :=
  if h : bs.length = n then some ⟨bs.toArray, by simpa using h⟩ else none

@[simp] theorem fixed_toList {n : ℕ} (v : Vector UInt8 n) : fixed n v.toList = some v := by
  unfold fixed
  rw [dif_pos (by simp)]
  rfl

theorem fixed_length {n : ℕ} {bs : Bytes} {v : Vector UInt8 n} (h : fixed n bs = some v) :
    v.toList = bs := by
  unfold fixed at h
  split at h
  · obtain rfl := Option.some.inj h
    simp [Vector.toList]
  · simp at h

theorem hexValue_hexDigit : ∀ n < 16, hexValue (hexDigit n) = some n := by decide

theorem hexDigit_ascii : ∀ n < 16, (hexDigit n).toNat < 128 := by decide

theorem hexDigit_plain : ∀ n < 16, isWhitespace (hexDigit n) = false ∧ hexDigit n ≠ ',' := by
  decide

theorem byte_halves (b : UInt8) : b.toNat/16 < 16 ∧ b.toNat%16 < 16 ∧
    UInt8.ofNat (16*(b.toNat/16)+b.toNat%16) = b := by
  have hb : b.toNat < 256 := b.toNat_lt
  refine ⟨by omega, by omega, ?_⟩
  rw [Nat.div_add_mod]
  simp

theorem encode_length (bs : Bytes) : (encode bs).length = 2*bs.length := by
  induction bs with
  | nil => rfl
  | cons b bs ih =>
    simp only [encode, List.flatMap_cons, List.length_append, List.length_cons] at ih ⊢
    rw [ih]
    simp [encodeByte]
    omega

theorem decodeFrom_encode (bs : Bytes) (i : ℕ) : decodeFrom i (encode bs) = .ok bs := by
  induction bs generalizing i with
  | nil => rfl
  | cons b bs ih =>
    obtain ⟨hhi, hlo, hb⟩ := byte_halves b
    have he : encode (b :: bs) =
        hexDigit (b.toNat/16) :: hexDigit (b.toNat%16) :: encode bs := rfl
    rw [he, decodeFrom, hexValue_hexDigit _ hhi, hexValue_hexDigit _ hlo]
    simp only [ih, hb]
    rfl

theorem byteChars_ascii {s : Str} (h : ∀ c ∈ s, c.toNat < 128) : byteChars s = s := by
  induction s with
  | nil => rfl
  | cons c s ih =>
    have hs := ih fun d hd => h d (List.mem_cons_of_mem _ hd)
    unfold byteChars at hs ⊢
    rw [List.flatMap_cons, if_pos (h c List.mem_cons_self), hs]
    rfl

theorem encode_ascii {bs : Bytes} {c : Char} (h : c ∈ encode bs) : c.toNat < 128 := by
  obtain ⟨b, -, hb⟩ := List.mem_flatMap.mp h
  obtain ⟨hhi, hlo, -⟩ := byte_halves b
  rcases List.mem_pair.mp hb with rfl | rfl
  · exact hexDigit_ascii _ hhi
  · exact hexDigit_ascii _ hlo

@[simp] theorem decode_encode (bs : Bytes) : decode (encode bs) = .ok bs := by
  unfold decode
  rw [byteChars_ascii fun _ => encode_ascii]
  dsimp only
  rw [if_neg (by rw [encode_length]; omega), decodeFrom_encode]

theorem encode_injective {as bs : Bytes} (h : encode as = encode bs) : as = bs := by
  have hd := congrArg decode h
  simpa using hd

theorem encode_plain (bs : Bytes) : Plain (encode bs) := by
  intro c hc
  obtain ⟨b, -, hb⟩ := List.mem_flatMap.mp hc
  obtain ⟨hhi, hlo, -⟩ := byte_halves b
  rcases List.mem_pair.mp hb with rfl | rfl
  · exact hexDigit_plain _ hhi
  · exact hexDigit_plain _ hlo

theorem hexValue_plain {c : Char} (h : (hexValue c).isSome) :
    isWhitespace c = false ∧ c ≠ ',' := by
  have hcomma : hexValue ',' = none := by decide
  refine ⟨?_, by rintro rfl; simp [hcomma] at h⟩
  simp only [hexValue] at h
  split at h
  · simp [isWhitespace]; omega
  split at h
  · simp [isWhitespace]; omega
  split at h
  · simp [isWhitespace]; omega
  · simp at h

theorem decodeFrom_digits : ∀ {s : Str} {i : ℕ} {bs : Bytes},
    decodeFrom i s = .ok bs → ∀ c ∈ s, (hexValue c).isSome
  | [], _, _, _ => by simp
  | [_], _, _, h => by simp [decodeFrom] at h
  | a :: b :: rest, i, bs, h => by
    rw [decodeFrom] at h
    cases ha : hexValue a with
    | none => simp [ha] at h
    | some x =>
      cases hb : hexValue b with
      | none => simp [ha, hb] at h
      | some y =>
        simp only [ha, hb] at h
        cases hr : decodeFrom (i+2) rest with
        | error e => simp [hr, Except.map] at h
        | ok tail =>
          intro c hc
          rcases List.mem_cons.mp hc with rfl | hc
          · simp [ha]
          rcases List.mem_cons.mp hc with rfl | hc
          · simp [hb]
          · exact decodeFrom_digits hr c hc

theorem byteChars_beyond {c : Char} (h : ¬ c.toNat < 128) :
    ∃ d ∈ (String.utf8EncodeChar c).map fun b => Char.ofNat b.toNat, hexValue d = none := by
  have hnone : ∀ n < 256, 128 ≤ n → hexValue (Char.ofNat n) = none := by
    intro n hn hbig
    have hval : (Char.ofNat n).toNat = n := by
      have hvalid : n.isValidChar := Or.inl (by omega)
      rw [Char.ofNat, dif_pos hvalid]
      rfl
    unfold hexValue
    simp only [hval]
    rw [if_neg (by omega), if_neg (by omega), if_neg (by omega)]
  have hc : ¬ c.val.toNat ≤ 0x7f := by
    have : c.toNat = c.val.toNat := rfl
    omega
  have hfirst : ∃ b ∈ String.utf8EncodeChar c, 128 ≤ b.toNat := by
    unfold String.utf8EncodeChar
    simp only [if_neg hc]
    split
    · refine ⟨_, List.mem_cons_self, ?_⟩
      simp only [UInt8.toNat_ofNat']
      omega
    split
    · refine ⟨_, List.mem_cons_self, ?_⟩
      simp only [UInt8.toNat_ofNat']
      omega
    · refine ⟨_, List.mem_cons_self, ?_⟩
      simp only [UInt8.toNat_ofNat']
      omega
  obtain ⟨b, hb, hbig⟩ := hfirst
  exact ⟨_, List.mem_map_of_mem hb, hnone _ b.toNat_lt hbig⟩

theorem decode_digits {s : Str} {bs : Bytes} (h : decode s = .ok bs) :
    ∀ c ∈ s, (hexValue c).isSome := by
  unfold decode at h
  dsimp only at h
  split at h
  · simp at h
  · intro c hc
    have hall := decodeFrom_digits h
    by_cases hascii : c.toNat < 128
    · exact hall c (List.mem_flatMap.mpr ⟨c, hc, by simp [hascii]⟩)
    · obtain ⟨d, hd, hnone⟩ := byteChars_beyond hascii
      have := hall d (List.mem_flatMap.mpr ⟨c, hc, by rw [if_neg hascii]; exact hd⟩)
      simp [hnone] at this

theorem decode_plain {s : Str} {bs : Bytes} (h : decode s = .ok bs) : Plain s :=
  fun c hc => hexValue_plain (decode_digits h c hc)

end BinaChain.Hex
