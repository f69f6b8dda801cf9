import BinaChain.Support.Word

/-!
# Text: decimal numbers, fields and lines

A string is the list of its characters. A number printed in decimal parses
back, and a file made of terminated lines of comma-separated plain fields is
read back as those fields.
-/

set_option autoImplicit false

namespace BinaChain.Text
open BinaChain.Word

abbrev Str := List Char

/-- Unicode `White_Space`, the class `str::trim` removes. -/
def isWhitespace (c : Char) : Bool :=
  let n := c.toNat
  (9 ≤ n && n ≤ 13) || n == 0x20 || n == 0x85 || n == 0xA0 || n == 0x1680 ||
    (0x2000 ≤ n && n ≤ 0x200A) || n == 0x2028 || n == 0x2029 || n == 0x202F ||
    n == 0x205F || n == 0x3000

def trim (s : Str) : Str :=
  ((s.dropWhile isWhitespace).reverse.dropWhile isWhitespace).reverse

def Plain (s : Str) : Prop := ∀ c ∈ s, isWhitespace c = false ∧ c ≠ ','

instance (s : Str) : Decidable (Plain s) := List.decidableBAll _ s

theorem trim_plain {s : Str} (h : Plain s) : trim s = s := by
  have keep : ∀ t : Str, (∀ c ∈ t, isWhitespace c = false) → t.dropWhile isWhitespace = t := by
    intro t ht
    cases t with
    | nil => rfl
    | cons c t => simp [ht c (by simp)]
  unfold trim
  rw [keep s (fun c hc => (h c hc).1), keep s.reverse (fun c hc => (h c (by simpa using hc)).1),
    List.reverse_reverse]

def utf8Length : Str → ℕ
  | [] => 0
  | c :: rest => c.utf8Size+utf8Length rest

/-- `&s[..n]`; `none` is the panic past the end or inside a character. -/
def cutAt : ℕ → Str → Option Str
  | 0, _ => some []
  | _+1, [] => none
  | n+1, c :: rest =>
    if c.utf8Size ≤ n+1 then (cutAt (n+1-c.utf8Size) rest).map (c :: ·) else none

theorem utf8Length_ascii {s : Str} (h : ∀ c ∈ s, c.toNat < 128) : utf8Length s = s.length := by
  induction s with
  | nil => rfl
  | cons c s ih =>
    have hsmall : c.toNat < 128 := h c List.mem_cons_self
    have hle : c.val ≤ 127 := UInt32.le_iff_toNat_le.mpr (by
      change c.toNat ≤ 127
      omega)
    rw [utf8Length, Char.utf8Size_eq_one_iff.mpr hle,
      ih fun d hd => h d (List.mem_cons_of_mem c hd), List.length_cons, Nat.add_comm]

def showNat (n : ℕ) : Str := Nat.toDigits 10 n

/-- `str::parse::<u64>`: an optional `+`, at least one digit, no overflow. -/
def parseU64 (s : Str) : Option ℕ :=
  let digits := match s with
    | '+' :: rest => rest
    | _ => s
  if digits ≠ [] ∧ digits.all Char.isDigit ∧ Nat.ofDigitChars 10 digits 0 ≤ u64Max then
    some (Nat.ofDigitChars 10 digits 0)
  else none

theorem showNat_digit {n : ℕ} {c : Char} (h : c ∈ showNat n) : c.isDigit :=
  Nat.isDigit_of_mem_toDigits (by decide) (by decide) h

theorem digit_plain {c : Char} (h : c.isDigit) : isWhitespace c = false ∧ c ≠ ',' ∧ c ≠ '+' := by
  have hn := Char.isDigit_iff_toNat.mp h
  simp only [show '0'.toNat = 48 from rfl, show '9'.toNat = 57 from rfl] at hn
  refine ⟨?_, ?_, ?_⟩
  · simp [isWhitespace]; omega
  · rintro rfl; revert h; decide
  · rintro rfl; revert h; decide

theorem showNat_plain (n : ℕ) : Plain (showNat n) := fun _ hc =>
  ⟨(digit_plain (showNat_digit hc)).1, (digit_plain (showNat_digit hc)).2.1⟩

theorem parseU64_showNat {n : ℕ} (h : n ≤ u64Max) : parseU64 (showNat n) = some n := by
  have hne : showNat n ≠ [] := Nat.toDigits_ne_nil
  have hplus : ∀ rest, showNat n ≠ '+' :: rest := fun rest he =>
    (digit_plain (showNat_digit (n := n) (c := '+') (by rw [he]; simp))).2.2 rfl
  have hval : Nat.ofDigitChars 10 (showNat n) 0 = n := Nat.ofDigitChars_ten_toDigits
  unfold parseU64
  split
  · rename_i rest he
    exact absurd he (hplus rest)
  · simp only [hval]
    rw [if_pos ⟨hne, List.all_eq_true.mpr fun c hc => showNat_digit hc, h⟩]

def joinFields (cols : List Str) : Str := [','].intercalate cols

def fields (line : Str) : List Str := line.splitOn ','

theorem joinFields_cons (s t : Str) (cols : List Str) :
    joinFields (s :: t :: cols) = s++ ',' :: joinFields (t :: cols) := by
  simp [joinFields, List.intercalate]

theorem fields_join : ∀ {cols : List Str}, cols ≠ [] → (∀ s ∈ cols, Plain s) →
    fields (joinFields cols) = cols
  | [], hne, _ => absurd rfl hne
  | [s], _, h => by
    have hs : ',' ∉ s := fun hc => (h s (by simp) ',' hc).2 rfl
    simpa [fields, joinFields] using List.splitOn_eq_singleton hs
  | s :: t :: cols, _, h => by
    have hs : ',' ∉ s := fun hc => (h s (by simp) ',' hc).2 rfl
    have ih := @fields_join (t :: cols) (by simp) (fun u hu => h u (by simp [hu]))
    unfold fields at ih ⊢
    rw [joinFields_cons, List.splitOn_append_cons_self, ih, List.splitOn_eq_singleton hs]
    rfl

theorem join_no_white : ∀ {cols : List Str}, (∀ s ∈ cols, Plain s) →
    ∀ c ∈ joinFields cols, isWhitespace c = false
  | [], _, c, hc => by simp [joinFields] at hc
  | [s], h, c, hc => (h s (by simp) c (by simpa [joinFields] using hc)).1
  | s :: t :: cols, h, c, hc => by
    rw [joinFields_cons, List.mem_append, List.mem_cons] at hc
    rcases hc with hs | rfl | ht
    · exact (h s (by simp) c hs).1
    · decide
    · exact join_no_white (fun u hu => h u (by simp [hu])) c ht

theorem join_no_newline {cols : List Str} (h : ∀ s ∈ cols, Plain s) :
    ∀ c ∈ joinFields cols, c ≠ '\n' ∧ c ≠ '\r' := by
  intro c hc
  have hw := join_no_white h c hc
  constructor <;> (rintro rfl; revert hw; decide)

theorem joinFields_concat (s : Str) {cols : List Str} (h : cols ≠ []) :
    joinFields (s :: cols) = s++ ',' :: joinFields cols := by
  obtain ⟨t, cols, rfl⟩ := List.exists_cons_of_ne_nil h
  exact joinFields_cons s t cols

theorem joinFields_merge (front : List Str) (part n : Str) (back : List Str) :
    joinFields (front++[part])++joinFields (n :: back) =
      joinFields (front++(part++n) :: back) := by
  induction front with
  | nil =>
    cases back with
    | nil => simp [joinFields]
    | cons t back =>
      rw [List.nil_append, List.nil_append, joinFields_cons, joinFields_cons]
      simp [joinFields]
  | cons s front ih =>
    rw [List.cons_append, List.cons_append, joinFields_concat s (by simp),
      joinFields_concat s (by simp), List.append_assoc, List.cons_append, ih]

theorem take_joinFields : ∀ {cols : List Str}, cols ≠ [] → ∀ kept,
    ∃ front col back part, cols = front++col :: back ∧ part <+: col ∧
      (joinFields cols).take kept = joinFields (front++[part])
  | [], hne, _ => absurd rfl hne
  | [s], _, kept => ⟨[], s, [], s.take kept, rfl, List.take_prefix _ _, by simp [joinFields]⟩
  | s :: t :: cols, _, kept => by
    by_cases hk : kept ≤ s.length
    · refine ⟨[], s, t :: cols, s.take kept, rfl, List.take_prefix _ _, ?_⟩
      rw [joinFields_cons, List.take_append_of_le_length hk]
      simp [joinFields]
    · obtain ⟨front, col, back, part, hcols, hpart, htake⟩ :=
        take_joinFields (List.cons_ne_nil t cols) (kept-s.length-1)
      refine ⟨s :: front, col, back, part, by rw [hcols]; rfl, hpart, ?_⟩
      have hsplit : kept = s.length+((kept-s.length-1)+1) := by omega
      rw [joinFields_cons, hsplit, List.take_length_add_append, List.take_succ_cons, htake,
        List.cons_append, joinFields_concat s (by simp)]

theorem comma_mem_joinFields {front : List Str} {part : Str} (h : ',' ∉ part) :
    ',' ∈ joinFields (front++[part]) ↔ front ≠ [] := by
  cases front with
  | nil => simpa [joinFields] using h
  | cons s front =>
    rw [List.cons_append, joinFields_concat s (by simp)]
    simp

def stripCr (line : Str) : Str := if line.getLast? = some '\r' then line.dropLast else line

/-- `BufRead::lines`: an unterminated last line counts when it is not empty. -/
def lines (text : Str) : List Str :=
  let segs := text.splitOn '\n'
  (if segs.getLast? = some [] then segs.dropLast else segs).map stripCr

def unlines (ls : List Str) : Str := ls.flatMap fun l => l++['\n']

theorem unlines_append (as bs : List Str) : unlines (as++bs) = unlines as++unlines bs := by
  simp [unlines]

theorem split_torn {ls : List Str} (h : ∀ l ∈ ls, '\n' ∉ l) {frag : Str} (hf : '\n' ∉ frag) :
    (unlines ls++frag).splitOn '\n' = ls++[frag] := by
  induction ls with
  | nil => exact List.splitOn_eq_singleton hf
  | cons l ls ih =>
    have hu : unlines (l :: ls)++frag = l++ '\n' :: (unlines ls++frag) := by simp [unlines]
    rw [hu, List.splitOn_append_cons_self, List.splitOn_eq_singleton (h l (by simp)),
      ih (fun t ht => h t (by simp [ht]))]
    rfl

theorem stripCr_eq_self {l : Str} (h : ∀ c ∈ l, c ≠ '\n' ∧ c ≠ '\r') : stripCr l = l := by
  have hne : l.getLast? ≠ some '\r' := fun he => (h '\r' (List.mem_of_getLast? he)).2 rfl
  simp [stripCr, hne]

theorem lines_torn {ls : List Str} (h : ∀ l ∈ ls, ∀ c ∈ l, c ≠ '\n' ∧ c ≠ '\r') {frag : Str}
    (hf : ∀ c ∈ frag, c ≠ '\n' ∧ c ≠ '\r') :
    lines (unlines ls++frag) = if frag = [] then ls else ls++[frag] := by
  have hs : (unlines ls++frag).splitOn '\n' = ls++[frag] :=
    split_torn (fun l hl hc => (h l hl '\n' hc).1 rfl) fun hc => (hf '\n' hc).1 rfl
  have hcr : ∀ ls' : List Str, (∀ l ∈ ls', ∀ c ∈ l, c ≠ '\n' ∧ c ≠ '\r') →
      ls'.map stripCr = ls' := fun ls' h' =>
    (List.map_congr_left fun l hl => stripCr_eq_self (h' l hl)).trans (List.map_id _)
  unfold lines
  rw [hs]
  simp only [List.getLast?_concat, Option.some.injEq]
  by_cases he : frag = []
  · rw [if_pos he, if_pos he, List.dropLast_concat]
    exact hcr ls h
  · rw [if_neg he, if_neg he]
    refine hcr _ fun l hl => ?_
    rcases List.mem_append.mp hl with hl | hl
    · exact h l hl
    · rw [List.mem_singleton.mp hl]
      exact hf

theorem lines_unlines {ls : List Str} (h : ∀ l ∈ ls, ∀ c ∈ l, c ≠ '\n' ∧ c ≠ '\r') :
    lines (unlines ls) = ls := by
  simpa using lines_torn h (show ∀ c ∈ ([] : Str), _ from by simp)

end BinaChain.Text
