import BinaChain.Core.StaleBlock
import BinaChain.Support.Checked
import BinaChain.Support.Machine
import BinaChain.Support.Maps
import Mathlib.Data.List.MinMax

/-!
# The history of stale blocks

Headers are filed by their hash, proofs by their id and hashes by their height.
A full history drops the proof that was made first, with its header. The fork
events and the chain tips of the tracker are in no call that harvests a block.
-/

set_option autoImplicit false

namespace BinaChain.LoserChain
open BinaChain.Word BinaChain.Text BinaChain.Crypto BinaChain.StaleBlock BinaChain.Machine
open BinaChain.Maps Std

def maxStaleHistory : ℕ := 1024

structure LoserChainTracker where
  staleHeaders : ExtTreeMap Str StaleBlockHeader
  staleProofs : ExtTreeMap Str StaleWorkProof
  cumulativeEntropy : Hash
  totalStaleCount : ℕ
  staleByHeight : ExtTreeMap UInt64 (List Str)

/-- The order in which the values of a map come when it is iterated. -/
structure Iteration where
  order : List StaleWorkProof → List StaleWorkProof
  perm : ∀ proofs, (order proofs).Perm proofs

structure Call where
  header : StaleBlockHeader
  canonicalHash : Hash
  reorgDepth : UInt32
  submitter : Str
  clock : Clock
  iteration : Iteration

namespace Call

def checkedProof (sha256 : Bytes → Hash) (c : Call) : Except StaleBlockError StaleWorkProof := do
  let blockTime := c.header.timestamp.toNat
  if blockTime < c.clock.age ∧ maxStaleAgeSecs < c.clock.age-blockTime then
    .error (.tooOld (c.clock.age-blockTime) maxStaleAgeSecs)
  else
    let proof ← StaleWorkProof.build sha256 c.clock c.header c.canonicalHash c.reorgDepth
      c.submitter
    proof.verifySelf sha256
    pure proof

def idInput (c : Call) : Bytes :=
  proofPreimage c.header.blockHash c.canonicalHash c.header.height c.reorgDepth c.submitter

end Call

namespace LoserChainTracker

def new : LoserChainTracker where
  staleHeaders := ∅
  staleProofs := ∅
  cumulativeEntropy := zeroHash
  totalStaleCount := 0
  staleByHeight := ∅

def oldestProofId (it : Iteration) (t : LoserChainTracker) : Option Str :=
  ((it.order (t.staleProofs.toList.map Prod.snd)).argmin StaleWorkProof.createdAt).map
    StaleWorkProof.proofId

def unlist (hashHex : Str) (height : UInt64) (byHeight : ExtTreeMap UInt64 (List Str)) :
    ExtTreeMap UInt64 (List Str) :=
  match byHeight[height]? with
  | none => byHeight
  | some hashes =>
    let kept := hashes.filter (· ≠ hashHex)
    if kept.isEmpty then byHeight.erase height else byHeight.insert height kept

def evict (t : LoserChainTracker) (proofId : Str) : LoserChainTracker :=
  match t.staleProofs[proofId]? with
  | none => t
  | some proof =>
    { t with
      staleProofs := t.staleProofs.erase proofId
      staleHeaders := t.staleHeaders.erase (hashHex proof.blockHash)
      staleByHeight := unlist (hashHex proof.blockHash) proof.height t.staleByHeight }

/-- `none` if the loop has not ended within the given number of rounds. -/
def evictOldest (it : Iteration) : ℕ → LoserChainTracker → Option LoserChainTracker
  | 0, _ => none
  | rounds+1, t =>
    if maxStaleHistory < t.staleHeaders.size then
      match t.oldestProofId it with
      | none => some t
      | some proofId => evictOldest it rounds (t.evict proofId)
    else some t

def store (t : LoserChainTracker) (header : StaleBlockHeader) (proof : StaleWorkProof) :
    LoserChainTracker where
  staleHeaders := t.staleHeaders.insert header.blockHashHex header
  staleProofs := t.staleProofs.insert proof.proofId proof
  cumulativeEntropy := xor32 t.cumulativeEntropy proof.entropy
  totalStaleCount := wrapAdd t.totalStaleCount 1
  staleByHeight := t.staleByHeight.insert header.height
    ((t.staleByHeight[header.height]?.getD [])++[header.blockHashHex])

/-- A loop that does not end within one round for each proof and one more shows as `none`. -/
def recordStaleBlock (sha256 : Bytes → Hash) (t : LoserChainTracker) (c : Call) :
    Option (Except StaleBlockError StaleWorkProof × LoserChainTracker) :=
  if t.staleHeaders.contains c.header.blockHashHex then
    some (.error (.alreadyHarvested c.header.blockHashHex), t)
  else
    match c.checkedProof sha256 with
    | .error e => some (.error e, t)
    | .ok proof =>
      let stored := t.store c.header proof
      let kept := if maxStaleHistory < stored.staleHeaders.size then
          evictOldest c.iteration (stored.staleProofs.size+1) stored
        else some stored
      kept.map fun t' => (.ok proof, t')

def stalesAtHeight (t : LoserChainTracker) (height : UInt64) : List Str :=
  t.staleByHeight[height]?.getD []

end LoserChainTracker

def step (sha256 : Bytes → Hash) (t : LoserChainTracker) (c : Call) : Option LoserChainTracker :=
  (t.recordStaleBlock sha256 c).map Prod.snd

open LoserChainTracker

variable {sha256 : Bytes → Hash}

theorem hashHex_injective {a b : Hash} (h : hashHex a = hashHex b) : a = b := by
  apply Vector.toList_inj.mp
  simpa using Hex.encode_injective h

def Call.Fresh (c : Call) : Prop :=
  c.clock.age ≤ c.header.timestamp.toNat+maxStaleAgeSecs

theorem checkedProof_eq_ok {c : Call} {p : StaleWorkProof} :
    c.checkedProof sha256 = .ok p ↔ c.Fresh ∧
      StaleWorkProof.build sha256 c.clock c.header c.canonicalHash c.reorgDepth c.submitter =
        .ok p ∧ p.verifySelf sha256 = .ok () := by
  unfold Call.checkedProof Call.Fresh
  dsimp only
  rw [Checked.reject_eq_ok]
  apply and_congr
  · omega
  · rw [Checked.bind_eq_ok]
    constructor
    · rintro ⟨q, hbuild, hrest⟩
      obtain ⟨u, hverify, hq⟩ := Checked.bind_eq_ok.mp hrest
      obtain rfl := Except.ok.inj hq
      exact ⟨hbuild, hverify⟩
    · rintro ⟨hbuild, hverify⟩
      exact ⟨p, hbuild, Checked.bind_eq_ok.mpr ⟨(), hverify, rfl⟩⟩

/-- The block is young, hashes to what its header says with enough work, is not the
canonical one and was not left too deep. -/
structure Call.InOrder (sha256 : Bytes → Hash) (c : Call) : Prop where
  fresh : c.Fresh
  work : minLeadingZeros ≤ c.header.leadingZeroBits
  depth : c.reorgDepth.toNat ≤ maxReorgDepth
  hashed : c.header.blockHash = doubleSha256 sha256 c.header.toRaw
  stale : c.header.blockHash ≠ c.canonicalHash

theorem checkedProof_accepts_iff {c : Call} :
    (∃ p, c.checkedProof sha256 = .ok p) ↔ c.InOrder sha256 := by
  constructor
  · rintro ⟨p, hp⟩
    obtain ⟨hfresh, hbuild, hverify⟩ := checkedProof_eq_ok.mp hp
    obtain ⟨hwork, hdepth, rfl⟩ := (StaleWorkProof.build_eq_ok sha256).mp hbuild
    obtain ⟨-, hhashed, -, hstale⟩ := (StaleWorkProof.verifySelf_iff sha256 _).mp hverify
    exact ⟨hfresh, hwork, hdepth, hhashed, hstale⟩
  · intro h
    refine ⟨_, checkedProof_eq_ok.mpr ⟨h.fresh, (StaleWorkProof.build_eq_ok sha256).mpr
      ⟨h.work, h.depth, rfl⟩, ?_⟩⟩
    exact (StaleWorkProof.verifySelf_iff sha256 _).mpr
      ⟨StaleBlockHeader.toRaw_length _, h.hashed, rfl, h.stale⟩

structure Proves (sha256 : Bytes → Hash) (c : Call) (p : StaleWorkProof) : Prop where
  blockHash : p.blockHash = c.header.blockHash
  height : p.height = c.header.height
  proofId : p.proofId = Hex.encode (sha256 c.idInput).toList
  entropy : p.entropy = c.header.extractEntropy sha256
  createdAt : p.createdAt = c.clock.created
  consistent : p.Consistent sha256

theorem checkedProof_proves {c : Call} {p : StaleWorkProof} (h : c.checkedProof sha256 = .ok p) :
    Proves sha256 c p := by
  obtain ⟨-, hbuild, hverify⟩ := checkedProof_eq_ok.mp h
  have hconsistent := StaleWorkProof.build_consistent sha256 hbuild hverify
  obtain ⟨-, -, rfl⟩ := (StaleWorkProof.build_eq_ok sha256).mp hbuild
  exact ⟨rfl, rfl, rfl, rfl, rfl, hconsistent⟩

def Keyed (t : LoserChainTracker) : Prop :=
  ∀ (id : Str) (p : StaleWorkProof), t.staleProofs[id]? = some p → id = p.proofId

theorem evict_eq {t : LoserChainTracker} {id : Str} {p : StaleWorkProof}
    (h : t.staleProofs[id]? = some p) : t.evict id =
      { t with
        staleProofs := t.staleProofs.erase id
        staleHeaders := t.staleHeaders.erase (hashHex p.blockHash)
        staleByHeight := unlist (hashHex p.blockHash) p.height t.staleByHeight } := by
  unfold evict
  rw [h]

theorem oldestProofId_some {t : LoserChainTracker} (hkeyed : Keyed t) {it : Iteration} {id : Str}
    (h : t.oldestProofId it = some id) : ∃ p : StaleWorkProof, t.staleProofs[id]? = some p ∧
      ∀ (id' : Str) (p' : StaleWorkProof), t.staleProofs[id']? = some p' →
        p.createdAt ≤ p'.createdAt := by
  have hmem (p : StaleWorkProof) : p ∈ it.order (t.staleProofs.toList.map Prod.snd) ↔
      ∃ id : Str, t.staleProofs[id]? = some p := by
    rw [(it.perm _).mem_iff, List.mem_map]
    simp [ExtTreeMap.mem_toList_iff_getElem?_eq_some]
  obtain ⟨p, hp, rfl⟩ := Option.map_eq_some_iff.mp h
  obtain ⟨id, hid⟩ := (hmem p).mp (List.argmin_mem hp)
  obtain rfl := hkeyed id p hid
  exact ⟨p, hid, fun id' p' hp' => List.le_of_mem_argmin ((hmem p').mpr ⟨id', hp'⟩) hp⟩

theorem oldestProofId_none {t : LoserChainTracker} {it : Iteration}
    (h : t.oldestProofId it = none) (id : Str) : t.staleProofs[id]? = none := by
  have hnil := List.argmin_eq_none.mp (Option.map_eq_none_iff.mp h)
  have hempty : t.staleProofs.toList.map Prod.snd = [] :=
    List.Perm.eq_nil (hnil ▸ (it.perm _).symm)
  rw [List.map_eq_nil_iff, ExtTreeMap.toList_eq_nil_iff] at hempty
  rw [hempty]
  simp

theorem Keyed.evict {t : LoserChainTracker} (h : Keyed t) (id : Str) : Keyed (t.evict id) := by
  unfold LoserChainTracker.evict
  split
  · exact h
  · exact fun id' p' hp' => h id' p' (getElem?_erase_some.mp hp').2

theorem Keyed.store {t : LoserChainTracker} (h : Keyed t) (header : StaleBlockHeader)
    (p : StaleWorkProof) : Keyed (t.store header p) := by
  intro id' p' hp'
  rw [LoserChainTracker.store, getElem?_insert_eq] at hp'
  split at hp'
  · rename_i hid
    obtain rfl := Option.some.inj hp'
    exact hid.symm
  · exact h id' p' hp'

theorem evictOldest_ends (it : Iteration) {rounds : ℕ} {t : LoserChainTracker} (hkeyed : Keyed t)
    (h : t.staleProofs.size < rounds) : ∃ t', evictOldest it rounds t = some t' := by
  induction rounds generalizing t with
  | zero => exact absurd h (Nat.not_lt_zero _)
  | succ rounds ih =>
    rw [evictOldest]
    split
    · cases ho : t.oldestProofId it with
      | none => exact ⟨t, rfl⟩
      | some id =>
        obtain ⟨p, hp, -⟩ := oldestProofId_some hkeyed ho
        apply ih (hkeyed.evict id)
        have hless := size_erase_of_some hp
        rw [evict_eq hp]
        dsimp only
        omega
    · exact ⟨t, rfl⟩

theorem evictOldest_invariant {P : LoserChainTracker → Prop} (hP : ∀ t id, P t → P (t.evict id))
    {it : Iteration} {rounds : ℕ} {t t' : LoserChainTracker} (h : P t)
    (he : evictOldest it rounds t = some t') : P t' := by
  induction rounds generalizing t with
  | zero => simp [evictOldest] at he
  | succ rounds ih =>
    rw [evictOldest] at he
    split at he
    · cases ho : t.oldestProofId it with
      | none =>
        rw [ho] at he
        obtain rfl := Option.some.inj he
        exact h
      | some id =>
        rw [ho] at he
        exact ih (hP t id h) he
    · obtain rfl := Option.some.inj he
      exact h

theorem evictOldest_exit {it : Iteration} {rounds : ℕ} {t t' : LoserChainTracker}
    (he : evictOldest it rounds t = some t') :
    t'.staleHeaders.size ≤ maxStaleHistory ∨ ∀ id : Str, t'.staleProofs[id]? = none := by
  induction rounds generalizing t with
  | zero => simp [evictOldest] at he
  | succ rounds ih =>
    rw [evictOldest] at he
    split at he
    · cases ho : t.oldestProofId it with
      | none =>
        rw [ho] at he
        obtain rfl := Option.some.inj he
        exact .inr (oldestProofId_none ho)
      | some id =>
        rw [ho] at he
        exact ih he
    · rename_i hfits
      obtain rfl := Option.some.inj he
      exact .inl (Nat.le_of_not_lt hfits)

/-- Headers and proofs stand in one-to-one correspondence by their block, and the
lists of the heights hold the hashes of the stored headers, each once. -/
structure Indexed (t : LoserChainTracker) : Prop where
  headerKey : ∀ (k : Str) (h : StaleBlockHeader), t.staleHeaders[k]? = some h →
    k = h.blockHashHex
  proofKey : Keyed t
  proofOf : ∀ (k : Str) (h : StaleBlockHeader), t.staleHeaders[k]? = some h →
    ∃ (id : Str) (p : StaleWorkProof), t.staleProofs[id]? = some p ∧
      p.blockHash = h.blockHash ∧ p.height = h.height
  headerOf : ∀ (id : Str) (p : StaleWorkProof), t.staleProofs[id]? = some p →
    ∃ h : StaleBlockHeader, t.staleHeaders[hashHex p.blockHash]? = some h ∧
      h.blockHash = p.blockHash ∧ h.height = p.height
  single : ∀ (id id' : Str) (p p' : StaleWorkProof), t.staleProofs[id]? = some p →
    t.staleProofs[id']? = some p' → p.blockHash = p'.blockHash → id = id'
  listed : ∀ (height : UInt64) (k : Str), k ∈ t.stalesAtHeight height ↔
    ∃ h : StaleBlockHeader, t.staleHeaders[k]? = some h ∧ h.height = height
  nodup : ∀ height, (t.stalesAtHeight height).Nodup
  nonempty : ∀ height : UInt64, t.staleByHeight[height]? ≠ some []

theorem indexed_new : Indexed LoserChainTracker.new := by
  constructor <;> simp [LoserChainTracker.new, Keyed, stalesAtHeight]

theorem unlist_other (k : Str) {height x : UInt64} (m : ExtTreeMap UInt64 (List Str))
    (hx : height ≠ x) : (unlist k height m)[x]? = m[x]? := by
  unfold unlist
  split
  · rfl
  · dsimp only
    split
    · rw [getElem?_erase_eq, if_neg hx]
    · rw [getElem?_insert_eq, if_neg hx]

theorem unlist_self (k : Str) (height : UInt64) (m : ExtTreeMap UInt64 (List Str)) :
    (unlist k height m)[height]?.getD [] = (m[height]?.getD []).filter (· ≠ k) := by
  unfold unlist
  split
  · rename_i hm
    rw [hm]
    rfl
  · rename_i hashes hm
    dsimp only
    split
    · rename_i hempty
      rw [getElem?_erase_eq, if_pos rfl, hm, Option.getD_some, List.isEmpty_iff.mp hempty]
      rfl
    · rw [getElem?_insert_eq, if_pos rfl, hm]
      rfl

theorem unlist_nonempty {k : Str} {height : UInt64} {m : ExtTreeMap UInt64 (List Str)}
    (h : ∀ x : UInt64, m[x]? ≠ some []) (x : UInt64) : (unlist k height m)[x]? ≠ some [] := by
  unfold unlist
  split
  · exact h x
  · dsimp only
    split
    · rw [getElem?_erase_eq]
      split
      · simp
      · exact h x
    · rename_i hkept
      rw [getElem?_insert_eq]
      split
      · intro he
        exact hkept (List.isEmpty_iff.mpr (Option.some.inj he))
      · exact h x

section
variable {t : LoserChainTracker} {id : Str} {p : StaleWorkProof}

theorem evict_headers (hp : t.staleProofs[id]? = some p) {k : Str} {h : StaleBlockHeader} :
    (t.evict id).staleHeaders[k]? = some h ↔
      hashHex p.blockHash ≠ k ∧ t.staleHeaders[k]? = some h := by
  rw [evict_eq hp]
  exact getElem?_erase_some

theorem evict_proofs (hp : t.staleProofs[id]? = some p) {id' : Str} {p' : StaleWorkProof} :
    (t.evict id).staleProofs[id']? = some p' ↔ id ≠ id' ∧ t.staleProofs[id']? = some p' := by
  rw [evict_eq hp]
  exact getElem?_erase_some

theorem evict_stales (h : Indexed t) (hp : t.staleProofs[id]? = some p) (height : UInt64) :
    (t.evict id).stalesAtHeight height =
      (t.stalesAtHeight height).filter (· ≠ hashHex p.blockHash) := by
  rw [evict_eq hp]
  unfold stalesAtHeight
  by_cases hx : p.height = height
  · subst hx
    exact unlist_self _ _ _
  · dsimp only
    rw [unlist_other _ _ hx, eq_comm, List.filter_eq_self]
    intro k hk
    obtain ⟨header, hheader, -, hheight⟩ := h.headerOf id p hp
    obtain ⟨h', hh', hheight'⟩ := (h.listed height k).mp hk
    rw [decide_eq_true_iff]
    rintro rfl
    obtain rfl := Option.some.inj (hheader.symm.trans hh')
    exact hx (hheight.symm.trans hheight')

theorem Indexed.evict_some (h : Indexed t) (hp : t.staleProofs[id]? = some p) :
    Indexed (t.evict id) where
  headerKey k h' hk := h.headerKey k h' ((evict_headers hp).mp hk).2
  proofKey := h.proofKey.evict id
  proofOf := by
    intro k h' hk
    obtain ⟨hne, hk⟩ := (evict_headers hp).mp hk
    obtain ⟨id', p', hp', hhash, hheight⟩ := h.proofOf k h' hk
    refine ⟨id', p', (evict_proofs hp).mpr ⟨?_, hp'⟩, hhash, hheight⟩
    rintro rfl
    obtain rfl := Option.some.inj (hp.symm.trans hp')
    apply hne
    rw [hhash, h.headerKey k h' hk]
    rfl
  headerOf := by
    intro id' p' hp'
    obtain ⟨hne, hp'⟩ := (evict_proofs hp).mp hp'
    obtain ⟨h', hh', hhash, hheight⟩ := h.headerOf id' p' hp'
    refine ⟨h', (evict_headers hp).mpr ⟨?_, hh'⟩, hhash, hheight⟩
    intro heq
    exact hne (h.single id id' p p' hp hp' (hashHex_injective heq))
  single id₁ id₂ p₁ p₂ h₁ h₂ :=
    h.single id₁ id₂ p₁ p₂ ((evict_proofs hp).mp h₁).2 ((evict_proofs hp).mp h₂).2
  listed := by
    intro height k
    simp only [evict_stales h hp, evict_headers hp, List.mem_filter, h.listed height k, ne_eq,
      decide_eq_true_eq]
    grind
  nodup := by
    intro height
    rw [evict_stales h hp]
    exact (h.nodup height).filter _
  nonempty := by
    rw [evict_eq hp]
    exact unlist_nonempty h.nonempty

theorem Indexed.evict (h : Indexed t) (id : Str) : Indexed (t.evict id) := by
  cases hp : t.staleProofs[id]? with
  | none =>
    rw [LoserChainTracker.evict, hp]
    exact h
  | some p => exact h.evict_some hp

end

section
variable {t : LoserChainTracker} {header : StaleBlockHeader} {p : StaleWorkProof}

theorem store_headers (hnew : t.staleHeaders[header.blockHashHex]? = none) {k : Str}
    {h : StaleBlockHeader} : (t.store header p).staleHeaders[k]? = some h ↔
      header.blockHashHex = k ∧ header = h ∨ t.staleHeaders[k]? = some h :=
  getElem?_insert_fresh hnew

theorem store_proofs (hid : t.staleProofs[p.proofId]? = none) {id : Str} {p' : StaleWorkProof} :
    (t.store header p).staleProofs[id]? = some p' ↔
      p.proofId = id ∧ p = p' ∨ t.staleProofs[id]? = some p' :=
  getElem?_insert_fresh hid

theorem store_stales (t : LoserChainTracker) (header : StaleBlockHeader) (p : StaleWorkProof)
    (height : UInt64) : (t.store header p).stalesAtHeight height =
      if header.height = height then t.stalesAtHeight height++[header.blockHashHex]
      else t.stalesAtHeight height := by
  unfold stalesAtHeight LoserChainTracker.store
  dsimp only
  rw [getElem?_insert_eq]
  split
  · rename_i hheight
    subst hheight
    rfl
  · rfl

theorem Indexed.other_block (h : Indexed t) (hnew : t.staleHeaders[header.blockHashHex]? = none)
    {id : Str} {p' : StaleWorkProof} (hp' : t.staleProofs[id]? = some p') :
    header.blockHash ≠ p'.blockHash := by
  intro hblock
  obtain ⟨h', hh', -⟩ := h.headerOf id p' hp'
  rw [← hblock] at hh'
  exact absurd (hnew.symm.trans hh') (by simp)

theorem Indexed.not_listed (h : Indexed t) (hnew : t.staleHeaders[header.blockHashHex]? = none)
    (height : UInt64) : header.blockHashHex ∉ t.stalesAtHeight height := by
  intro hk
  obtain ⟨h', hh', -⟩ := (h.listed height _).mp hk
  exact absurd (hnew.symm.trans hh') (by simp)

theorem Indexed.store (h : Indexed t) (hnew : t.staleHeaders[header.blockHashHex]? = none)
    (hid : t.staleProofs[p.proofId]? = none) (hhash : p.blockHash = header.blockHash)
    (hheight : p.height = header.height) : Indexed (t.store header p) where
  headerKey := by
    intro k h' hk
    rcases (store_headers hnew).mp hk with ⟨rfl, rfl⟩ | hk
    · rfl
    · exact h.headerKey k h' hk
  proofKey := h.proofKey.store header p
  proofOf := by
    intro k h' hk
    rcases (store_headers hnew).mp hk with ⟨rfl, rfl⟩ | hk
    · exact ⟨p.proofId, p, (store_proofs hid).mpr (.inl ⟨rfl, rfl⟩), hhash, hheight⟩
    · obtain ⟨id, p', hp', hsame⟩ := h.proofOf k h' hk
      exact ⟨id, p', (store_proofs hid).mpr (.inr hp'), hsame⟩
  headerOf := by
    intro id p' hp'
    rcases (store_proofs hid).mp hp' with ⟨rfl, rfl⟩ | hp'
    · refine ⟨header, (store_headers hnew).mpr (.inl ⟨?_, rfl⟩), hhash.symm, hheight.symm⟩
      rw [hhash]
      rfl
    · obtain ⟨h', hh', hsame⟩ := h.headerOf id p' hp'
      exact ⟨h', (store_headers hnew).mpr (.inr hh'), hsame⟩
  single := by
    intro id₁ id₂ p₁ p₂ h₁ h₂ hblock
    rcases (store_proofs hid).mp h₁ with ⟨rfl, rfl⟩ | h₁
    · rcases (store_proofs hid).mp h₂ with ⟨rfl, rfl⟩ | h₂
      · rfl
      · exact absurd (hhash.symm.trans hblock) (h.other_block hnew h₂)
    · rcases (store_proofs hid).mp h₂ with ⟨rfl, rfl⟩ | h₂
      · exact absurd (hhash.symm.trans hblock.symm) (h.other_block hnew h₁)
      · exact h.single id₁ id₂ p₁ p₂ h₁ h₂ hblock
  listed := by
    intro height k
    rw [store_stales]
    simp only [store_headers hnew]
    split
    · rename_i hx
      subst hx
      rw [List.mem_append, h.listed, List.mem_singleton]
      constructor
      · rintro (⟨h', hh', hheight'⟩ | rfl)
        · exact ⟨h', .inr hh', hheight'⟩
        · exact ⟨header, .inl ⟨rfl, rfl⟩, rfl⟩
      · rintro ⟨h', ⟨rfl, rfl⟩ | hh', hheight'⟩
        · exact .inr rfl
        · exact .inl ⟨h', hh', hheight'⟩
    · rename_i hx
      rw [h.listed]
      constructor
      · rintro ⟨h', hh', hheight'⟩
        exact ⟨h', .inr hh', hheight'⟩
      · rintro ⟨h', ⟨rfl, rfl⟩ | hh', hheight'⟩
        · exact absurd hheight' hx
        · exact ⟨h', hh', hheight'⟩
  nodup := by
    intro height
    rw [store_stales]
    split
    · rw [← List.concat_eq_append]
      exact (h.nodup height).concat (h.not_listed hnew height)
    · exact h.nodup height
  nonempty := by
    intro height
    dsimp only [LoserChainTracker.store]
    rw [getElem?_insert_eq]
    split
    · simp
    · exact h.nonempty height

end

theorem record_accepted {t : LoserChainTracker} {c : Call} {p : StaleWorkProof}
    (hnew : t.staleHeaders[c.header.blockHashHex]? = none) (hp : c.checkedProof sha256 = .ok p) :
    t.recordStaleBlock sha256 c =
      (evictOldest c.iteration ((t.store c.header p).staleProofs.size+1) (t.store c.header p)).map
        fun t' => (.ok p, t') := by
  have hcontains : t.staleHeaders.contains c.header.blockHashHex = false := by
    rw [ExtTreeMap.contains_eq_isSome_getElem?, hnew]
    rfl
  unfold recordStaleBlock
  rw [hcontains, hp]
  dsimp only
  rw [if_neg (by simp)]
  split
  · rfl
  · rename_i hfits
    rw [evictOldest, if_neg hfits]

/-- A call is turned away and changes nothing, or it stores its proof and evicts. -/
theorem record_cases {t t' : LoserChainTracker} {c : Call}
    {r : Except StaleBlockError StaleWorkProof} (h : t.recordStaleBlock sha256 c = some (r, t')) :
    (∃ e, r = .error e ∧ t' = t) ∨
      ∃ p, r = .ok p ∧ t.staleHeaders[c.header.blockHashHex]? = none ∧
        c.checkedProof sha256 = .ok p ∧
        evictOldest c.iteration ((t.store c.header p).staleProofs.size+1)
          (t.store c.header p) = some t' := by
  cases hk : t.staleHeaders[c.header.blockHashHex]? with
  | some old =>
    have hcontains : t.staleHeaders.contains c.header.blockHashHex = true := by
      rw [ExtTreeMap.contains_eq_isSome_getElem?, hk]
      rfl
    rw [recordStaleBlock, if_pos hcontains] at h
    obtain ⟨rfl, rfl⟩ := Prod.mk.inj (Option.some.inj h)
    exact .inl ⟨_, rfl, rfl⟩
  | none =>
    cases hp : c.checkedProof sha256 with
    | error e =>
      have hcontains : ¬ t.staleHeaders.contains c.header.blockHashHex = true := by
        rw [ExtTreeMap.contains_eq_isSome_getElem?, hk]
        simp
      rw [recordStaleBlock, if_neg hcontains, hp] at h
      obtain ⟨rfl, rfl⟩ := Prod.mk.inj (Option.some.inj h)
      exact .inl ⟨e, rfl, rfl⟩
    | ok p =>
      rw [record_accepted hk hp] at h
      obtain ⟨u, hu, he⟩ := Option.map_eq_some_iff.mp h
      obtain ⟨rfl, rfl⟩ := Prod.mk.inj he
      exact .inr ⟨p, rfl, rfl, rfl, hu⟩

theorem record_ends (sha256 : Bytes → Hash) {t : LoserChainTracker} (h : Keyed t) (c : Call) :
    ∃ out, t.recordStaleBlock sha256 c = some out := by
  unfold recordStaleBlock
  split
  · exact ⟨_, rfl⟩
  · split
    · exact ⟨_, rfl⟩
    · rename_i p _
      dsimp only
      split
      · obtain ⟨t', ht'⟩ := evictOldest_ends c.iteration (h.store c.header p) (Nat.lt_succ_self _)
        rw [ht']
        exact ⟨_, rfl⟩
      · exact ⟨_, rfl⟩

def CollisionFreeOn (sha256 : Bytes → Hash) (calls : List Call) : Prop :=
  ∀ c ∈ calls, ∀ d ∈ calls, sha256 c.idInput = sha256 d.idInput → c.idInput = d.idInput

theorem idInput_blockHash {c d : Call} (h : c.idInput = d.idInput) :
    c.header.blockHash = d.header.blockHash := by
  unfold Call.idInput proofPreimage at h
  simp only [List.append_assoc] at h
  have hrest := List.append_cancel_left h
  exact Vector.toList_inj.mp (List.append_inj hrest (by simp)).1

def Drawn (sha256 : Bytes → Hash) (calls : List Call) (t : LoserChainTracker) : Prop :=
  ∀ (id : Str) (p : StaleWorkProof), t.staleProofs[id]? = some p →
    ∃ c ∈ calls, Proves sha256 c p

theorem Drawn.evict {calls : List Call} {t : LoserChainTracker} (h : Drawn sha256 calls t)
    (id : Str) : Drawn sha256 calls (t.evict id) := by
  unfold LoserChainTracker.evict
  split
  · exact h
  · exact fun id' p' hp' => h id' p' (getElem?_erase_some.mp hp').2

theorem Drawn.store {calls : List Call} {t : LoserChainTracker} (h : Drawn sha256 calls t)
    {c : Call} {p : StaleWorkProof} (hc : c ∈ calls) (hp : Proves sha256 c p) :
    Drawn sha256 calls (t.store c.header p) := by
  intro id' p' hp'
  rw [LoserChainTracker.store] at hp'
  dsimp only at hp'
  rw [getElem?_insert_eq] at hp'
  split at hp'
  · obtain rfl := Option.some.inj hp'
    exact ⟨c, hc, hp⟩
  · exact h id' p' hp'

theorem proofId_free {calls : List Call} (hfree : CollisionFreeOn sha256 calls)
    {t : LoserChainTracker} (h : Indexed t) (hdrawn : Drawn sha256 calls t) {c : Call}
    {p : StaleWorkProof} (hc : c ∈ calls) (hp : Proves sha256 c p)
    (hnew : t.staleHeaders[c.header.blockHashHex]? = none) : t.staleProofs[p.proofId]? = none := by
  by_contra hused
  obtain ⟨q, hq⟩ := Option.ne_none_iff_exists'.mp hused
  obtain ⟨d, hd, hproves⟩ := hdrawn _ q hq
  have hids : Hex.encode (sha256 c.idInput).toList = Hex.encode (sha256 d.idInput).toList := by
    rw [← hp.proofId, ← hproves.proofId]
    exact h.proofKey _ q hq
  have hinput := hfree c hc d hd (Vector.toList_inj.mp (Hex.encode_injective hids))
  obtain ⟨header, hheader, -⟩ := h.headerOf _ q hq
  rw [hproves.blockHash, ← idInput_blockHash hinput] at hheader
  exact absurd (hnew.symm.trans hheader) (by simp)

theorem evictOldest_bounded {it : Iteration} {rounds : ℕ} {t t' : LoserChainTracker}
    (h : Indexed t') (he : evictOldest it rounds t = some t') :
    t'.staleHeaders.size ≤ maxStaleHistory := by
  rcases evictOldest_exit he with hfits | hnone
  · exact hfits
  · have hempty : t'.staleHeaders = ∅ := by
      apply ExtTreeMap.ext_getElem?
      intro k
      cases hk : t'.staleHeaders[k]? with
      | none => simp
      | some header =>
        obtain ⟨id, p, hp, -⟩ := h.proofOf k header hk
        exact absurd ((hnone id).symm.trans hp) (by simp)
    rw [hempty]
    simp

structure Kept (sha256 : Bytes → Hash) (calls : List Call) (t : LoserChainTracker) : Prop where
  indexed : Indexed t
  drawn : Drawn sha256 calls t
  bounded : t.staleHeaders.size ≤ maxStaleHistory

theorem Kept.record {calls : List Call} (hfree : CollisionFreeOn sha256 calls)
    {t t' : LoserChainTracker} (h : Kept sha256 calls t) {c : Call} (hc : c ∈ calls)
    {r : Except StaleBlockError StaleWorkProof} (hr : t.recordStaleBlock sha256 c = some (r, t')) :
    Kept sha256 calls t' := by
  rcases record_cases hr with ⟨e, -, rfl⟩ | ⟨p, -, hnew, hp, hevicted⟩
  · exact h
  · have hproves := checkedProof_proves hp
    have hid := proofId_free hfree h.indexed h.drawn hc hproves hnew
    have hstored : Indexed (t.store c.header p) ∧ Drawn sha256 calls (t.store c.header p) :=
      ⟨h.indexed.store hnew hid hproves.blockHash hproves.height, h.drawn.store hc hproves⟩
    have hkept := evictOldest_invariant
      (P := fun t => Indexed t ∧ Drawn sha256 calls t)
      (fun _ id hs => ⟨hs.1.evict id, hs.2.evict id⟩) hstored hevicted
    exact ⟨hkept.1, hkept.2, evictOldest_bounded hkept.1 hevicted⟩

theorem Keyed.record {t t' : LoserChainTracker} (h : Keyed t) {c : Call}
    {r : Except StaleBlockError StaleWorkProof} (hr : t.recordStaleBlock sha256 c = some (r, t')) :
    Keyed t' := by
  rcases record_cases hr with ⟨e, -, rfl⟩ | ⟨p, -, -, -, hevicted⟩
  · exact h
  · exact evictOldest_invariant (fun _ id hs => hs.evict id) (h.store c.header p) hevicted

theorem exec_ends (sha256 : Bytes → Hash) (calls : List Call) {t : LoserChainTracker}
    (h : Keyed t) : ∃ t', exec (step sha256) t calls = some t' := by
  induction calls generalizing t with
  | nil => exact ⟨t, rfl⟩
  | cons c calls ih =>
    obtain ⟨⟨r, u⟩, hr⟩ := record_ends sha256 h c
    obtain ⟨t', ht'⟩ := ih (h.record hr)
    exact ⟨t', by rw [exec, step, hr]; exact ht'⟩

theorem kept_run {calls : List Call} (hfree : CollisionFreeOn sha256 calls)
    {t : LoserChainTracker} (h : exec (step sha256) LoserChainTracker.new calls = some t) :
    Kept sha256 calls t := by
  have hadmitted : Admitted (step sha256) (fun _ c => c ∈ calls) LoserChainTracker.new calls :=
    Admitted.of_forall (fun c hc _ => hc) _
  apply (hadmitted.run h).invariant (P := Kept sha256 calls)
  · exact ⟨indexed_new, by simp [Drawn, LoserChainTracker.new],
      by simp [LoserChainTracker.new]⟩
  · intro t c u hkept hc hs
    obtain ⟨⟨r, u'⟩, hr, rfl⟩ := Option.map_eq_some_iff.mp hs
    exact hkept.record hfree hc hr

/-- Any calls lead to a state in which the indexes agree and the history fits; a
further call ends there as well, and changes nothing if it fails. -/
theorem tracker_indexed (sha256 : Bytes → Hash) (calls : List Call)
    (hfree : CollisionFreeOn sha256 calls) :
    ∃ t, exec (step sha256) LoserChainTracker.new calls = some t ∧ Indexed t ∧
      t.staleHeaders.size ≤ maxStaleHistory ∧
      (∀ c, ∃ out, t.recordStaleBlock sha256 c = some out) ∧
      ∀ c e t', t.recordStaleBlock sha256 c = some (.error e, t') → t' = t := by
  obtain ⟨t, ht⟩ := exec_ends sha256 calls indexed_new.proofKey
  have hkept := kept_run hfree ht
  refine ⟨t, ht, hkept.indexed, hkept.bounded, record_ends sha256 hkept.indexed.proofKey, ?_⟩
  intro c e t' hr
  rcases record_cases hr with ⟨-, -, hsame⟩ | ⟨p, hok, -⟩
  · exact hsame
  · simp at hok

def toySha256 (bs : Bytes) : Hash :=
  if bs.length = blockHeaderSize then hashAt bs 76
  else if bs.length = 32 then hashAt bs 0
  else hashAt bs 19

def toyHeader (nonce : UInt32) : StaleBlockHeader :=
  .fromFields toySha256 0 zeroHash zeroHash 0 0 nonce 0

def toyCall (nonce : UInt32) : Call where
  header := toyHeader nonce
  canonicalHash := Vector.replicate 32 255
  reorgDepth := 1
  submitter := []
  clock := { age := 0, score := 0, created := 0 }
  iteration := { order := id, perm := List.Perm.refl }

theorem tracker_indexed_toy :
    ∃ t, exec (step toySha256) LoserChainTracker.new [toyCall 1, toyCall 2, toyCall 1] = some t ∧
      Indexed t ∧ t.staleHeaders.size ≤ maxStaleHistory ∧
      (∀ c, ∃ out, t.recordStaleBlock toySha256 c = some out) ∧
      ∀ c e t', t.recordStaleBlock toySha256 c = some (.error e, t') → t' = t :=
  tracker_indexed toySha256 [toyCall 1, toyCall 2, toyCall 1]
    (by unfold CollisionFreeOn; decide +kernel)

end BinaChain.LoserChain
