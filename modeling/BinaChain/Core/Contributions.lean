import BinaChain.Core.LoserChain
import Mathlib.Data.List.Perm.Subperm

/-!
# What the stale blocks contribute to the cumulative entropy

Every block that is harvested is exclusive-ored into the cumulative entropy. A
second harvest of it is prevented by the history, which forgets.
-/

set_option autoImplicit false

namespace BinaChain.Contributions
open BinaChain.Word BinaChain.Text BinaChain.Crypto BinaChain.Block BinaChain.StaleBlock
open BinaChain.LoserChain
open BinaChain.LoserChain.LoserChainTracker BinaChain.Machine BinaChain.Maps Std

variable {sha256 : Bytes → Hash}

def harvest (sha256 : Bytes → Hash) (t : LoserChainTracker) (c : Call) (_ : LoserChainTracker)
    (harvested : List StaleWorkProof) : List StaleWorkProof :=
  match t.recordStaleBlock sha256 c with
  | some (.ok p, _) => harvested++[p]
  | _ => harvested

/-- The tracker together with the proofs of the blocks it has harvested. -/
abbrev harvestStep (sha256 : Bytes → Hash) :
    LoserChainTracker × List StaleWorkProof → Call →
      Option (LoserChainTracker × List StaleWorkProof) :=
  recording (step sha256) (harvest sha256)

def xorAll (hashes : List Hash) : Hash := hashes.foldl xor32 zeroHash

def blockHashes (harvested : List StaleWorkProof) : List Hash :=
  harvested.map StaleWorkProof.blockHash

def Accepts (sha256 : Bytes → Hash) (t : LoserChainTracker) (c : Call) (p : StaleWorkProof) :
    Prop := t.staleHeaders[c.header.blockHashHex]? = none ∧ c.checkedProof sha256 = .ok p

/-- A block that was harvested before is no longer in the history, and in order still. -/
def Resubmits (sha256 : Bytes → Hash) (x : LoserChainTracker × List StaleWorkProof) (c : Call) :
    Prop :=
  c.header.blockHash ∈ blockHashes x.2 ∧ x.1.staleHeaders[c.header.blockHashHex]? = none ∧
    c.InOrder sha256

theorem accepts_iff {t : LoserChainTracker} {c : Call} : (∃ p, Accepts sha256 t c p) ↔
    t.staleHeaders[c.header.blockHashHex]? = none ∧ c.InOrder sha256 := by
  unfold Accepts
  rw [exists_and_left, checkedProof_accepts_iff]

theorem harvest_accepted {x y : LoserChainTracker × List StaleWorkProof} {c : Call}
    {p : StaleWorkProof} (h : harvestStep sha256 x c = some y) (ha : Accepts sha256 x.1 c p) :
    y.2 = x.2++[p] ∧ evictOldest c.iteration ((x.1.store c.header p).staleProofs.size+1)
      (x.1.store c.header p) = some y.1 := by
  obtain ⟨hstep, hnote⟩ := recording_eq_some.mp h
  obtain ⟨⟨r, t⟩, hr, hy⟩ := Option.map_eq_some_iff.mp hstep
  dsimp only at hy
  subst hy
  have hrecord := hr
  rw [record_accepted ha.1 ha.2] at hrecord
  obtain ⟨t, ht, he⟩ := Option.map_eq_some_iff.mp hrecord
  obtain ⟨rfl, rfl⟩ := Prod.mk.inj he
  rw [hnote, harvest, hr]
  exact ⟨rfl, ht⟩

theorem harvest_refused {x y : LoserChainTracker × List StaleWorkProof} {c : Call}
    (h : harvestStep sha256 x c = some y) (hn : ∀ p, ¬ Accepts sha256 x.1 c p) : y = x := by
  obtain ⟨hstep, hnote⟩ := recording_eq_some.mp h
  obtain ⟨⟨r, t⟩, hr, hy⟩ := Option.map_eq_some_iff.mp hstep
  dsimp only at hy
  subst hy
  rcases record_cases hr with ⟨e, rfl, hsame⟩ | ⟨p, -, hnew, hp, -⟩
  · rw [harvest, hr] at hnote
    exact Prod.ext hsame hnote
  · exact absurd ⟨hnew, hp⟩ (hn p)

theorem harvest_cases {x y : LoserChainTracker × List StaleWorkProof} {c : Call}
    (h : harvestStep sha256 x c = some y) :
    (∃ p, Accepts sha256 x.1 c p ∧ y.2 = x.2++[p] ∧
      evictOldest c.iteration ((x.1.store c.header p).staleProofs.size+1)
        (x.1.store c.header p) = some y.1) ∨
      (¬ ∃ p, Accepts sha256 x.1 c p) ∧ y = x := by
  by_cases ha : ∃ p, Accepts sha256 x.1 c p
  · obtain ⟨p, hp⟩ := ha
    exact .inl ⟨p, hp, harvest_accepted h hp⟩
  · exact .inr ⟨ha, harvest_refused h (not_exists.mp ha)⟩

theorem accepts_blockHash {t : LoserChainTracker} {c : Call} {p : StaleWorkProof}
    (h : Accepts sha256 t c p) : p.blockHash = c.header.blockHash :=
  (checkedProof_proves h.2).blockHash

theorem harvest_blockHashes {x y : LoserChainTracker × List StaleWorkProof} {c : Call}
    {p : StaleWorkProof} (h : harvestStep sha256 x c = some y) (ha : Accepts sha256 x.1 c p) :
    blockHashes y.2 = (blockHashes x.2).concat c.header.blockHash := by
  rw [(harvest_accepted h ha).1, blockHashes, List.map_append, List.map_singleton,
    accepts_blockHash ha, List.concat_eq_append]
  rfl

theorem evictOldest_entropy {it : Iteration} {rounds : ℕ} {t t' : LoserChainTracker}
    (he : evictOldest it rounds t = some t') : t'.cumulativeEntropy = t.cumulativeEntropy := by
  apply evictOldest_invariant (P := fun u => u.cumulativeEntropy = t.cumulativeEntropy) _ rfl he
  intro u id hu
  unfold evict
  split
  · exact hu
  · exact hu

theorem harvest_entropy {x y : LoserChainTracker × List StaleWorkProof} {c : Call}
    (hx : x.1.cumulativeEntropy = xorAll (x.2.map StaleWorkProof.entropy))
    (h : harvestStep sha256 x c = some y) :
    y.1.cumulativeEntropy = xorAll (y.2.map StaleWorkProof.entropy) := by
  rcases harvest_cases h with ⟨p, -, hlog, hevicted⟩ | ⟨-, rfl⟩
  · rw [evictOldest_entropy hevicted, hlog, List.map_append, xorAll, List.foldl_append]
    show xor32 x.1.cumulativeEntropy p.entropy = _
    rw [hx]
    rfl
  · exact hx

theorem harvest_extends {x y : LoserChainTracker × List StaleWorkProof} {c : Call}
    (h : harvestStep sha256 x c = some y) : x.2 <+: y.2 := by
  rcases harvest_cases h with ⟨p, -, hlog, -⟩ | ⟨-, rfl⟩
  · rw [hlog]
    exact List.prefix_append _ _
  · exact List.prefix_rfl

theorem harvest_nodup {x y : LoserChainTracker × List StaleWorkProof} {c : Call}
    (h : harvestStep sha256 x c = some y) (hx : (blockHashes x.2).Nodup) :
    (blockHashes y.2).Nodup ↔ ¬ Resubmits sha256 x c := by
  rcases harvest_cases h with ⟨p, hp, -, -⟩ | ⟨ha, rfl⟩
  · rw [harvest_blockHashes h hp, List.nodup_concat, Resubmits]
    constructor
    · exact fun hnew hr => hnew.1 hr.1
    · exact fun hn => ⟨fun hmem => hn ⟨hmem, accepts_iff.mp ⟨p, hp⟩⟩, hx⟩
  · exact ⟨fun _ hr => ha (accepts_iff.mpr hr.2), fun _ => hx⟩

/-- Up to the bound the history holds every block that was harvested. -/
def Complete (x : LoserChainTracker × List StaleWorkProof) : Prop :=
  x.2.length ≤ maxStaleHistory → x.1.staleHeaders.size = x.2.length ∧ (blockHashes x.2).Nodup ∧
    ∀ hash ∈ blockHashes x.2, x.1.staleHeaders[hashHex hash]? ≠ none

theorem Complete.step {x y : LoserChainTracker × List StaleWorkProof} {c : Call}
    (hx : Complete x) (h : harvestStep sha256 x c = some y) : Complete y := by
  rcases harvest_cases h with ⟨p, hp, hlog, hevicted⟩ | ⟨-, rfl⟩
  · have hhashes := harvest_blockHashes h hp
    intro hfew
    rw [hlog, List.length_append, List.length_singleton] at hfew
    obtain ⟨hsize, hnodup, hheld⟩ := hx (by omega)
    have hstored : (x.1.store c.header p).staleHeaders.size = x.2.length+1 := by
      rw [← hsize]
      exact size_insert_of_none hp.1 c.header
    rw [evictOldest, if_neg (by omega)] at hevicted
    rw [← Option.some.inj hevicted, hhashes, hlog, List.length_append, List.length_singleton,
      List.nodup_concat]
    refine ⟨hstored, ⟨fun hmem => hheld _ hmem hp.1, hnodup⟩, ?_⟩
    intro hash hmem
    rw [List.concat_eq_append, List.mem_append, List.mem_singleton] at hmem
    dsimp only [LoserChainTracker.store]
    rw [getElem?_insert_eq]
    split
    · simp
    · rename_i hother
      rcases hmem with hmem | rfl
      · exact hheld hash hmem
      · exact absurd rfl hother
  · exact hx

theorem exec_complete {calls : List Call} {x : LoserChainTracker × List StaleWorkProof}
    (h : exec (harvestStep sha256) (LoserChainTracker.new, []) calls = some x) : Complete x := by
  apply (exec_reach h).invariant (P := Complete)
  · exact fun _ => ⟨by simp [LoserChainTracker.new], by simp [blockHashes],
      by simp [blockHashes]⟩
  · exact fun _ _ _ hx _ hs => hx.step hs

/-- Each block contributes at most once exactly if no call brings back a block that
the history has dropped, and the history drops none before its bound is harvested. -/
theorem contributions_once_iff (sha256 : Bytes → Hash) (calls : List Call) :
    ∃ x, exec (harvestStep sha256) (LoserChainTracker.new, []) calls = some x ∧
      x.1.cumulativeEntropy = xorAll (x.2.map StaleWorkProof.entropy) ∧
      ((blockHashes x.2).Nodup ↔ Admitted (harvestStep sha256)
        (fun x c => ¬ Resubmits sha256 x c) (LoserChainTracker.new, []) calls) ∧
      (x.2.length ≤ maxStaleHistory → (blockHashes x.2).Nodup ∧
        ∀ hash ∈ blockHashes x.2, x.1.staleHeaders[hashHex hash]? ≠ none) := by
  obtain ⟨t, ht⟩ := exec_ends sha256 calls indexed_new.proofKey
  obtain ⟨harvested, hx⟩ := exec_recorded ht (harvest sha256) []
  refine ⟨(t, harvested), hx, ?_, ?_, fun hfew => (exec_complete hx hfew).2⟩
  · apply (exec_reach hx).invariant
      (P := fun x => x.1.cumulativeEntropy = xorAll (x.2.map StaleWorkProof.entropy)) rfl
    intro x c y hP _ hs
    exact harvest_entropy hP hs
  · rw [← exec_crossing_iff (P := fun _ => True) (Q := fun x => ¬ (blockHashes x.2).Nodup)
      (fun _ _ _ _ _ => trivial) ?_ ?_ trivial hx (by simp [blockHashes]), not_not]
    · intro x c y _ hs hdup hnodup
      exact hdup (((harvest_extends hs).sublist.map _).nodup hnodup)
    · intro x c y _ hs hnodup
      rw [harvest_nodup hs (not_not.mp hnodup), not_not]

def Logged (x : LoserChainTracker × List StaleWorkProof) : Prop :=
  ∀ (k : Str) (h : StaleBlockHeader), x.1.staleHeaders[k]? = some h →
    ∃ hash ∈ blockHashes x.2, hashHex hash = k

theorem Logged.evict {t : LoserChainTracker} {harvested : List StaleWorkProof}
    (h : Logged (t, harvested)) (id : Str) : Logged (t.evict id, harvested) := by
  unfold LoserChainTracker.evict
  split
  · exact h
  · exact fun k h' hk => h k h' (getElem?_erase_some.mp hk).2

theorem Logged.step {x y : LoserChainTracker × List StaleWorkProof} {c : Call} (hx : Logged x)
    (h : harvestStep sha256 x c = some y) : Logged y := by
  rcases harvest_cases h with ⟨p, hp, hlog, hevicted⟩ | ⟨-, rfl⟩
  · have hstored : Logged (x.1.store c.header p, y.2) := by
      intro k h' hk
      rw [hlog, blockHashes, List.map_append]
      rcases (store_headers hp.1).mp hk with ⟨hkey, -⟩ | hk
      · refine ⟨p.blockHash, by simp, ?_⟩
        rw [accepts_blockHash hp]
        exact hkey
      · obtain ⟨hash, hmem, hhex⟩ := hx k h' hk
        exact ⟨hash, List.mem_append_left _ hmem, hhex⟩
    exact evictOldest_invariant (P := fun u => Logged (u, y.2)) (fun _ id hs => hs.evict id)
      hstored hevicted
  · exact hx

theorem harvested_all {calls : List Call} (hok : ∀ c ∈ calls, c.InOrder sha256)
    (hnodup : (calls.map fun c => c.header.blockHash).Nodup)
    {x : LoserChainTracker × List StaleWorkProof}
    (h : exec (harvestStep sha256) (LoserChainTracker.new, []) calls = some x) :
    Logged x ∧ blockHashes x.2 = calls.map fun c => c.header.blockHash := by
  induction calls using List.reverseRecOn generalizing x with
  | nil =>
    obtain rfl := Option.some.inj h
    exact ⟨by simp [Logged, LoserChainTracker.new], rfl⟩
  | append_singleton calls c ih =>
    rw [exec_append] at h
    obtain ⟨u, hu, hlast⟩ := Option.bind_eq_some_iff.mp h
    obtain ⟨y, hy, hyx⟩ := Option.bind_eq_some_iff.mp hlast
    obtain rfl := Option.some.inj hyx
    rw [List.map_append, List.map_singleton, List.nodup_append] at hnodup
    obtain ⟨hlogged, hlog⟩ := ih (fun c' hc => hok c' (by simp [hc])) hnodup.1 hu
    obtain ⟨p, hp⟩ := checkedProof_accepts_iff.mpr (hok c (by simp))
    have hnew : u.1.staleHeaders[c.header.blockHashHex]? = none := by
      by_contra hold
      obtain ⟨h', hh'⟩ := Option.ne_none_iff_exists'.mp hold
      obtain ⟨hash, hmem, hhex⟩ := hlogged _ h' hh'
      obtain rfl := hashHex_injective hhex
      rw [hlog] at hmem
      exact hnodup.2.2 _ hmem _ (by simp) rfl
    refine ⟨hlogged.step hy, ?_⟩
    rw [harvest_blockHashes hy ⟨hnew, hp⟩, hlog, List.concat_eq_append, List.map_append,
      List.map_singleton]

/-- Of more blocks than the history holds, one can be harvested again. -/
theorem dropped_block_harvested_again {calls : List Call} (hfree : CollisionFreeOn sha256 calls)
    (hok : ∀ c ∈ calls, c.InOrder sha256)
    (hnodup : (calls.map fun c => c.header.blockHash).Nodup)
    (hmany : maxStaleHistory < calls.length) :
    ∃ c ∈ calls, ∃ x,
      exec (harvestStep sha256) (LoserChainTracker.new, []) (calls++[c]) = some x ∧
        ¬ (blockHashes x.2).Nodup := by
  obtain ⟨t, ht⟩ := exec_ends sha256 calls indexed_new.proofKey
  obtain ⟨harvested, hx⟩ := exec_recorded ht (harvest sha256) []
  have hall := (harvested_all hok hnodup hx).2
  have hdropped : ∃ c ∈ calls, t.staleHeaders[c.header.blockHashHex]? = none := by
    by_contra hkept
    have hkeys : (calls.map fun c => c.header.blockHashHex) ⊆ t.staleHeaders.keys := by
      intro k hk
      obtain ⟨c, hc, rfl⟩ := List.mem_map.mp hk
      rw [ExtTreeMap.mem_keys, ExtTreeMap.mem_iff_isSome_getElem?, Option.isSome_iff_ne_none]
      exact fun hnone => hkept ⟨c, hc, hnone⟩
    have hdistinct : (calls.map fun c => c.header.blockHashHex).Nodup := by
      have := hnodup.map (f := hashHex) fun a b => hashHex_injective
      rwa [List.map_map] at this
    have hle := (hdistinct.subperm hkeys).length_le
    rw [List.length_map, ExtTreeMap.length_keys] at hle
    exact absurd (kept_run hfree ht).bounded (by omega)
  obtain ⟨c, hc, hnew⟩ := hdropped
  obtain ⟨p, hp⟩ := checkedProof_accepts_iff.mpr (hok c hc)
  obtain ⟨⟨r, t'⟩, hr⟩ := record_ends sha256 (kept_run hfree ht).indexed.proofKey c
  have hlast : exec (step sha256) t [c] = some t' := by
    rw [exec, step, hr]
    rfl
  obtain ⟨harvested', hx'⟩ := exec_recorded hlast (harvest sha256) harvested
  refine ⟨c, hc, (t', harvested'), ?_, ?_⟩
  · rw [exec_append, hx]
    exact hx'
  · obtain ⟨y, hy, hyx⟩ := Option.bind_eq_some_iff.mp hx'
    obtain rfl := Option.some.inj hyx
    rw [harvest_blockHashes hy ⟨hnew, hp⟩, List.nodup_concat, hall]
    exact fun hn => hn.1 (List.mem_map_of_mem hc)

theorem hashAt_toList (raw : Bytes) (offset : ℕ) :
    (hashAt raw offset).toList = (List.range 32).map fun i => raw.getD (offset+i) 0 := by
  apply List.ext_getElem
  · simp
  · intro i hi hi'
    simp [hashAt]

theorem hashAt_end (pre bs : Bytes) (h : bs.length ≤ 32) :
    (hashAt (pre++bs) pre.length).toList = bs++List.replicate (32-bs.length) 0 := by
  rw [hashAt_toList]
  apply List.ext_getElem
  · simp
    omega
  · intro i hi hi'
    simp only [List.getElem_map, List.getElem_range, List.getD_eq_getElem?_getD]
    rw [List.getElem?_append_right (by omega), Nat.add_sub_cancel_left, List.getElem_append]
    split
    · rename_i hin
      rw [List.getElem?_eq_getElem hin, Option.getD_some]
    · rename_i hout
      rw [List.getElem?_eq_none (by omega), List.getElem_replicate, Option.getD_none]

theorem leadingZeroBitsFrom_replicate (k : ℕ) (bs : Bytes) :
    leadingZeroBitsFrom (List.replicate k 0++bs) = 8*k+leadingZeroBitsFrom bs := by
  induction k with
  | zero => simp
  | succ k ih =>
    rw [List.replicate_succ, List.cons_append, leadingZeroBitsFrom_zero, ih]
    omega

theorem toySha256_digest (v : Hash) : toySha256 v.toList = v := by
  rw [toySha256, if_neg (by simp [blockHeaderSize]), if_pos (by simp)]
  simpa using hashAt_append [] [] v

theorem toySha256_header {pre bs : Bytes} (hpre : pre.length = 76) (hbs : bs.length = 4) :
    (toySha256 (pre++bs)).toList = bs++List.replicate 28 0 := by
  have hend := hashAt_end pre bs (by omega)
  rw [hpre, hbs] at hend
  rw [toySha256, if_pos (by simp [hpre, hbs, blockHeaderSize])]
  exact hend

theorem toyHeader_blockHash (nonce : UInt32) : (toyHeader nonce).blockHash.toList =
    leBytes 4 nonce.toNat++List.replicate 28 0 := by
  rw [toyHeader, StaleBlockHeader.fromFields]
  dsimp only
  rw [doubleSha256, toySha256_digest, StaleBlockHeader.serializeHeader,
    toySha256_header (by simp) (by simp)]

theorem toyHeader_injective {a b : UInt32}
    (h : (toyHeader a).blockHash = (toyHeader b).blockHash) : a = b := by
  have hbytes := congrArg Vector.toList h
  rw [toyHeader_blockHash, toyHeader_blockHash] at hbytes
  have ha := wordAt_append [] (List.replicate 28 0) a
  have hb := wordAt_append [] (List.replicate 28 0) b
  rw [List.nil_append, hbytes] at ha
  exact ha.symm.trans hb

theorem toyHeader_work (nonce : UInt32) : minLeadingZeros ≤ (toyHeader nonce).leadingZeroBits := by
  rw [StaleBlockHeader.leadingZeroBits, countLeadingZeroBitsBe, toyHeader_blockHash,
    List.reverse_append, List.reverse_replicate, leadingZeroBitsFrom_replicate, minLeadingZeros]
  omega

theorem toyHeader_stale (nonce : UInt32) :
    (toyHeader nonce).blockHash ≠ Vector.replicate 32 255 := by
  intro hstale
  have hbytes := congrArg Vector.toList hstale
  rw [toyHeader_blockHash] at hbytes
  have hlast := congrArg (·[31]?) hbytes
  simp at hlast

theorem toyCall_inOrder (nonce : UInt32) : (toyCall nonce).InOrder toySha256 where
  fresh := Nat.zero_le _
  work := toyHeader_work nonce
  depth := (by decide : (1 : UInt32).toNat ≤ maxReorgDepth)
  hashed := StaleBlockHeader.fromFields_hashed toySha256 0 zeroHash zeroHash 0 0 nonce 0
  stale := toyHeader_stale nonce

theorem toyCall_id (nonce : UInt32) :
    toySha256 (toyCall nonce).idInput = (toyHeader nonce).blockHash := by
  have htag : proofTag.length = 19 := by decide
  have hread := hashAt_append proofTag ((toyCall nonce).canonicalHash.toList++
    leBytes 8 (toyCall nonce).header.height.toNat++leBytes 4 (toyCall nonce).reorgDepth.toNat++
    strBytes (toyCall nonce).submitter) (toyHeader nonce).blockHash
  rw [htag] at hread
  rw [toySha256, Call.idInput, proofPreimage, if_neg, if_neg]
  · simpa [toyCall] using hread
  · simp [htag, toyCall, strBytes]
  · simp [htag, toyCall, strBytes, blockHeaderSize]

theorem toyCall_collisionFree (nonces : List UInt32) :
    CollisionFreeOn toySha256 (nonces.map toyCall) := by
  intro c hc d hd h
  obtain ⟨a, -, rfl⟩ := List.mem_map.mp hc
  obtain ⟨b, -, rfl⟩ := List.mem_map.mp hd
  rw [toyCall_id, toyCall_id] at h
  rw [toyHeader_injective h]

def toyCalls : List Call := ((List.range (maxStaleHistory+1)).map UInt32.ofNat).map toyCall

theorem block_harvested_twice : ¬ ∀ (sha256 : Bytes → Hash) (calls : List Call)
    (x : LoserChainTracker × List StaleWorkProof),
    exec (harvestStep sha256) (LoserChainTracker.new, []) calls = some x →
      (blockHashes x.2).Nodup := by
  intro h
  have hdistinct : (toyCalls.map fun c => c.header.blockHash).Nodup := by
    unfold toyCalls
    rw [List.map_map]
    apply List.Nodup.map (fun a b hab => toyHeader_injective hab)
    apply List.Nodup.map_on _ List.nodup_range
    intro a ha b hb hab
    have hword := congrArg UInt32.toNat hab
    rw [List.mem_range, maxStaleHistory] at ha hb
    simp only [UInt32.toNat_ofNat'] at hword
    omega
  have hok : ∀ c ∈ toyCalls, c.InOrder toySha256 := by
    intro c hc
    obtain ⟨nonce, -, rfl⟩ := List.mem_map.mp hc
    exact toyCall_inOrder nonce
  obtain ⟨c, -, x, hx, htwice⟩ := dropped_block_harvested_again
    (toyCall_collisionFree _) hok hdistinct (by simp)
  exact htwice (h toySha256 _ x hx)

end BinaChain.Contributions
