import BinaChain.Node.Body

/-!
# The lists behind a merkle root

A root determines the sequence of identifiers that its rounds complete a list
to. Lists of different lengths can be completed alike, because an odd round
repeats its last node.
-/

set_option autoImplicit false

namespace BinaChain.Commitment
open BinaChain.Word BinaChain.Text BinaChain.Crypto BinaChain.Transaction BinaChain.Rewards
open BinaChain.Execution BinaChain.Body

def txIds (K : Primitives) (txs : List SignedTransaction) : List Hash :=
  txs.map (SignedTransaction.txId K)

def inputBytes : Merkle.Input Bytes Hash → Bytes
  | .leaf b => b
  | .pair a b => nodeInput a b

def inputDigest (K : Primitives) (i : Merkle.Input Bytes Hash) : Hash := K.blake3 (inputBytes i)

theorem mem_hashed_bytes {K : Primitives} {txs : List SignedTransaction}
    {i : Merkle.Input Bytes Hash}
    (hi : i ∈ Merkle.hashed (inputDigest K) (txs.map (idInput K))) :
    inputBytes i ∈ hashed K txs := by
  rcases hi with ⟨b, hb, rfl⟩ | ⟨p, hp, rfl⟩
  · exact List.mem_append_left _ (List.mem_append_right _ hb)
  · rw [List.length_map, List.map_map] at hp
    exact List.mem_append_right _
      (List.mem_map_of_mem (f := fun p : Hash × Hash => nodeInput p.1 p.2) hp)

theorem leaf_of_mem {K : Primitives} {txs txs' : List SignedTransaction} {b : Bytes}
    (h : Merkle.Input.leaf b ∈ Merkle.hashed (inputDigest K) (txs.map (idInput K)) ∪
      Merkle.hashed (inputDigest K) (txs'.map (idInput K))) : ∃ s, idInput K s = b := by
  rcases h with (⟨c, hc, he⟩ | ⟨p, -, he⟩) | ⟨c, hc, he⟩ | ⟨p, -, he⟩
  · rw [Merkle.Input.leaf.inj he]
    exact (List.mem_map.mp hc).imp fun _ hs => hs.2
  · nomatch he
  · rw [Merkle.Input.leaf.inj he]
    exact (List.mem_map.mp hc).imp fun _ hs => hs.2
  · nomatch he

theorem inputDigest_injOn {K : Primitives} {txs txs' : List SignedTransaction}
    (hfree : CollisionFree K (hashed K txs++hashed K txs')) : Set.InjOn (inputDigest K)
      (Merkle.hashed (inputDigest K) (txs.map (idInput K)) ∪
        Merkle.hashed (inputDigest K) (txs'.map (idInput K))) := by
  have hinput : ∀ i ∈ Merkle.hashed (inputDigest K) (txs.map (idInput K)) ∪
      Merkle.hashed (inputDigest K) (txs'.map (idInput K)),
      inputBytes i ∈ hashed K txs++hashed K txs' := by
    intro i hi
    rcases hi with hi | hi
    · exact List.mem_append_left _ (mem_hashed_bytes hi)
    · exact List.mem_append_right _ (mem_hashed_bytes hi)
  intro i hi j hj h
  have hin := hfree _ (hinput i hi) _ (hinput j hj) h
  cases i with
  | leaf b =>
    cases j with
    | leaf c => exact congrArg _ hin
    | pair x y =>
      obtain ⟨s, rfl⟩ := leaf_of_mem hi
      exact absurd hin (idInput_ne_nodeInput K s x y)
  | pair x y =>
    cases j with
    | leaf c =>
      obtain ⟨s, rfl⟩ := leaf_of_mem hj
      exact absurd hin.symm (idInput_ne_nodeInput K s x y)
    | pair z w =>
      obtain ⟨hx, hy⟩ := nodeInput_injective hin
      rw [hx, hy]

theorem merkleRoot_ne_zero {K : Primitives} {txs : List SignedTransaction} (h : txs ≠ [])
    (hzero : ∀ x ∈ hashed K txs, K.blake3 x ≠ zeroHash) : merkleRoot K txs ≠ zeroHash := by
  obtain ⟨i, hi, hroot, -⟩ := merkleRoot_eq K h
  rw [hroot]
  exact hzero _ (mem_hashed hi)

theorem completed_ne_nil {δ : Type} {l : List δ} (h : l ≠ []) : Merkle.completed l ≠ [] := by
  intro he
  have hbegins := Merkle.begins_completed l
  rw [he] at hbegins
  exact h (List.prefix_nil.mp hbegins)

theorem merkleRoot_eq_iff {K : Primitives} {txs txs' : List SignedTransaction}
    (hfree : CollisionFree K (hashed K txs++hashed K txs'))
    (hzero : ∀ x ∈ hashed K txs++hashed K txs', K.blake3 x ≠ zeroHash) :
    merkleRoot K txs = merkleRoot K txs' ↔
      Merkle.completed (txIds K txs) = Merkle.completed (txIds K txs') := by
  have hempty : merkleRoot K [] = zeroHash := rfl
  by_cases he : txs = [] <;> by_cases he' : txs' = []
  · rw [he, he']
    exact ⟨fun _ => rfl, fun _ => rfl⟩
  · have hroot := merkleRoot_ne_zero he' fun x hx => hzero x (List.mem_append_right _ hx)
    have hids : Merkle.completed (txIds K txs') ≠ [] := completed_ne_nil (by simpa [txIds] using he')
    rw [he, hempty]
    exact ⟨fun h => absurd h.symm hroot, fun h => absurd h.symm hids⟩
  · have hroot := merkleRoot_ne_zero he fun x hx => hzero x (List.mem_append_left _ hx)
    have hids : Merkle.completed (txIds K txs) ≠ [] := completed_ne_nil (by simpa [txIds] using he)
    rw [he', hempty]
    exact ⟨fun h => absurd h hroot, fun h => absurd h hids⟩
  · obtain ⟨-, -, -, hfold⟩ := merkleRoot_eq K he
    obtain ⟨-, -, -, hfold'⟩ := merkleRoot_eq K he'
    constructor
    · intro h
      have hbytes : Merkle.completed (txs.map (idInput K)) =
          Merkle.completed (txs'.map (idInput K)) := by
        apply Merkle.completed_of_fold (by simpa using he) (by simpa using he')
          (inputDigest_injOn hfree)
        rw [List.length_map, List.length_map, List.map_map, List.map_map]
        exact hfold.trans (by rw [h]; exact hfold'.symm)
      have hmapped := congrArg (List.map K.blake3) hbytes
      rw [← Merkle.completed_map, ← Merkle.completed_map, List.map_map, List.map_map] at hmapped
      exact hmapped
    · intro h
      have hsame := Merkle.fold_of_completed (merkleNode K) (by simpa [txIds] using he)
        (by simpa [txIds] using he') h
      unfold txIds at hsame
      rw [List.length_map, List.length_map, hfold, hfold'] at hsame
      exact List.singleton_inj.mp hsame

/-- A root commits to its sequence among lists of one length, and between two
lengths unless the rounds complete the shorter list to the same as the longer. -/
theorem root_commits_iff (K : Primitives) (txs txs' : List SignedTransaction)
    (hfree : CollisionFree K (hashed K txs++hashed K txs'))
    (hzero : ∀ x ∈ hashed K txs++hashed K txs', K.blake3 x ≠ zeroHash) :
    (merkleRoot K txs = merkleRoot K txs' → txIds K txs = txIds K txs') ↔
      (txs.length = txs'.length ∨
        Merkle.completed (txIds K txs) ≠ Merkle.completed (txIds K txs')) := by
  rw [merkleRoot_eq_iff hfree hzero]
  constructor
  · intro h
    by_cases hids : Merkle.completed (txIds K txs) = Merkle.completed (txIds K txs')
    · have hlen := congrArg List.length (h hids)
      left
      simpa [txIds] using hlen
    · exact Or.inr hids
  · rintro (hlen | hne) h
    · exact Merkle.completed_injective (by simpa [txIds] using hlen) h
    · exact absurd h hne

def toyThree : List SignedTransaction :=
  [toyTransfer 1 (toySender 2) 30 0 1, toyTransfer 1 (toySender 2) 10 1 0,
    toyTransfer 1 (toySender 2) 5 2 0]

def toyFour : List SignedTransaction := toyThree++[toyTransfer 1 (toySender 2) 5 2 0]

theorem toyThree_hashed :
    CollisionFree toyPrimitives (hashed toyPrimitives toyThree++hashed toyPrimitives toyFour) ∧
    ∀ x ∈ hashed toyPrimitives toyThree++hashed toyPrimitives toyFour,
      toyPrimitives.blake3 x ≠ zeroHash := by
  decide +kernel

theorem root_commits_iff_sample :
    (merkleRoot toyPrimitives toyThree = merkleRoot toyPrimitives toyFour →
      txIds toyPrimitives toyThree = txIds toyPrimitives toyFour) ↔
      (toyThree.length = toyFour.length ∨ Merkle.completed (txIds toyPrimitives toyThree) ≠
        Merkle.completed (txIds toyPrimitives toyFour)) :=
  root_commits_iff toyPrimitives toyThree toyFour toyThree_hashed.1 toyThree_hashed.2

theorem root_of_two_lists :
    CollisionFree toyPrimitives (hashed toyPrimitives toyThree++hashed toyPrimitives toyFour) ∧
    (∀ x ∈ hashed toyPrimitives toyThree++hashed toyPrimitives toyFour,
      toyPrimitives.blake3 x ≠ zeroHash) ∧
    merkleRoot toyPrimitives toyThree = merkleRoot toyPrimitives toyFour ∧
    txIds toyPrimitives toyThree ≠ txIds toyPrimitives toyFour := by
  refine ⟨toyThree_hashed.1, toyThree_hashed.2, by decide +kernel, fun h => ?_⟩
  have hlen := congrArg List.length h
  cases hlen

end BinaChain.Commitment
