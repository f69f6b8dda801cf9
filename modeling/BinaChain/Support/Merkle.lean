import Mathlib.Algebra.Group.Nat.Defs
import Mathlib.Data.List.Basic
import Mathlib.Data.Set.Function
import Mathlib.Tactic.Common

/-!
# Trees that pair an odd last node with itself

Rounds of pairing turn a list into one digest. The digest determines the tree
it was computed from, but the tree repeats the last leaves of an odd round, so
only a list without repetitions is determined by its tree.
-/

set_option autoImplicit false

namespace BinaChain.Merkle

variable {α β δ : Type}

/-- Neighbours in pairs; an odd last element is paired with itself. -/
def pairs : List δ → List (δ × δ)
  | [] => []
  | [a] => [(a, a)]
  | a :: b :: rest => (a, b) :: pairs rest

def layer (node : δ → δ → δ) (l : List δ) : List δ := (pairs l).map fun p => node p.1 p.2

def fold (node : δ → δ → δ) : ℕ → List δ → List δ
  | 0, l => l
  | fuel+1, l => if l.length > 1 then fold node fuel (layer node l) else l

def combined (node : δ → δ → δ) : ℕ → List δ → List (δ × δ)
  | 0, _ => []
  | fuel+1, l => if l.length > 1 then pairs l++combined node fuel (layer node l) else []

theorem pairs_length : ∀ l : List δ, (pairs l).length = (l.length+1)/2
  | [] => by simp [pairs]
  | [_] => by simp [pairs]
  | _ :: _ :: rest => by
    simp only [pairs, List.length_cons, pairs_length rest]
    omega

theorem layer_length (node : δ → δ → δ) (l : List δ) :
    (layer node l).length = (l.length+1)/2 := by
  rw [layer, List.length_map, pairs_length]

theorem fold_singleton (node : δ → δ → δ) (fuel : ℕ) {l : List δ} (hl : l ≠ [])
    (hf : l.length ≤ fuel) : ∃ a, fold node fuel l = [a] := by
  have hpos : 0 < l.length := List.length_pos_iff.mpr hl
  induction fuel generalizing l with
  | zero => omega
  | succ fuel ih =>
    rw [fold]
    split
    · have hlen := layer_length node l
      have hp : 0 < (layer node l).length := by omega
      exact ih (List.length_pos_iff.mp hp) (by omega) hp
    · exact List.length_eq_one_iff.mp (by omega)

theorem pairs_map (f : α → δ) : ∀ l : List α,
    pairs (l.map f) = (pairs l).map fun p => (f p.1, f p.2)
  | [] => rfl
  | [_] => rfl
  | _ :: _ :: rest => by simp only [List.map_cons, pairs, pairs_map f rest]

theorem layer_map {f : α → δ} {node : α → α → α} {node' : δ → δ → δ}
    (hf : ∀ a b, f (node a b) = node' (f a) (f b)) (l : List α) :
    layer node' (l.map f) = (layer node l).map f := by
  simp only [layer, pairs_map, List.map_map, Function.comp_def, hf]

theorem fold_map {f : α → δ} {node : α → α → α} {node' : δ → δ → δ}
    (hf : ∀ a b, f (node a b) = node' (f a) (f b)) (fuel : ℕ) (l : List α) :
    fold node' fuel (l.map f) = (fold node fuel l).map f := by
  induction fuel generalizing l with
  | zero => rfl
  | succ fuel ih =>
    simp only [fold, List.length_map, layer_map hf, ih]
    split <;> rfl

inductive Input (α δ : Type) where
  | leaf (a : α)
  | pair (x y : δ)

inductive Tree (α : Type) where
  | leaf (a : α)
  | node (l r : Tree α)

namespace Tree

def leaves : Tree α → List α
  | .leaf a => [a]
  | .node l r => l.leaves++r.leaves

variable (digest : Input α δ → δ)

def root : Tree α → δ
  | .leaf a => digest (.leaf a)
  | .node l r => digest (.pair l.root r.root)

theorem root_node (l r : Tree α) :
    (Tree.node l r).root digest = digest (.pair (l.root digest) (r.root digest)) := rfl

def inputs : Tree α → Set (Input α δ)
  | .leaf a => {.leaf a}
  | .node l r => {.pair (l.root digest) (r.root digest)} ∪ (l.inputs ∪ r.inputs)

variable {digest}

/-- Without collisions among what was hashed, the root determines the tree. -/
theorem root_injective {t t' : Tree α}
    (hinj : Set.InjOn digest (t.inputs digest ∪ t'.inputs digest))
    (h : t.root digest = t'.root digest) : t = t' := by
  induction t generalizing t' with
  | leaf a =>
    cases t' with
    | leaf b =>
      have he : Input.leaf a = Input.leaf b := hinj (by simp [inputs]) (by simp [inputs]) h
      rw [Input.leaf.inj he]
    | node l' r' =>
      have he : Input.leaf a = .pair (l'.root digest) (r'.root digest) :=
        hinj (by simp [inputs]) (by simp [inputs]) h
      nomatch he
  | node l r ihl ihr =>
    cases t' with
    | leaf b =>
      have he : Input.pair (l.root digest) (r.root digest) = .leaf b :=
        hinj (by simp [inputs]) (by simp [inputs]) h
      nomatch he
    | node l' r' =>
      have he : Input.pair (l.root digest) (r.root digest) =
          .pair (l'.root digest) (r'.root digest) :=
        hinj (by simp [inputs]) (by simp [inputs]) h
      obtain ⟨hl, hr⟩ := Input.pair.inj he
      have hsubl : l.inputs digest ∪ l'.inputs digest ⊆
          (Tree.node l r).inputs digest ∪ (Tree.node l' r').inputs digest := by
        intro i hi
        rcases hi with hi | hi
        · exact .inl (.inr (.inl hi))
        · exact .inr (.inr (.inl hi))
      have hsubr : r.inputs digest ∪ r'.inputs digest ⊆
          (Tree.node l r).inputs digest ∪ (Tree.node l' r').inputs digest := by
        intro i hi
        rcases hi with hi | hi
        · exact .inl (.inr (.inr hi))
        · exact .inr (.inr (.inr hi))
      rw [ihl (hinj.mono hsubl) hl, ihr (hinj.mono hsubr) hr]

end Tree

theorem layer_leaves : ∀ ts : List (Tree α), ∃ more,
    (layer Tree.node ts).flatMap Tree.leaves = ts.flatMap Tree.leaves++more ∧
      ∀ a ∈ more, a ∈ ts.flatMap Tree.leaves
  | [] => ⟨[], rfl, by simp⟩
  | [t] => ⟨t.leaves, by simp [layer, pairs, Tree.leaves], by simp⟩
  | t :: u :: rest => by
    obtain ⟨more, hsplit, hmem⟩ := layer_leaves rest
    refine ⟨more, ?_, fun a ha => ?_⟩
    · have hround : layer Tree.node (t :: u :: rest) =
          Tree.node t u :: layer Tree.node rest := rfl
      rw [hround, List.flatMap_cons, hsplit]
      simp [Tree.leaves]
    · simp only [List.flatMap_cons, List.mem_append]
      exact .inr (.inr (hmem a ha))

/-- The list is read off the leaves: it comes first and nothing else comes. -/
def Shows (l : List α) (ts : List (Tree α)) : Prop :=
  l <+: ts.flatMap Tree.leaves ∧ ∀ a ∈ ts.flatMap Tree.leaves, a ∈ l

theorem flatMap_leaf (l : List α) : (l.map Tree.leaf).flatMap Tree.leaves = l := by
  induction l with
  | nil => rfl
  | cons a l ih => simpa [Tree.leaves] using ih

theorem shows_leaves (l : List α) : Shows l (l.map Tree.leaf) := by
  unfold Shows
  rw [flatMap_leaf]
  exact ⟨List.prefix_refl l, fun a ha => ha⟩

theorem Shows.layer {l : List α} {ts : List (Tree α)} (h : Shows l ts) :
    Shows l (layer Tree.node ts) := by
  obtain ⟨more, hsplit, hmem⟩ := layer_leaves ts
  unfold Shows
  rw [hsplit]
  refine ⟨h.1.trans (List.prefix_append _ _), fun a ha => ?_⟩
  rcases List.mem_append.mp ha with ha | ha
  · exact h.2 a ha
  · exact h.2 a (hmem a ha)

theorem Shows.fold {l : List α} {ts : List (Tree α)} (h : Shows l ts) (fuel : ℕ) :
    Shows l (fold Tree.node fuel ts) := by
  induction fuel generalizing ts with
  | zero => exact h
  | succ fuel ih =>
    rw [Merkle.fold]
    split
    · exact ih h.layer
    · exact h

theorem Shows.unique {l l' : List α} {ts : List (Tree α)} (h : Shows l ts) (h' : Shows l' ts)
    (hl : l.Nodup) (hl' : l'.Nodup) : l = l' := by
  have extend : ∀ {m m' : List α}, m <+: m' → (∀ a ∈ m', a ∈ m) → m'.Nodup → m = m' := by
    intro m m' hp hall hnd
    obtain ⟨rest, rfl⟩ := hp
    cases rest with
    | nil => exact (List.append_nil m).symm
    | cons a rest =>
      have ha := hall a (by simp)
      rw [List.nodup_append] at hnd
      exact absurd rfl (hnd.2.2 a ha a List.mem_cons_self)
  rcases List.prefix_or_prefix_of_prefix h.1 h'.1 with hp | hp
  · exact extend hp (fun a ha => h.2 a (h'.1.subset ha)) hl'
  · exact (extend hp (fun a ha => h'.2 a (h.1.subset ha)) hl).symm

def evened (width : ℕ) (l : List α) : List α :=
  if l.length/width%2 = 1 then l++l.drop (l.length-width) else l

def repeated : ℕ → ℕ → List α → List α
  | 0, _, l => l
  | fuel+1, width, l => if l.length > width then repeated fuel (2*width) (evened width l) else l

/-- The list with everything that the rounds repeat. -/
def completed (l : List α) : List α := repeated l.length 1 l

theorem evened_map (f : α → β) (width : ℕ) (l : List α) :
    evened width (l.map f) = (evened width l).map f := by
  unfold evened
  rw [List.length_map]
  split
  · rw [List.map_append, List.map_drop]
  · rfl

theorem repeated_map (f : α → β) (fuel width : ℕ) (l : List α) :
    repeated fuel width (l.map f) = (repeated fuel width l).map f := by
  induction fuel generalizing width l with
  | zero => rfl
  | succ fuel ih =>
    simp only [repeated, List.length_map, evened_map, ih]
    split <;> rfl

theorem completed_map (f : α → β) (l : List α) : completed (l.map f) = (completed l).map f := by
  rw [completed, List.length_map, repeated_map, completed]

theorem evened_append {width : ℕ} (hw : 0 < width) {a r : List α} (ha : a.length = 2*width) :
    evened width (a++r) = a++evened width r := by
  have hcount : (a++r).length/width = r.length/width+2 := by
    rw [List.length_append, ha, Nat.add_comm, Nat.add_mul_div_right _ _ hw]
  unfold evened
  rw [hcount, Nat.add_mod_right]
  split
  · rename_i hodd
    have hle : width ≤ r.length := by
      by_contra hlt
      rw [Nat.div_eq_of_lt (by omega)] at hodd
      cases hodd
    have hdrop : (a++r).drop ((a++r).length-width) = r.drop (r.length-width) := by
      rw [List.length_append, Nat.add_sub_assoc hle, List.drop_length_add_append]
    rw [hdrop, List.append_assoc]
  · rfl

namespace Tree

def Perfect : ℕ → Tree α → Prop
  | 0, .leaf _ => True
  | n+1, .node l r => l.Perfect n ∧ r.Perfect n
  | _, _ => False

theorem Perfect.leaves_length {n : ℕ} {t : Tree α} (h : t.Perfect n) :
    t.leaves.length = 2^n := by
  induction n generalizing t with
  | zero =>
    cases t with
    | leaf a => rfl
    | node l r => cases h
  | succ n ih =>
    cases t with
    | leaf a => cases h
    | node l r =>
      have hl := ih h.1
      have hr := ih h.2
      rw [leaves, List.length_append, hl, hr, Nat.pow_succ]
      omega

theorem Perfect.unique {n : ℕ} {t t' : Tree α} (h : t.Perfect n) (h' : t'.Perfect n)
    (he : t.leaves = t'.leaves) : t = t' := by
  induction n generalizing t t' with
  | zero =>
    cases t with
    | node l r => cases h
    | leaf a =>
      cases t' with
      | node l' r' => cases h'
      | leaf b => rw [List.singleton_inj.mp he]
  | succ n ih =>
    cases t with
    | leaf a => cases h
    | node l r =>
      cases t' with
      | leaf b => cases h'
      | node l' r' =>
        have hlen : l.leaves.length = l'.leaves.length := by
          rw [h.1.leaves_length, h'.1.leaves_length]
        obtain ⟨hl, hr⟩ := List.append_inj he hlen
        rw [ih h.1 h'.1 hl, ih h.2 h'.2 hr]

end Tree

theorem flatMap_leaves_length {n : ℕ} {ts : List (Tree α)} (h : ∀ t ∈ ts, t.Perfect n) :
    (ts.flatMap Tree.leaves).length = ts.length*2^n := by
  induction ts with
  | nil => simp
  | cons t ts ih =>
    rw [List.flatMap_cons, List.length_append, (h t List.mem_cons_self).leaves_length,
      ih fun u hu => h u (List.mem_cons_of_mem _ hu), List.length_cons, Nat.succ_mul, Nat.add_comm]

theorem layer_perfect {n : ℕ} : ∀ {ts : List (Tree α)}, (∀ t ∈ ts, t.Perfect n) →
    ∀ t ∈ layer Tree.node ts, t.Perfect (n+1)
  | [], _, t, ht => by simp [layer, pairs] at ht
  | [u], h, t, ht => by
    obtain rfl : t = .node u u := by simpa [layer, pairs] using ht
    exact ⟨h u List.mem_cons_self, h u List.mem_cons_self⟩
  | u :: v :: rest, h, t, ht => by
    have hround : layer Tree.node (u :: v :: rest) = .node u v :: layer Tree.node rest := rfl
    rw [hround] at ht
    rcases List.mem_cons.mp ht with rfl | ht
    · exact ⟨h u (by simp), h v (by simp)⟩
    · exact layer_perfect (fun w hw => h w (by simp [hw])) t ht

theorem layer_evened {n : ℕ} : ∀ {ts : List (Tree α)}, (∀ t ∈ ts, t.Perfect n) →
    (layer Tree.node ts).flatMap Tree.leaves = evened (2^n) (ts.flatMap Tree.leaves)
  | [], _ => by simp [layer, pairs, evened]
  | [t], h => by
    have hlen := (h t List.mem_cons_self).leaves_length
    have hpos : 0 < 2^n := Nat.two_pow_pos n
    simp [layer, pairs, evened, Tree.leaves, hlen, Nat.div_self hpos]
  | t :: u :: rest, h => by
    have hround : layer Tree.node (t :: u :: rest) = .node t u :: layer Tree.node rest := rfl
    have hflat : (t :: u :: rest).flatMap Tree.leaves =
        (Tree.node t u).leaves++rest.flatMap Tree.leaves := by
      simp [Tree.leaves]
    have hfirst : (Tree.node t u).leaves.length = 2*2^n := by
      rw [Tree.leaves, List.length_append, (h t (by simp)).leaves_length,
        (h u (by simp)).leaves_length]
      omega
    rw [hround, List.flatMap_cons, layer_evened fun w hw => h w (by simp [hw]), hflat,
      evened_append (Nat.two_pow_pos n) hfirst]

theorem fold_repeated (fuel n : ℕ) {ts : List (Tree α)} (h : ∀ t ∈ ts, t.Perfect n) :
    (fold Tree.node fuel ts).flatMap Tree.leaves = repeated fuel (2^n) (ts.flatMap Tree.leaves) ∧
      ∃ m, ∀ t ∈ fold Tree.node fuel ts, t.Perfect m := by
  induction fuel generalizing n ts with
  | zero => exact ⟨rfl, n, h⟩
  | succ fuel ih =>
    have hmany : (ts.flatMap Tree.leaves).length > 2^n ↔ ts.length > 1 := by
      rw [flatMap_leaves_length h]
      exact Nat.lt_mul_iff_one_lt_left (Nat.two_pow_pos n)
    simp only [fold, repeated, hmany]
    split
    · have hdouble : 2*2^n = 2^(n+1) := by
        rw [Nat.pow_succ, Nat.mul_comm]
      rw [hdouble, ← layer_evened h]
      exact ih (n+1) (layer_perfect h)
    · exact ⟨rfl, n, h⟩

theorem layer_inputs {digest : Input α δ → δ} {P : Input α δ → Prop} : ∀ {ts : List (Tree α)},
    (∀ t ∈ ts, ∀ i ∈ t.inputs digest, P i) →
    (∀ p ∈ pairs (ts.map (Tree.root digest)), P (.pair p.1 p.2)) →
    ∀ t ∈ layer Tree.node ts, ∀ i ∈ t.inputs digest, P i
  | [], _, _, t, ht, _, _ => by simp [layer, pairs] at ht
  | [u], hts, hp, t, ht, i, hi => by
    obtain rfl : t = .node u u := by simpa [layer, pairs] using ht
    rcases hi with rfl | hi | hi
    · exact hp _ List.mem_cons_self
    · exact hts u List.mem_cons_self i hi
    · exact hts u List.mem_cons_self i hi
  | u :: v :: rest, hts, hp, t, ht, i, hi => by
    have hround : layer Tree.node (u :: v :: rest) = .node u v :: layer Tree.node rest := rfl
    rw [hround] at ht
    rcases List.mem_cons.mp ht with rfl | ht
    · rcases hi with rfl | hi | hi
      · exact hp _ List.mem_cons_self
      · exact hts u (by simp) i hi
      · exact hts v (by simp) i hi
    · exact layer_inputs (fun w hw => hts w (by simp [hw]))
        (fun p hq => hp p (List.mem_cons_of_mem _ hq)) t ht i hi

theorem fold_inputs {digest : Input α δ → δ} {P : Input α δ → Prop} (fuel : ℕ)
    (ts : List (Tree α)) (hts : ∀ t ∈ ts, ∀ i ∈ t.inputs digest, P i)
    (hp : ∀ p ∈ combined (fun x y => digest (.pair x y)) fuel (ts.map (Tree.root digest)),
      P (.pair p.1 p.2)) :
    ∀ t ∈ fold Tree.node fuel ts, ∀ i ∈ t.inputs digest, P i := by
  induction fuel generalizing ts with
  | zero => exact hts
  | succ fuel ih =>
    have hround : layer (fun x y => digest (.pair x y)) (ts.map (Tree.root digest)) =
        (layer Tree.node ts).map (Tree.root digest) := layer_map (Tree.root_node digest) ts
    rw [combined, List.length_map, hround] at hp
    rw [fold]
    split
    · rename_i hlen
      rw [if_pos hlen] at hp
      apply ih
      · exact layer_inputs hts fun p hq => hp p (List.mem_append_left _ hq)
      · exact fun p hq => hp p (List.mem_append_right _ hq)
    · exact hts

/-- The inputs hashed for a list. -/
def hashed (digest : Input α δ → δ) (l : List α) : Set (Input α δ) :=
  {i | (∃ a ∈ l, i = .leaf a) ∨ ∃ p ∈ combined (fun x y => digest (.pair x y)) l.length
    (l.map fun a => digest (.leaf a)), i = .pair p.1 p.2}

theorem exists_tree (digest : Input α δ → δ) {l : List α} (hl : l ≠ []) : ∃ t : Tree α,
    fold (fun x y => digest (.pair x y)) l.length (l.map fun a => digest (.leaf a)) =
      [t.root digest] ∧ Shows l [t] ∧ t.inputs digest ⊆ hashed digest l ∧
    t.leaves = completed l ∧ ∃ n, t.Perfect n := by
  have hroots : (l.map fun a => digest (.leaf a)) = (l.map Tree.leaf).map (Tree.root digest) := by
    rw [List.map_map]
    rfl
  obtain ⟨t, ht⟩ := fold_singleton Tree.node l.length (l := l.map Tree.leaf)
    (by simpa using hl) (by simp)
  have hshows := (shows_leaves l).fold l.length
  have hfold : fold (fun x y => digest (.pair x y)) l.length ((l.map Tree.leaf).map
      (Tree.root digest)) = (fold Tree.node l.length (l.map Tree.leaf)).map (Tree.root digest) :=
    fold_map (Tree.root_node digest) l.length _
  have hleaf : ∀ u ∈ l.map Tree.leaf, u.Perfect 0 := by
    intro u hu
    obtain ⟨a, -, rfl⟩ := List.mem_map.mp hu
    trivial
  obtain ⟨hleaves, n, hperfect⟩ := fold_repeated l.length 0 hleaf
  rw [ht] at hshows hfold hleaves hperfect
  rw [flatMap_leaf] at hleaves
  refine ⟨t, by rw [hroots, hfold]; rfl, hshows, fun i hi => ?_, by simpa [completed] using hleaves, n,
    hperfect t (List.mem_singleton_self t)⟩
  apply fold_inputs (P := fun i => i ∈ hashed digest l) l.length (l.map Tree.leaf)
    _ _ t (by rw [ht]; exact List.mem_singleton_self t) i hi
  · intro u hu j hj
    obtain ⟨a, ha, rfl⟩ := List.mem_map.mp hu
    exact .inl ⟨a, ha, hj⟩
  · intro p hp
    rw [← hroots] at hp
    exact .inr ⟨p, hp, rfl⟩

theorem Tree.root_hashed {digest : Input α δ → δ} (t : Tree α) :
    ∃ i ∈ t.inputs digest, t.root digest = digest i := by
  cases t with
  | leaf a => exact ⟨_, rfl, rfl⟩
  | node l r => exact ⟨_, .inl rfl, rfl⟩

/-- The digest of a list without repetitions determines the list, if nothing
that was hashed collides. -/
theorem fold_injective {digest : Input α δ → δ} {l l' : List α} (hl : l.Nodup) (hl' : l'.Nodup)
    (hne : l ≠ []) (hne' : l' ≠ []) (hinj : Set.InjOn digest (hashed digest l ∪ hashed digest l'))
    (h : fold (fun x y => digest (.pair x y)) l.length (l.map fun a => digest (.leaf a)) =
      fold (fun x y => digest (.pair x y)) l'.length (l'.map fun a => digest (.leaf a))) :
    l = l' := by
  obtain ⟨t, ht, hshows, hin, -⟩ := exists_tree digest hne
  obtain ⟨t', ht', hshows', hin', -⟩ := exists_tree digest hne'
  rw [ht, ht', List.cons.injEq] at h
  have heq : t = t' := Tree.root_injective (hinj.mono (Set.union_subset_union hin hin')) h.1
  subst heq
  exact hshows.unique hshows' hl hl'

theorem completed_of_fold {digest : Input α δ → δ} {l l' : List α} (hne : l ≠ []) (hne' : l' ≠ [])
    (hinj : Set.InjOn digest (hashed digest l ∪ hashed digest l'))
    (h : fold (fun x y => digest (.pair x y)) l.length (l.map fun a => digest (.leaf a)) =
      fold (fun x y => digest (.pair x y)) l'.length (l'.map fun a => digest (.leaf a))) :
    completed l = completed l' := by
  obtain ⟨t, ht, -, hin, hleaves, -⟩ := exists_tree digest hne
  obtain ⟨t', ht', -, hin', hleaves', -⟩ := exists_tree digest hne'
  rw [ht, ht', List.cons.injEq] at h
  have heq : t = t' := Tree.root_injective (hinj.mono (Set.union_subset_union hin hin')) h.1
  rw [← hleaves, ← hleaves', heq]

theorem fold_of_completed (node : δ → δ → δ) {l l' : List δ} (hne : l ≠ []) (hne' : l' ≠ [])
    (h : completed l = completed l') : fold node l.length l = fold node l'.length l' := by
  let digest : Input δ δ → δ
    | .leaf a => a
    | .pair x y => node x y
  obtain ⟨t, ht, -, -, hleaves, n, hn⟩ := exists_tree digest hne
  obtain ⟨t', ht', -, -, hleaves', n', hn'⟩ := exists_tree digest hne'
  have he : t.leaves = t'.leaves := by rw [hleaves, hleaves', h]
  obtain rfl : n = n' := by
    have hlen := congrArg List.length he
    rw [hn.leaves_length, hn'.leaves_length] at hlen
    exact Nat.pow_right_injective (Nat.le_refl 2) hlen
  have hfold : fold node l.length (l.map id) = fold node l'.length (l'.map id) := by
    rw [show fold node l.length (l.map id) = [t.root digest] from ht,
      show fold node l'.length (l'.map id) = [t'.root digest] from ht', hn.unique hn' he]
  rwa [List.map_id, List.map_id] at hfold

theorem begins_completed (l : List α) : l <+: completed l := by
  unfold completed
  generalize l.length = fuel
  generalize 1 = width
  induction fuel generalizing l width with
  | zero => exact List.prefix_refl l
  | succ fuel ih =>
    rw [repeated]
    split
    · apply List.IsPrefix.trans _ (ih _ _)
      unfold evened
      split
      · exact List.prefix_append _ _
      · exact List.prefix_refl l
    · exact List.prefix_refl l

theorem completed_injective {l l' : List α} (hlen : l.length = l'.length)
    (h : completed l = completed l') : l = l' := by
  obtain ⟨rest, hrest⟩ := begins_completed l
  obtain ⟨rest', hrest'⟩ := begins_completed l'
  exact (List.append_inj (hrest.trans (h.trans hrest'.symm)) hlen).1

end BinaChain.Merkle
