import BinaChain.Node.Peers
import BinaChain.Support.Maps
import BinaChain.Support.Text
import BinaChain.Support.Windows

/-!
# The request budget of a source address

A bucket for each address holds the start of its window and a count. The counts
are 32 bits wide and wrap, as in a release build; the lock around the buckets
makes the requests one sequence.
-/

set_option autoImplicit false

namespace BinaChain.RateLimit
open BinaChain.Word BinaChain.Text BinaChain.Maps BinaChain.Peers BinaChain.Windows Std

def rateLimitWindow : ℕ := 10*1000000000

def rateLimitMaxRequests : ℕ := 200

def u32Size : ℕ := 0x100000000

inductive IpAddr where
  | v4 (ip : Ipv4Addr)
  | v6 (ip : Ipv6Addr)
  deriving DecidableEq

namespace IpAddr

def octets : IpAddr → Bytes
  | v4 ip => ip.octets.toList
  | v6 ip => ip.octets.toList

theorem octets_injective : Function.Injective octets := by
  intro a b h
  have hlen := congrArg List.length h
  rcases a with ⟨⟨x⟩⟩ | ⟨⟨x⟩⟩ <;> rcases b with ⟨⟨y⟩⟩ | ⟨⟨y⟩⟩
  · exact congrArg (fun o => v4 ⟨o⟩) (Vector.toList_inj.mp h)
  · simp [octets] at hlen
  · simp [octets] at hlen
  · exact congrArg (fun o => v6 ⟨o⟩) (Vector.toList_inj.mp h)

instance : Ord IpAddr := ⟨fun a b => compare a.octets b.octets⟩

instance : TransOrd IpAddr where
  eq_swap := OrientedOrd.eq_swap (α := Bytes)
  isLE_trans := TransOrd.isLE_trans (α := Bytes)

instance : LawfulEqOrd IpAddr where
  compare_self := ReflOrd.compare_self (α := Bytes)
  eq_of_compare h := octets_injective (LawfulEqOrd.eq_of_compare h)

end IpAddr

def ip : SocketAddr → IpAddr
  | .v4 a _ => .v4 a
  | .v6 a _ _ _ => .v6 a

/-- The start of the window and the count of an address. -/
structure RateLimiter where
  buckets : ExtTreeMap IpAddr (ℕ × ℕ)

namespace RateLimiter

def new : RateLimiter := ⟨∅⟩

/-- `retain`, once there are more than 50000 buckets. -/
def prune (l : RateLimiter) (now : ℕ) : RateLimiter :=
  if 50000 < l.buckets.size then
    ⟨l.buckets.filter fun _ b => now-b.1 < rateLimitWindow⟩
  else l

/-- The answer and the buckets after it; `duration_since` saturates at zero. -/
def allow (l : RateLimiter) (a : IpAddr) (now : ℕ) : Bool × RateLimiter :=
  let buckets := (l.prune now).buckets
  let entry := buckets[a]?.getD (now, 0)
  if rateLimitWindow ≤ now-entry.1 then
    (true, ⟨buckets.insert a (now, 1)⟩)
  else
    let count := (entry.2+1)%u32Size
    (count ≤ rateLimitMaxRequests, ⟨buckets.insert a (entry.1, count)⟩)

end RateLimiter

def tooManyRequests : ℕ × Str := (429, "rate limit exceeded — slow down".toList)

def rateLimitMiddleware (l : RateLimiter) (addr : SocketAddr) (now : ℕ) :
    Except (ℕ × Str) Unit × RateLimiter :=
  let (allowed, l') := l.allow (ip addr) now
  (if allowed then .ok () else .error tooManyRequests, l')

structure Request where
  addr : SocketAddr
  now : ℕ
  deriving DecidableEq

def serve (acc : RateLimiter × List Request) (r : Request) : RateLimiter × List Request :=
  match rateLimitMiddleware acc.1 r.addr r.now with
  | (.ok _, l) => (l, acc.2++[r])
  | (.error _, l) => (l, acc.2)

/-- The limiter after a sequence of requests, and the requests it let through. -/
def served (requests : List Request) : RateLimiter × List Request :=
  requests.foldl serve (RateLimiter.new, [])

def timesOf (a : IpAddr) (requests : List Request) : List ℕ :=
  (requests.filter fun r => ip r.addr = a).map Request.now

def decisions (a : IpAddr) : RateLimiter → List Request → List Bool
  | _, [] => []
  | l, r :: rest =>
    let answer := l.allow (ip r.addr) r.now
    if ip r.addr = a then answer.1 :: decisions a answer.2 rest else decisions a answer.2 rest

theorem serve_eq (acc : RateLimiter × List Request) (r : Request) :
    serve acc r = ((acc.1.allow (ip r.addr) r.now).2,
      if (acc.1.allow (ip r.addr) r.now).1 then acc.2++[r] else acc.2) := by
  rcases h : acc.1.allow (ip r.addr) r.now with ⟨_ | _, l⟩ <;>
    simp [serve, rateLimitMiddleware, h]

theorem served_append (requests : List Request) (r : Request) :
    served (requests++[r]) = serve (served requests) r := by
  simp [served]

theorem timesOf_append (a : IpAddr) (requests : List Request) (r : Request) :
    timesOf a (requests++[r]) =
      if ip r.addr = a then timesOf a requests++[r.now] else timesOf a requests := by
  by_cases h : ip r.addr = a <;> simp [timesOf, h]

theorem prune_getElem? (l : RateLimiter) (now : ℕ) (a : IpAddr) :
    (l.prune now).buckets[a]? = l.buckets[a]? ∨
      (l.prune now).buckets[a]? = none ∧
        ∃ b, l.buckets[a]? = some b ∧ rateLimitWindow ≤ now-b.1 := by
  unfold RateLimiter.prune
  split
  · rw [ExtTreeMap.getElem?_filter']
    rcases h : l.buckets[a]? with _ | b
    · exact .inl rfl
    · by_cases hb : now-b.1 < rateLimitWindow
      · left
        simp [Option.filter, hb]
      · right
        refine ⟨by simp [Option.filter, hb], b, rfl, by omega⟩
  · exact .inl rfl

/-- The bucket of an address holds its open window, unless it is over by `now`. -/
def Tracks (now : ℕ) (p : Pane) : Option (ℕ × ℕ) → Prop
  | none => ∀ start ∈ p.times.head?, start+rateLimitWindow ≤ now
  | some (start, count) => start ∈ p.times.head? ∧ count = p.times.length%u32Size

theorem Tracks.mono {now later : ℕ} {p : Pane} {b : Option (ℕ × ℕ)} (h : Tracks now p b)
    (hle : now ≤ later) : Tracks later p b := by
  cases b with
  | none => exact fun start hs => (h start hs).trans hle
  | some b => exact h

theorem Tracks.prune {l : RateLimiter} {now : ℕ} {p : Pane} {a : IpAddr}
    (h : Tracks now p l.buckets[a]?) : Tracks now p (l.prune now).buckets[a]? := by
  rcases prune_getElem? l now a with he | ⟨he, b, hb, hover⟩
  · rwa [he]
  · rw [he]
    rw [hb] at h
    intro start hs
    obtain rfl : b.1 = start := Option.mem_unique h.1 hs
    have : 0 < rateLimitWindow := by decide
    omega

theorem allow_other {l : RateLimiter} {a b : IpAddr} (now : ℕ) (h : b ≠ a) :
    (l.allow b now).2.buckets[a]? = (l.prune now).buckets[a]? := by
  simp only [RateLimiter.allow]
  split <;> rw [getElem?_insert_eq, if_neg h]

theorem next_opens {p : Pane} {now : ℕ}
    (h : ∀ start ∈ p.times.head?, start+rateLimitWindow ≤ now) :
    (p.next rateLimitWindow now).times = [now] := by
  rcases next_new h with he | ⟨-, he⟩ <;> rw [he]

theorem tracks_opened {p : Pane} {now : ℕ} (h : p.times = [now]) :
    Tracks now p (some (now, 1)) := by
  refine ⟨by rw [h]; rfl, ?_⟩
  rw [h]
  rfl

theorem allow_self {l : RateLimiter} {now : ℕ} {p : Pane} {a : IpAddr}
    (h : Tracks now p l.buckets[a]?) :
    (l.allow a now).1 =
        decide ((p.next rateLimitWindow now).times.length%u32Size ≤ rateLimitMaxRequests) ∧
      Tracks now (p.next rateLimitWindow now) (l.allow a now).2.buckets[a]? := by
  have hp := h.prune
  rcases hb : (l.prune now).buckets[a]? with _ | ⟨start, count⟩
  · rw [hb] at hp
    have hnow : ¬ rateLimitWindow ≤ now-now := by
      rw [Nat.sub_self]
      decide
    simp only [RateLimiter.allow, hb, Option.getD_none, if_neg hnow, getElem?_insert_eq, if_true]
    refine ⟨?_, tracks_opened (next_opens hp)⟩
    rw [next_opens hp]
    rfl
  · rw [hb] at hp
    obtain ⟨hhead, hcount⟩ := hp
    by_cases hover : rateLimitWindow ≤ now-start
    · have hnew : ∀ first ∈ p.times.head?, first+rateLimitWindow ≤ now := by
        intro first hfirst
        obtain rfl : start = first := Option.mem_unique hhead hfirst
        have : 0 < rateLimitWindow := by decide
        omega
      simp only [RateLimiter.allow, hb, Option.getD_some, if_pos hover, getElem?_insert_eq, if_true]
      refine ⟨?_, tracks_opened (next_opens hnew)⟩
      rw [next_opens hnew]
      rfl
    · have hsame : p.next rateLimitWindow now = ⟨p.before, p.times++[now]⟩ :=
        next_same hhead (by omega)
      have hnext : (count+1)%u32Size = (p.times++[now]).length%u32Size := by
        rw [hcount, List.length_append, List.length_singleton, Nat.mod_add_mod]
      simp only [RateLimiter.allow, hb, Option.getD_some, if_neg hover, hsame,
        getElem?_insert_eq, if_true, hnext]
      refine ⟨trivial, ?_, rfl⟩
      rw [List.head?_append, Option.mem_def.mp hhead]
      rfl

theorem served_tracks (a : IpAddr) (requests : List Request)
    (hsorted : requests.Pairwise (fun r s => r.now ≤ s.now)) (now : ℕ)
    (hnow : ∀ r ∈ requests, r.now ≤ now) :
    Tracks now (pane rateLimitWindow (timesOf a requests)) (served requests).1.buckets[a]? ∧
      timesOf a (served requests).2 =
        admitted rateLimitWindow rateLimitMaxRequests u32Size (timesOf a requests) := by
  induction requests using List.reverseRecOn generalizing now with
  | nil => simp [served, RateLimiter.new, Tracks, timesOf, pane, Pane.empty, admitted]
  | append_singleton requests r ih =>
    obtain ⟨hpre, -, hall⟩ := List.pairwise_append.mp hsorted
    have hle : r.now ≤ now := hnow r (by simp)
    obtain ⟨htracks, htimes⟩ := ih hpre r.now fun s hs => hall s hs r (by simp)
    rw [served_append, serve_eq]
    by_cases hip : ip r.addr = a
    · obtain ⟨hanswer, hafter⟩ := allow_self htracks
      rw [timesOf_append, if_pos hip, pane_append, admitted_append, pane_append]
      subst hip
      refine ⟨hafter.mono hle, ?_⟩
      simp only [hanswer, decide_eq_true_eq]
      split
      · rw [timesOf_append, if_pos rfl, htimes]
      · exact htimes
    · rw [timesOf_append, if_neg hip]
      constructor
      · rw [allow_other r.now hip]
        exact htracks.prune.mono hle
      · dsimp only
        split
        · rw [timesOf_append, if_neg hip, htimes]
        · exact htimes

theorem served_times (a : IpAddr) (requests : List Request)
    (hsorted : requests.Pairwise (fun r s => r.now ≤ s.now)) :
    timesOf a (served requests).2 =
      admitted rateLimitWindow rateLimitMaxRequests u32Size (timesOf a requests) := by
  rcases List.eq_nil_or_concat' requests with rfl | ⟨pre, last, rfl⟩
  · rfl
  · have hlast : ∀ r ∈ pre++[last], r.now ≤ last.now := by
      intro r hr
      rcases List.mem_append.mp hr with hr | hr
      · exact (List.pairwise_append.mp hsorted).2.2 r hr last (by simp)
      · rw [List.mem_singleton.mp hr]
    exact (served_tracks a (pre++[last]) hsorted last.now hlast).2

theorem timesOf_sorted (a : IpAddr) {requests : List Request}
    (h : requests.Pairwise (fun r s => r.now ≤ s.now)) :
    (timesOf a requests).Pairwise (· ≤ ·) :=
  List.pairwise_map.mpr (h.filter _)

/-- The budget of an address holds over every interval exactly when its requests are
spaced: no window takes as many as the counter can hold, and each of the first ones
of a window leaves room for the first ones of the window before that are recent. -/
theorem budget_holds_iff (requests : List Request) (a : IpAddr)
    (h : requests.Pairwise (fun r s => r.now ≤ s.now)) :
    Budgeted rateLimitWindow rateLimitMaxRequests (timesOf a (served requests).2) ↔
      Spaced rateLimitWindow rateLimitMaxRequests u32Size (timesOf a requests) := by
  rw [served_times a requests h]
  exact budgeted_admitted (by decide) (by decide) (by decide) _ (timesOf_sorted a h)

def toyAddr : SocketAddr := .v4 ⟨⟨#[10, 0, 0, 1], rfl⟩⟩ 8080

def toyBurst : List Request :=
  ⟨toyAddr, 0⟩ :: List.replicate 199 ⟨toyAddr, rateLimitWindow-1⟩++
    List.replicate 2 ⟨toyAddr, rateLimitWindow⟩

def toySteady : List Request := (List.range 3).map fun i => ⟨toyAddr, i*rateLimitWindow⟩

theorem burst_across_reset : toyBurst.Pairwise (fun r s => r.now ≤ s.now) ∧
    ¬ Budgeted rateLimitWindow rateLimitMaxRequests (timesOf (ip toyAddr) (served toyBurst).2) := by
  have hcount : toyBurst.Pairwise (fun r s => r.now ≤ s.now) ∧
      rateLimitMaxRequests < (timesOf (ip toyAddr) (served toyBurst).2).countP
        (fun t => decide (rateLimitWindow-1 ≤ t ∧ t < rateLimitWindow-1+rateLimitWindow)) := by
    decide +kernel
  exact ⟨hcount.1, fun h => absurd (h (rateLimitWindow-1)) (by omega)⟩

theorem budget_holds_steady :
    Budgeted rateLimitWindow rateLimitMaxRequests (timesOf (ip toyAddr) (served toySteady).2) ↔
      Spaced rateLimitWindow rateLimitMaxRequests u32Size (timesOf (ip toyAddr) toySteady) :=
  budget_holds_iff toySteady (ip toyAddr) (by decide +kernel)

def verdicts : Pane → List ℕ → List Bool
  | _, [] => []
  | p, t :: rest =>
    decide ((p.next rateLimitWindow t).times.length%u32Size ≤ rateLimitMaxRequests) ::
      verdicts (p.next rateLimitWindow t) rest

theorem timesOf_cons (a : IpAddr) (r : Request) (rest : List Request) :
    timesOf a (r :: rest) =
      if ip r.addr = a then r.now :: timesOf a rest else timesOf a rest := by
  by_cases h : ip r.addr = a <;> simp [timesOf, h]

theorem decisions_eq_verdicts (a : IpAddr) (requests : List Request) {l : RateLimiter} {now : ℕ}
    {p : Pane} (htracks : Tracks now p l.buckets[a]?) (hnow : ∀ r ∈ requests, now ≤ r.now)
    (hsorted : requests.Pairwise (fun r s => r.now ≤ s.now)) :
    decisions a l requests = verdicts p (timesOf a requests) := by
  induction requests generalizing l now p with
  | nil => rfl
  | cons r rest ih =>
    obtain ⟨hlater, hrest⟩ := List.pairwise_cons.mp hsorted
    have hopen : Tracks r.now p l.buckets[a]? := htracks.mono (hnow r (by simp))
    simp only [decisions, timesOf_cons]
    by_cases hip : ip r.addr = a
    · subst hip
      obtain ⟨hanswer, hafter⟩ := allow_self hopen
      rw [if_pos rfl, if_pos rfl, verdicts, hanswer, ih hafter hlater hrest]
    · have hafter : Tracks r.now p (l.allow (ip r.addr) r.now).2.buckets[a]? := by
        rw [allow_other r.now hip]
        exact hopen.prune
      rw [if_neg hip, if_neg hip, ih hafter hlater hrest]

/-- What other addresses send, and when the buckets are pruned, changes no decision. -/
theorem decisions_isolated (a : IpAddr) (xs ys : List Request)
    (hx : xs.Pairwise (fun r s => r.now ≤ s.now)) (hy : ys.Pairwise (fun r s => r.now ≤ s.now))
    (h : timesOf a xs = timesOf a ys) :
    decisions a RateLimiter.new xs = decisions a RateLimiter.new ys := by
  have hnew : Tracks 0 Pane.empty RateLimiter.new.buckets[a]? := by
    simp [RateLimiter.new, Tracks, Pane.empty]
  rw [decisions_eq_verdicts a xs hnew (fun _ _ => Nat.zero_le _) hx,
    decisions_eq_verdicts a ys hnew (fun _ _ => Nat.zero_le _) hy, h]

def toyCrowd : List Request :=
  toySteady.flatMap fun r => [⟨.v4 ⟨⟨#[10, 0, 0, 2], rfl⟩⟩ 8080, r.now⟩, r]

theorem decisions_isolated_crowd :
    decisions (ip toyAddr) RateLimiter.new toySteady =
      decisions (ip toyAddr) RateLimiter.new toyCrowd :=
  decisions_isolated (ip toyAddr) toySteady toyCrowd (by decide +kernel) (by decide +kernel)
    (by decide +kernel)

end BinaChain.RateLimit
