import BinaChain.Support.Word
import Mathlib.Data.List.Induction

/-!
# The list of peers

A set of socket addresses of bounded size; the policy decides which addresses
may enter it. The kinds of IPv4 addresses it turns away are looked for in one
of the two address families only.
-/

set_option autoImplicit false

namespace BinaChain.Peers
open BinaChain.Word

structure Ipv4Addr where
  octets : Vector UInt8 4
  deriving DecidableEq

structure Ipv6Addr where
  octets : Vector UInt8 16
  deriving DecidableEq

inductive SocketAddr where
  | v4 (ip : Ipv4Addr) (port : ℕ)
  | v6 (ip : Ipv6Addr) (port flowinfo scopeId : ℕ)
  deriving DecidableEq

namespace Ipv4Addr

def isUnspecified (ip : Ipv4Addr) : Bool := ip.octets.all (· == 0)

def isBroadcast (ip : Ipv4Addr) : Bool := ip.octets.all (· == 255)

def isMulticast (ip : Ipv4Addr) : Bool := 224 ≤ ip.octets[0].toNat && ip.octets[0].toNat ≤ 239

def isLoopback (ip : Ipv4Addr) : Bool := ip.octets[0] == 127

def isPrivate (ip : Ipv4Addr) : Bool :=
  ip.octets[0] == 10 ||
    (ip.octets[0] == 172 && 16 ≤ ip.octets[1].toNat && ip.octets[1].toNat ≤ 31) ||
    (ip.octets[0] == 192 && ip.octets[1] == 168)

def isLinkLocal (ip : Ipv4Addr) : Bool := ip.octets[0] == 169 && ip.octets[1] == 254

end Ipv4Addr

namespace Ipv6Addr

def isUnspecified (ip : Ipv6Addr) : Bool := ip.octets.all (· == 0)

def isMulticast (ip : Ipv6Addr) : Bool := ip.octets[0] == 255

def isLoopback (ip : Ipv6Addr) : Bool :=
  ip.octets.pop.all (· == 0) && ip.octets[15] == 1

def toIpv4Mapped (ip : Ipv6Addr) : Option Ipv4Addr :=
  if ip.octets.toList.take 12 = [0, 0, 0, 0, 0, 0, 0, 0, 0, 0, 255, 255] then
    some ⟨#v[ip.octets[12], ip.octets[13], ip.octets[14], ip.octets[15]]⟩
  else none

end Ipv6Addr

namespace SocketAddr

def port : SocketAddr → ℕ
  | v4 _ port => port
  | v6 _ port _ _ => port

end SocketAddr

def isPrivateV4 (ip : Ipv4Addr) : Bool := ip.isPrivate || ip.isLinkLocal

structure PeerList where
  peers : List SocketAddr
  maxPeers : ℕ
  allowLoopback : Bool
  allowPrivate : Bool
  nodup : peers.Nodup

namespace PeerList

def withPolicy (maxPeers : ℕ) (allowLoopback allowPrivate : Bool) : PeerList :=
  { peers := [], maxPeers, allowLoopback, allowPrivate, nodup := List.nodup_nil }

def isAllowedAddr (l : PeerList) : SocketAddr → Bool
  | .v4 ip port =>
    if port = 0 then false
    else if ip.isUnspecified || ip.isBroadcast || ip.isMulticast then false
    else if ip.isLoopback && !l.allowLoopback then false
    else if isPrivateV4 ip && !l.allowPrivate then false
    else true
  | .v6 ip port _ _ =>
    if port = 0 then false
    else if ip.isUnspecified || ip.isMulticast then false
    else if ip.isLoopback && !l.allowLoopback then false
    else true

def add (l : PeerList) (addr : SocketAddr) : Bool × PeerList :=
  if l.isAllowedAddr addr = false then (false, l)
  else if l.maxPeers ≤ l.peers.length ∧ addr ∉ l.peers then (false, l)
  else if h : addr ∈ l.peers then (false, l)
  else (true, { l with peers := addr :: l.peers, nodup := List.nodup_cons.mpr ⟨h, l.nodup⟩ })

def remove (l : PeerList) (addr : SocketAddr) : Bool × PeerList :=
  (addr ∈ l.peers, { l with peers := l.peers.erase addr, nodup := l.nodup.erase addr })

inductive Call where
  | add (addr : SocketAddr)
  | remove (addr : SocketAddr)

def call (l : PeerList) : Call → PeerList
  | .add addr => (l.add addr).2
  | .remove addr => (l.remove addr).2

def after (l : PeerList) (calls : List Call) : PeerList := calls.foldl call l

theorem after_append (l : PeerList) (calls : List Call) (c : Call) :
    l.after (calls++[c]) = (l.after calls).call c := by
  simp [after]

/-- Public addresses only. -/
def Strict (l : PeerList) : Prop := l.allowLoopback = false ∧ l.allowPrivate = false

theorem add_cases (l : PeerList) (addr : SocketAddr) :
    (l.add addr).2 = l ∨
      l.isAllowedAddr addr = true ∧ l.peers.length < l.maxPeers ∧ addr ∉ l.peers ∧
        (l.add addr).2.peers = addr :: l.peers := by
  unfold add
  split
  · exact .inl rfl
  · rename_i hallowed
    split
    · exact .inl rfl
    · rename_i hroom
      split
      · exact .inl rfl
      · rename_i hnew
        exact .inr ⟨by simpa using hallowed, by_contra fun hfull => hroom ⟨by omega, hnew⟩,
          hnew, rfl⟩

theorem mem_add {l : PeerList} {addr : SocketAddr} (h : l.isAllowedAddr addr = true)
    (hroom : l.peers.length < l.maxPeers) : addr ∈ (l.add addr).2.peers := by
  unfold add
  rw [if_neg (by simp [h]), if_neg (by omega)]
  split
  · assumption
  · exact List.mem_cons_self

theorem call_policy (l : PeerList) (c : Call) :
    (l.call c).maxPeers = l.maxPeers ∧ (l.call c).allowLoopback = l.allowLoopback ∧
      (l.call c).allowPrivate = l.allowPrivate := by
  cases c with
  | add addr =>
    unfold call add
    dsimp only
    split
    · simp
    · split
      · simp
      · split <;> simp
  | remove addr => exact ⟨rfl, rfl, rfl⟩

theorem after_policy (l : PeerList) (calls : List Call) :
    (l.after calls).maxPeers = l.maxPeers ∧ (l.after calls).allowLoopback = l.allowLoopback ∧
      (l.after calls).allowPrivate = l.allowPrivate := by
  induction calls using List.reverseRecOn with
  | nil => exact ⟨rfl, rfl, rfl⟩
  | append_singleton calls c ih =>
    obtain ⟨hm, hl, hp⟩ := call_policy (l.after calls) c
    rw [after_append]
    exact ⟨hm.trans ih.1, hl.trans ih.2.1, hp.trans ih.2.2⟩

theorem call_length {l : PeerList} (h : l.peers.length ≤ l.maxPeers) (c : Call) :
    (l.call c).peers.length ≤ (l.call c).maxPeers := by
  rw [(call_policy l c).1]
  cases c with
  | add addr =>
    rcases add_cases l addr with he | ⟨-, hroom, -, he⟩
    · rw [call, he]
      exact h
    · rw [call, he, List.length_cons]
      omega
  | remove addr => exact Nat.le_trans List.length_erase_le h

theorem after_length {l : PeerList} (h : l.peers.length ≤ l.maxPeers) (calls : List Call) :
    (l.after calls).peers.length ≤ (l.after calls).maxPeers := by
  induction calls using List.reverseRecOn with
  | nil => exact h
  | append_singleton calls c ih =>
    rw [after_append]
    exact call_length ih c

end PeerList

def Ipv4Addr.isRestricted (ip : Ipv4Addr) : Bool :=
  ip.isUnspecified || ip.isBroadcast || ip.isMulticast || ip.isLoopback || isPrivateV4 ip

def denoted : SocketAddr → Option Ipv4Addr
  | .v4 ip _ => some ip
  | .v6 ip _ _ _ => ip.toIpv4Mapped

/-- An IPv4 address of such a kind that is written as an IPv4-mapped one. -/
def MapsRestricted : SocketAddr → Prop
  | .v4 _ _ => False
  | .v6 ip _ _ _ => ∃ a ∈ ip.toIpv4Mapped, a.isRestricted = true

/-- Of bounded size, and of public IPv4 addresses. -/
def Public (l : PeerList) : Prop :=
  l.peers.length ≤ l.maxPeers ∧ ∀ addr ∈ l.peers, ∀ a ∈ denoted addr, a.isRestricted = false

theorem allowed_v4 {l : PeerList} (h : l.Strict) {ip : Ipv4Addr} {port : ℕ}
    (ha : l.isAllowedAddr (.v4 ip port) = true) : ip.isRestricted = false := by
  simp only [PeerList.isAllowedAddr, h.1, h.2] at ha
  unfold Ipv4Addr.isRestricted
  grind

theorem mapped_octets {ip : Ipv6Addr} {a : Ipv4Addr} (h : a ∈ ip.toIpv4Mapped) :
    ip.octets[0] = 0 ∧ ip.octets[10] = 255 := by
  unfold Ipv6Addr.toIpv4Mapped at h
  split at h
  · rename_i hhead
    have hfirst := congrArg (·[0]?) hhead
    have hmark := congrArg (·[10]?) hhead
    simp only [List.getElem?_take, Vector.getElem?_toList] at hfirst hmark
    simpa using And.intro hfirst hmark
  · simp at h

theorem allowed_mapped (l : PeerList) {ip : Ipv6Addr} {a : Ipv4Addr} (h : a ∈ ip.toIpv4Mapped)
    {port flowinfo scopeId : ℕ} (hport : port ≠ 0) :
    l.isAllowedAddr (.v6 ip port flowinfo scopeId) = true := by
  obtain ⟨hfirst, hmark⟩ := mapped_octets h
  have hunspecified : ip.isUnspecified = false := by
    apply Bool.eq_false_iff.mpr
    intro hall
    have := Vector.all_eq_true.mp hall 10 (by omega)
    simp [hmark] at this
  have hmulticast : ip.isMulticast = false := by
    simp [Ipv6Addr.isMulticast, hfirst]
  have hloopback : ip.isLoopback = false := by
    apply Bool.eq_false_iff.mpr
    intro hall
    have hpop := (Bool.and_eq_true_iff.mp hall).1
    have := Vector.all_eq_true.mp hpop 10 (by omega)
    simp [hmark] at this
  simp [PeerList.isAllowedAddr, hport, hunspecified, hmulticast, hloopback]

theorem allowed_restricted {l : PeerList} (h : l.Strict) {addr : SocketAddr} {a : Ipv4Addr}
    (ha : a ∈ denoted addr) (hr : a.isRestricted = true) :
    l.isAllowedAddr addr = true ↔ addr.port ≠ 0 ∧ MapsRestricted addr := by
  cases addr with
  | v4 ip port =>
    obtain rfl : ip = a := Option.some.inj ha
    constructor
    · intro hallowed
      rw [allowed_v4 h hallowed] at hr
      exact absurd hr (by simp)
    · exact fun hmaps => hmaps.2.elim
  | v6 ip port flowinfo scopeId =>
    constructor
    · intro hallowed
      refine ⟨fun hport => ?_, a, ha, hr⟩
      have hzero : port = 0 := hport
      simp [PeerList.isAllowedAddr, hzero] at hallowed
    · exact fun hmaps => allowed_mapped l ha hmaps.1

theorem call_public {l : PeerList} (h : l.Strict) (hp : Public l) (c : PeerList.Call)
    (hc : ∀ addr, c = .add addr → addr.port ≠ 0 → MapsRestricted addr →
      l.maxPeers ≤ l.peers.length) : Public (l.call c) := by
  refine ⟨PeerList.call_length hp.1 c, ?_⟩
  cases c with
  | add addr =>
    rcases l.add_cases addr with he | ⟨hallowed, hroom, -, he⟩
    · rw [PeerList.call, he]
      exact hp.2
    · rw [PeerList.call, he]
      intro other hmem a ha
      rcases List.mem_cons.mp hmem with rfl | hold
      · by_contra hr
        obtain ⟨hport, hmaps⟩ := (allowed_restricted h ha (by simpa using hr)).mp hallowed
        have := hc other rfl hport hmaps
        omega
      · exact hp.2 other hold a ha
  | remove addr => exact fun other hmem => hp.2 other (List.mem_of_mem_erase hmem)

/-- The list stays public exactly as long as each mapped address of those kinds that
is added meets a full list. -/
theorem public_iff (maxPeers : ℕ) (calls : List PeerList.Call) :
    (∀ pre, pre <+: calls → Public ((PeerList.withPolicy maxPeers false false).after pre)) ↔
      ∀ pre addr, pre++[.add addr] <+: calls → addr.port ≠ 0 → MapsRestricted addr →
        maxPeers ≤ ((PeerList.withPolicy maxPeers false false).after pre).peers.length := by
  have hpolicy := PeerList.after_policy (PeerList.withPolicy maxPeers false false)
  have hstrict : ∀ pre, ((PeerList.withPolicy maxPeers false false).after pre).Strict :=
    fun pre => (hpolicy pre).2
  constructor
  · intro hall pre addr hpre hport hmaps
    by_contra hroom
    have hpublic := hall _ hpre
    rw [PeerList.after_append] at hpublic
    cases addr with
    | v4 ip port => exact hmaps
    | v6 ip port flowinfo scopeId =>
      obtain ⟨a, ha, hr⟩ := hmaps
      have hallowed : ((PeerList.withPolicy maxPeers false false).after pre).isAllowedAddr
          (.v6 ip port flowinfo scopeId) = true := allowed_mapped _ ha hport
      have hmem := PeerList.mem_add hallowed
        (Nat.lt_of_lt_of_eq (Nat.lt_of_not_le hroom) (hpolicy pre).1.symm)
      rw [hpublic.2 _ hmem a ha] at hr
      simp at hr
  · intro hfull pre
    induction pre using List.reverseRecOn with
    | nil => exact fun _ => ⟨Nat.zero_le _, by simp [PeerList.after, PeerList.withPolicy]⟩
    | append_singleton pre c ih =>
      intro hpre
      rw [PeerList.after_append]
      apply call_public (hstrict pre) (ih ((List.prefix_append pre [c]).trans hpre))
      intro addr hadd hport hmaps
      subst hadd
      rw [(hpolicy pre).1]
      exact hfull pre addr hpre hport hmaps

def toyMapped : SocketAddr :=
  .v6 ⟨⟨#[0, 0, 0, 0, 0, 0, 0, 0, 0, 0, 255, 255, 127, 0, 0, 1], rfl⟩⟩ 8080 0 0

theorem mapped_loopback_held :
    ¬ ∀ maxPeers calls, Public ((PeerList.withPolicy maxPeers false false).after calls) := by
  intro h
  have hheld : toyMapped ∈
      ((PeerList.withPolicy 128 false false).after [.add toyMapped]).peers := by
    decide +kernel
  have hloopback : ∃ a ∈ denoted toyMapped, a.isLoopback = true := by decide
  obtain ⟨a, ha, hl⟩ := hloopback
  have hpublic := (h 128 [.add toyMapped]).2 toyMapped hheld a ha
  simp [Ipv4Addr.isRestricted, hl] at hpublic

end BinaChain.Peers
