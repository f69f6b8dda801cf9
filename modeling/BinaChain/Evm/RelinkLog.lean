import BinaChain.Evm.Relink

/-!
# What the events say of the controllers

A completed relink is announced with an old and a new address. The old one is
taken from the registration, which no relink writes, so a reader of the events
can follow the first relink of an identity and no further one.
-/

set_option autoImplicit false

namespace BinaChain.FastPath
open BinaChain.Word BinaChain.Machine BinaChain.Frames BinaChain.Checked BinaChain.Pairing
open BinaChain.Oracle
open BinaChain.BinaOracle (Site)

/-- The events that name who controls an identity. -/
inductive Log where
  | bitcoinAddressRegistered (user : Address) (btcHash160 : Bytes20) (feePaid : ℕ)
  | relinkCompleted (btcHash160 : Bytes20) (oldEvm newEvm : Address)
  deriving DecidableEq

def emitted (K : Precompiles) (w : World) : Event → Option Log
  | .call sender (.registerBitcoinAddressV2 value pubkeyPrefix pubkeyX _ _ _ _) =>
    (btcHash160FromPubkeyMem K (pubkeyPrefix :: wordBytes pubkeyX)).toOption.map fun btcHash160 =>
      .bitcoinAddressRegistered sender btcHash160 value
  | .call _ (.finalizeRelink btcHash160) =>
    let oldEvm := w.contract.btcToEvm btcHash160
    some (.relinkCompleted btcHash160 oldEvm (w.contract.pendingRelinks btcHash160).newEvm)
  | _ => none

abbrev Emissions := List (Storage × Log)

def noteLog (K : Precompiles) (w : World) (e : Event) (_ : World) (past : Emissions) : Emissions :=
  (emitted K w e).elim past fun l => (w.contract, l) :: past

/-- A completed relink names the controller before it. -/
def NamesController : Storage × Log → Prop
  | (s, .relinkCompleted btcHash160 oldEvm _) => oldEvm = currentController btcHash160 s
  | (_, .bitcoinAddressRegistered _ _ _) => True

def completes (h : Bytes20) : Storage × Log → Bool
  | (_, .relinkCompleted btcHash160 _ _) => btcHash160 == h
  | (_, .bitcoinAddressRegistered _ _ _) => false

def relinks (h : Bytes20) (past : Emissions) : ℕ := past.countP (completes h)

/-- A reader's table of controllers; a relink has to start where the table is. -/
def follow (table : Bytes20 → Address) : Log → Option (Bytes20 → Address)
  | .bitcoinAddressRegistered user btcHash160 _ => some (Function.update table btcHash160 user)
  | .relinkCompleted btcHash160 oldEvm newEvm =>
    if table btcHash160 = oldEvm then some (Function.update table btcHash160 newEvm) else none

def replay : Emissions → Option (Bytes20 → Address)
  | [] => some fun _ => 0
  | n :: past => (replay past).bind fun table => follow table n.2

structure Announced (s : Storage) (past : Emissions) : Prop where
  origin : Names 0 0 s.btcToEvm s.evmToBtc
  first : ∀ h, relinks h past = 0 → s.activeEvm h = s.btcToEvm h
  later : ∀ h, relinks h past ≠ 0 → s.btcToEvm h ≠ 0 ∧ s.activeEvm h ≠ s.btcToEvm h
  named : (∀ n ∈ past, NamesController n) ↔ ∀ h, relinks h past ≤ 1
  replayed : (∀ n ∈ past, NamesController n) → replay past = some s.activeEvm

theorem announced_initial (owner : Address) (fee : ℕ) : Announced (.initial owner fee) [] where
  origin := names_blank
  first _ _ := rfl
  later h hne := absurd rfl hne
  named := by simp [relinks]
  replayed _ := rfl

theorem Announced.register {s t : Storage} {past : Emissions} (hs : Announced s past)
    {h : Bytes20} {user : Address} {fee : ℕ} (hh : h ≠ 0) (hevm : s.evmToBtc user = 0)
    (hbtc : s.btcToEvm h = 0) (hto : t.btcToEvm = Function.update s.btcToEvm h user)
    (hof : t.evmToBtc = Function.update s.evmToBtc user h)
    (hactive : t.activeEvm = Function.update s.activeEvm h user) :
    Announced t ((s, .bitcoinAddressRegistered user h fee) :: past) := by
  have hcount : ∀ g, relinks g ((s, .bitcoinAddressRegistered user h fee) :: past) =
      relinks g past := fun g => List.countP_cons_of_neg Bool.false_ne_true
  have hnone : relinks h past = 0 := by
    by_contra hne
    exact (hs.later h hne).1 hbtc
  have hnamed : (∀ n ∈ (s, Log.bitcoinAddressRegistered user h fee) :: past, NamesController n) ↔
      ∀ n ∈ past, NamesController n := by
    rw [List.forall_mem_cons]
    exact and_iff_right trivial
  constructor
  · rw [hto, hof]
    exact hs.origin.link hh hevm
  · intro g hg
    rw [hto, hactive]
    by_cases heq : g = h
    · rw [heq, Function.update_self, Function.update_self]
    · rw [Function.update_of_ne heq, Function.update_of_ne heq]
      exact hs.first g (by rwa [hcount] at hg)
  · intro g hg
    rw [hcount] at hg
    have heq : g ≠ h := by
      rintro rfl
      exact hg hnone
    rw [hto, hactive, Function.update_of_ne heq, Function.update_of_ne heq]
    exact hs.later g hg
  · rw [hnamed, hs.named]
    simp only [hcount]
  · intro hall
    rw [replay, hs.replayed (hnamed.mp hall), hactive]
    rfl

theorem Announced.relink {s t : Storage} {past : Emissions} (hs : Announced s past)
    {h : Bytes20} {newEvm : Address} (hbtc : s.btcToEvm h ≠ 0) (hevm : s.evmToBtc newEvm = 0)
    (hto : t.btcToEvm = s.btcToEvm) (hof : t.evmToBtc = Function.update s.evmToBtc newEvm h)
    (hactive : t.activeEvm = Function.update s.activeEvm h newEvm) :
    Announced t ((s, .relinkCompleted h (s.btcToEvm h) newEvm) :: past) := by
  have hself : relinks h ((s, .relinkCompleted h (s.btcToEvm h) newEvm) :: past) =
      relinks h past+1 := List.countP_cons_of_pos (by simp [completes])
  have hother : ∀ g, g ≠ h →
      relinks g ((s, .relinkCompleted h (s.btcToEvm h) newEvm) :: past) = relinks g past := by
    intro g hg
    exact List.countP_cons_of_neg (by simpa [completes] using Ne.symm hg)
  have hnamed : NamesController (s, .relinkCompleted h (s.btcToEvm h) newEvm) ↔
      relinks h past = 0 := by
    constructor
    · intro heq
      by_contra hne
      exact (hs.later h hne).2 heq.symm
    · intro hzero
      exact (hs.first h hzero).symm
  have hfresh : ∀ g, s.btcToEvm g ≠ 0 → s.btcToEvm g ≠ newEvm := by
    rintro g hg rfl
    obtain ⟨hne, hname⟩ := hs.origin g hg
    rw [hevm] at hname
    exact hne hname.symm
  constructor
  · rw [hto, hof]
    intro g hg
    rw [Function.update_of_ne (hfresh g hg)]
    exact hs.origin g hg
  · intro g hg
    have hgh : g ≠ h := by
      rintro rfl
      omega
    rw [hother g hgh] at hg
    rw [hto, hactive, Function.update_of_ne hgh]
    exact hs.first g hg
  · intro g hg
    rw [hto, hactive]
    by_cases hgh : g = h
    · subst hgh
      rw [Function.update_self]
      exact ⟨hbtc, (hfresh g hbtc).symm⟩
    · rw [Function.update_of_ne hgh]
      exact hs.later g (by rwa [hother g hgh] at hg)
  · rw [List.forall_mem_cons, hnamed, hs.named]
    constructor
    · rintro ⟨hzero, hall⟩ g
      by_cases hgh : g = h
      · subst hgh
        omega
      · rw [hother g hgh]
        exact hall g
    · intro hall
      have hone := hall h
      refine ⟨by omega, fun g => ?_⟩
      by_cases hgh : g = h
      · subst hgh
        omega
      · have := hall g
        rwa [hother g hgh] at this
  · intro hall
    obtain ⟨hthis, hall⟩ := List.forall_mem_cons.mp hall
    have hhere : s.activeEvm h = s.btcToEvm h := hthis.symm
    rw [replay, hs.replayed hall, hactive]
    exact if_pos hhere

theorem Announced.congr {s t : Storage} {past : Emissions} (hs : Announced s past)
    (hto : t.btcToEvm = s.btcToEvm) (hof : t.evmToBtc = s.evmToBtc)
    (hactive : t.activeEvm = s.activeEvm) : Announced t past := by
  constructor
  · rw [hto, hof]
    exact hs.origin
  · rw [hto, hactive]
    exact hs.first
  · rw [hto, hactive]
    exact hs.later
  · exact hs.named
  · rw [hactive]
    exact hs.replayed

section Runs

variable {K : Precompiles} {site : Site}

theorem Effect.announced {m : Msg} {w : World} {entry : Entry} {out : Outcome}
    {past : Emissions} (he : Effect K site m w.contract entry out)
    (hs : Announced w.contract past) (w' : World) :
    Announced out.1 (noteLog K w (.call m.sender entry) w' past) := by
  cases he with
  | @registerBitcoinAddressV2 value pubkeyPrefix pubkeyX r s' v bitcoinStyle hash hl hfee hevm hkey
      hh hbtc =>
    have hemit : emitted K w (.call m.sender (.registerBitcoinAddressV2 value pubkeyPrefix pubkeyX r
        s' v bitcoinStyle)) = some (.bitcoinAddressRegistered m.sender hash value) := by
      simp only [emitted, btcHash160FromPubkeyMem, hkey]
      rfl
    rw [noteLog, hemit]
    exact hs.register hh hevm hbtc rfl rfl rfl
  | @finalizeRelink hash p hp hr hpending hsender hdue hbtc hevm =>
    subst hp
    exact hs.relink hbtc hevm rfl rfl rfl
  | _ => exact hs.congr rfl rfl rfl

theorem Announced.step {w w' : World} {e : Event} {past : Emissions}
    (hs : Announced w.contract past) (h : w.step K site e = some w') :
    Announced w'.contract (noteLog K w e w' past) := by
  cases e with
  | call sender entry =>
    obtain ⟨out, heffect, -, rfl, -⟩ := World.step_call h
    exact heffect.announced hs _
  | force amount =>
    obtain rfl := Option.some.inj h
    exact hs
  | tick timestamp =>
    obtain ⟨-, rfl⟩ := World.step_time h
    exact hs

theorem announced_of_runs {deployer : Address} {fee balance now : ℕ} {w : World}
    (hd : World.deploy deployer fee balance now = .ok w) {x : Framed (World × Emissions) Event}
    (h : ((service K site).recorded (noteLog K)).Runs (w, []) x) :
    Announced x.current.1.contract x.current.2 := by
  apply Service.invariant (P := fun y : World × Emissions => Announced y.1.contract y.2) h
  · obtain rfl := World.deploy_ok hd
    exact announced_initial deployer fee
  · rintro y e z hy hs
    obtain ⟨hstep, hpast⟩ := recording_eq_some.mp hs
    rw [hpast]
    exact hy.step hstep
  · rintro e ⟨v, past⟩ hy
    change Announced (World.finish e v).contract past
    rw [World.finish_eq]
    by_cases hg : e.guarded
    · simp only [hg, if_true]
      exact hy.congr rfl rfl rfl
    · simp only [hg]
      exact hy

/-- The completed relinks name the controllers before them, and the events give the
controllers, exactly in the runs in which no identity is relinked twice. -/
theorem relinks_name_controllers (K : Precompiles) (site : Site) {deployer : Address}
    {fee balance now : ℕ} {w : World} (hd : World.deploy deployer fee balance now = .ok w)
    {x : Framed (World × Emissions) Event}
    (h : ((service K site).recorded (noteLog K)).Runs (w, []) x) :
    ((∀ n ∈ x.current.2, NamesController n) ∧
      replay x.current.2 = some x.current.1.contract.activeEvm) ↔
    ∀ h, relinks h x.current.2 ≤ 1 := by
  have hx := announced_of_runs hd h
  rw [← hx.named]
  exact ⟨fun hboth => hboth.1, fun hall => ⟨hall, hx.replayed hall⟩⟩

end Runs

def toyRelinkMoves (a : Address) (timestamp : ℕ) : List (Move Event) :=
  [.take (.tick timestamp),
    .take (.call a (.initiateRelink (toyHash 1) a (toyKey 1) (toySignature 1 a))),
    .take (.tick (timestamp+259200)), .take (.call a (.finalizeRelink (toyHash 1)))]

def toyEmissions (moves : List (Move Event)) : Option (Framed (World × Emissions) Event) :=
  exec ((service toyPrecompiles toySite).recorded (noteLog toyPrecompiles)).move
    (.start (toyStart, []))
    ([.take (toyRegister 1 5 7), .take (.call 1 (.setRelinkEnabled true))]++moves)

theorem second_relink_misnamed : ∃ x,
    toyEmissions (toyRelinkMoves 6 259200++toyRelinkMoves 8 777600) = some x ∧
    (∃ s, (s, Log.relinkCompleted (toyHash 1) 5 8) ∈ x.current.2 ∧
      currentController (toyHash 1) s = 6) ∧
    ¬ (∀ n ∈ x.current.2, NamesController n) ∧ replay x.current.2 = none := by
  have hrun : (toyEmissions (toyRelinkMoves 6 259200++toyRelinkMoves 8 777600)).any fun x =>
      (x.current.2.any fun n => decide (n.2 = Log.relinkCompleted (toyHash 1) 5 8) &&
        decide (currentController (toyHash 1) n.1 = 6)) && (replay x.current.2).isNone := by
    decide +kernel
  obtain ⟨x, hx, hrun⟩ := (Option.any_eq_true _ _).mp hrun
  obtain ⟨hany, hnone⟩ := Bool.and_eq_true_iff.mp hrun
  obtain ⟨⟨s, l⟩, hmem, hn⟩ := List.any_eq_true.mp hany
  simp only [Bool.and_eq_true, decide_eq_true_eq] at hn
  obtain ⟨rfl, hcontrol⟩ := hn
  refine ⟨x, hx, ⟨s, hmem, hcontrol⟩, fun hall => ?_, Option.isNone_iff_eq_none.mp hnone⟩
  have hnamed : 5 = currentController (toyHash 1) s := hall _ hmem
  rw [hcontrol] at hnamed
  exact absurd hnamed (by decide)

theorem relinks_name_controllers_toy : ∃ x, toyEmissions (toyRelinkMoves 6 259200) = some x ∧
    (((∀ n ∈ x.current.2, NamesController n) ∧
      replay x.current.2 = some x.current.1.contract.activeEvm) ↔
    ∀ h, relinks h x.current.2 ≤ 1) ∧ relinks (toyHash 1) x.current.2 = 1 := by
  have hrun : (toyEmissions (toyRelinkMoves 6 259200)).any fun x =>
      relinks (toyHash 1) x.current.2 == 1 := by decide +kernel
  obtain ⟨x, hx, hone⟩ := (Option.any_eq_true _ _).mp hrun
  have hd : World.deploy 1 5 0 0 = .ok toyStart := rfl
  exact ⟨x, hx, relinks_name_controllers toyPrecompiles toySite hd (exec_reach hx),
    eq_of_beq hone⟩

end BinaChain.FastPath
