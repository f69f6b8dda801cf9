import BinaChain.Node.Agreement
import BinaChain.Node.Attested
import BinaChain.Node.Encoding
import BinaChain.Node.Range
import BinaChain.Support.Paging

/-!
# Serving a chain to a node that lags behind

A node that never reorganised has every block it finalised in its store. The
pages it serves are slices of that chain, each record passes the checks of a
node that stands where the server stood, and the follower ends where the server
is.
-/

set_option autoImplicit false

namespace BinaChain.Serving
open BinaChain.Word BinaChain.Text BinaChain.Crypto BinaChain.Block BinaChain.Claims
open BinaChain.Transaction BinaChain.BitcoinEntropy BinaChain.Difficulty BinaChain.Rewards
open BinaChain.Execution BinaChain.State BinaChain.Machine BinaChain.Store BinaChain.Admission
open BinaChain.Mining BinaChain.Sync BinaChain.Extension BinaChain.System BinaChain.Coherence
open BinaChain.Trace BinaChain.Paging Std

def maxSyncPage : ℕ := 500

/-- Both parameters of the query may be missing. -/
def handleChainHeaders (s : BlockStore) (start stop : Option ℕ) : List BlockRecord :=
  let start := start.getD 0
  let stop := min (stop.getD u64Max) (satAdd start maxSyncPage)
  s.getRange start stop maxSyncPage

def nextPage (s : BlockStore) (height : ℕ) : List BlockRecord :=
  let start := height+1
  let stop := satAdd start (maxSyncPage-1)
  handleChainHeaders s (some start) (some stop)

/-- What the store of a server replies to the first requests of a follower. -/
def transcript (K : Primitives) (env : SyncEnv) (s : BlockStore) :
    ℕ → Parts → List (Option (List BlockRecord))
  | 0, _ => []
  | requests+1, x =>
    let page := nextPage s x.cursor.height
    some page :: transcript K env s requests (syncPage K env x page).1

/-- What the checks of a record look at. -/
structure Standing where
  height : ℕ
  tipHash : Hash
  lastBlockTimestampMs : ℕ
  btcSeedHash : Hash
  chainWork : ℕ
  adjuster : DifficultyAdjuster
  balances : Accounts
  nonces : Accounts

def standing (c : Cursor) (l : RewardLedger) : Standing where
  height := c.height
  tipHash := c.tipHash
  lastBlockTimestampMs := c.lastBlockTimestampMs
  btcSeedHash := c.btcSeedHash
  chainWork := c.chainWork
  adjuster := c.adjuster
  balances := l.balances
  nonces := l.nonces

structure SameMaps (l l' : RewardLedger) : Prop where
  balances : l.balances = l'.balances
  nonces : l.nonces = l'.nonces

section Standings

variable {K : Primitives} {c c' : Cursor} {l l' : RewardLedger}

theorem sameMaps_standing (h : standing c l = standing c' l') : SameMaps l l' where
  balances := congrArg Standing.balances h
  nonces := congrArg Standing.nonces h

theorem checkRecord_standing (h : standing c l = standing c' l') (now : ℕ) (r : BlockRecord) :
    checkRecord K c l now r = checkRecord K c' l' now r := by
  have hmaps := sameMaps_standing h
  have hbook : ledgerBook l = ledgerBook l' := by
    unfold ledgerBook
    rw [hmaps.balances, hmaps.nonces]
  exact Agreement.checkRecord_congr hbook (congrArg Standing.height h)
    (congrArg Standing.tipHash h) (congrArg Standing.lastBlockTimestampMs h)
    (congrArg Standing.adjuster h) (congrArg Standing.btcSeedHash h) now r

theorem checked_standing (h : standing c l = standing c' l') {now : ℕ} {r : BlockRecord}
    {claim : SignedBlockClaim} (hc : Checked K c l now r claim) : Checked K c' l' now r claim := by
  rw [← checkRecord_iff] at hc ⊢
  rwa [← checkRecord_standing h]

theorem SameMaps.transaction (h : SameMaps l l') (height : ℕ) (s : SignedTransaction)
    (miner : Str) (timestamp : ℕ) :
    SameMaps (l.applyTransaction K height s miner timestamp).2
      (l'.applyTransaction K height s miner timestamp).2 := by
  have hbook : ledgerBook l = ledgerBook l' := by
    unfold ledgerBook
    rw [h.balances, h.nonces]
  by_cases hacc : Accepted K l s
  · have hacc' : Accepted K l' s := by
      unfold Accepted at *
      rwa [← hbook]
    rw [applyTransaction_accepted hacc, applyTransaction_accepted hacc']
    exact
      { balances := by rw [settle, settle, h.balances]
        nonces := by rw [settle, settle, h.nonces] }
  · have hacc' : ¬Accepted K l' s := by
      unfold Accepted at *
      rwa [← hbook]
    obtain ⟨e, he⟩ := applyTransaction_rejected hacc height miner timestamp
    obtain ⟨e', he'⟩ := applyTransaction_rejected hacc' height miner timestamp
    rw [he, he']
    exact h

theorem applyTransactions_cons (height : ℕ) (miner : Str) (timestamp : ℕ) (l : RewardLedger)
    (tx : SignedTransaction) (txs : List SignedTransaction) :
    (applyTransactions K height miner timestamp l (tx :: txs)).2 =
      (applyTransactions K height miner timestamp
        (l.applyTransaction K height tx miner timestamp).2 txs).2 := by
  conv_lhs => unfold applyTransactions
  split
  · rename_i heq
    rw [heq]
  · rename_i heq
    rw [heq]

theorem SameMaps.transactions (height : ℕ) (miner : Str) (timestamp : ℕ)
    (txs : List SignedTransaction) : ∀ {l l' : RewardLedger}, SameMaps l l' →
      SameMaps (applyTransactions K height miner timestamp l txs).2
        (applyTransactions K height miner timestamp l' txs).2 := by
  induction txs with
  | nil => exact fun h => h
  | cons tx txs ih =>
    intro l l' h
    rw [applyTransactions_cons, applyTransactions_cons]
    exact ih (h.transaction height tx miner timestamp)

theorem SameMaps.execute (h : SameMaps l l') (height : ℕ) (miner : Str) (reward timestamp : ℕ)
    (txs : List SignedTransaction) :
    SameMaps (executeBlock K height miner reward timestamp l txs)
      (executeBlock K height miner reward timestamp l' txs) := by
  have happlied := SameMaps.transactions (K := K) height miner timestamp txs h
  unfold executeBlock RewardLedger.credit
  split
  · exact happlied
  · exact
      { balances := by
          dsimp only
          rw [RewardLedger.balance, RewardLedger.balance, happlied.balances]
        nonces := happlied.nonces }

end Standings

def grow (K : Primitives) (c : Cursor) (l : RewardLedger) (r : BlockRecord)
    (claim : SignedBlockClaim) : Standing :=
  standing (advanceSynced K c r claim)
    (executeBlock K r.height r.minerAddress r.rewardBina (r.timestamp/1000) l r.transactions)

theorem grow_standing {K : Primitives} {c c' : Cursor} {l l' : RewardLedger}
    (h : standing c l = standing c' l') (r : BlockRecord) (claim : SignedBlockClaim) :
    grow K c l r claim = grow K c' l' r claim := by
  have hmaps := (sameMaps_standing h).execute (K := K) r.height r.minerAddress r.rewardBina
    (r.timestamp/1000) r.transactions
  have hseed : c.btcSeedHash = c'.btcSeedHash := congrArg Standing.btcSeedHash h
  have hwork : c.chainWork = c'.chainWork := congrArg Standing.chainWork h
  have hadjuster : c.adjuster = c'.adjuster := congrArg Standing.adjuster h
  unfold grow standing advanceSynced
  dsimp only
  rw [hmaps.balances, hmaps.nonces, hseed, hwork, hadjuster]

structure Passes (K : Primitives) (c : Cursor) (l : RewardLedger) (r : BlockRecord)
    (claim : SignedBlockClaim) : Prop where
  height : r.height = c.height+1
  rebuilt : claimFromRecord r c.tipHash = .ok claim
  checked : ∀ now, r.timestamp ≤ satAdd now maxFutureMs → Checked K c l now r claim

/-- The records from the newest on, each with the checks of its place, and the
standing they lead to. -/
inductive Chronicle (K : Primitives) : List BlockRecord → Standing → Prop
  | genesis : Chronicle K [] (standing (genesisCursor K) (.create []))
  | block {older : List BlockRecord} {c : Cursor} {l : RewardLedger} {r : BlockRecord}
      {claim : SignedBlockClaim} (h : Chronicle K older (standing c l))
      (hr : Passes K c l r claim) : Chronicle K (r :: older) (grow K c l r claim)

section Chronicles

variable {K : Primitives} {env : SyncEnv}

theorem Chronicle.height {records : List BlockRecord} {s : Standing} (h : Chronicle K records s) :
    s.height = records.length := by
  induction h with
  | genesis => rfl
  | block h hr ih =>
    rw [List.length_cons, ← ih]
    exact hr.height

theorem Chronicle.numbered {records : List BlockRecord} {s : Standing}
    (h : Chronicle K records s) : Numbered BlockRecord.height 0 records.reverse := by
  induction h with
  | genesis => exact trivial
  | @block older c l r claim h hr ih =>
    have hheight : c.height = older.length := h.height
    rw [List.reverse_cons, numbered_append]
    exact ⟨ih, by rw [hr.height, hheight, List.length_reverse, Nat.zero_add], trivial⟩

theorem Chronicle.unique {records : List BlockRecord} {s s' : Standing}
    (h : Chronicle K records s) (h' : Chronicle K records s') : s = s' := by
  induction h generalizing s' with
  | genesis =>
    cases h'
    rfl
  | @block older c l r claim h hr ih =>
    cases h' with
    | @block _ c' l' _ claim' h' hr' =>
      have hsame : standing c l = standing c' l' := ih h'
      have htip : c.tipHash = c'.tipHash := congrArg Standing.tipHash hsame
      have hrebuilt := hr'.rebuilt
      rw [← htip, hr.rebuilt] at hrebuilt
      obtain rfl := Except.ok.inj hrebuilt
      exact grow_standing hsame r claim

theorem syncRecord_passes {c : Cursor} {l : RewardLedger} {x : Parts} {r : BlockRecord}
    {claim : SignedBlockClaim} (hx : standing x.cursor x.ledger = standing c l)
    (hr : Passes K c l r claim) (hnow : r.timestamp ≤ satAdd (env.now r.height) maxFutureMs) :
    ∃ z, syncRecord K env x r = some z ∧ standing z.cursor z.ledger = grow K c l r claim := by
  have hchecked := checked_standing hx.symm (hr.checked _ hnow)
  refine ⟨publishSynced K (applyRecord K (env.stored r.height) x r claim) r, ?_, ?_⟩
  · unfold syncRecord
    rw [checkRecord_iff.mpr hchecked]
    rfl
  · exact grow_standing hx r claim

/-- Whoever stands at an earlier point of the chain can take the records after it. -/
theorem Chronicle.replay {older : List BlockRecord} {s₀ : Standing} (h₀ : Chronicle K older s₀)
    (env : SyncEnv) {x : Parts} (hx : standing x.cursor x.ledger = s₀) : ∀ {newer : List BlockRecord}
      {s : Standing}, Chronicle K (newer++older) s →
      (∀ r ∈ newer, r.timestamp ≤ satAdd (env.now r.height) maxFutureMs) →
      ∃ z, exec (syncRecord K env) x newer.reverse = some z ∧
        standing z.cursor z.ledger = s := by
  intro newer
  induction newer with
  | nil =>
    intro s h _
    exact ⟨x, rfl, hx.trans (h₀.unique h)⟩
  | cons r newer ih =>
    intro s h hclock
    cases h with
    | block h hr =>
      obtain ⟨y, hy, hstands⟩ := ih h fun q hq => hclock q (List.mem_cons_of_mem _ hq)
      obtain ⟨z, hz, hgrown⟩ := syncRecord_passes hstands hr (hclock r List.mem_cons_self)
      refine ⟨z, ?_, hgrown⟩
      rw [List.reverse_cons, exec_append, hy]
      show (exec (syncRecord K env) y [r]) = some z
      rw [exec, hz]
      rfl

end Chronicles

/-- The store holds these records and no other. -/
def Filed (records : List BlockRecord) (s : BlockStore) : Prop :=
  ∀ height b, s.get height = some b ↔ b ∈ records ∧ b.height = height

section Pages

variable {records : List BlockRecord} {s : BlockStore}

theorem Filed.congr (h : Filed records s) {s' : BlockStore} (hb : s'.blocks = s.blocks) :
    Filed records s' := by
  intro height b
  rw [BlockStore.get_congr hb]
  exact h height b

theorem Filed.insertBlock (h : Filed records s)
    (hn : Numbered BlockRecord.height 0 records.reverse) {r : BlockRecord}
    (hr : r.height = records.length+1)
    (hfresh : ∀ height b, s.get height = some b → b.blockHash ≠ r.blockHash) :
    Filed (r.stored :: records) (s.insertBlock r) := by
  intro height b
  constructor
  · intro hget
    rcases BlockStore.get_insertBlock hget with ⟨rfl, rfl⟩ | ⟨-, hold⟩
    · exact ⟨List.mem_cons_self, rfl⟩
    · obtain ⟨hmem, hheight⟩ := (h height b).mp hold
      exact ⟨List.mem_cons_of_mem _ hmem, hheight⟩
  · rintro ⟨hmem, rfl⟩
    rcases List.mem_cons.mp hmem with rfl | hmem
    · exact BlockStore.get_insertBlock_self s r
    · have hbound := (hn.bounds b (List.mem_reverse.mpr hmem)).2
      have hold := (h b.height b).mpr ⟨hmem, rfl⟩
      rw [List.length_reverse] at hbound
      exact BlockStore.get_insertBlock_other (by omega) (hfresh _ b hold) hold

theorem Filed.rows (h : Filed records s) (hn : Numbered BlockRecord.height 0 records.reverse) :
    s.blocks.toList.map Prod.snd = records.reverse := by
  have hkeyed : Range.Keyed s := fun height b hb => ((h height b).mp hb).2
  have hordered : (s.blocks.toList.map Prod.snd).Pairwise fun a b => a.height < b.height := by
    have hkeys := s.blocks.ordered_keys_toList
    rw [← List.pairwise_map, Range.heights_toList hkeyed, List.pairwise_map]
    exact hkeys.imp fun hab => Nat.compare_eq_lt.mp hab
  apply eq_of_ordered hordered hn.pairwise
  intro r
  rw [List.mem_reverse, List.mem_map]
  constructor
  · rintro ⟨⟨height, b⟩, hb, rfl⟩
    exact ((h height b).mp (ExtTreeMap.mem_toList_iff_getElem?_eq_some.mp hb)).1
  · intro hr
    have hget := (h r.height r).mpr ⟨hr, rfl⟩
    exact ⟨(r.height, r), ExtTreeMap.mem_toList_iff_getElem?_eq_some.mpr hget, rfl⟩

theorem nextPage_eq (h : Filed records s) (hn : Numbered BlockRecord.height 0 records.reverse)
    {height : ℕ} (hroom : records.length ≤ u64Max) :
    nextPage s height = (records.reverse.drop height).take maxSyncPage := by
  unfold nextPage handleChainHeaders BlockStore.getRange
  simp only [Option.getD_some]
  rw [h.rows hn]
  have hstop : ∀ r ∈ records.reverse,
      (r.height ≤ min (satAdd (height+1) (maxSyncPage-1)) (satAdd (height+1) maxSyncPage)) ↔
        r.height ≤ height+maxSyncPage := by
    intro r hr
    have hbound := (hn.bounds r hr).2
    rw [List.length_reverse] at hbound
    unfold satAdd maxSyncPage
    omega
  rw [List.filter_congr fun r hr => decide_eq_decide.mpr (and_congr_right' (hstop r hr)),
    hn.slice height _ (Nat.zero_le _), Nat.sub_zero, Nat.add_sub_cancel_left, List.take_take,
    Nat.min_self]

end Pages

section Dialogue

variable {K : Primitives} {env : SyncEnv}

theorem sync_pages {records : List BlockRecord} {s : BlockStore} (h : Filed records s)
    (hn : Numbered BlockRecord.height 0 records.reverse) (hroom : records.length ≤ u64Max)
    {z : Parts} (requests : ℕ) : ∀ x : Parts,
      exec (syncRecord K env) x (records.reverse.drop x.cursor.height) = some z →
      x.cursor.height ≤ records.length →
      records.length ≤ x.cursor.height+requests*maxSyncPage →
      syncForwardFromPeer K env records.length x (transcript K env s requests x) = z := by
  induction requests with
  | zero =>
    intro x hx hle hfew
    rw [List.drop_of_length_le (by rw [List.length_reverse]; omega)] at hx
    exact Option.some.inj hx
  | succ requests ih =>
    intro x hx hle hfew
    rw [transcript, nextPage_eq h hn hroom]
    unfold syncForwardFromPeer
    split
    · rename_i hdone
      rw [List.drop_of_length_le (by rw [List.length_reverse]; omega)] at hx
      exact Option.some.inj hx
    · rename_i hmore
      rw [← List.take_append_drop maxSyncPage (records.reverse.drop x.cursor.height),
        exec_append] at hx
      obtain ⟨y, hy, hz⟩ := Option.bind_eq_some_iff.mp hx
      have hheight := exec_height hy
      rw [List.length_take, List.length_drop, List.length_reverse] at hheight
      cases hpage : (records.reverse.drop x.cursor.height).take maxSyncPage with
      | nil =>
        have hlength := congrArg List.length hpage
        rw [List.length_take, List.length_drop, List.length_reverse] at hlength
        unfold maxSyncPage at hlength
        simp only [List.length_nil] at hlength
        omega
      | cons r rest =>
        have hsync := syncPage_exec hy
        rw [hpage] at hsync
        simp only [hsync, Bool.false_eq_true, if_false]
        rw [List.drop_drop] at hz
        have hpages : (requests+1)*maxSyncPage = requests*maxSyncPage+maxSyncPage :=
          Nat.succ_mul requests maxSyncPage
        refine ih y ?_ (by omega) (by omega)
        rcases Nat.le_total (x.cursor.height+maxSyncPage) records.length with hlong | hshort
        · rwa [hheight, Nat.min_eq_left (by omega)]
        · rw [List.drop_of_length_le (by rw [List.length_reverse]; omega)] at hz
          rwa [List.drop_of_length_le (by rw [List.length_reverse]; omega)]

end Dialogue

def Unstored (s : BlockStore) (hash : Str) : Prop :=
  ∀ height b, s.get height = some b → b.blockHash ≠ hash

/-- Claims of version 1, a clock that is not at its end, rows that are written
under hashes of their own, and no reorganisation. -/
def Plain (K : Primitives) (n : Node) : Event → Prop
  | .client (.submit p _) => p.claim.header.version = 1
  | .loop (.prepare ..) => n.cursor.lastBlockTimestampMs < u64Max
  | .loop (.record stored) => stored = true ∧
    ∀ f, n.phase = .executed f → Unstored n.store (recordOf K f).blockHash
  | .loop (.adopt _ stored r) => stored = true ∧ Unstored n.store r.blockHash
  | .loop (.rewind _) => False
  | _ => True

/-- What the checks that do not look at the tip have established, and the seed of
a claim for the next height. -/
structure Fit (K : Primitives) (n : Node) (p : PendingClaim) : Prop where
  screened : Screened K p
  version : p.claim.header.version = 1
  proof : Attested.HasProof p
  height : p.height ≤ n.state.chainHeight+1
  seed : p.height = n.state.chainHeight+1 → isCheckpointHeight p.height = true ∨
    p.claim.header.bitcoinSeedHash = n.state.btcSeedHash

def Onward (n n' : Node) : Prop :=
  (n'.state.chainHeight = n.state.chainHeight ∧ n'.state.btcSeedHash = n.state.btcSeedHash) ∨
    n.state.chainHeight < n'.state.chainHeight

theorem Fit.carry {K : Primitives} {n n' : Node} {p : PendingClaim} (h : Fit K n p)
    (ho : Onward n n') : Fit K n' p where
  screened := h.screened
  version := h.version
  proof := h.proof
  height := by
    have hle := h.height
    rcases ho with ⟨hh, -⟩ | hlt <;> omega
  seed hheight := by
    have hle := h.height
    rcases ho with ⟨hh, hs⟩ | hlt
    · rw [hs]
      exact h.seed (by omega)
    · omega

def Working (K : Primitives) (n : Node) : Prop :=
  match n.phase with
  | .searching t => ∀ nonce publicKey signature,
    (t.sign nonce publicKey signature).claim.verify K = .ok () →
      Fit K n (t.sign nonce publicKey signature)
  | .elected f => Fit K n f.winning
  | .rewound _ => False
  | _ => True

structure Vetted (K : Primitives) (n : Node) (g : History) : Prop where
  tipChecked : ∀ (id : ℕ) (p : PendingClaim) (reward : ℕ),
    n.requests[id]? = some (.tipChecked p reward) → id ∈ g.fresh ∧ Fit K n p
  executionChecked : ∀ (id : ℕ) (p : PendingClaim),
    n.requests[id]? = some (.executionChecked p) → p ∈ g.judged
  pools : Carried.OfPools (· ∈ g.judged) n.state
  judged : ∀ p ∈ g.judged, Fit K n p
  working : Working K n

theorem vetted_boot (K : Primitives) (outcomes : List AppendOutcome)
    (observed : BtcEntropyState) : Vetted K (boot K outcomes observed) .start where
  tipChecked id p reward h := by simp [boot] at h
  executionChecked id p h := by simp [boot] at h
  pools height miner p h := by simp [boot, genesisState, NodeState.poolAt] at h
  judged p hp := by cases hp
  working := trivial

theorem Working.framed {K : Primitives} {n n' : Node} (hf : Framed n n') (h : Working K n) :
    Working K n' := by
  have ho : Onward n n' := Or.inl ⟨hf.chainHeight, hf.btcSeedHash⟩
  unfold Working at *
  rw [hf.phase]
  split
  · rename_i t hp
    simp only [hp] at h
    exact fun nonce publicKey signature hv => (h nonce publicKey signature hv).carry ho
  · rename_i f hp
    simp only [hp] at h
    exact h.carry ho
  · rename_i rolledBack hp
    simp only [hp] at h
  · trivial

theorem submitted_fit {K : Primitives} {n : Node} {p : PendingClaim} {now reward : ℕ}
    (hs : screen K p = .ok ()) (ht : checkTip K n.state now p = .ok reward)
    (hv : p.claim.header.version = 1) : Fit K n p := by
  obtain ⟨-, htip, -, hseed, -⟩ := checkTip_ok.mp ht
  refine
    { screened := screen_ok.mp hs
      version := hv
      proof := Attested.checkTip_hasProof ht
      height := Nat.le_of_eq htip.height
      seed := fun _ => ?_ }
  unfold SeedHolds at hseed
  split at hseed
  · rename_i hc
    exact Or.inl hc
  · exact Or.inr hseed

theorem client_vetted {K : Primitives} {n n' : Node} {g : History} {e : ClientEvent}
    (h : Vetted K n g) (hok : Plain K n (.client e)) (hs : clientStep K n e = some n') :
    Vetted K n' (noteClient n e n' g) := by
  have hf := clientStep_framed hs
  have ho : Onward n n' := Or.inl ⟨hf.chainHeight, hf.btcSeedHash⟩
  have hworking := h.working.framed hf
  have hjudged : ∀ p ∈ g.judged, Fit K n' p := fun p hp => (h.judged p hp).carry ho
  have hframe (hreq : ∀ (id : ℕ) (r : Request), n'.requests[id]? = some r →
      n.requests[id]? = some r ∨ ∃ tx, r = .spendChecked tx)
      (hpools : Carried.OfPools (· ∈ g.judged) n'.state) : Vetted K n' g :=
    { tipChecked := fun id p reward hget => by
        rcases hreq id _ hget with hold | ⟨tx, hne⟩
        · obtain ⟨hfresh, hfit⟩ := h.tipChecked id p reward hold
          exact ⟨hfresh, hfit.carry ho⟩
        · cases hne
      executionChecked := fun id p hget => by
        rcases hreq id _ hget with hold | ⟨tx, hne⟩
        · exact h.executionChecked id p hold
        · cases hne
      pools := hpools
      judged := hjudged
      working := hworking }
  have herase : ∀ (id k : ℕ) (r : Request), (n.requests.erase id)[k]? = some r →
      n.requests[k]? = some r := by
    intro id k r hget
    rw [ExtTreeMap.getElem?_erase] at hget
    split at hget
    · cases hget
    · exact hget
  cases clientStep_handled hs with
  | @submit p now reward hscreen hcheck =>
    have hfit := submitted_fit (n := n) hscreen hcheck hok
    refine
      { tipChecked := fun id q r hget => ?_
        executionChecked := fun id q hget => ?_
        pools := h.pools
        judged := hjudged
        working := hworking }
    · rw [enroll, Maps.getElem?_insert_eq] at hget
      split at hget
      · rename_i hid
        obtain ⟨rfl, -⟩ := Request.tipChecked.inj (Option.some.inj hget)
        exact ⟨by rw [← hid]; exact List.mem_cons_self, hfit.carry ho⟩
      · obtain ⟨hfresh, hq⟩ := h.tipChecked id q r hget
        exact ⟨List.mem_cons_of_mem _ hfresh, hq.carry ho⟩
    · rw [enroll, Maps.getElem?_insert_eq] at hget
      split at hget
      · cases hget
      · exact h.executionChecked id q hget
  | @judge id reward p hr hl he =>
    obtain ⟨hfresh, hfit⟩ := h.tipChecked id p reward hr
    have hnote : noteClient n (.checkExecution id)
        { n with requests := n.requests.insert id (.executionChecked p) } g =
          { g with judged := p :: g.judged } := by
      unfold noteClient
      simp only [hr, Maps.getElem?_insert_eq, if_true, if_pos hfresh]
    rw [hnote]
    refine
      { tipChecked := fun k q r hget => ?_
        executionChecked := fun k q hget => ?_
        pools := fun height miner q hq => List.mem_cons_of_mem _ (h.pools height miner q hq)
        judged := fun q hq => ?_
        working := hworking }
    · rw [Maps.getElem?_insert_eq] at hget
      split at hget
      · cases hget
      · obtain ⟨hk, hq⟩ := h.tipChecked k q r hget
        exact ⟨hk, hq.carry ho⟩
    · rw [Maps.getElem?_insert_eq] at hget
      split at hget
      · obtain rfl := Request.executionChecked.inj (Option.some.inj hget)
        exact List.mem_cons_self
      · exact List.mem_cons_of_mem _ (h.executionChecked k q hget)
    · rcases List.mem_cons.mp hq with rfl | hq
      · exact hfit.carry ho
      · exact hjudged q hq
  | @refuse id reward p hr hl he =>
    have hnote : noteClient n (.checkExecution id)
        { n with requests := n.requests.erase id } g = g := by
      have hnone : (n.requests.erase id)[id]? = none := ExtTreeMap.getElem?_erase_self
      unfold noteClient
      simp only [hr, hnone]
    rw [hnote]
    exact hframe (fun k r hget => Or.inl (herase id k r hget)) h.pools
  | @enter id p hr =>
    exact hframe (fun k r hget => Or.inl (herase id k r hget))
      (h.pools.enter (h.executionChecked id p hr)).1
  | observe => exact hframe (fun _ _ hget => Or.inl hget) h.pools
  | @offer tx hl hc =>
    refine hframe (fun k r hget => ?_) h.pools
    rw [enroll, Maps.getElem?_insert_eq] at hget
    split at hget
    · exact Or.inr ⟨tx, (Option.some.inj hget).symm⟩
    · exact Or.inl hget
  | @queue id persisted tx hr hroom =>
    exact hframe (fun k r hget => Or.inl (herase id k r hget)) h.pools
  | @full id persisted tx hr hfull =>
    exact hframe (fun k r hget => Or.inl (herase id k r hget)) h.pools

section Loop

variable {K : Primitives} {wallet : WalletPublicKey} {n n' : Node} {g : History}

theorem transition_onward {e : LoopEvent} (hc : Coherent K n) (hne : e ≠ .publishRewound)
    (ht : Transition K wallet n e n') : Onward n n' := by
  have hphase := hc.phase
  unfold PhaseOk at hphase
  cases ht with
  | prepare | elect | electNobody | execute | record | save | publishSpent | adopt | rewind =>
    exact Or.inl ⟨rfl, rfl⟩
  | @mined t p nonce hashesTried elapsedMs signature hp hsign hv =>
    have hsame : (enterLocal n.state p).chainHeight = n.state.chainHeight ∧
        (enterLocal n.state p).btcSeedHash = n.state.btcSeedHash := by
      rw [enterLocal_eq]
      exact ⟨rfl, rfl⟩
    exact Or.inl hsame
  | @publish f state hp hs =>
    simp only [hp] at hphase
    obtain ⟨hag, -, -⟩ := publish_agreed hphase.2 hs
    right
    show n.state.chainHeight < state.chainHeight
    rw [hag.height, hphase.2.cursor, hphase.1.height]
    show n.cursor.height < f.height
    rw [hphase.2.height]
    exact Nat.lt_succ_self _
  | publishAdopted hp =>
    simp only [hp] at hphase
    right
    show n.state.chainHeight < n.cursor.height
    omega
  | publishRewound => exact absurd rfl hne

theorem prepare_fit (hs : Settled n) (fresh : BtcEntropyState) (now : ℕ)
    (txs : List SignedTransaction) (hm : FromMempool K n.state txs) (nonce : ℕ)
    (publicKey signature : Bytes)
    (hv : ((prepare K (wallet.address K) n.state n.ledger n.cursor fresh now txs).2.sign nonce
      publicKey signature).claim.verify K = .ok ()) :
    Fit K n ((prepare K (wallet.address K) n.state n.ledger n.cursor fresh now txs).2.sign nonce
      publicKey signature) := by
  have hheight : ((prepare K (wallet.address K) n.state n.ledger n.cursor fresh now txs).2.sign
      nonce publicKey signature).height = n.state.chainHeight+1 := by
    rw [hs.agreed.height]
    rfl
  refine
    { screened :=
        { verified := hv
          size := ?_
          merkle := rfl }
      version := rfl
      proof := Attested.prepare_hasProof K _ _ _ _ fresh now txs nonce publicKey signature
      height := Nat.le_of_eq hheight
      seed := fun _ => ?_ }
  · obtain ⟨selected, happ, -, hle⟩ := simulate_selected K n.ledger
      (Hex.encode (wallet.address K).toList) txs (∅, [])
    have hlength := hm.1
    show (simulateBlockExecution K n.ledger txs (Hex.encode (wallet.address K).toList)
      (blockReward (n.cursor.height+1) n.state.totalMinedBina)).1.length ≤ maxTxsPerBlock
    rw [simulateBlockExecution_eq]
    dsimp only
    rw [happ, List.nil_append]
    omega
  · rw [hheight, hs.agreed.seed, hs.agreed.height]
    cases hck : isCheckpointHeight (n.cursor.height+1) with
    | true => exact Or.inl rfl
    | false =>
      right
      simp [prepare, Template.sign, hck]

theorem loop_vetted {e : LoopEvent} (hc : Coherent K n) (h : Vetted K n g)
    (hok : Plain K n (.loop e)) (ht : Transition K wallet n e n') :
    Vetted K n' (noteLoop K wallet n e n' g) := by
  have hphase := hc.phase
  have hworking := h.working
  unfold PhaseOk at hphase
  unfold Working at hworking
  have hne : e ≠ .publishRewound := by
    rintro rfl
    cases ht with
    | publishRewound hp => simp only [hp] at hworking
  have ho := transition_onward hc hne ht
  have hreq := transition_requests ht
  have hkeep {g' : History} (hfresh : g'.fresh = g.fresh)
      (hj : ∀ p ∈ g.judged, p ∈ g'.judged) (hnew : ∀ p ∈ g'.judged, Fit K n' p)
      (hpools : Carried.OfPools (· ∈ g'.judged) n'.state) (hw : Working K n') :
      Vetted K n' g' :=
    { tipChecked := fun id p reward hget => by
        rw [hreq] at hget
        obtain ⟨hid, hfit⟩ := h.tipChecked id p reward hget
        exact ⟨by rwa [hfresh], hfit.carry ho⟩
      executionChecked := fun id p hget => by
        rw [hreq] at hget
        exact hj p (h.executionChecked id p hget)
      pools := hpools
      judged := hnew
      working := hw }
  have hjudged : ∀ p ∈ g.judged, Fit K n' p := fun p hp => (h.judged p hp).carry ho
  have hsame : ∀ p ∈ g.judged, p ∈ g.judged := fun _ hp => hp
  cases ht with
  | @prepare fresh now txs hp hh hob hm =>
    simp only [hp] at hphase
    exact hkeep rfl hsame hjudged h.pools fun nonce publicKey signature hv =>
      (prepare_fit hphase fresh now txs hm nonce publicKey signature hv).carry ho
  | @mined t p nonce hashesTried elapsedMs signature hp hsign hv =>
    simp only [hp] at hworking
    rw [noteLoop_mined hp]
    have hfit : Fit K n p := by
      rw [hsign] at hv ⊢
      exact hworking _ _ _ hv
    rw [← hsign]
    have hpools : Carried.OfPools (· ∈ p :: g.judged) n.state :=
      fun height miner q hq => List.mem_cons_of_mem _ (h.pools height miner q hq)
    refine hkeep rfl (fun _ hq => List.mem_cons_of_mem _ hq) (fun q hq => ?_)
      (hpools.enter List.mem_cons_self).2 trivial
    rcases List.mem_cons.mp hq with rfl | hq
    · exact hfit.carry ho
    · exact hjudged q hq
  | @elect order height reward hashesTried elapsedMs localHash w hp hperm hw =>
    have hin := Carried.elected_carried h.pools hperm hw
    exact hkeep rfl hsame hjudged (h.pools.retain _) ((h.judged w hin).carry ho)
  | electNobody | record | save | publishSpent =>
    exact hkeep rfl hsame hjudged h.pools trivial
  | execute hp =>
    rw [noteLoop_execute hp]
    exact hkeep rfl hsame hjudged h.pools trivial
  | publish hp hs =>
    unfold Mining.publish at hs
    split at hs
    · cases hs
    · obtain rfl := Option.some.inj hs
      exact hkeep rfl hsame hjudged h.pools trivial
  | adopt hp hh hck =>
    rw [noteLoop_adopt hck.header]
    exact hkeep rfl hsame hjudged h.pools trivial
  | publishAdopted => exact hkeep rfl hsame hjudged (h.pools.retain _) trivial
  | rewind => exact False.elim hok
  | publishRewound => exact absurd rfl hne

theorem plain_current {x : Traced} {e : LoopEvent} {m : Node} (hv : Vetted K x.1 x.2)
    (hok : Plain K x.1 (.loop e)) (ht : Transition K wallet x.1 e m) (hexec : e ≠ .execute)
    (hadopt : ∀ now stored r, e ≠ .adopt now stored r) : Current K x (.loop e) := by
  cases ht with
  | prepare => exact hok
  | elect hp ho hw =>
    intro w hsel
    exact Carried.elected_carried hv.pools ho hsel
  | electNobody hp ho hw =>
    intro w hsel
    rw [hw] at hsel
    cases hsel
  | execute => exact absurd rfl hexec
  | @adopt now stored r => exact absurd rfl (hadopt now stored r)
  | mined | record | save | publish | publishSpent | publishAdopted | rewind | publishRewound =>
    trivial

theorem judged_plain {x y : Traced} {e : Event} (h : Judged K wallet x)
    (hv : Vetted K x.1 x.2) (hok : Plain K x.1 e) (hs : tracedStep K wallet x e = some y) :
    Judged K wallet y := by
  cases e with
  | client e =>
    have hcurrent : Current K x (.client e) := trivial
    exact judged_step h hcurrent hs
  | loop e =>
    obtain ⟨hstep, hg⟩ := recording_eq_some.mp hs
    have ht := loopStep_transition hstep
    have hmove (hstage : Stage K wallet y.1) : Judged K wallet y :=
      { coherent := h.coherent.step hstep
        shelved := shelved_step h.shelved hstep
        judgements := by
          rw [hg]
          exact loop_judgements h.coherent h.stage h.judgements ht
        stage := hstage }
    by_cases hexec : e = .execute
    · subst hexec
      apply hmove
      obtain ⟨n, g⟩ := y
      cases ht
      trivial
    by_cases hadopt : ∃ now stored r, e = .adopt now stored r
    · obtain ⟨now, stored, r, rfl⟩ := hadopt
      apply hmove
      obtain ⟨n, g⟩ := y
      cases ht
      trivial
    · exact judged_step h (plain_current hv hok ht hexec fun now stored r he =>
        hadopt ⟨now, stored, r, he⟩) hs

end Loop

def Documented (K : Primitives) (n : Node) (records : List BlockRecord) : Prop :=
  match n.phase with
  | .executed f => Chronicle K records (standing f.cursor n.ledger) ∧
    ∃ older, records = recordOf K f :: older ∧ Filed older n.store
  | .recorded f | .saved f =>
    Chronicle K records (standing f.cursor n.ledger) ∧ Filed records n.store
  | .rewound _ => False
  | .crashed => True
  | _ => Chronicle K records (standing n.cursor n.ledger) ∧ Filed records n.store

section Documents

variable {K : Primitives} {wallet : WalletPublicKey} {n n' : Node}

theorem documented_boot (K : Primitives) (outcomes : List AppendOutcome)
    (observed : BtcEntropyState) : Documented K (boot K outcomes observed) [] where
  left := Chronicle.genesis
  right height b := by simp [boot, BlockStore.get, BlockStore.empty]

theorem Documented.framed {records : List BlockRecord} (hf : Framed n n')
    (h : Documented K n records) : Documented K n' records := by
  have hfiled : ∀ rs, Filed rs n'.store ↔ Filed rs n.store := fun _ =>
    ⟨fun hs => hs.congr hf.blocks.symm, fun hs => hs.congr hf.blocks⟩
  unfold Documented at *
  rw [hf.phase, hf.ledger, hf.cursor]
  simp only [hfiled]
  exact h

theorem adopted_passes {now : ℕ} {r : BlockRecord} {claim : SignedBlockClaim}
    (h : Checked K n.cursor n.ledger now r claim) : Passes K n.cursor n.ledger r.stored claim where
  height := h.height
  rebuilt := h.rebuilt
  checked now' hnow :=
    { height := h.height
      parent := h.parent
      rebuilt := h.rebuilt
      header := h.header
      later := h.later
      notFuture := by
        obtain ⟨-, -, -, htime, -⟩ := headerFromRecord_ok h.header
        rw [htime]
        exact hnow
      difficulty := h.difficulty
      seed := h.seed
      verified := h.verified
      hash := h.hash
      merkle := h.merkle
      size := h.size
      applied := h.applied
      root := h.root }

theorem winner_passes {f : Finalising} (hs : Settled n) (he : Extends K n f)
    (hfit : Fit K n f.winning)
    (hw : ExtendsTip n.state f.winning ∧ Executes K n.ledger f.winning f.reward) :
    Passes K n.cursor n.ledger (recordOf K f) f.winning.claim := by
  have hheight : f.winning.claim.header.height = f.height := by
    rw [he.height, ← hs.agreed.height]
    exact hw.1.height
  have hparent : f.winning.claim.header.prevHash = n.cursor.tipHash :=
    hw.1.parent.trans hs.agreed.tip
  have hsame (prevHash : Hash) (hp : f.winning.claim.header.prevHash = prevHash) :
      { f.winning.claim.header with version := 1, height := f.height, prevHash } =
        f.winning.claim.header := by
    rw [← hheight, ← hp, ← hfit.version]
  have hheader := Encoding.headerFromRecord_recordOf K f n.cursor.tipHash
  have hrebuilt := Encoding.claimFromRecord_recordOf K f n.cursor.tipHash
  rw [hsame _ hparent] at hheader hrebuilt
  refine
    { height := he.height
      rebuilt := hrebuilt
      checked := fun now hnow =>
        { height := he.height
          parent := by rw [← hparent]; rfl
          rebuilt := hrebuilt
          header := hheader
          later := by
            rw [← hs.agreed.timestamp]
            exact hw.1.later
          notFuture := hnow
          difficulty := hw.1.difficulty.trans hs.agreed.difficulty
          seed := ?_
          verified := hfit.screened.verified
          hash := rfl
          merkle := hfit.screened.merkle
          size := hfit.screened.size
          applied := hw.2.applied
          root := hw.2.root } }
  rcases hfit.seed hw.1.height with hck | hseed
  · left
    show isCheckpointHeight f.height = true
    rwa [← hheight]
  · right
    rw [← hs.agreed.seed, ← hseed]
    rfl

theorem winner_grown {f : Finalising} (he : Extends K n f) (hfit : Fit K n f.winning)
    (hheight : f.winning.height = f.height) :
    standing f.cursor (executeWinner K f n.ledger) =
      grow K n.cursor n.ledger (recordOf K f) f.winning.claim := by
  have hseed : (advance K n.cursor f.winning f.height).btcSeedHash =
      (advanceSynced K n.cursor (recordOf K f) f.winning.claim).btcSeedHash := by
    show (if isCheckpointHeight f.height ∧ f.winning.btcCheckpoint.isSome then
      f.winning.claim.header.bitcoinSeedHash else n.cursor.btcSeedHash) =
        if isCheckpointHeight f.height then f.winning.claim.header.bitcoinSeedHash
        else n.cursor.btcSeedHash
    cases hck : isCheckpointHeight f.height with
    | false => simp
    | true =>
      have hproof := hfit.proof (by rwa [hheight])
      simp [hproof]
  rw [he.cursor]
  unfold grow standing
  rw [hseed]
  rfl

theorem Documented.idle {records : List BlockRecord} (h : Documented K n records)
    (hp : n.phase = .idle) :
    Chronicle K records (standing n.cursor n.ledger) ∧ Filed records n.store := by
  simpa only [Documented, hp] using h

theorem loop_documented {g : History} {e : LoopEvent} {records : List BlockRecord}
    (hj : Judged K wallet (n, g)) (hv : Vetted K n g) (hok : Plain K n (.loop e))
    (h : Documented K n records) (ht : Transition K wallet n e n') :
    ∃ newer, Documented K n' (newer++records) := by
  have hphase := hj.coherent.phase
  have hstage := hj.stage
  have hworking := hv.working
  unfold PhaseOk at hphase
  cases ht with
  | prepare hp | mined hp | elect hp =>
    refine ⟨[], ?_⟩
    simpa only [Documented, hp, List.nil_append] using h
  | electNobody | publishSpent => exact ⟨[], trivial⟩
  | @execute f hp =>
    simp only [hp] at hphase
    simp only [Stage, hp] at hstage
    simp only [Working, hp] at hworking
    simp only [Documented, hp] at h
    obtain ⟨hset, hext, -⟩ := hphase
    have hpasses := winner_passes hset hext hworking hstage
    have hheight : f.winning.height = f.height := by
      rw [hext.height, ← hset.agreed.height]
      exact hstage.1.height
    refine ⟨[recordOf K f], ?_, records, rfl, ?_⟩
    · rw [winner_grown hext hworking hheight]
      exact h.1.block hpasses
    · exact h.2.congr (BlockStore.mempoolRemoves_blocks K _ _)
  | @record f stored hp =>
    simp only [Documented, hp] at h
    obtain ⟨hchain, older, rfl, hfiled⟩ := h
    obtain ⟨rfl, hfresh⟩ := hok
    have hnumbered := hchain.numbered
    rw [List.reverse_cons, numbered_append, List.length_reverse] at hnumbered
    refine ⟨[], hchain, ?_⟩
    have hheight : (recordOf K f).height = older.length+1 := by
      have hlast := hnumbered.2.1
      omega
    exact hfiled.insertBlock hnumbered.1 hheight (hfresh f hp)
  | save hp =>
    refine ⟨[], ?_⟩
    simpa only [Documented, hp, List.nil_append] using h
  | publish hp hs =>
    simp only [Documented, hp] at h
    exact ⟨[], h⟩
  | @adopt now stored r claim hp hh hck =>
    simp only [Documented, hp] at h
    obtain ⟨rfl, hfresh⟩ := hok
    have hlength : n.cursor.height = records.length := h.1.height
    have hheight : r.height = records.length+1 := by rw [hck.height, hlength]
    exact ⟨[r.stored], h.1.block (adopted_passes hck),
      h.2.insertBlock h.1.numbered hheight hfresh⟩
  | publishAdopted hp =>
    simp only [Documented, hp] at h
    exact ⟨[], h.1, h.2.congr (BlockStore.mempoolRemoves_blocks K _ _)⟩
  | rewind => exact False.elim hok
  | publishRewound hp => simp only [Documented, hp] at h

end Documents

section Runs

variable {K : Primitives} {wallet : WalletPublicKey}

structure Kept (K : Primitives) (wallet : WalletPublicKey) (x : Traced)
    (records : List BlockRecord) : Prop where
  judged : Judged K wallet x
  vetted : Vetted K x.1 x.2
  documented : Documented K x.1 records

theorem kept_step {x y : Traced} {e : Event} {records : List BlockRecord}
    (h : Kept K wallet x records) (hok : Plain K x.1 e)
    (hs : tracedStep K wallet x e = some y) : ∃ newer, Kept K wallet y (newer++records) := by
  have hjudged := judged_plain h.judged h.vetted hok hs
  obtain ⟨n, g⟩ := x
  obtain ⟨n', g'⟩ := y
  obtain ⟨hstep, hg⟩ := recording_eq_some.mp hs
  dsimp only at hstep hg hok
  subst hg
  cases e with
  | client e =>
    simp only [step] at hstep
    split at hstep
    · cases hstep
    · exact ⟨[], hjudged, client_vetted h.vetted hok hstep,
        h.documented.framed (clientStep_framed hstep)⟩
  | loop e =>
    have ht := loopStep_transition hstep
    obtain ⟨newer, hdoc⟩ := loop_documented h.judged h.vetted hok h.documented ht
    exact ⟨newer, hjudged, loop_vetted h.judged.coherent h.vetted hok ht, hdoc⟩

theorem kept_run {x y : Traced} {records : List BlockRecord} (h : Kept K wallet x records)
    (hr : Run (tracedStep K wallet) (fun z e => Plain K z.1 e) x y) :
    ∃ newer, Kept K wallet y (newer++records) := by
  induction hr with
  | refl => exact ⟨[], h⟩
  | tail _ ho hs ih =>
    obtain ⟨newer, hmid⟩ := ih
    obtain ⟨newest, hlast⟩ := kept_step hmid ho hs
    exact ⟨newest++newer, by rwa [List.append_assoc]⟩

theorem kept_boot (K : Primitives) (wallet : WalletPublicKey) (outcomes : List AppendOutcome)
    (observed : BtcEntropyState) : Kept K wallet (boot K outcomes observed, .start) [] where
  judged := judged_boot K wallet outcomes observed
  vetted := vetted_boot K outcomes observed
  documented := documented_boot K outcomes observed

/-- A follower that stands where the server stood at some idle moment, and whose
clock is not behind the records, asks the server for pages. Every page is the next
slice of the chain in the store, every record of it passes the checks of its place,
and the follower ends where the server is, with its tip, its pinned seed, its
difficulty and its accounts. -/
theorem follower_catches_up {outcomes : List AppendOutcome} {observed : BtcEntropyState}
    {m n : Node} (hm : Run (step K wallet) (Plain K) (boot K outcomes observed) m)
    (hn : Run (step K wallet) (Plain K) m n) (hpm : m.phase = .idle) (hpn : n.phase = .idle)
    (env : SyncEnv) {x : Parts} (hx : standing x.cursor x.ledger = standing m.cursor m.ledger)
    (hclock : ∀ height r, n.store.get height = some r →
      r.timestamp ≤ satAdd (env.now height) maxFutureMs)
    (hroom : n.cursor.height ≤ u64Max) {requests : ℕ}
    (hmany : n.cursor.height ≤ m.cursor.height+requests*maxSyncPage) :
    ∃ chain : List BlockRecord, Filed chain n.store ∧ Numbered BlockRecord.height 0 chain ∧
      chain.length = n.cursor.height ∧
      (∀ height, nextPage n.store height = (chain.drop height).take maxSyncPage) ∧
      Extension.Extends K env.now (tipOf x) (chain.drop x.cursor.height) ∧
      let y := syncForwardFromPeer K env n.cursor.height x (transcript K env n.store requests x)
      standing y.cursor y.ledger = standing n.cursor n.ledger := by
  obtain ⟨g, hm⟩ := hm.recorded (note K wallet) .start
  obtain ⟨g', hn⟩ := hn.recorded (note K wallet) g
  obtain ⟨older, hkept⟩ := kept_run (kept_boot K wallet outcomes observed) hm
  rw [List.append_nil] at hkept
  obtain ⟨newer, hkept'⟩ := kept_run hkept hn
  obtain ⟨hold, -⟩ := hkept.documented.idle hpm
  obtain ⟨hchain, hfiled⟩ := hkept'.documented.idle hpn
  have hlength : n.cursor.height = (newer++older).length := hchain.height
  have holder : m.cursor.height = older.length := hold.height
  have hxheight : x.cursor.height = older.length :=
    (congrArg Standing.height hx).trans hold.height
  obtain ⟨z, hz, hstands⟩ := hold.replay env hx hchain fun r hr =>
    hclock r.height r ((hfiled r.height r).mpr ⟨List.mem_append_left _ hr, rfl⟩)
  have hdrop : (newer++older).reverse.drop x.cursor.height = newer.reverse := by
    rw [List.reverse_append, hxheight]
    exact List.drop_left' (List.length_reverse)
  rw [← hdrop] at hz
  refine ⟨(newer++older).reverse, ?_, hchain.numbered, ?_, ?_, ?_, ?_⟩
  · intro height b
    rw [List.mem_reverse]
    exact hfiled height b
  · rw [List.length_reverse, hlength]
  · exact fun height => nextPage_eq hfiled hchain.numbered (by omega)
  · exact (exec_iff_extends _).mp (Option.isSome_iff_exists.mpr ⟨z, hz⟩)
  · have hall := sync_pages hfiled hchain.numbered (by omega) requests x hz
      (by rw [hxheight, List.length_append]; omega) (by omega)
    intro y
    have hy : y = z := by
      show syncForwardFromPeer K env n.cursor.height x _ = z
      rw [hlength]
      exact hall
    rw [hy, hstands]

end Runs

instance (s : BlockStore) (hash : Str) : Decidable (Unstored s hash) :=
  decidable_of_iff (∀ e ∈ s.blocks.toList, e.2.blockHash ≠ hash)
    ⟨fun h height b hb => h (height, b) (ExtTreeMap.mem_toList_iff_getElem?_eq_some.mpr hb),
      fun h e he => h e.1 e.2 (ExtTreeMap.mem_toList_iff_getElem?_eq_some.mp he)⟩

def executedOf : Phase → Option Finalising
  | .executed f => some f
  | _ => none

theorem executedOf_eq {p : Phase} {f : Finalising} :
    executedOf p = some f ↔ p = .executed f := by
  cases p <;> simp [executedOf]

instance (K : Primitives) (n : Node) : ∀ e, Decidable (Plain K n e)
  | .client (.submit p _) => inferInstanceAs (Decidable (p.claim.header.version = 1))
  | .loop (.prepare ..) => inferInstanceAs (Decidable (_ < _))
  | .loop (.record stored) =>
    decidable_of_iff (stored = true ∧ ∀ f ∈ executedOf n.phase,
        Unstored n.store (recordOf K f).blockHash) <|
      and_congr_right' (forall_congr' fun _ => imp_congr_left executedOf_eq)
  | .loop (.adopt _ stored r) =>
    inferInstanceAs (Decidable (stored = true ∧ Unstored n.store r.blockHash))
  | .loop (.rewind _) => isFalse id
  | .client (.checkExecution _) | .client (.enter _) | .client (.observe _) | .client (.offer _)
  | .client (.queue ..) | .loop (.mined ..) | .loop (.elect _) | .loop .execute
  | .loop (.save _) | .loop .publish | .loop .publishAdopted | .loop .publishRewound =>
    isTrue trivial

def toyServer : List Event :=
  Agreement.toyMiner++toyAdoption (toyRecord 2 7 toyFirst [])

set_option maxRecDepth 100000 in
theorem follower_catches_up_fresh : ∃ n,
    exec (step toyPrimitives (toyWalletKey 1)) toyBoot toyServer = some n ∧ n.cursor.height = 2 ∧
    ∃ chain : List BlockRecord, Filed chain n.store ∧ Numbered BlockRecord.height 0 chain ∧
      chain.length = n.cursor.height ∧
      (∀ height, nextPage n.store height = (chain.drop height).take maxSyncPage) ∧
      Extension.Extends toyPrimitives toyEnv.now (tipOf toyGenesis) (chain.drop 0) ∧
      let y := syncForwardFromPeer toyPrimitives toyEnv n.cursor.height toyGenesis
        (transcript toyPrimitives toyEnv n.store 1 toyGenesis)
      standing y.cursor y.ledger = standing n.cursor n.ledger := by
  obtain ⟨hrun, hadm⟩ :
      ((exec (step toyPrimitives (toyWalletKey 1)) toyBoot toyServer).any fun n =>
        decide (n.cursor.height = 2 ∧ Agreement.isIdle n.phase ∧
          ∀ e ∈ n.store.blocks.toList, e.2.timestamp ≤ satAdd (toyEnv.now e.1) maxFutureMs)) ∧
      Admitted (step toyPrimitives (toyWalletKey 1)) (Plain toyPrimitives) toyBoot
        toyServer := by decide +kernel
  obtain ⟨n, hn, hrun⟩ := (Option.any_eq_true _ _).mp hrun
  obtain ⟨hheight, hidle, hclock⟩ := of_decide_eq_true hrun
  refine ⟨n, hn, hheight, ?_⟩
  apply follower_catches_up (.refl toyBoot) (hadm.run hn) rfl (Agreement.isIdle_iff.mp hidle)
    toyEnv rfl
  · intro height r hr
    exact hclock (height, r) (ExtTreeMap.mem_toList_iff_getElem?_eq_some.mpr hr)
  · rw [hheight]
    decide
  · rw [hheight]
    decide

end BinaChain.Serving
