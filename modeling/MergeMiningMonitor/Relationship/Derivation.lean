import MergeMiningMonitor.ReadModel.Rows

/-!
# Relationship — Derivation

The summary of a block's relationship signals (`relationship.rs`, `relationship_summary.rs`): which
known pools a Bitcoin parent names, through its coinbase, its child blocks' attributions and the
protocol accounts it declares, and whether there are two or more.

A refresh reads its inputs in five statements, over a batch of headers.  `derive` is what they give
for one header when nothing changes between them.  Most of what it reads belongs to the header
(`headerInputs`); the rest is the pool of each identity that the header names (`identityPool`), which
other headers share.  `derive_congr` says that there is nothing else, and `mem_reached` that the
expansion of an identity finds every header that names it.

The pool snapshot and the decoding of outputs and addresses are parameters (`CoinbaseRules`).  The
foreign keys of `pool` make the id of a joined pool the id joined on.
-/

namespace MergeMiningMonitor.Relationship

open Relational List Option

/-! ### Signals -/

/-- What the pool snapshot recognizes, and how outputs are read. -/
structure CoinbaseRules where
  /-- `resolve_coinbase_script`: the matched tag and the pool's slug. -/
  resolveCoinbaseScript : Bytes → Option (String × String)
  /-- `resolve_payout_address` -/
  resolvePayoutAddress : String → Option String
  /-- The addresses of consensus-encoded outputs, if they deserialize. -/
  outputAddresses : Bytes → Option (List String)
  /-- `published_parent_coinbase_output_addresses` -/
  publishedOutputAddresses : String → List String

structure CoinbaseEvidence where
  script : Option Bytes
  outputs : Option Bytes
  outputsText : Option String
deriving DecidableEq

def CoinbaseEvidence.tier (c : CoinbaseEvidence) : Option ℕ :=
  if c.outputs.isSome then some 0
  else if c.outputsText.isSome then some 1
  else c.script.map fun _ => 2

/-- `choose_coinbase_evidence`: the lowest tier, then the lowest id. -/
def chooseCoinbaseEvidence (copies : List (ℤ × CoinbaseEvidence)) : Option CoinbaseEvidence :=
  let ranked := copies.filterMap fun (id, copy) => copy.tier.map fun tier => ((tier, id), copy)
  (Table.firstBy (fun a b => a.1.1 < b.1.1 || (a.1.1 = b.1.1 && a.1.2 < b.1.2)) ranked).map (·.2)

/-- The kind of a signal. -/
inductive SignalKind
  | bitcoinCoinbaseTag
  | bitcoinPayoutAddress
  | childRewardAddress
  | childCoinbaseTag
  | protocolAccount
deriving DecidableEq

/-- The trait `SignalPool`. -/
structure SignalPool (P : Type) where
  poolId : P → Option ℤ
  unknown : P

inductive DraftPool (P : Type)
  | known (pool : P)
  | snapshot (slug : String)
deriving DecidableEq

structure SignalDraft (P : Type) where
  kind : SignalKind
  source : Option String
  nameSpace : String
  value : String
  pool : DraftPool P
deriving DecidableEq

structure RelationshipSignal (P : Type) where
  kind : SignalKind
  source : Option String
  nameSpace : String
  value : String
  pool : P

structure RelationshipSignals (P : Type) where
  mixed : Bool
  referencePool : P
  pools : List P
  entries : List (RelationshipSignal P)

/-- What drafts are deduplicated by. -/
abbrev SignalKey := SignalKind × Option String × String × String

section Finish

variable {P : Type}

def SignalDraft.key (d : SignalDraft P) : SignalKey := (d.kind, d.source, d.nameSpace, d.value)

/-- The drafts whose key was not seen. -/
def firstOfKey (seen : List SignalKey) : List (SignalDraft P) → List (SignalDraft P)
  | [] => []
  | d :: ds => if d.key ∈ seen then firstOfKey seen ds else d :: firstOfKey (d.key :: seen) ds

variable (signalPool : SignalPool P) (poolsBySlug : String → Option P)

/-- The pool of a draft. -/
def SignalDraft.resolvedPool (d : SignalDraft P) : P :=
  match d.pool with
  | .known pool => pool
  | .snapshot slug => (poolsBySlug slug).getD signalPool.unknown

def SignalDraft.resolve (d : SignalDraft P) : RelationshipSignal P :=
  ⟨d.kind, d.source, d.nameSpace, d.value, d.resolvedPool signalPool poolsBySlug⟩

/-- One pool of the loop of `finish`. -/
def addPool (pools : List P) (pool : P) : List P :=
  match signalPool.poolId pool with
  | some id => if pools.any fun seen => signalPool.poolId seen = some id then pools else pools ++ [pool]
  | none => pools

def finish (bitcoinMinerPool : P) (drafts : List (SignalDraft P)) : RelationshipSignals P :=
  let entries := (firstOfKey [] drafts).map (·.resolve signalPool poolsBySlug)
  let pools := (bitcoinMinerPool :: entries.map (·.pool)).foldl (addPool signalPool) []
  { mixed := 1 < pools.length
    referencePool := pools.head?.getD signalPool.unknown
    pools
    entries }

end Finish

/-- The pools of the read model, which are their ids. -/
def storedPool : SignalPool (Option ℤ) := ⟨id, none⟩

abbrev StoredDraft := SignalDraft (Option ℤ)

def StoredDraft.child (source nameSpace value : String) (pool : Option ℤ) : StoredDraft where
  kind := if nameSpace = "btc_coinbase_tag" || nameSpace = "elastos_minerinfo" then .childCoinbaseTag
    else .childRewardAddress
  source := some source
  nameSpace := nameSpace
  value := value
  pool := .known pool

def StoredDraft.snapshotSlug (d : StoredDraft) : Option String :=
  match d.pool with
  | .known _ => none
  | .snapshot slug => some slug

/-- The pool of a draft, from the ids of the snapshot's pools. -/
def StoredDraft.poolIn (d : StoredDraft) (poolsBySlug : String → Option ℤ) : Option ℤ :=
  d.resolvedPool storedPool fun slug => (poolsBySlug slug).map some

/-- The protocols of `protocol_commitment_script`. -/
inductive Protocol
  | core
  | exsat
deriving DecidableEq

def protocolAccountDraft (protocol : Protocol) (account : Option String) (pool : Option ℤ) :
    Option StoredDraft :=
  account.map fun value =>
    { kind := .protocolAccount
      source := none
      nameSpace := match protocol with
        | .core => "core_reward_address"
        | .exsat => "exsat_account"
      value := value
      pool := .known pool }

namespace CoinbaseRules

variable (rules : CoinbaseRules)

def payoutAddresses (coinbase : CoinbaseEvidence) : List String :=
  match coinbase.outputs.bind rules.outputAddresses with
  | some addresses => addresses
  | none => (coinbase.outputsText.map rules.publishedOutputAddresses).getD []

/-- `bitcoin_drafts`, with the tag and then every payout address that the snapshot recognizes. -/
def bitcoinDrafts (coinbase : Option CoinbaseEvidence) : List StoredDraft :=
  match coinbase with
  | none => []
  | some coinbase =>
    ((coinbase.script.bind rules.resolveCoinbaseScript).map fun (tag, slug) =>
      ⟨.bitcoinCoinbaseTag, none, "btc_coinbase_tag", tag, .snapshot slug⟩).toList ++
    (rules.payoutAddresses coinbase).filterMap fun address =>
      (rules.resolvePayoutAddress address).map fun slug =>
        ⟨.bitcoinPayoutAddress, none, "btc_payout_address", address, .snapshot slug⟩

end CoinbaseRules

/-! ### Inputs -/

/-- A row of `block`. -/
structure BlockRow where
  headerTime : ℤ
  height : Option ℤ
  miner : Option ℤ
  /-- `btc_coinbase_status = 'complete'` -/
  coinbaseComplete : Bool
  coinbaseScript : Option Bytes
  coinbaseOutputs : Option Bytes
deriving DecidableEq

/-- A row of `merge_mining_event`, with the code of its source. -/
structure EventRow (Hash : Type) where
  id : ℤ
  parentHash : Hash
  sourceCode : String
  confirmedAt : ℤ
  childHeight : Option ℤ
  childBlockHash : Option Hash
  /-- `revoked_at IS NOT NULL` -/
  revoked : Bool
  coinbase : CoinbaseEvidence

/-- The side of an attribution. -/
inductive Side
  | btcParent
  | childBlock
deriving DecidableEq

/-- A row of `event_pool_attribution`. -/
structure AttributionRow where
  id : ℤ
  eventId : ℤ
  side : Side
  nameSpace : String
  matchedValue : String
  poolId : Option ℤ
  poolIdentityId : Option ℤ

/-- What identifies a pool identity: its namespace and its identifier. -/
abbrev IdentityKey := String × String

/-- A row of `pool_identity`. -/
structure IdentityRow where
  id : ℤ
  poolId : ℤ
  key : IdentityKey

/-- A row of `protocol_commitment`. -/
structure CommitmentRow (Hash : Type) where
  hash : Hash
  vout : ℤ
  scriptId : ℤ

/-- A row of `protocol_commitment_script`. -/
structure ScriptRow where
  id : ℤ
  protocol : Protocol
  accountNamespace : Option String
  accountIdentifier : Option String

/-- The tables that summaries are derived from. -/
structure Inputs (Hash : Type) where
  blocks : Hash → Option BlockRow
  events : List (EventRow Hash)
  attributions : List AttributionRow
  identities : Table IdentityRow.key
  commitments : List (CommitmentRow Hash)
  scripts : List ScriptRow
  /-- Whether `protocol_commitments_decoder_version` is that of the running decoder. -/
  decoderCurrent : Bool
  /-- `SELECT slug, id FROM pool` -/
  pools : String → Option ℤ

/-- A row of `relationship_summary`. -/
structure Summary where
  headerTime : ℤ
  height : Option ℤ
  mixed : Bool
  poolIds : List ℤ
deriving DecidableEq

variable {Hash : Type} [LinearOrder Hash]

/-- Ascending, `NULLS LAST`. -/
def compareNullsLast {A : Type} [Ord A] : Option A → Option A → Ordering
  | none, none => .eq
  | none, some _ => .gt
  | some _, none => .lt
  | some a, some b => compare a b

namespace Inputs

variable (m : Inputs Hash)

/-- The active events on a parent. -/
def activeEvents (h : Hash) : List (EventRow Hash) :=
  m.events.filter fun e => e.parentHash = h && !e.revoked

/-- `EVENT_COINBASES_SQL`, for one header. -/
def eventCoinbases (h : Hash) : List (ℤ × CoinbaseEvidence) :=
  ((m.activeEvents h).filter fun e => e.coinbase.script.isSome || e.coinbase.outputs.isSome ||
    e.coinbase.outputsText.isSome).map fun e => (e.id, e.coinbase)

/-- The rows of the join of a parent's active events with their child attributions, ordered. -/
def childJoin (h : Hash) : List (EventRow Hash × AttributionRow) :=
  let rows := (m.activeEvents h).flatMap fun e =>
    (m.attributions.filter fun a => a.eventId = e.id && a.side = .childBlock).map fun a => (e, a)
  rows.insertionSort fun x y =>
    ((compare x.1.confirmedAt y.1.confirmedAt).then
      ((compare x.1.sourceCode y.1.sourceCode).then
        ((compareNullsLast x.1.childHeight y.1.childHeight).then
          ((compareNullsLast x.1.childBlockHash y.1.childBlockHash).then
            ((compare x.1.id y.1.id).then (compare x.2.id y.2.id)))))).isLE

/-- `LEFT JOIN pool_identity pi ON pi.id = a.pool_identity_id` -/
def identityOf (a : AttributionRow) : Option IdentityRow :=
  a.poolIdentityId.bind fun id => m.identities.rows.find? (·.id = id)

/-- `CHILD_SIGNALS_SQL`, for one header. -/
def childSignals (h : Hash) : List StoredDraft :=
  (m.childJoin h).map fun (e, a) => StoredDraft.child e.sourceCode a.nameSpace a.matchedValue
    (((m.identityOf a).map (·.poolId)).or a.poolId)

/-- The protocol scripts that a header's coinbase declares, in output order. -/
def accountJoin (h : Hash) : List ScriptRow :=
  if m.decoderCurrent then
    ((m.commitments.filter (·.hash = h)).insertionSort fun a b => a.vout ≤ b.vout).flatMap fun c =>
      m.scripts.filter (·.id = c.scriptId)
  else []

/-- The pool of an identity. -/
def identityPool (key : IdentityKey) : Option ℤ := (m.identities.find? key).map (·.poolId)

end Inputs

/-- The key that a script's account has in `pool_identity`. -/
def ScriptRow.accountKey (s : ScriptRow) : Option IdentityKey :=
  s.accountNamespace.bind fun nameSpace => s.accountIdentifier.map fun identifier =>
    (nameSpace, identifier)

/-- `PROTOCOL_ACCOUNTS_SQL`, for one header. -/
def Inputs.protocolAccounts (m : Inputs Hash) (h : Hash) : List StoredDraft :=
  (m.accountJoin h).filterMap fun s =>
    protocolAccountDraft s.protocol s.accountIdentifier (s.accountKey.bind m.identityPool)

/-! ### The summary of a header -/

/-- The event copies that are read: none where Core's own coinbase is complete. -/
def Inputs.copiesFor (m : Inputs Hash) (h : Hash) (row : BlockRow) : List (ℤ × CoinbaseEvidence) :=
  if row.coinbaseComplete then [] else m.eventCoinbases h

/-- The coinbase whose signals a parent has. -/
def coinbaseOf (row : BlockRow) (copies : List (ℤ × CoinbaseEvidence)) : Option CoinbaseEvidence :=
  if row.coinbaseComplete then some ⟨row.coinbaseScript, row.coinbaseOutputs, none⟩
  else chooseCoinbaseEvidence copies

/-- The row that is written for a header. -/
def summaryOf (row : BlockRow) (drafts : List StoredDraft) (poolsBySlug : String → Option ℤ) :
    Summary :=
  let signals := finish storedPool (fun slug => (poolsBySlug slug).map some) row.miner drafts
  { headerTime := row.headerTime
    height := row.height
    mixed := signals.mixed
    poolIds := signals.pools.filterMap storedPool.poolId }

/-- A header's block row with the drafts of all its signals. -/
def Inputs.parent (rules : CoinbaseRules) (m : Inputs Hash) (h : Hash) :
    Option (BlockRow × List StoredDraft) :=
  (m.blocks h).map fun row =>
    (row, rules.bitcoinDrafts (coinbaseOf row (m.copiesFor h row)) ++ m.childSignals h ++
      m.protocolAccounts h)

/-- The summary of a header, from inputs that do not change while they are read. -/
def derive (rules : CoinbaseRules) (m : Inputs Hash) (h : Hash) : Option Summary :=
  (m.parent rules h).map fun (row, drafts) => summaryOf row drafts m.pools

/-! ### What a header reads -/

/-- A child attribution, with the identity it names. -/
structure ChildRow where
  sourceCode : String
  nameSpace : String
  value : String
  poolId : Option ℤ
  identity : Option IdentityKey
deriving DecidableEq

/-- What is read for a header, up to the pools of the identities it names. -/
structure HeaderInputs where
  block : Option BlockRow
  copies : List (ℤ × CoinbaseEvidence)
  children : List ChildRow
  accounts : List (Protocol × Option String × Option IdentityKey)
  /-- The pools of the slugs that its coinbase names. -/
  slugPools : List (Option ℤ)
deriving DecidableEq

/-- The drafts of a header's coinbase. -/
def Inputs.coinbaseDrafts (rules : CoinbaseRules) (m : Inputs Hash) (h : Hash) : List StoredDraft :=
  match m.blocks h with
  | some row => rules.bitcoinDrafts (coinbaseOf row (m.copiesFor h row))
  | none => []

/-- What belongs to a header of the inputs. -/
def headerInputs (rules : CoinbaseRules) (m : Inputs Hash) (h : Hash) : HeaderInputs where
  block := m.blocks h
  copies := ((m.blocks h).map (m.copiesFor h)).getD []
  children := (m.childJoin h).map fun (e, a) =>
    ⟨e.sourceCode, a.nameSpace, a.matchedValue, a.poolId, (m.identityOf a).map (·.key)⟩
  accounts := (m.accountJoin h).map fun s => (s.protocol, s.accountIdentifier, s.accountKey)
  slugPools := (m.coinbaseDrafts rules h).map fun d => d.snapshotSlug.bind m.pools

/-- The identities that a header names. -/
def HeaderInputs.identities (i : HeaderInputs) : List IdentityKey :=
  i.children.filterMap (·.identity) ++ i.accounts.filterMap (·.2.2)

/-! ### Expansion of an identity -/

/-- The headers that `EXPAND_IDENTITIES_SQL` finds for an identity, before it asks for their block. -/
def Inputs.reached (m : Inputs Hash) (key : IdentityKey) : List Hash :=
  ((m.identities.rows.filter (·.key = key)).flatMap fun i =>
    (m.attributions.filter fun a => a.poolIdentityId = some i.id && a.side = .childBlock).flatMap
      fun a => (m.events.filter fun e => e.id = a.eventId && !e.revoked).map (·.parentHash)) ++
  (m.scripts.filter (·.accountKey = some key)).flatMap fun s =>
    (m.commitments.filter (·.scriptId = s.id)).map (·.hash)

section

variable {m m' : Inputs Hash} {h : Hash} {rules : CoinbaseRules}

/-- The rows of the join are an active event of the parent and one of its child attributions. -/
theorem mem_childJoin {e : EventRow Hash} {a : AttributionRow} :
    (e, a) ∈ m.childJoin h ↔ (e ∈ m.events ∧ e.parentHash = h ∧ e.revoked = false) ∧
      a ∈ m.attributions ∧ a.eventId = e.id ∧ a.side = .childBlock := by
  simp only [Inputs.childJoin, List.mem_insertionSort, List.mem_flatMap, List.mem_map,
    List.mem_filter, Inputs.activeEvents, Bool.and_eq_true, decide_eq_true_eq, Bool.not_eq_true',
    Prod.mk.injEq]
  constructor
  · rintro ⟨e', he', a', ha', rfl, rfl⟩
    exact ⟨he', ha'⟩
  · rintro ⟨he, ha⟩
    exact ⟨e, he, a, ha, rfl, rfl⟩

theorem mem_accountJoin {s : ScriptRow} (hs : s ∈ m.accountJoin h) :
    s ∈ m.scripts ∧ ∃ c ∈ m.commitments, c.hash = h ∧ c.scriptId = s.id := by
  rw [Inputs.accountJoin] at hs
  split at hs
  · obtain ⟨c, hc, hs⟩ := mem_flatMap.mp hs
    rw [mem_insertionSort, mem_filter] at hc
    rw [mem_filter] at hs
    exact ⟨hs.1, c, hc.1, by simpa using hc.2, by simpa using (of_decide_eq_true hs.2).symm⟩
  · cases hs

omit [LinearOrder Hash] in
/-- The identity that an attribution is joined with is a row, with the id that it names. -/
theorem identityOf_eq_some {a : AttributionRow} {i : IdentityRow} (hi : m.identityOf a = some i) :
    i ∈ m.identities.rows ∧ a.poolIdentityId = some i.id := by
  obtain ⟨id, hid, hfind⟩ := bind_eq_some_iff.mp hi
  have hi : i.id = id := by simpa using find?_some hfind
  exact ⟨mem_of_find?_eq_some hfind, hi ▸ hid⟩

/-- **Expansion finds who names an identity.**  Every header that names an identity is reached from
it. -/
theorem mem_reached {key : IdentityKey} (hkey : key ∈ (headerInputs rules m h).identities) :
    h ∈ m.reached key := by
  rcases mem_append.mp hkey with hkey | hkey
  · obtain ⟨r, hr, hidentity⟩ := mem_filterMap.mp hkey
    obtain ⟨⟨e, a⟩, hjoin, rfl⟩ := mem_map.mp hr
    obtain ⟨⟨he, hparent, hactive⟩, ha, hevent, hside⟩ := mem_childJoin.mp hjoin
    obtain ⟨i, hi, rfl⟩ := map_eq_some_iff.mp hidentity
    obtain ⟨hrow, hid⟩ := identityOf_eq_some hi
    refine mem_append_left _ (mem_flatMap.mpr ⟨i, by simpa using hrow, ?_⟩)
    refine mem_flatMap.mpr ⟨a, mem_filter.mpr ⟨ha, by simp [hid, hside]⟩, ?_⟩
    exact mem_map.mpr ⟨e, mem_filter.mpr ⟨he, by simp [hevent, hactive]⟩, hparent⟩
  · obtain ⟨r, hr, haccount⟩ := mem_filterMap.mp hkey
    obtain ⟨s, hs, rfl⟩ := mem_map.mp hr
    obtain ⟨hscript, c, hc, hhash, hid⟩ := mem_accountJoin hs
    have haccount : s.accountKey = some key := haccount
    refine mem_append_right _ (mem_flatMap.mpr ⟨s, by simp [hscript, haccount], ?_⟩)
    exact mem_map.mpr ⟨c, mem_filter.mpr ⟨hc, by simp [hid]⟩, hhash⟩

/-! ### What a header's reads depend on -/

/-- A child attribution as a draft, when identities have the given pools. -/
def ChildRow.draft (r : ChildRow) (identityPool : IdentityKey → Option ℤ) : StoredDraft :=
  .child r.sourceCode r.nameSpace r.value ((r.identity.bind identityPool).or r.poolId)

omit [LinearOrder Hash] in
theorem pool_identityOf (a : AttributionRow) :
    (m.identityOf a).map (·.poolId) = ((m.identityOf a).map (·.key)).bind m.identityPool := by
  cases hi : m.identityOf a with
  | none => rfl
  | some i =>
    have hfind : m.identities.find? i.key = some i :=
      Table.find?_key (identityOf_eq_some hi).1
    simp [Inputs.identityPool, hfind]

theorem childSignals_eq (rules : CoinbaseRules) : m.childSignals h =
    (headerInputs rules m h).children.map (·.draft m.identityPool) := by
  rw [Inputs.childSignals, headerInputs, List.map_map]
  refine List.map_congr_left fun p _ => ?_
  simp only [Function.comp_apply, ChildRow.draft, pool_identityOf]

theorem protocolAccounts_eq (rules : CoinbaseRules) : m.protocolAccounts h =
    (headerInputs rules m h).accounts.filterMap fun (protocol, account, key) =>
      protocolAccountDraft protocol account (key.bind m.identityPool) := by
  rw [Inputs.protocolAccounts, headerInputs, filterMap_map]
  rfl

/-- Nothing that is read for a header differs. -/
structure SameReads (rules : CoinbaseRules) (m m' : Inputs Hash) (h : Hash) : Prop where
  inputs : headerInputs rules m' h = headerInputs rules m h
  pools : ∀ key ∈ (headerInputs rules m h).identities, m'.identityPool key = m.identityPool key

namespace SameReads

variable (hs : SameReads rules m m' h)
include hs

theorem blocks : m'.blocks h = m.blocks h := congrArg HeaderInputs.block hs.inputs

theorem copiesFor {row : BlockRow} (hrow : m.blocks h = some row) :
    m'.copiesFor h row = m.copiesFor h row := by
  have hcopies := congrArg HeaderInputs.copies hs.inputs
  simpa [headerInputs, hs.blocks, hrow] using hcopies

theorem childSignals : m'.childSignals h = m.childSignals h := by
  rw [childSignals_eq rules, childSignals_eq rules, hs.inputs]
  refine map_congr_left fun r hr => ?_
  rw [ChildRow.draft, ChildRow.draft]
  cases hkey : r.identity with
  | none => rfl
  | some key =>
    have hmem : key ∈ (headerInputs rules m h).identities :=
      mem_append_left _ (mem_filterMap.mpr ⟨r, hr, hkey⟩)
    rw [bind_some, bind_some, hs.pools key hmem]

theorem protocolAccounts : m'.protocolAccounts h = m.protocolAccounts h := by
  rw [protocolAccounts_eq rules, protocolAccounts_eq rules, hs.inputs]
  refine filterMap_congr fun r hr => ?_
  obtain ⟨protocol, account, key⟩ := r
  cases key with
  | none => rfl
  | some key =>
    have hmem : key ∈ (headerInputs rules m h).identities :=
      mem_append_right _ (mem_filterMap.mpr ⟨_, hr, rfl⟩)
    change protocolAccountDraft _ _ (m'.identityPool key) =
      protocolAccountDraft _ _ (m.identityPool key)
    rw [hs.pools key hmem]

theorem parent : m'.parent rules h = m.parent rules h := by
  rw [Inputs.parent, Inputs.parent, hs.blocks]
  cases hrow : m.blocks h with
  | none => rfl
  | some row =>
    rw [map_some, map_some, hs.copiesFor hrow, hs.childSignals, hs.protocolAccounts]

theorem resolve {row : BlockRow} {drafts : List StoredDraft}
    (hparent : m.parent rules h = some (row, drafts)) {d : StoredDraft} (hd : d ∈ drafts) :
    d.poolIn m'.pools = d.poolIn m.pools := by
  obtain ⟨row', hrow, hpair⟩ := map_eq_some_iff.mp hparent
  obtain ⟨rfl, rfl⟩ := Prod.mk.inj hpair
  cases hpool : d.pool with
  | known pool => simp only [StoredDraft.poolIn, SignalDraft.resolvedPool, hpool]
  | snapshot slug =>
    have hcoinbase : d ∈ m.coinbaseDrafts rules h := by
      rw [Inputs.coinbaseDrafts, hrow]
      rcases mem_append.mp hd with hd | hd
      · rcases mem_append.mp hd with hd | hd
        · exact hd
        · obtain ⟨p, -, rfl⟩ := mem_map.mp hd
          cases hpool
      · obtain ⟨s, -, hs⟩ := mem_filterMap.mp hd
        obtain ⟨account, -, rfl⟩ := map_eq_some_iff.mp hs
        cases hpool
    have hdrafts : m'.coinbaseDrafts rules h = m.coinbaseDrafts rules h := by
      rw [Inputs.coinbaseDrafts, Inputs.coinbaseDrafts, hs.blocks, hrow]
      exact congrArg (fun copies => rules.bitcoinDrafts (coinbaseOf row' copies))
        (hs.copiesFor hrow)
    have hpools := congrArg HeaderInputs.slugPools hs.inputs
    simp only [headerInputs, hdrafts] at hpools
    have hslug : m'.pools slug = m.pools slug := by
      simpa [StoredDraft.snapshotSlug, hpool] using map_inj_left.mp hpools d hcoinbase
    simp only [StoredDraft.poolIn, SignalDraft.resolvedPool, hpool, hslug]

end SameReads

omit [LinearOrder Hash] in
theorem mem_of_mem_firstOfKey {seen : List SignalKey} {drafts : List StoredDraft} {d : StoredDraft}
    (hd : d ∈ firstOfKey seen drafts) : d ∈ drafts := by
  induction drafts generalizing seen with
  | nil => exact hd
  | cons e drafts ih =>
    rw [firstOfKey] at hd
    split at hd
    · exact mem_cons_of_mem _ (ih hd)
    · rcases mem_cons.mp hd with rfl | hd
      · exact mem_cons_self
      · exact mem_cons_of_mem _ (ih hd)

omit [LinearOrder Hash] in
theorem summaryOf_congr {row : BlockRow} {drafts : List StoredDraft}
    {poolsBySlug poolsBySlug' : String → Option ℤ}
    (hpools : ∀ d ∈ drafts, d.poolIn poolsBySlug' = d.poolIn poolsBySlug) :
    summaryOf row drafts poolsBySlug' = summaryOf row drafts poolsBySlug := by
  have hentries : (firstOfKey [] drafts).map
        (·.resolve storedPool fun slug => (poolsBySlug' slug).map some) =
      (firstOfKey [] drafts).map (·.resolve storedPool fun slug => (poolsBySlug slug).map some) :=
    map_congr_left fun d hd => congrArg (RelationshipSignal.mk _ _ _ _)
      (hpools d (mem_of_mem_firstOfKey hd))
  rw [summaryOf, summaryOf, finish, finish, hentries]

/-- **A summary depends on nothing else.**  When what belongs to the header and the pools of the
identities it names are the same, so is its summary. -/
theorem SameReads.derive_congr (hs : SameReads rules m m' h) :
    derive rules m' h = derive rules m h := by
  rw [derive, derive, hs.parent]
  cases hparent : m.parent rules h with
  | none => rfl
  | some p => exact congrArg some (summaryOf_congr fun d hd => hs.resolve hparent hd)

end

end MergeMiningMonitor.Relationship
