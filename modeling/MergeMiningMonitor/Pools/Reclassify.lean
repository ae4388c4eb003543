import Mathlib.Algebra.Order.Monoid.Unbundled.WithTop
import MergeMiningMonitor.Support.Keyset
import MergeMiningMonitor.Store.Events
import MergeMiningMonitor.Pools.Attribution

/-!
# Pools — Reclassify

The offline re-resolution of pools (`reclassify_pools`), in its event phase and its observation phase.
Both read their rows in pages and resolve pools from what the rows store: the parent's coinbase, the
child's coinbase script, and the payout addresses of the child's outputs.

The event phase plans each candidate of a page (`planUpdate`), groups the updates by parent
(`planBatchUpdates`) and applies them group by group: what the resolved sources wrote before is deleted,
the resolved attributions are upserted, and the observation of the event follows
(`syncEventObservationAttribution`).  Without `overwrite` only what is missing is filled in.  The
observation phase settles the pools of observations that are not evidence (`planObservationPools`).

The resolver, the registries and the decoders of stored bytes are parameters (`Seeded`).  A child
identity is carried as its namespace and identifier, which are unique among the identities.
-/

namespace MergeMiningMonitor.Pools

open Relational
open Store (ObservationKind)
open AuxPow (Bytes Hash32)

/-! ### Registries -/

structure ChildPayoutParams where
  /-- `namespace` -/
  ns : String
  p2pkhVersion : Option ℕ
  p2shVersion : Option ℕ
  bech32Hrp : String
  witnessProgram : Option (ℕ × ℕ)

def namecoinSourceCode : String := "auxpow:namecoin"
def syscoinSourceCode : String := "auxpow:syscoin"
def fractalSourceCode : String := "auxpow:fractal"
def qbitSourceCode : String := "auxpow:qbit"

def namecoinPayoutAddressNamespace : String := "namecoin_payout_address"
def syscoinPayoutAddressNamespace : String := "syscoin_payout_address"
def fractalRewardAddressNamespace : String := "fractal_reward_address"
def qbitPayoutAddressNamespace : String := "qbit_payout_address"

def rskMinerAddressNamespace : String := "rsk_miner_address"

def namecoinChildPayoutParams : ChildPayoutParams :=
  ⟨namecoinPayoutAddressNamespace, some 52, some 13, "nc", none⟩

def syscoinChildPayoutParams : ChildPayoutParams :=
  ⟨syscoinPayoutAddressNamespace, some 63, some 5, "sys", none⟩

def fractalChildRewardParams : ChildPayoutParams :=
  ⟨fractalRewardAddressNamespace, some 0, some 5, "bc", none⟩

def qbitChildPayoutParams : ChildPayoutParams :=
  ⟨qbitPayoutAddressNamespace, none, none, "qb", some (2, 32)⟩

def paramsForSourceCode (sourceCode : String) : Option ChildPayoutParams :=
  if sourceCode = namecoinSourceCode then some namecoinChildPayoutParams
  else if sourceCode = syscoinSourceCode then some syscoinChildPayoutParams
  else if sourceCode = fractalSourceCode then some fractalChildRewardParams
  else if sourceCode = qbitSourceCode then some qbitChildPayoutParams
  else none

def childPayoutSourceCodes : List String :=
  [namecoinSourceCode, syscoinSourceCode, fractalSourceCode, qbitSourceCode]

/-- The namespaces whose rows a candidate is loaded with. -/
def childPayoutNamespaces : List String :=
  [namecoinPayoutAddressNamespace, syscoinPayoutAddressNamespace, fractalRewardAddressNamespace,
    qbitPayoutAddressNamespace]

inductive ChildPayoutConfidence
  | high
  | medium
deriving DecidableEq

structure PoolIdentityRef where
  poolId : ℤ
  poolIdentityId : ℤ
  payoutConfidence : ChildPayoutConfidence

inductive MatchKind
  | coinbaseTag
  | payoutAddress

structure PoolMatch where
  slug : String
  matchedBy : MatchKind
  matchedValue : String

/-- `Seeded`, with the pools of child identities and the decoders of stored bytes. -/
structure Seeded where
  resolveCoinbaseScript : Bytes → Option PoolMatch
  resolvePayoutAddresses : List String → Option PoolMatch
  poolIdsBySlug : String → Option ℤ
  childPayoutIdentities : String × String → Option PoolIdentityRef
  identityPools : String × String → Option ℤ
  /-- The addresses of serialized parent outputs, if they decode. -/
  outputAddresses : Bytes → Option (List String)
  publishedParentCoinbaseOutputAddresses : String → List String
  /-- The scripts of serialized child outputs, if they decode. -/
  outputScripts : Bytes → Option (List Bytes)
  formatChildScriptAddress : ChildPayoutParams → Bytes → Option String

/-! ### Resolution -/

def fromBtcPoolMatch (side : PoolAttributionSide) (m : PoolMatch) (poolId : ℤ) (source : String) :
    EventPoolAttribution where
  side
  ns := match m.matchedBy with
    | .coinbaseTag => btcCoinbaseTagNamespace
    | .payoutAddress => btcPayoutAddressNamespace
  matchKind := match m.matchedBy with
    | .coinbaseTag => "coinbase_tag"
    | .payoutAddress => "payout_address"
  matchedValue := m.matchedValue
  poolId := some poolId
  poolIdentityId := none
  source
  confidence := .high
  details := .empty
  identity_known := fun _ => rfl

def childPayoutAddress (params : ChildPayoutParams) (address : String)
    (identity : Option PoolIdentityRef) : EventPoolAttribution where
  side := .childBlock
  ns := params.ns
  matchKind := "payout_address"
  matchedValue := address
  poolId := identity.map (·.poolId)
  poolIdentityId := identity.map (·.poolIdentityId)
  source := if identity.isSome then childPayoutRegistrySource else childCoinbaseOutputSource
  confidence := match identity.map PoolIdentityRef.payoutConfidence with
    | some .high => .high
    | _ => .medium
  details := .childCoinbaseOutputs
  identity_known := by simp

structure ParentResolution where
  attribution : Option EventPoolAttribution
  corruptOutputs : Bool

section Resolution

variable (seeded : Seeded)

def resolveParentPoolAttributionFromCoinbase (script : Bytes) (addresses : List String) :
    Option EventPoolAttribution :=
  ((seeded.resolveCoinbaseScript script).or (seeded.resolvePayoutAddresses addresses)).bind fun m =>
    (seeded.poolIdsBySlug m.slug).map fun poolId =>
      fromBtcPoolMatch .btcParent m poolId btcPoolSnapshotSource

/-- `resolve_parent_pool_attribution_from_serialized_coinbase_outputs`; nothing for outputs that do
not decode. -/
def resolveParentPoolAttributionFromSerializedCoinbaseOutputs (script : Bytes)
    (outputs : Option Bytes) : Option (Option EventPoolAttribution) :=
  match resolveParentPoolAttributionFromCoinbase seeded script [] with
  | some attribution => some (some attribution)
  | none =>
    match outputs with
    | none => some none
    | some bytes =>
      (seeded.outputAddresses bytes).map (resolveParentPoolAttributionFromCoinbase seeded script)

def resolveParentPoolFromPublishedText (outputsText : Option String) (script : Bytes) :
    Option EventPoolAttribution :=
  resolveParentPoolAttributionFromCoinbase seeded script
    ((outputsText.map seeded.publishedParentCoinbaseOutputAddresses).getD [])

def resolveStoredParentPool (script outputs : Option Bytes) (outputsText : Option String) :
    ParentResolution :=
  let script := script.getD []
  match resolveParentPoolAttributionFromSerializedCoinbaseOutputs seeded script outputs with
  | some (some attribution) => ⟨some attribution, false⟩
  | some none => ⟨resolveParentPoolFromPublishedText seeded outputsText script, false⟩
  | none => ⟨resolveParentPoolFromPublishedText seeded outputsText script, true⟩

def resolveChildPoolAttributionFromScript (script : Option Bytes) : Option EventPoolAttribution :=
  (script.bind seeded.resolveCoinbaseScript).bind fun m =>
    (seeded.poolIdsBySlug m.slug).map fun poolId =>
      fromBtcPoolMatch .childBlock m poolId btcPoolSnapshotLegacyChildScriptSource

/-- `child_output_addresses`: each address once. -/
def childOutputAddresses (scripts : List Bytes) (params : ChildPayoutParams) : List String :=
  (scripts.filterMap (seeded.formatChildScriptAddress params)).foldl
    (fun addresses address =>
      if address ∈ addresses then addresses else addresses ++ [address]) []

def resolveChildPayoutAttributions (scripts : List Bytes) (params : ChildPayoutParams) :
    List EventPoolAttribution :=
  (childOutputAddresses seeded scripts params).map fun address =>
    childPayoutAddress params address (seeded.childPayoutIdentities (params.ns, address))

/-- `replay_child_payouts`; nothing for outputs that do not decode. -/
def replayChildPayouts (sourceCode : String) (outputs : Option Bytes) :
    Option (List EventPoolAttribution) :=
  match paramsForSourceCode sourceCode, outputs with
  | some params, some bytes =>
    (seeded.outputScripts bytes).map fun scripts =>
      resolveChildPayoutAttributions seeded scripts params
  | _, _ => some []

end Resolution

/-! ### Rows -/

/-- What is read of an observation. -/
structure PoolObservation where
  id : ℕ
  kind : ObservationKind
  sourceCode : String
  /-- `child_identity_ids`, as the identities. -/
  childIdentities : List (String × String)
  childCoinbaseScript : Option Bytes
  childCoinbaseOutputs : Option Bytes
  btcParentCoinbaseScript : Option Bytes
  btcParentCoinbaseOutputs : Option Bytes
  childPoolId : Option ℤ
  btcParentPoolId : Option ℤ

/-- What is read of an event, with its attributions. -/
structure PoolEvent where
  id : ℕ
  btcParentHeaderHash : Hash32
  sourceCode : String
  revoked : Bool
  btcParentCoinbaseScript : Option Bytes
  btcParentCoinbaseOutputs : Option Bytes
  btcParentCoinbaseOutputsText : Option String
  attributions : Attributions

/-- A child block: its observation, and the event that is linked to it, if there is one. -/
structure ChildBlock where
  observation : PoolObservation
  event : Option PoolEvent

/-- The id of the event. -/
def ChildBlock.eventId (b : ChildBlock) : WithBot ℕ := b.event.elim ⊥ fun e => (e.id : WithBot ℕ)

/-- All child blocks. -/
structure Blocks where
  blocks : List ChildBlock
  observations_nodup : (blocks.map (·.observation.id)).Nodup
  events_nodup : ((blocks.filterMap (·.event)).map (·.id)).Nodup

/-- `ReclassifyPoolsConfig`, without the phases. -/
structure ReclassifyPoolsConfig where
  overwrite : Bool
  batchSize : ℕ
  source : Option String
  batchSize_pos : 0 < batchSize

/-! ### Planning an event -/

/-- `ExistingSourceAttribution`: how many rows the source has on the side, and the columns of the only
one. -/
structure ExistingSourceAttribution where
  rowCount : ℕ
  only : Option EventPoolAttribution

/-- `source_scoped_attribution_lateral` -/
def existingSourceAttribution (t : Attributions) (side : PoolAttributionSide) (source : String) :
    ExistingSourceAttribution :=
  let rows := t.rows.filter fun row => row.side = side && row.source = source
  ⟨rows.length, if rows.length = 1 then rows.head? else none⟩

def ExistingSourceAttribution.matches (current : ExistingSourceAttribution)
    (a : EventPoolAttribution) : Bool :=
  current.rowCount = 1 && current.only.any fun row =>
    row.ns = a.ns && row.matchKind = a.matchKind && row.matchedValue = a.matchedValue &&
      row.poolId = a.poolId && row.poolIdentityId = a.poolIdentityId &&
      row.confidence = a.confidence && row.details = a.details

def shouldWriteAttribution (current : ExistingSourceAttribution) (resolved : Option EventPoolAttribution)
    (overwrite : Bool) : Bool :=
  match resolved with
  | none => false
  | some resolved => current.rowCount = 0 || (overwrite && !current.matches resolved)

/-- The rows of `ExistingAttributionSet`: those of the payout sources in the payout namespaces. -/
def isChildPayoutRow (row : EventPoolAttribution) : Bool :=
  row.side = .childBlock && childPayoutNamespaces.contains row.ns && isChildPayoutSource row.source

/-- `KeyedAttributionRow::matches` -/
def keyedMatches (row a : EventPoolAttribution) : Bool :=
  row.source = a.source && row.matchKind = a.matchKind && row.poolId = a.poolId &&
    row.poolIdentityId = a.poolIdentityId && row.confidence = a.confidence && row.details = a.details

/-- `should_write` under `ChildPayout`, for the row that is there. -/
def replacesPayout (a : EventPoolAttribution) (overwrite : Bool) (existing : EventPoolAttribution) :
    Bool :=
  if keyedMatches existing a then false
  else if existing.poolId.isSome && a.poolId.isNone then false
  else if existing.poolId.isSome && !overwrite then false
  else true

/-- `should_write` under `ChildPayout` -/
def shouldWriteChildPayout (t : Attributions) (a : EventPoolAttribution) (overwrite : Bool) : Bool :=
  (t.rows.find? fun row =>
    isChildPayoutRow row && row.ns = a.ns && row.matchedValue = a.matchedValue).all
      (replacesPayout a overwrite)

structure PlannedUpdate where
  eventId : ℕ
  parentPoolChanged : Bool
  childPoolChanged : Bool
  attributions : List EventPoolAttribution
  childPayoutAttributions : List EventPoolAttribution

section Planning

variable (seeded : Seeded) (overwrite : Bool)

/-- `resolve_child_payouts`; corrupt outputs are skipped. -/
def resolveChildPayouts (e : PoolEvent) (o : PoolObservation) : List EventPoolAttribution :=
  ((replayChildPayouts seeded e.sourceCode o.childCoinbaseOutputs).getD []).filter fun a =>
    shouldWriteChildPayout e.attributions a overwrite

/-- The plan for one candidate of `plan_batch_updates`. -/
def planUpdate (e : PoolEvent) (o : PoolObservation) : Option PlannedUpdate :=
  let resolvedParent := (resolveStoredParentPool seeded e.btcParentCoinbaseScript
    e.btcParentCoinbaseOutputs e.btcParentCoinbaseOutputsText).attribution
  let resolvedChild := resolveChildPoolAttributionFromScript seeded o.childCoinbaseScript
  let childPayouts := resolveChildPayouts seeded overwrite e o
  let parentChanged := shouldWriteAttribution
    (existingSourceAttribution e.attributions .btcParent btcPoolSnapshotSource) resolvedParent overwrite
  let childChanged := shouldWriteAttribution
    (existingSourceAttribution e.attributions .childBlock btcPoolSnapshotLegacyChildScriptSource)
    resolvedChild overwrite
  let attributions := (if parentChanged then resolvedParent.toList else []) ++
    (if childChanged then resolvedChild.toList else [])
  if !parentChanged && !childChanged && childPayouts.isEmpty then none
  else some ⟨e.id, parentChanged, childChanged, attributions, childPayouts⟩

structure ParentUpdateGroup where
  parentHash : Hash32
  updates : List PlannedUpdate

/-- An update put into the group of its parent, which is new if there is none. -/
def addToGroup (groups : List ParentUpdateGroup) (parentHash : Hash32) (update : PlannedUpdate) :
    List ParentUpdateGroup :=
  match groups with
  | [] => [⟨parentHash, [update]⟩]
  | g :: gs =>
    if g.parentHash = parentHash then { g with updates := g.updates ++ [update] } :: gs
    else g :: addToGroup gs parentHash update

def planBatchUpdates (rows : List ChildBlock) : List ParentUpdateGroup :=
  rows.foldl (fun groups b =>
    match b.event with
    | none => groups
    | some e =>
      match planUpdate seeded overwrite e b.observation with
      | none => groups
      | some update => addToGroup groups e.btcParentHeaderHash update) []

end Planning

/-! ### Applying a plan -/

/-- The attributions that a plan leaves. -/
def PlannedUpdate.apply (u : PlannedUpdate) (t : Attributions) : Attributions :=
  let t := if u.parentPoolChanged then
    deleteEventPoolAttributionsForSource t .btcParent btcPoolSnapshotSource else t
  let t := if u.childPoolChanged then
    deleteEventPoolAttributionsForSource t .childBlock btcPoolSnapshotLegacyChildScriptSource else t
  upsertEventPoolAttributionRows (upsertEventPoolAttributions t u.attributions) u.childPayoutAttributions

/-- `namespace LIKE 'btc\_%'` -/
def isBtcNamespace (ns : String) : Bool := "btc_".toList.isPrefixOf ns.toList

/-- The identities that an observation takes from its event: those of the attributions, and the RSK
identity that it has. -/
def attributedIdentities (t : Attributions) (o : PoolObservation) : List (String × String) :=
  let attributed := (t.rows.filter fun a => a.side = .childBlock && !isBtcNamespace a.ns).map
    fun a => (a.ns, a.matchedValue)
  attributed ++ o.childIdentities.filter fun i =>
    i.1 = rskMinerAddressNamespace && !attributed.contains i

/-- The one known pool of the child side, if there is one. -/
def attributedPool (t : Attributions) : Option ℤ :=
  match ((t.rows.filter fun a => a.side = .childBlock).filterMap (·.poolId)).dedup with
  | [pool] => some pool
  | _ => none

def syncEventObservationAttribution (t : Attributions) (o : PoolObservation) : PoolObservation :=
  { o with childIdentities := attributedIdentities t o, childPoolId := attributedPool t }

/-- An update applied to the block of its event. -/
def applyUpdate (b : ChildBlock) (u : PlannedUpdate) : ChildBlock :=
  match b.event with
  | none => b
  | some e =>
    if e.id = u.eventId then
      let t := u.apply e.attributions
      ⟨syncEventObservationAttribution t b.observation, some { e with attributions := t }⟩
    else b

def applyParentGroup (blocks : List ChildBlock) (group : ParentUpdateGroup) : List ChildBlock :=
  group.updates.foldl (fun blocks u => blocks.map (applyUpdate · u)) blocks

/-! ### The event phase -/

section Phases

variable (seeded : Seeded) (config : ReclassifyPoolsConfig)

/-- `CANDIDATE_FILTER_SQL` -/
def isCandidate (b : ChildBlock) : Bool :=
  match b.event with
  | none => false
  | some e =>
    let o := b.observation
    let parentStored := e.btcParentCoinbaseScript.isSome || e.btcParentCoinbaseOutputs.isSome ||
      e.btcParentCoinbaseOutputsText.isSome
    let payoutStored := childPayoutSourceCodes.contains e.sourceCode && o.childCoinbaseOutputs.isSome
    let hasRow := fun side source =>
      e.attributions.rows.any fun a => a.side = side && a.source = source
    !e.revoked && (parentStored || o.childCoinbaseScript.isSome || payoutStored) &&
      (config.overwrite || payoutStored ||
        (parentStored && !hasRow .btcParent btcPoolSnapshotSource) ||
        (o.childCoinbaseScript.isSome &&
          !hasRow .childBlock btcPoolSnapshotLegacyChildScriptSource)) &&
      config.source.all fun source => e.sourceCode = source

def runMainCandidateScan (blocks : List ChildBlock) : List ChildBlock :=
  Keyset.scan ChildBlock.eventId config.batchSize (isCandidate config)
    (fun rows blocks =>
      (planBatchUpdates seeded config.overwrite rows).foldl applyParentGroup blocks)
    (blocks.length + 1) none blocks

/-! ### The observation phase -/

def settle (stored resolved : Option ℤ) (overwrite : Bool) : Option ℤ :=
  match stored, resolved with
  | none, resolved => resolved
  | some stored, some resolved => if overwrite then some resolved else some stored
  | stored, none => stored

/-- The pools that the child side of an observation matches. -/
def matchedChildPools (o : PoolObservation) : List ℤ :=
  (o.childIdentities.filterMap seeded.identityPools ++
    ((resolveChildPoolAttributionFromScript seeded o.childCoinbaseScript).bind (·.poolId)).toList ++
    ((replayChildPayouts seeded o.sourceCode o.childCoinbaseOutputs).getD []).filterMap
      (·.poolId)).dedup

/-- The pool that the parent of a near resolves to. -/
def matchedParentPool (o : PoolObservation) : Option ℤ :=
  if o.kind = .near then
    (resolveStoredParentPool seeded o.btcParentCoinbaseScript o.btcParentCoinbaseOutputs
      none).attribution.bind (·.poolId)
  else none

/-- The child pool of `plan_observation_pools`.  Matches that contradict each other are no pool. -/
def settledChildPool (o : PoolObservation) (overwrite : Bool) : Option ℤ :=
  match matchedChildPools seeded o with
  | [] => settle o.childPoolId none overwrite
  | [pool] => settle o.childPoolId (some pool) overwrite
  | _ => if overwrite then none else o.childPoolId

def planObservationPools (o : PoolObservation) (overwrite : Bool) :
    Option (Option ℤ × Option ℤ) :=
  let childPoolId := settledChildPool seeded o overwrite
  let btcParentPoolId := settle o.btcParentPoolId (matchedParentPool seeded o) overwrite
  if (childPoolId, btcParentPoolId) ≠ (o.childPoolId, o.btcParentPoolId) then
    some (childPoolId, btcParentPoolId)
  else none

/-- The rows of `load_observation_pool_batch`. -/
def isObservationCandidate (b : ChildBlock) : Bool :=
  let o := b.observation
  o.kind ≠ .evidence && (config.source.all fun source => o.sourceCode = source) &&
    (config.overwrite ||
      (o.childPoolId.isNone && (!o.childIdentities.isEmpty || o.childCoinbaseScript.isSome ||
        (o.childCoinbaseOutputs.isSome && childPayoutSourceCodes.contains o.sourceCode))) ||
      (o.kind = .near && o.btcParentPoolId.isNone &&
        (o.btcParentCoinbaseScript.isSome || o.btcParentCoinbaseOutputs.isSome)))

/-- `update_observation_pools`: a row that changed since it was loaded is left alone. -/
def updateObservationPools (updates : List (PoolObservation × Option ℤ × Option ℤ))
    (blocks : List ChildBlock) : List ChildBlock :=
  blocks.map fun b =>
    let o := b.observation
    match updates.find? fun u => u.1.id = o.id && o.kind ≠ .evidence &&
      ((o.kind = .near : Bool) = (u.1.kind = .near : Bool)) && o.childPoolId = u.1.childPoolId &&
      o.btcParentPoolId = u.1.btcParentPoolId with
    | none => b
    | some u => { b with observation := { o with childPoolId := u.2.1, btcParentPoolId := u.2.2 } }

def reresolveObservationPools (blocks : List ChildBlock) : List ChildBlock :=
  Keyset.scan (fun b : ChildBlock => b.observation.id) config.batchSize (isObservationCandidate config)
    (fun rows blocks => updateObservationPools
      (rows.filterMap fun b =>
        (planObservationPools seeded b.observation config.overwrite).map (b.observation, ·)) blocks)
    (blocks.length + 1) none blocks

/-- `run_reclassify_pools`: the event phase and then the observation phase. -/
def runReclassifyPools (blocks : List ChildBlock) : List ChildBlock :=
  reresolveObservationPools seeded config (runMainCandidateScan seeded config blocks)

end Phases

end MergeMiningMonitor.Pools
