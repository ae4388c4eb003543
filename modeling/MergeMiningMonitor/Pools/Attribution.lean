import MergeMiningMonitor.Support.Table

/-!
# Pools — Attribution

What names a pool for one side of an event (`event_pool_attribution`).  A row is known by its side, its
namespace and the value that matched; which source wrote it is a column like the others.  A write of
rows never turns a known pool into an unknown one (`upsertSet`).  Before it, what the same sources
wrote under other keys may be deleted (`deleteStaleEventPoolAttributionsForSources`).

The rows here are those of one event.  JSON details are told apart as far as the program writes them.
-/

namespace MergeMiningMonitor.Pools

open Relational

/-! ### Rows -/

inductive PoolAttributionSide
  | btcParent
  | childBlock
deriving DecidableEq

inductive PoolAttributionConfidence
  | high
  | medium
  | low
deriving DecidableEq

/-- The JSON of `details`: `{}`, the address source of a payout, or anything else that is stored. -/
inductive Details
  | empty
  | childCoinbaseOutputs
  | other (text : String)
deriving DecidableEq

/-- `EventPoolAttribution`, which is also the stored row.  An identity has a pool. -/
structure EventPoolAttribution where
  side : PoolAttributionSide
  /-- `namespace` -/
  ns : String
  matchKind : String
  matchedValue : String
  poolId : Option Int
  poolIdentityId : Option Int
  source : String
  confidence : PoolAttributionConfidence
  details : Details
  identity_known : poolId = none → poolIdentityId = none
deriving DecidableEq

/-- The unique key, next to the event. -/
abbrev EventPoolAttribution.key (a : EventPoolAttribution) : PoolAttributionSide × String × String :=
  (a.side, a.ns, a.matchedValue)

/-- The attributions of an event. -/
abbrev Attributions := Table EventPoolAttribution.key

def btcCoinbaseTagNamespace : String := "btc_coinbase_tag"
def btcPayoutAddressNamespace : String := "btc_payout_address"
def btcPoolSnapshotSource : String := "btc_pool_snapshot"
def btcPoolSnapshotLegacyChildScriptSource : String := "btc_pool_snapshot_legacy_child_script"
def childCoinbaseOutputSource : String := "child_coinbase_output"
def childPayoutRegistrySource : String := "child_payout_registry"

/-! ### Writes -/

/-- The `SET` of the upsert: an unknown pool leaves a row whose pool is known as it is. -/
def upsertSet (excluded row : EventPoolAttribution) : EventPoolAttribution where
  side := row.side
  ns := row.ns
  matchedValue := row.matchedValue
  matchKind := if excluded.poolId.isNone && row.poolId.isSome then row.matchKind else excluded.matchKind
  poolId := if excluded.poolId.isSome then excluded.poolId else row.poolId
  poolIdentityId :=
    if excluded.poolId.isSome then excluded.poolIdentityId
    else if row.poolId.isSome then row.poolIdentityId
    else excluded.poolIdentityId
  source := if excluded.poolId.isNone && row.poolId.isSome then row.source else excluded.source
  confidence :=
    if excluded.poolId.isNone && row.poolId.isSome then row.confidence else excluded.confidence
  details := if excluded.poolId.isNone && row.poolId.isSome then row.details else excluded.details
  identity_known := by
    cases hnew : excluded.poolId with
    | some pool => simp
    | none =>
      intro hrow
      simpa [show row.poolId = none by simpa using hrow] using excluded.identity_known hnew

theorem upsertSet_key (excluded row : EventPoolAttribution) :
    (upsertSet excluded row).key = row.key := rfl

def upsertEventPoolAttributionRows (t : Attributions) (attributions : List EventPoolAttribution) :
    Attributions :=
  attributions.foldl (fun t a => t.upsert a (upsertSet a) (upsertSet_key a)) t

def deleteEventPoolAttributionsForSource (t : Attributions) (side : PoolAttributionSide)
    (source : String) : Attributions :=
  t.delete fun row => row.side = side && row.source = source

def isChildPayoutSource (source : String) : Bool :=
  source = childCoinbaseOutputSource || source = childPayoutRegistrySource

/-- The keys that are kept of what a source wrote: its own, and those of both payout sources. -/
def retainedKeys (attributions : List EventPoolAttribution) (side : PoolAttributionSide)
    (source : String) : List (String × String) :=
  (attributions.filter fun a => a.side = side &&
    (a.source = source || (isChildPayoutSource source && isChildPayoutSource a.source))).map
      fun a => (a.ns, a.matchedValue)

def deleteStaleEventPoolAttributionsForSources (t : Attributions)
    (attributions : List EventPoolAttribution) : Attributions :=
  (attributions.map fun a => (a.side, a.source)).foldl
    (fun t (side, source) => t.delete fun row => row.side = side && row.source = source &&
      !(retainedKeys attributions side source).contains (row.ns, row.matchedValue)) t

def upsertEventPoolAttributions (t : Attributions) (attributions : List EventPoolAttribution) :
    Attributions :=
  upsertEventPoolAttributionRows (deleteStaleEventPoolAttributionsForSources t attributions) attributions

/-! ### What a write leaves -/

variable {a row : EventPoolAttribution}

theorem upsertSet_of_known (hkey : a.key = row.key) (ha : a.poolId ≠ none) : upsertSet a row = a := by
  obtain ⟨pool, hpool⟩ := Option.ne_none_iff_exists'.mp ha
  obtain ⟨hside, hns, hvalue⟩ : row.side = a.side ∧ row.ns = a.ns ∧ row.matchedValue = a.matchedValue := by
    simpa [eq_comm] using hkey
  cases a
  cases row
  simp_all [upsertSet]

theorem upsertSet_of_unknown (ha : a.poolId = none) (hrow : row.poolId ≠ none) :
    upsertSet a row = row := by
  obtain ⟨pool, hpool⟩ := Option.ne_none_iff_exists'.mp hrow
  cases a
  cases row
  simp_all [upsertSet]

theorem upsertSet_of_both_unknown (hkey : a.key = row.key) (ha : a.poolId = none)
    (hrow : row.poolId = none) : upsertSet a row = a := by
  obtain ⟨hside, hns, hvalue⟩ : row.side = a.side ∧ row.ns = a.ns ∧ row.matchedValue = a.matchedValue := by
    simpa [eq_comm] using hkey
  cases a
  cases row
  simp_all [upsertSet]

/-- A write leaves the row that it writes, or the row that was there because its pool is known and the
written one's is not. -/
theorem upsertSet_cases (hkey : a.key = row.key) :
    upsertSet a row = a ∨ (a.poolId = none ∧ row.poolId ≠ none ∧ upsertSet a row = row) := by
  by_cases ha : a.poolId = none
  · by_cases hrow : row.poolId = none
    · exact .inl (upsertSet_of_both_unknown hkey ha hrow)
    · exact .inr ⟨ha, hrow, upsertSet_of_unknown ha hrow⟩
  · exact .inl (upsertSet_of_known hkey ha)

theorem upsertSet_known (hrow : row.poolId ≠ none) : (upsertSet a row).poolId ≠ none := by
  rw [upsertSet]
  dsimp only
  split
  · next ha => exact Option.isSome_iff_ne_none.mp ha
  · exact hrow

end MergeMiningMonitor.Pools
