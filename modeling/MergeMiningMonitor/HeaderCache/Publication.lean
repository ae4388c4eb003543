import MergeMiningMonitor.Support.Table
import MergeMiningMonitor.Lineage.NbitsTable

/-!
# Header cache — Publication

The stored header cache and its one writer (`bitcoin_core_header.rs`).  A snapshot of Core's chain is
prepared without a lock; publishing it replaces the rows that are not final, in one transaction that
refuses a snapshot prepared under another revision.  The publication also decides whether it can
change verdicts given under the previous cache: when an observed header was replaced
(`shallowCacheReorged`), or when a new epoch starts within the previous horizon time
(`cacheEpochCoverageOverlapsPriorHorizon`).

A committed publication has kept the final rows and holds exactly the snapshot beside them
(`replaceBitcoinCoreHeaderCache_eq_ok`).
-/

namespace MergeMiningMonitor

open Relational Fallible List Option

variable {Hash : Type}

structure BitcoinCoreHeader (Hash : Type) where
  height : Int
  blockHash : Hash
  blockTime : Int
  bits : UInt32
deriving DecidableEq

/-- A row of `bitcoin_core_header`. -/
structure HeaderRow (Hash : Type) where
  header : BitcoinCoreHeader Hash
  isFinal : Bool
deriving DecidableEq

def HeaderRow.height (row : HeaderRow Hash) : Int := row.header.height

abbrev HeaderRows (Hash : Type) := Table (@HeaderRow.height Hash)

/-- `RecheckScope`; no source filter means all sources. -/
structure RecheckScope where
  orphans : Bool
  sources : Option (List String)

namespace RecheckScope

def everything : RecheckScope := ⟨true, none⟩

def pendingRows : RecheckScope := ⟨false, none⟩

def union (s other : RecheckScope) : RecheckScope where
  orphans := s.orphans || other.orphans
  sources :=
    match s.sources, other.sources with
    | some mine, some theirs => some (mine ++ theirs.filter fun x => !mine.contains x)
    | _, _ => none

end RecheckScope

/-- A recheck in progress, with the cursor of the last completed page. -/
structure RecheckPass where
  generation : Int
  scope : RecheckScope
  cursor : Option (Int × Int)

/-- The row of `bitcoin_core_header_cache_state`. -/
structure CacheState where
  horizonTime : Int
  publicationRevision : Int
  pendingGeneration : Int
  pendingScope : RecheckScope
  acknowledgedGeneration : Int
  pass : Option RecheckPass
  coreCacheGeneration : Int

structure HeaderCache (Hash : Type) where
  rows : HeaderRows Hash
  state : CacheState

/-- `BitcoinCoreHeaderCacheUpdate` -/
structure CacheUpdate where
  scheduled : Bool
  pendingOrphans : Bool
  pending : Bool

/-- Why a publication fails. -/
inductive CacheError
  | finalEpochsNotBoundaries
  | shallowEpochNotBoundary
  | horizonPrecedesCutoff
  | horizonPrecedesFinal
  | finalNotBoundary
  | disagrees (height : Int)
  /-- A `CHECK` or a unique index of the table. -/
  | constraint

/-- What the producer read from Core, and the revision it read under. -/
structure CacheSnapshot (Hash : Type) where
  finalEpochHeight : Int
  finalEpochs : List (BitcoinCoreHeader Hash)
  shallowEpoch : Option (BitcoinCoreHeader Hash)
  horizon : BitcoinCoreHeader Hash
  priorHorizonReorged : Bool
  expectedRevision : Int

namespace HeaderCache

/-- `SELECT max(height)` over some rows. -/
def maxHeight (rows : List (HeaderRow Hash)) : Option Int := (rows.map (·.height)).max?

/-- `highest_final_bitcoin_core_epoch` -/
def highestFinal (rows : HeaderRows Hash) : Option Int := maxHeight (rows.rows.filter (·.isFinal))

/-- `load_previous_shallow_bitcoin_core_headers` -/
def previousShallow (rows : HeaderRows Hash) : List (BitcoinCoreHeader Hash) :=
  (rows.rows.filter fun row => !row.isFinal).map (·.header)

/-- `load_bitcoin_core_header_cache_horizon` -/
def loadHorizon (rows : HeaderRows Hash) : Option (BitcoinCoreHeader Hash) :=
  (rows.first fun a b => b.height < a.height).map (·.header)

end HeaderCache

open HeaderCache

def cacheEpochCoverageOverlapsPriorHorizon (highestFinal : Option Int)
    (previousShallow incoming : List (BitcoinCoreHeader Hash)) (previousHorizonTime : Int) : Bool :=
  let previousEpochHeight := (highestFinal.toList ++
    (previousShallow.filter fun header => header.height % 2016 = 0).map (·.height)).max?
  incoming.any fun header =>
    header.height % 2016 = 0 && previousEpochHeight.all (· < header.height) &&
      header.blockTime ≤ previousHorizonTime

section Publish

variable [DecidableEq Hash]

def shallowCacheReorged (previousShallow incoming : List (BitcoinCoreHeader Hash))
    (horizonHeight : Int) (priorHorizonReorged : Bool) : Bool :=
  priorHorizonReorged ||
    (previousShallow.any fun previous =>
      (incoming.find? fun header => header.height = previous.height).any (· ≠ previous)) ||
    (previousShallow.map (·.height)).max?.any (horizonHeight < ·)

/-- `record_bitcoin_core_header_with_finality` -/
def recordWithFinality (rows : HeaderRows Hash) (header : BitcoinCoreHeader Hash) (isFinal : Bool) :
    Except CacheError (HeaderRows Hash) := do
  ensure (isFinal = false ∨ header.height % 2016 = 0) .finalNotBoundary
  match rows.find? header.height with
  | some existing =>
    ensure (existing = ⟨header, isFinal⟩) (.disagrees header.height)
    return rows
  | none =>
    -- one row for a hash, and one row that is no boundary
    ensure (0 ≤ header.height ∧ 0 ≤ header.blockTime ∧
      (∀ row ∈ rows.rows, row.header.blockHash ≠ header.blockHash) ∧
      (header.height % 2016 ≠ 0 → ∀ row ∈ rows.rows, row.height % 2016 = 0)) .constraint
    return rows.upsert ⟨header, isFinal⟩ id fun _ => rfl

namespace CacheSnapshot

variable (s : CacheSnapshot Hash)

def incoming : List (BitcoinCoreHeader Hash) := s.finalEpochs ++ s.shallowEpoch.toList ++ [s.horizon]

/-- An observed header of the cache was replaced. -/
def shallowReorged (cache : HeaderCache Hash) : Bool :=
  shallowCacheReorged (previousShallow cache.rows) s.incoming s.horizon.height s.priorHorizonReorged

/-- A new epoch starts within the cache's horizon time. -/
def epochCoverageOverlaps (cache : HeaderCache Hash) : Bool :=
  cacheEpochCoverageOverlapsPriorHorizon (highestFinal cache.rows) (previousShallow cache.rows)
    s.incoming cache.state.horizonTime

/-- The headers to record, with their finality. -/
def recorded (highestFinal : Option Int) : List (BitcoinCoreHeader Hash × Bool) :=
  s.finalEpochs.map (·, true) ++ s.shallowEpoch.toList.map (·, false) ++
    [(s.horizon, decide (s.horizon.height = s.finalEpochHeight) ||
      highestFinal.any (s.horizon.height = ·))]

end CacheSnapshot

/-- `update_bitcoin_core_header_cache_state` -/
def updateCacheState (rows : HeaderRows Hash) (previous : CacheState)
    (previousHorizonHeight : Option Int) (horizon : BitcoinCoreHeader Hash)
    (shallowReorged epochCoverageOverlapsPriorHorizon : Bool) : CacheState × CacheUpdate :=
  let currentObservedTime := (rows.rows.map (·.header.blockTime)).max?.getD 0
  let horizonAdvanced := previousHorizonHeight.all (· < horizon.height)
  let cacheWasEmpty := previousHorizonHeight.isNone
  let horizonTime :=
    if shallowReorged then currentObservedTime else max previous.horizonTime currentObservedTime
  let invalidating := shallowReorged || epochCoverageOverlapsPriorHorizon || cacheWasEmpty
  let schedule := invalidating || horizonAdvanced || decide (previous.horizonTime < horizonTime)
  let verdictsMayChange := shallowReorged || epochCoverageOverlapsPriorHorizon
  let pendingScope :=
    if schedule && invalidating then previous.pendingScope.union .everything
    else if schedule then previous.pendingScope.union .pendingRows
    else previous.pendingScope
  let pendingGeneration :=
    if schedule then previous.pendingGeneration + 1 else previous.pendingGeneration
  ({ previous with
      horizonTime
      publicationRevision := previous.publicationRevision + 1
      pendingGeneration
      pendingScope
      pass := if invalidating then none else previous.pass
      coreCacheGeneration := previous.coreCacheGeneration + if verdictsMayChange then 1 else 0 },
    { scheduled := schedule
      pendingOrphans := pendingScope.orphans
      pending := decide (previous.acknowledgedGeneration < pendingGeneration) })

/-- `replace_bitcoin_core_header_cache`.  `queued` is whether the reconcile queue has work. -/
def replaceBitcoinCoreHeaderCache (cache : HeaderCache Hash) (queued : Bool)
    (s : CacheSnapshot Hash) : Except CacheError (Option (HeaderCache Hash × CacheUpdate)) := do
  ensure (∀ header ∈ s.finalEpochs, header.height % 2016 = 0 ∧ header.height ≤ s.finalEpochHeight)
    .finalEpochsNotBoundaries
  ensure (∀ header ∈ s.shallowEpoch, header.height % 2016 = 0 ∧ s.finalEpochHeight < header.height)
    .shallowEpochNotBoundary
  if queued ∨ cache.state.publicationRevision ≠ s.expectedRevision then return none
  else do
    ensure (s.finalEpochHeight ≤ s.horizon.height) .horizonPrecedesCutoff
    ensure (∀ height ∈ highestFinal cache.rows, height ≤ s.horizon.height) .horizonPrecedesFinal
    let rows ← (s.recorded (highestFinal cache.rows)).foldlM
      (fun rows r => recordWithFinality rows r.1 r.2) (cache.rows.delete fun row => !row.isFinal)
    let (state, update) := updateCacheState rows cache.state (maxHeight cache.rows.rows) s.horizon
      (s.shallowReorged cache) (s.epochCoverageOverlaps cache)
    return some (⟨rows, state⟩, update)

end Publish

/-! ### What a publication writes -/

variable [DecidableEq Hash]

/-- After a header is recorded it is there as recorded, and no row has changed. -/
theorem recordWithFinality_eq_ok {rows rows' : HeaderRows Hash} {header : BitcoinCoreHeader Hash}
    {isFinal : Bool} (h : recordWithFinality rows header isFinal = .ok rows') :
    rows'.find? header.height = some ⟨header, isFinal⟩ ∧
      (∀ k row, rows.find? k = some row → rows'.find? k = some row) ∧
      ∀ k, header.height ≠ k → rows'.find? k = rows.find? k := by
  obtain ⟨_, -, h⟩ := bind_eq_ok.mp h
  split at h
  · next existing hexisting =>
      obtain ⟨_, hsame, h⟩ := bind_eq_ok.mp h
      obtain rfl := Except.ok.inj h
      obtain rfl := ensure_eq_ok.mp hsame
      exact ⟨hexisting, fun _ _ => id, fun _ _ => rfl⟩
  · next hnone =>
      obtain ⟨_, -, h⟩ := bind_eq_ok.mp h
      obtain rfl := Except.ok.inj h
      have hfind : ∀ k, (rows.upsert ⟨header, isFinal⟩ id fun _ => rfl).find? k =
          if k = header.height then some ((rows.find? k).elim ⟨header, isFinal⟩ id)
          else rows.find? k := rows.find?_upsert ⟨header, isFinal⟩ id _
      refine ⟨?_, fun k row hrow => ?_, fun k hk => ?_⟩
      · rw [hfind, if_pos rfl, hnone]
        rfl
      · rw [hfind, if_neg, hrow]
        rintro rfl
        exact absurd (hnone.symm.trans hrow) (by simp)
      · rw [hfind, if_neg (Ne.symm hk)]

/-- After the headers are recorded, they are there as recorded, and no row has changed. -/
theorem foldlM_recordWithFinality {rows rows' : HeaderRows Hash}
    {records : List (BitcoinCoreHeader Hash × Bool)}
    (h : records.foldlM (fun rows r => recordWithFinality rows r.1 r.2) rows = .ok rows') :
    (∀ r ∈ records, rows'.find? r.1.height = some ⟨r.1, r.2⟩) ∧
      (∀ k row, rows.find? k = some row → rows'.find? k = some row) ∧
      ∀ k, (∀ r ∈ records, r.1.height ≠ k) → rows'.find? k = rows.find? k := by
  refine foldlM_invariant (J := fun done rows' =>
    (∀ r ∈ done, rows'.find? r.1.height = some ⟨r.1, r.2⟩) ∧
      (∀ k row, rows.find? k = some row → rows'.find? k = some row) ∧
      ∀ k, (∀ r ∈ done, r.1.height ≠ k) → rows'.find? k = rows.find? k) ?_ ?_ h
  · exact ⟨by simp, fun _ _ => id, fun _ _ => rfl⟩
  · rintro done r rest rows₁ rows₂ - ⟨hdone, hkept, hother⟩ hrecord
    obtain ⟨hnew, hkept', hother'⟩ := recordWithFinality_eq_ok hrecord
    refine ⟨fun q hq => ?_, fun k row hrow => hkept' k row (hkept k row hrow), fun k hk => ?_⟩
    · rcases mem_append.mp hq with hq | hq
      · exact hkept' _ _ (hdone q hq)
      · obtain rfl := mem_singleton.mp hq
        exact hnew
    · rw [hother' k (hk r (by simp)), hother k fun q hq => hk q (by simp [hq])]

/-- A committed publication. -/
structure Published (cache : HeaderCache Hash) (s : CacheSnapshot Hash)
    (cache' : HeaderCache Hash) : Prop where
  revision : cache.state.publicationRevision = s.expectedRevision
  cutoff_le : s.finalEpochHeight ≤ s.horizon.height
  final_le : ∀ height ∈ highestFinal cache.rows, height ≤ s.horizon.height
  recorded : ∀ r ∈ s.recorded (highestFinal cache.rows),
    cache'.rows.find? r.1.height = some ⟨r.1, r.2⟩
  kept : ∀ k row, cache.rows.find? k = some row → row.isFinal = true →
    cache'.rows.find? k = some row
  only : ∀ k row, cache'.rows.find? k = some row →
    (∃ r ∈ s.recorded (highestFinal cache.rows), r.1.height = k) ∨
      (cache.rows.find? k = some row ∧ row.isFinal = true)
  state : cache'.state = (updateCacheState cache'.rows cache.state (maxHeight cache.rows.rows)
    s.horizon (s.shallowReorged cache) (s.epochCoverageOverlaps cache)).1

variable {cache cache' : HeaderCache Hash}

theorem replaceBitcoinCoreHeaderCache_eq_ok {queued : Bool}
    {s : CacheSnapshot Hash} {update : CacheUpdate}
    (h : replaceBitcoinCoreHeaderCache cache queued s = .ok (some (cache', update))) :
    Published cache s cache' := by
  obtain ⟨_, -, h⟩ := bind_eq_ok.mp h
  obtain ⟨_, -, h⟩ := bind_eq_ok.mp h
  split at h
  · cases h
  · next hguard =>
      obtain ⟨_, hcutoff, h⟩ := bind_eq_ok.mp h
      obtain ⟨_, hfinal, h⟩ := bind_eq_ok.mp h
      obtain ⟨rows, hrows, h⟩ := bind_eq_ok.mp h
      obtain ⟨rfl, -⟩ := Prod.mk.inj (some.inj (Except.ok.inj h))
      push Not at hguard
      have hfinals : ∀ k row, (cache.rows.delete fun row => !row.isFinal).find? k = some row ↔
          cache.rows.find? k = some row ∧ row.isFinal = true := by
        intro k row
        rw [Table.find?_delete, filter_eq_some_iff]
        simp
      obtain ⟨hrecorded, hkept, hother⟩ := foldlM_recordWithFinality hrows
      refine ⟨hguard.2, ensure_eq_ok.mp hcutoff, ensure_eq_ok.mp hfinal, hrecorded,
        fun k row hrow hisFinal => hkept k row ((hfinals k row).mpr ⟨hrow, hisFinal⟩),
        fun k row hrow => ?_, rfl⟩
      by_cases hin : ∃ r ∈ s.recorded (highestFinal cache.rows), r.1.height = k
      · exact .inl hin
      · push Not at hin
        rw [hother k hin] at hrow
        exact .inr ((hfinals k row).mp hrow)

theorem Published.horizonTime_def {s : CacheSnapshot Hash} (h : Published cache s cache') :
    cache'.state.horizonTime =
      if s.shallowReorged cache then (cache'.rows.rows.map (·.header.blockTime)).max?.getD 0
      else max cache.state.horizonTime
        ((cache'.rows.rows.map (·.header.blockTime)).max?.getD 0) := by
  rw [h.state]
  rfl

/-- The horizon time after a publication covers the rows, and without a reorganisation it is no less
than it was. -/
theorem Published.horizonTime {s : CacheSnapshot Hash} (h : Published cache s cache') :
    (∀ row ∈ cache'.rows.rows, row.header.blockTime ≤ cache'.state.horizonTime) ∧
      (s.shallowReorged cache = false → cache.state.horizonTime ≤ cache'.state.horizonTime) := by
  rw [h.horizonTime_def]
  refine ⟨fun row hrow => ?_, fun hshallow => ?_⟩
  · have hobserved : row.header.blockTime ≤
        (cache'.rows.rows.map (·.header.blockTime)).max?.getD 0 := by
      have hmem := mem_map_of_mem (f := (·.header.blockTime)) hrow
      rcases hmax : (cache'.rows.rows.map (·.header.blockTime)).max? with _ | m
      · rw [max?_eq_none_iff.mp hmax] at hmem
        cases hmem
      · rw [hmax]
        exact (max?_eq_some_iff.mp hmax).2 _ hmem
    split
    · exact hobserved
    · exact hobserved.trans (le_max_right _ _)
  · rw [if_neg (by simp [hshallow])]
    exact le_max_left _ _

end MergeMiningMonitor
