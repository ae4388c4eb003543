import MergeMiningMonitor.Support.FixedWidth
import MergeMiningMonitor.HeaderCache.Publication

/-!
# Header cache — Snapshot

What a refresh reads from Core (`bitcoin_epoch_cache.rs`), and what the cache holds after it is
published.  Boundaries more than a hundred blocks below the horizon are final; the rest of the
snapshot is the current boundary, when it is not final yet, and the horizon.  A live refresh caps the
horizon so that it fetches a bounded number of boundaries at a time.

Whatever the horizon and whatever was final before, the rows of a published snapshot are the
boundaries up to the horizon and the horizon itself (`cached_of_published`), and they build the
table of the chain (`loadNbitsTable_of_cached`).
-/

namespace MergeMiningMonitor

open Relational Fallible FixedWidth HeaderCache

variable {Hash : Type}

/-- An active chain of Core. -/
structure CoreChain (Hash : Type) where
  tip : Int
  header : Int → BitcoinCoreHeader Hash
  height_eq : ∀ k, (header k).height = k
  tip_range : InI32 tip

namespace CoreChain

variable (chain : CoreChain Hash)

def canonicalHeader (height : Int) : Option (BitcoinCoreHeader Hash) :=
  if 0 ≤ height ∧ height ≤ chain.tip then some (chain.header height) else none

/-- The headers at some heights. -/
def fetchHeaders : List Int → Option (List (BitcoinCoreHeader Hash))
  | [] => some []
  | height :: rest => do
    let header ← chain.canonicalHeader height
    return header :: (← fetchHeaders rest)

/-- The chain as the difficulty table sees it. -/
def epochChain : EpochChain where
  header k := ⟨k, (chain.header k).blockTime, (chain.header k).bits⟩
  height_eq _ := rfl

end CoreChain

/-- The heights `(first..=last).step_by(2016)`. -/
def epochsFrom (first last : Int) : List Int :=
  (List.range ((last - first) / 2016 + 1).toNat).map fun i : Nat => first + 2016 * (i : Int)

/-- The first boundary that is not final. -/
def nextEpoch (highestFinal : Option Int) : Int := highestFinal.elim 0 (· + 2016)

/-- The horizon of a refresh, which is capped for a live one. -/
def refreshHorizonHeight (live : Bool) (tipHeight : Int) (highestFinal : Option Int) : Int :=
  if live then min tipHeight (nextEpoch highestFinal + 24 * 2016 + 100) else tipHeight

section Snapshot

variable [DecidableEq Hash] (chain : CoreChain Hash)

/-- Whether Core still has the prior horizon, when it is below the new one. -/
def observePriorHorizon (horizonHeight : Int) (priorHorizon : Option (BitcoinCoreHeader Hash)) :
    Option Bool :=
  match priorHorizon.filter (·.height < horizonHeight) with
  | some cached => (chain.canonicalHeader cached.height).map (·.blockHash ≠ cached.blockHash)
  | none => some false

/-- The boundary of the horizon's epoch, when it is not final. -/
def fetchShallowEpoch (currentEpoch finalEpoch : Int) (highestFinal : Option Int) :
    Option (Option (BitcoinCoreHeader Hash)) :=
  if finalEpoch < currentEpoch ∧ highestFinal.all (· < currentEpoch) then
    (chain.canonicalHeader currentEpoch).map some
  else some none

/-- The snapshot of `refresh_bitcoin_core_header_cache_snapshot`, from what was loaded of the cache.
There is none when Core does not answer. -/
def takeSnapshot (live : Bool) (revision : Int) (highestFinal : Option Int)
    (priorHorizon : Option (BitcoinCoreHeader Hash)) : Option (CacheSnapshot Hash) := do
  let horizonHeight := refreshHorizonHeight live chain.tip highestFinal
  let openingHorizon ← chain.canonicalHeader horizonHeight
  let priorHorizonReorged ← observePriorHorizon chain horizonHeight priorHorizon
  let finalEpoch := daaEpochStart (saturatingSub horizonHeight 100)
  let finalEpochs ← chain.fetchHeaders (epochsFrom (nextEpoch highestFinal) finalEpoch)
  let shallowEpoch ← fetchShallowEpoch chain (daaEpochStart horizonHeight) finalEpoch highestFinal
  return ⟨finalEpoch, finalEpochs, shallowEpoch, openingHorizon, priorHorizonReorged, revision⟩

/-- `cache_snapshot_is_current`, on what Core answers when the snapshot is complete. -/
def cacheSnapshotIsCurrent (openingTip : Int) (openingHorizon : BitcoinCoreHeader Hash)
    (closingTip : Int) (closingHorizon : BitcoinCoreHeader Hash) : Bool :=
  openingTip = closingTip && openingHorizon = closingHorizon

end Snapshot

/-- `load_bitcoin_core_nbits_table` -/
def loadNbitsTable (cache : HeaderCache Hash) : Except NbitsTableError NbitsTable :=
  NbitsTable.fromBitcoinCoreHeadersWithHorizonTime
    ((cache.rows.rows.insertionSort fun a b => a.height ≤ b.height).map fun row =>
      ⟨row.height, row.header.blockTime, row.header.bits⟩)
    cache.state.horizonTime

/-! ### What a snapshot holds -/

section Taken

variable {chain : CoreChain Hash}

theorem CoreChain.canonicalHeader_eq_some {height : Int} {header : BitcoinCoreHeader Hash} :
    chain.canonicalHeader height = some header ↔
      (0 ≤ height ∧ height ≤ chain.tip) ∧ chain.header height = header := by
  rw [CoreChain.canonicalHeader]
  split
  · next h => simp [h]
  · next h => simp [h]

theorem CoreChain.fetchHeaders_eq_some {heights : List Int} {headers : List (BitcoinCoreHeader Hash)}
    (h : chain.fetchHeaders heights = some headers) : headers = heights.map chain.header := by
  induction heights generalizing headers with
  | nil => exact (Option.some.inj h).symm
  | cons height rest ih =>
    obtain ⟨header, hheader, h⟩ := Option.bind_eq_some_iff.mp h
    obtain ⟨headers', hrest, h⟩ := Option.bind_eq_some_iff.mp h
    obtain rfl := Option.some.inj h
    rw [ih hrest, List.map_cons, (CoreChain.canonicalHeader_eq_some.mp hheader).2]

theorem mem_epochsFrom {first last e : Int} :
    e ∈ epochsFrom first last ↔ first ≤ e ∧ e ≤ last ∧ (e - first) % 2016 = 0 := by
  simp only [epochsFrom, List.mem_map, List.mem_range]
  constructor
  · rintro ⟨i, hi, rfl⟩
    omega
  · rintro ⟨hfirst, hlast, hmod⟩
    exact ⟨((e - first) / 2016).toNat, by omega, by omega⟩

/-- A snapshot of the chain, above the boundaries that are final. -/
structure Snapshots [DecidableEq Hash] (chain : CoreChain Hash) (highestFinal : Option Int)
    (priorHorizon : Option (BitcoinCoreHeader Hash)) (s : CacheSnapshot Hash) : Prop where
  horizon : s.horizon = chain.header s.horizon.height
  nonneg : 0 ≤ s.horizon.height
  le_tip : s.horizon.height ≤ chain.tip
  finalEpochHeight : s.finalEpochHeight = daaEpochStart (saturatingSub s.horizon.height 100)
  finalEpochs : s.finalEpochs =
    (epochsFrom (nextEpoch highestFinal) s.finalEpochHeight).map chain.header
  shallowEpoch : s.shallowEpoch =
    if s.finalEpochHeight < daaEpochStart s.horizon.height ∧
        highestFinal.all (· < daaEpochStart s.horizon.height) then
      some (chain.header (daaEpochStart s.horizon.height))
    else none
  prior : observePriorHorizon chain s.horizon.height priorHorizon = some s.priorHorizonReorged

theorem takeSnapshot_eq_some [DecidableEq Hash] {live : Bool} {revision : Int}
    {highestFinal : Option Int} {priorHorizon : Option (BitcoinCoreHeader Hash)}
    {s : CacheSnapshot Hash}
    (h : takeSnapshot chain live revision highestFinal priorHorizon = some s) :
    Snapshots chain highestFinal priorHorizon s ∧ s.expectedRevision = revision ∧
      s.horizon.height = refreshHorizonHeight live chain.tip highestFinal := by
  obtain ⟨horizon, hhorizon, h⟩ := Option.bind_eq_some_iff.mp h
  obtain ⟨reorged, hreorged, h⟩ := Option.bind_eq_some_iff.mp h
  obtain ⟨finalEpochs, hfinalEpochs, h⟩ := Option.bind_eq_some_iff.mp h
  obtain ⟨shallowEpoch, hshallow, h⟩ := Option.bind_eq_some_iff.mp h
  obtain rfl := Option.some.inj h
  obtain ⟨⟨hnonneg, hle⟩, rfl⟩ := CoreChain.canonicalHeader_eq_some.mp hhorizon
  have hheight := chain.height_eq (refreshHorizonHeight live chain.tip highestFinal)
  refine ⟨⟨?_, ?_, ?_, ?_, ?_, ?_, ?_⟩, rfl, hheight⟩ <;> simp only [hheight]
  · exact hnonneg
  · exact hle
  · exact CoreChain.fetchHeaders_eq_some hfinalEpochs
  · rw [fetchShallowEpoch] at hshallow
    split at hshallow
    · next hcond =>
        obtain ⟨header, hheader, rfl⟩ := Option.map_eq_some_iff.mp hshallow
        rw [if_pos hcond, (CoreChain.canonicalHeader_eq_some.mp hheader).2]
    · next hcond =>
        rw [if_neg hcond]
        exact (Option.some.inj hshallow).symm
  · exact hreorged

/-! ### The rows of a published snapshot -/

/-- The final rows are boundaries, and all the boundaries up to the highest. -/
structure Finals (rows : HeaderRows Hash) : Prop where
  boundary : ∀ k row, rows.find? k = some row → row.isFinal = true → 0 ≤ k ∧ k % 2016 = 0
  closed : ∀ k k' row, rows.find? k = some row → row.isFinal = true → 0 ≤ k' → k' ≤ k →
    k' % 2016 = 0 → ∃ row', rows.find? k' = some row' ∧ row'.isFinal = true

/-- The cache holds the chain up to the horizon `n`: the boundaries and the horizon. -/
structure Cached (chain : CoreChain Hash) (n : Int) (rows : HeaderRows Hash) : Prop where
  nonneg : 0 ≤ n
  le_tip : n ≤ chain.tip
  mem : ∀ k, (∃ row, rows.find? k = some row) ↔ k ∈ cachedHeights n
  header : ∀ k row, rows.find? k = some row → row.header = chain.header k
  finals : Finals rows

theorem finals_empty : Finals (Table.empty : HeaderRows Hash) where
  boundary _ _ h := nomatch h
  closed _ _ _ h := nomatch h

variable {rows : HeaderRows Hash}

theorem mem_highestFinal {f : Int} :
    f ∈ highestFinal rows ↔ (∃ row, rows.find? f = some row ∧ row.isFinal = true) ∧
      ∀ k row, rows.find? k = some row → row.isFinal = true → k ≤ f := by
  rw [Option.mem_def, highestFinal, maxHeight, List.max?_eq_some_iff]
  simp only [List.mem_map, List.mem_filter, forall_exists_index, and_imp]
  constructor
  · rintro ⟨⟨row, ⟨hrow, hfinal⟩, rfl⟩, hmax⟩
    refine ⟨⟨row, Table.find?_key hrow, hfinal⟩, fun k row' hrow' hfinal' => ?_⟩
    exact hmax k row' (Table.mem_of_find? hrow') hfinal' (Table.key_of_find? hrow')
  · rintro ⟨⟨row, hrow, hfinal⟩, hmax⟩
    refine ⟨⟨row, ⟨Table.mem_of_find? hrow, hfinal⟩, Table.key_of_find? hrow⟩, ?_⟩
    rintro k row' hrow' hfinal' rfl
    exact hmax _ row' (Table.find?_key hrow') hfinal'

theorem highestFinal_eq_none :
    highestFinal rows = none ↔ ∀ k row, rows.find? k = some row → row.isFinal = false := by
  rw [highestFinal, maxHeight, List.max?_eq_none_iff, List.map_eq_nil_iff, List.filter_eq_nil_iff]
  constructor
  · intro h k row hrow
    simpa using h row (Table.mem_of_find? hrow)
  · intro h row hrow
    simpa using h _ row (Table.find?_key hrow)

theorem Finals.exists_final (h : Finals rows) {k : Int} :
    (∃ row, rows.find? k = some row ∧ row.isFinal = true) ↔
      0 ≤ k ∧ k % 2016 = 0 ∧ k < nextEpoch (highestFinal rows) := by
  rcases hf : highestFinal rows with _ | f
  · rw [highestFinal_eq_none] at hf
    simp only [nextEpoch, Option.elim_none]
    constructor
    · rintro ⟨row, hrow, hfinal⟩
      rw [hf k row hrow] at hfinal
      cases hfinal
    · omega
  · obtain ⟨⟨row, hrow, hfinal⟩, hmax⟩ := mem_highestFinal.mp hf
    simp only [nextEpoch, Option.elim_some]
    constructor
    · rintro ⟨row', hrow', hfinal'⟩
      have hk := h.boundary k row' hrow' hfinal'
      have hle := hmax k row' hrow' hfinal'
      omega
    · rintro ⟨hpos, hmod, hlt⟩
      have hf := h.boundary f row hrow hfinal
      exact h.closed f k row hrow hfinal hpos (by omega) hmod

theorem Finals.nextEpoch_spec (h : Finals rows) : 0 ≤ nextEpoch (highestFinal rows) ∧
      nextEpoch (highestFinal rows) % 2016 = 0 ∧
      ∀ n, (∀ f ∈ highestFinal rows, f ≤ n) → 0 ≤ n →
        nextEpoch (highestFinal rows) ≤ n + 2016 := by
  rcases hf : highestFinal rows with _ | f
  · exact ⟨le_rfl, rfl, fun n _ hn => by simp only [nextEpoch, Option.elim_none]; omega⟩
  · obtain ⟨⟨row, hrow, hfinal⟩, -⟩ := mem_highestFinal.mp hf
    have hboundary := h.boundary f row hrow hfinal
    simp only [nextEpoch, Option.elim_some]
    refine ⟨by omega, by omega, fun n hn _ => ?_⟩
    have := hn f rfl
    omega

/-- The current boundary is above the final ones exactly when it is at or above the next one. -/
theorem Finals.all_lt_iff (h : Finals rows) {n : Int} (hn : 0 ≤ n) :
    (highestFinal rows).all (· < daaEpochStart n) = true ↔
      nextEpoch (highestFinal rows) ≤ daaEpochStart n := by
  rcases hf : highestFinal rows with _ | f
  · simp only [nextEpoch, Option.elim_none, Option.all_none, true_iff]
    rw [daaEpochStart]
    omega
  · obtain ⟨⟨row, hrow, hfinal⟩, -⟩ := mem_highestFinal.mp hf
    have hboundary := h.boundary f row hrow hfinal
    simp only [nextEpoch, Option.elim_some, Option.all_some, decide_eq_true_eq]
    rw [daaEpochStart]
    omega

variable [DecidableEq Hash] {highestFinal : Option Int} {prior : Option (BitcoinCoreHeader Hash)}
  {s : CacheSnapshot Hash}

theorem Snapshots.finalEpochHeight_lt (h : Snapshots chain highestFinal prior s) :
    s.finalEpochHeight < s.horizon.height := by
  have hpos := h.nonneg
  rw [h.finalEpochHeight, daaEpochStart, saturatingSub]
  omega

/-- The rows of a snapshot: which heights it records, and as final or not. -/
theorem Snapshots.mem_recorded (h : Snapshots chain highestFinal prior s)
    {r : BitcoinCoreHeader Hash × Bool} :
    r ∈ s.recorded highestFinal ↔
      (∃ k ∈ epochsFrom (nextEpoch highestFinal) s.finalEpochHeight, r = (chain.header k, true)) ∨
      ((s.finalEpochHeight < daaEpochStart s.horizon.height ∧
          highestFinal.all (· < daaEpochStart s.horizon.height)) ∧
        r = (chain.header (daaEpochStart s.horizon.height), false)) ∨
      r = (chain.header s.horizon.height, decide (highestFinal = some s.horizon.height)) := by
  have hflag : (decide (s.horizon.height = s.finalEpochHeight) ||
      highestFinal.any (s.horizon.height = ·)) =
        decide (highestFinal = some s.horizon.height) := by
    rw [decide_eq_false h.finalEpochHeight_lt.ne', Bool.false_or]
    cases highestFinal with
    | none => simp
    | some f => simp [eq_comm]
  have hfinal : (∃ header ∈ s.finalEpochs, (header, true) = r) ↔
      ∃ k ∈ epochsFrom (nextEpoch highestFinal) s.finalEpochHeight, r = (chain.header k, true) := by
    rw [h.finalEpochs]
    constructor
    · rintro ⟨_, hheader, rfl⟩
      obtain ⟨k, hk, rfl⟩ := List.mem_map.mp hheader
      exact ⟨k, hk, rfl⟩
    · rintro ⟨k, hk, rfl⟩
      exact ⟨_, List.mem_map_of_mem hk, rfl⟩
  have hshallow : (∃ header ∈ s.shallowEpoch.toList, (header, false) = r) ↔
      (s.finalEpochHeight < daaEpochStart s.horizon.height ∧
          highestFinal.all (· < daaEpochStart s.horizon.height)) ∧
        r = (chain.header (daaEpochStart s.horizon.height), false) := by
    rw [h.shallowEpoch]
    split
    · next hcond => simp [hcond, eq_comm]
    · next hcond => simp [hcond]
  rw [CacheSnapshot.recorded, hflag, List.mem_append, List.mem_append, List.mem_map, List.mem_map,
    List.mem_singleton, or_assoc, hfinal, hshallow, ← h.horizon]

section Published

variable {cache cache' : HeaderCache Hash}

/-- A row of a published snapshot is final from before, newly final, the current boundary or the
horizon. -/
theorem Published.row_cases (h : Published cache s cache')
    (hs : Snapshots chain (HeaderCache.highestFinal cache.rows) prior s) (hfinals : Finals cache.rows)
    (hheaders : ∀ k row, cache.rows.find? k = some row → row.isFinal = true →
      row.header = chain.header k) {k : Int} {row : HeaderRow Hash}
    (hrow : cache'.rows.find? k = some row) :
    row.header = chain.header k ∧
      ((0 ≤ k ∧ k % 2016 = 0 ∧ k < nextEpoch (HeaderCache.highestFinal cache.rows) ∧
          row.isFinal = true) ∨
        (k ∈ epochsFrom (nextEpoch (HeaderCache.highestFinal cache.rows)) s.finalEpochHeight ∧
          row.isFinal = true) ∨
        (s.finalEpochHeight < k ∧ k = daaEpochStart s.horizon.height ∧ row.isFinal = false) ∨
        (k = s.horizon.height ∧ row.isFinal = false)) := by
  rcases h.only k row hrow with ⟨r, hr, rfl⟩ | ⟨hold, hfinal⟩
  · obtain rfl := Option.some.inj (hrow.symm.trans (h.recorded r hr))
    rcases hs.mem_recorded.mp hr with ⟨k, hk, rfl⟩ | ⟨⟨hlt, -⟩, rfl⟩ | rfl
    · rw [chain.height_eq]
      exact ⟨rfl, .inr (.inl ⟨hk, rfl⟩)⟩
    · rw [chain.height_eq]
      exact ⟨rfl, .inr (.inr (.inl ⟨hlt, rfl, rfl⟩))⟩
    · rw [chain.height_eq]
      refine ⟨rfl, ?_⟩
      by_cases hf : HeaderCache.highestFinal cache.rows = some s.horizon.height
      · obtain ⟨hfinal, -⟩ := mem_highestFinal.mp hf
        obtain ⟨hpos, hmod, hlt⟩ := hfinals.exists_final.mp hfinal
        exact .inl ⟨hpos, hmod, hlt, decide_eq_true hf⟩
      · exact .inr (.inr (.inr ⟨rfl, decide_eq_false hf⟩))
  · obtain ⟨hpos, hmod, hlt⟩ := hfinals.exists_final.mp ⟨row, hold, hfinal⟩
    exact ⟨hheaders k row hold hfinal, .inl ⟨hpos, hmod, hlt, hfinal⟩⟩

/-- The boundaries up to the cutoff are final after a publication, and those that were. -/
theorem Published.exists_final (h : Published cache s cache')
    (hs : Snapshots chain (HeaderCache.highestFinal cache.rows) prior s) (hfinals : Finals cache.rows)
    {k : Int} (hpos : 0 ≤ k) (hmod : k % 2016 = 0)
    (hk : k < nextEpoch (HeaderCache.highestFinal cache.rows) ∨ k ≤ s.finalEpochHeight) :
    ∃ row, cache'.rows.find? k = some row ∧ row.isFinal = true := by
  rcases lt_or_ge k (nextEpoch (HeaderCache.highestFinal cache.rows)) with hlt | hge
  · obtain ⟨row, hrow, hfinal⟩ := hfinals.exists_final.mpr ⟨hpos, hmod, hlt⟩
    exact ⟨row, h.kept k row hrow hfinal, hfinal⟩
  · have hnext := hfinals.nextEpoch_spec.2.1
    have hmem : k ∈ epochsFrom (nextEpoch (HeaderCache.highestFinal cache.rows))
        s.finalEpochHeight := mem_epochsFrom.mpr ⟨hge, by omega, by omega⟩
    have hrow := h.recorded _ (hs.mem_recorded.mpr (.inl ⟨k, hmem, rfl⟩))
    rw [chain.height_eq] at hrow
    exact ⟨_, hrow, rfl⟩

/-- **The rows of a published snapshot.**  Whatever was final before, and whatever the horizon, they
are the boundaries up to the horizon and the horizon, when the final rows are on the chain. -/
theorem cached_of_published (h : Published cache s cache')
    (hs : Snapshots chain (HeaderCache.highestFinal cache.rows) prior s) (hfinals : Finals cache.rows)
    (hheaders : ∀ k row, cache.rows.find? k = some row → row.isFinal = true →
      row.header = chain.header k) :
    Cached chain s.horizon.height cache'.rows := by
  obtain ⟨hnext, hnext_mod, hnext_le⟩ := hfinals.nextEpoch_spec
  have hnext_le := hnext_le _ h.final_le hs.nonneg
  have hpos := hs.nonneg
  have hrange := hs.le_tip.trans chain.tip_range.2
  have hF := hs.finalEpochHeight
  rw [daaEpochStart, saturatingSub] at hF
  refine ⟨hpos, hs.le_tip, fun k => ⟨?_, ?_⟩, fun k row hrow =>
    (h.row_cases hs hfinals hheaders hrow).1, ⟨fun k row hrow hfinal => ?_,
    fun k k' row hrow hfinal hpos' hle hmod => ?_⟩⟩
  · rintro ⟨row, hrow⟩
    rw [mem_cachedHeights hpos]
    obtain ⟨-, hcases⟩ := h.row_cases hs hfinals hheaders hrow
    rw [mem_epochsFrom, daaEpochStart] at hcases
    omega
  · intro hk
    rw [mem_cachedHeights hpos] at hk
    obtain ⟨hk, hle, hmod⟩ := hk
    by_cases hH : k = s.horizon.height
    · subst hH
      have hrow := h.recorded _ (hs.mem_recorded.mpr (.inr (.inr rfl)))
      rw [chain.height_eq] at hrow
      exact ⟨_, hrow⟩
    · have hmod := hmod.resolve_right hH
      by_cases hfinal : k < nextEpoch (HeaderCache.highestFinal cache.rows) ∨ k ≤ s.finalEpochHeight
      · obtain ⟨row, hrow, -⟩ := h.exists_final hs hfinals hk hmod hfinal
        exact ⟨row, hrow⟩
      · -- above the cutoff there is only the current boundary
        obtain rfl : k = daaEpochStart s.horizon.height := by
          rw [daaEpochStart]
          omega
        have hrow := h.recorded _ (hs.mem_recorded.mpr (.inr (.inl
          ⟨⟨by omega, (hfinals.all_lt_iff hpos).mpr (by omega)⟩, rfl⟩)))
        rw [chain.height_eq] at hrow
        exact ⟨_, hrow⟩
  · obtain ⟨-, hcases⟩ := h.row_cases hs hfinals hheaders hrow
    rw [mem_epochsFrom, hfinal] at hcases
    simp only [Bool.true_eq_false, and_false, or_false] at hcases
    omega
  · obtain ⟨-, hcases⟩ := h.row_cases hs hfinals hheaders hrow
    rw [mem_epochsFrom, hfinal] at hcases
    simp only [Bool.true_eq_false, and_false, or_false] at hcases
    exact h.exists_final hs hfinals hpos' hmod (by omega)

end Published

/-! ### The previous horizon -/

section Previous

variable {chain₀ : CoreChain Hash} {n₀ : Int} {cache cache' : HeaderCache Hash}

variable {rows : HeaderRows Hash}

omit [DecidableEq Hash] in
theorem Cached.find?_horizon (h : Cached chain n₀ rows) :
    ∃ row, rows.find? n₀ = some row ∧ row.header = chain.header n₀ := by
  obtain ⟨row, hrow⟩ :=
    (h.mem n₀).mpr ((mem_cachedHeights h.nonneg).mpr ⟨h.nonneg, le_rfl, .inr rfl⟩)
  exact ⟨row, hrow, h.header n₀ row hrow⟩

omit [DecidableEq Hash] in
theorem Cached.height_le (h : Cached chain n₀ rows) {row : HeaderRow Hash}
    (hrow : row ∈ rows.rows) : row.height ≤ n₀ :=
  ((mem_cachedHeights h.nonneg).mp ((h.mem row.height).mp ⟨row, Table.find?_key hrow⟩)).2.1

omit [DecidableEq Hash] in
theorem Cached.loadHorizon_eq (h : Cached chain n₀ rows) :
    loadHorizon rows = some (chain.header n₀) := by
  obtain ⟨row, hrow, hheader⟩ := h.find?_horizon
  have hmem := Table.mem_of_find? hrow
  rcases hfirst : rows.first fun a b => b.height < a.height with _ | top
  · rw [Table.first, Table.firstBy_eq_none] at hfirst
    rw [hfirst] at hmem
    cases hmem
  · -- the first row is at least as high as the horizon's, and no row is higher
    have hle := Table.le_of_firstBy hfirst hmem
    have htop := Table.mem_of_first hfirst
    have heq : top.height = row.height :=
      le_antisymm (Table.key_of_find? hrow ▸ h.height_le htop) hle
    rw [loadHorizon, hfirst, Table.eq_of_key_eq htop hmem heq, Option.map_some, hheader]

theorem Snapshots.mem_incoming (h : Snapshots chain highestFinal prior s)
    {header : BitcoinCoreHeader Hash} (hheader : header ∈ s.incoming) :
    header = chain.header header.height := by
  rw [CacheSnapshot.incoming, List.mem_append, List.mem_append, h.finalEpochs, h.shallowEpoch,
    List.mem_singleton] at hheader
  rcases hheader with (hheader | hheader) | rfl
  · obtain ⟨k, -, rfl⟩ := List.mem_map.mp hheader
    rw [chain.height_eq]
  · split at hheader
    · obtain rfl := List.mem_singleton.mp hheader
      rw [chain.height_eq]
    · cases hheader
  · exact h.horizon

/-- Without a reorganisation the new horizon is not below the previous one. -/
theorem Published.horizon_le (h : Published cache s cache') (hcached : Cached chain₀ n₀ cache.rows)
    (hshallow : s.shallowReorged cache = false) : n₀ ≤ s.horizon.height := by
  obtain ⟨row, hrow, -⟩ := hcached.find?_horizon
  rcases hfinal : row.isFinal with _ | _
  · -- a shallow horizon above the new one is flagged
    simp only [CacheSnapshot.shallowReorged, shallowCacheReorged, Bool.or_eq_false_iff] at hshallow
    have hmem : n₀ ∈ (previousShallow cache.rows).map (·.height) := by
      have hkey : row.height = n₀ := Table.key_of_find? hrow
      refine List.mem_map.mpr ⟨row.header, List.mem_map.mpr ⟨row, ?_, rfl⟩, hkey⟩
      exact List.mem_filter.mpr ⟨Table.mem_of_find? hrow, by rw [hfinal]; rfl⟩
    rcases hmax : ((previousShallow cache.rows).map (·.height)).max? with _ | m
    · rw [List.max?_eq_none_iff] at hmax
      rw [hmax] at hmem
      cases hmem
    · have hle := (List.max?_eq_some_iff.mp hmax).2 n₀ hmem
      have hm : m ≤ s.horizon.height := by simpa [hmax] using hshallow.2
      exact hle.trans hm
  · refine h.final_le n₀ (mem_highestFinal.mpr ⟨⟨row, hrow, hfinal⟩, fun k row' hrow' _ => ?_⟩)
    exact Table.key_of_find? hrow' ▸ hcached.height_le (Table.mem_of_find? hrow')

end Previous

/-! ### The table of a cache -/

omit [DecidableEq Hash] in
theorem Cached.sorted_rows {n : Int} (h : Cached chain n rows) :
    ((rows.rows.insertionSort fun a b => a.height ≤ b.height).map fun row =>
      (⟨row.height, row.header.blockTime, row.header.bits⟩ : BitcoinEpochHeader)) =
        chain.epochChain.cached n := by
  have hperm := List.perm_insertionSort (fun a b : HeaderRow Hash => a.height ≤ b.height) rows.rows
  have hheights : (rows.rows.insertionSort fun a b => a.height ≤ b.height).map (·.height) =
      cachedHeights n := by
    refine List.Perm.eq_of_pairwise (fun a b _ _ => le_antisymm) ?_
      ((pairwise_cachedHeights n).imp le_of_lt) ?_
    · have : Std.Total fun a b : HeaderRow Hash => a.height ≤ b.height := ⟨fun _ _ => le_total _ _⟩
      have : IsTrans (HeaderRow Hash) fun a b => a.height ≤ b.height := ⟨fun _ _ _ => le_trans⟩
      exact List.pairwise_map.mpr (List.pairwise_insertionSort _ _)
    · refine (hperm.map _).trans ((List.perm_ext_iff_of_nodup rows.keys_nodup
        (pairwise_cachedHeights n).nodup).mpr fun k => ?_)
      rw [← h.mem k, List.mem_map]
      constructor
      · rintro ⟨row, hrow, rfl⟩
        exact ⟨row, Table.find?_key hrow⟩
      · rintro ⟨row, hrow⟩
        exact ⟨row, Table.mem_of_find? hrow, Table.key_of_find? hrow⟩
  rw [EpochChain.cached, ← hheights, List.map_map]
  refine List.map_congr_left fun row hrow => ?_
  have hheader := h.header row.height row (Table.find?_key (hperm.mem_iff.mp hrow))
  simp only [CoreChain.epochChain, Function.comp_apply, hheader]

omit [DecidableEq Hash] in
theorem loadNbitsTable_of_cached {n : Int} {cache : HeaderCache Hash} (h : Cached chain n cache.rows) :
    loadNbitsTable cache = .ok (chain.epochChain.tableOf n cache.state.horizonTime) := by
  rw [loadNbitsTable, h.sorted_rows]
  exact fromBitcoinCoreHeaders_cached _ h.nonneg _

end Taken

end MergeMiningMonitor
