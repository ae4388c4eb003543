import Mathlib.Data.List.Range
import Mathlib.Tactic.Ring
import MergeMiningMonitor.Support.Lists
import MergeMiningMonitor.Support.Fallible
import MergeMiningMonitor.Support.Ordered

/-!
# Lineage — Nbits table

The difficulty history that Bitcoin's blocks are recognised by (`nbits_table.rs`).  It is built from
a sparse cache of Core's headers: every boundary of a 2,016-block epoch and the horizon, which is the
highest header seen.  A height is looked up through its epoch; a time selects the epoch that started
last at or before it.

The cache of a chain up to a horizon (`cachedHeights`) builds a table
(`fromBitcoinCoreHeaders_cached`), and the lookups in that table are facts about the chain
(`expectedNbits_tableOf`, `epochHeightForTime_tableOf`, `classifyNbitsByTime_of_some`).
-/

namespace MergeMiningMonitor

open Fallible Ordered Lists List Option

structure BitcoinEpochHeader where
  height : Int
  blockTime : Int
  bits : UInt32

/-- The table.  Its epochs are kept in the order of their start times, which need not be the order of
their heights. -/
structure NbitsTable where
  coveredMaxHeight : Int
  horizonHeight : Int
  horizonTime : Int
  byEpoch : List (Int × UInt32)
  epochsByTime : List (Int × Int)
  sorted : epochsByTime.Pairwise LexLe

inductive NbitsLookup
  | found (bits : UInt32)
  | belowTable
  | aboveTable
deriving DecidableEq

inductive WeakVerdict
  | match
  | nonBtcEpochBits
  | belowFloor
  | aboveHorizon
deriving DecidableEq

def daaEpochStart (height : Int) : Int := height / 2016 * 2016

/-- Why headers build no table. -/
inductive NbitsTableError
  | empty
  | notOrdered
  | noEpochBoundary
  | notAnchoredAtGenesis
  | gap (left right : Int)
  | horizonPrecedesEpoch
  | horizonExceedsEpoch
deriving DecidableEq

/-- The check of `headers.windows(2)` for strictly ascending heights. -/
def ascending : List BitcoinEpochHeader → Bool
  | a :: b :: rest => a.height < b.height && ascending (b :: rest)
  | _ => true

/-- The loop over `epoch_rows.windows(2)`. -/
def ensureContiguous : List BitcoinEpochHeader → Except NbitsTableError Unit
  | a :: b :: rest => do
    ensure (b.height = a.height + 2016) (.gap a.height b.height)
    ensureContiguous (b :: rest)
  | _ => .ok ()

namespace NbitsTable

/-- The table of the epochs' rows. -/
def ofEpochRows (coveredMaxHeight horizonHeight horizonTime : Int)
    (epochRows : List BitcoinEpochHeader) : NbitsTable where
  coveredMaxHeight := coveredMaxHeight
  horizonHeight := horizonHeight
  horizonTime := horizonTime
  byEpoch := epochRows.map fun header => (header.height, header.bits)
  epochsByTime := orderByKey id (epochRows.map fun header => (header.blockTime, header.height))
  sorted := pairwise_orderByKey id _

def fromBitcoinCoreHeadersWithHorizonTime (headers : List BitcoinEpochHeader)
    (cachedHorizonTime : Int) : Except NbitsTableError NbitsTable := do
  let horizon ← required headers.getLast? .empty
  ensure (ascending headers) .notOrdered
  let epochRows := headers.filter fun header => header.height % 2016 = 0
  let first ← required epochRows.head? .noEpochBoundary
  ensure (first.height = 0) .notAnchoredAtGenesis
  ensureContiguous epochRows
  let lastEpoch ← required epochRows.getLast? .noEpochBoundary
  ensure (lastEpoch.height ≤ horizon.height) .horizonPrecedesEpoch
  ensure (horizon.height < lastEpoch.height + 2016) .horizonExceedsEpoch
  let observedHorizonTime := headers.foldl (fun t header => max t header.blockTime) horizon.blockTime
  return ofEpochRows lastEpoch.height horizon.height (max cachedHorizonTime observedHorizonTime)
    epochRows

def heightCoverageMax (table : NbitsTable) : Int := table.coveredMaxHeight + 2016 - 1

def expectedNbits (table : NbitsTable) (height : Int) : NbitsLookup :=
  if height < 0 then .belowTable
  else if table.heightCoverageMax < height then .aboveTable
  else ((table.byEpoch.lookup (daaEpochStart height)).map .found).getD .aboveTable

def epochHeightForTime (table : NbitsTable) (time : Int) : Option Int :=
  if table.horizonTime < time ∨ ∀ first ∈ table.epochsByTime.head?, time < first.1 then none
  else
    let index := partitionPoint table.epochsByTime time
    table.epochsByTime[index - 1]?.map (·.2)

def classifyNbitsByTime (table : NbitsTable) (headerTime : Int) (actual : UInt32) : WeakVerdict :=
  if table.horizonTime < headerTime then .aboveHorizon
  else
    match table.epochHeightForTime headerTime with
    | none => .belowFloor
    | some epoch =>
      let expected := [epoch - 2016, epoch, epoch + 2016].filterMap fun height =>
        table.byEpoch.lookup height
      if expected.any (actual = ·) then .match else .nonBtcEpochBits

end NbitsTable

/-! ### The cache of a chain -/

theorem daaEpochStart_le (h : Int) : daaEpochStart h ≤ h := by
  rw [daaEpochStart]
  omega

theorem lt_daaEpochStart (h : Int) : h < daaEpochStart h + 2016 := by
  rw [daaEpochStart]
  omega

/-- The boundaries up to `n`. -/
def epochHeights (n : Int) : List Int :=
  (List.range (n / 2016 + 1).toNat).map fun i : Nat => 2016 * (i : Int)

/-- The heights of the cache with horizon `n`: the boundaries and the horizon. -/
def cachedHeights (n : Int) : List Int :=
  epochHeights n ++ if n % 2016 = 0 then [] else [n]

theorem mem_epochHeights {n e : Int} : e ∈ epochHeights n ↔ 0 ≤ e ∧ e ≤ n ∧ e % 2016 = 0 := by
  simp only [epochHeights, List.mem_map, List.mem_range]
  constructor
  · rintro ⟨i, hi, rfl⟩
    omega
  · rintro ⟨hpos, hle, hmod⟩
    exact ⟨(e / 2016).toNat, by omega, by omega⟩

theorem daaEpochStart_mem_epochHeights {n h : Int} (hpos : 0 ≤ h) (hle : daaEpochStart h ≤ n) :
    daaEpochStart h ∈ epochHeights n := by
  rw [mem_epochHeights]
  refine ⟨?_, hle, ?_⟩ <;> rw [daaEpochStart] <;> omega

theorem mem_cachedHeights {n k : Int} (hn : 0 ≤ n) :
    k ∈ cachedHeights n ↔ 0 ≤ k ∧ k ≤ n ∧ (k % 2016 = 0 ∨ k = n) := by
  rw [cachedHeights, mem_append, mem_epochHeights]
  split
  · next hmod =>
      simp only [not_mem_nil, or_false]
      constructor
      · rintro ⟨hpos, hle, hk⟩
        exact ⟨hpos, hle, .inl hk⟩
      · rintro ⟨hpos, hle, hk | rfl⟩
        · exact ⟨hpos, hle, hk⟩
        · exact ⟨hpos, hle, hmod⟩
  · rw [mem_singleton]
    constructor
    · rintro (⟨hpos, hle, hk⟩ | rfl)
      · exact ⟨hpos, hle, .inl hk⟩
      · exact ⟨hn, le_rfl, .inr rfl⟩
    · rintro ⟨hpos, hle, hk | rfl⟩
      · exact .inl ⟨hpos, hle, hk⟩
      · exact .inr rfl

theorem isChain_epochHeights (n : Int) : (epochHeights n).IsChain fun a b => b = a + 2016 := by
  rw [epochHeights, isChain_map, isChain_range]
  intro i _
  push_cast
  ring

theorem pairwise_epochHeights (n : Int) : (epochHeights n).Pairwise (· < ·) := by
  rw [epochHeights, pairwise_map]
  refine pairwise_lt_range.imp ?_
  intro i j hij
  omega

theorem head?_epochHeights {n : Int} (hn : 0 ≤ n) : (epochHeights n).head? = some 0 := by
  rw [epochHeights, head?_map, head?_range, if_neg (by omega)]
  rfl

theorem getLast?_epochHeights {n : Int} (hn : 0 ≤ n) :
    (epochHeights n).getLast? = some (daaEpochStart n) := by
  rw [epochHeights, getLast?_map, getLast?_range, if_neg (by omega), map_some,
    daaEpochStart, some_inj]
  omega

theorem getLast?_cachedHeights {n : Int} (hn : 0 ≤ n) : (cachedHeights n).getLast? = some n := by
  rw [cachedHeights]
  split
  · next hmod =>
      rw [append_nil, getLast?_epochHeights hn, daaEpochStart, some_inj]
      omega
  · rw [getLast?_append, getLast?_singleton]
    rfl

theorem pairwise_cachedHeights (n : Int) : (cachedHeights n).Pairwise (· < ·) := by
  rw [cachedHeights]
  split
  · rw [append_nil]
    exact pairwise_epochHeights n
  · next hmod =>
      refine pairwise_append.mpr ⟨pairwise_epochHeights n, pairwise_singleton _ _, ?_⟩
      intro e he k hk
      obtain rfl := mem_singleton.mp hk
      obtain ⟨-, hle, he⟩ := mem_epochHeights.mp he
      exact lt_of_le_of_ne hle fun heq => hmod (heq ▸ he)

theorem filter_cachedHeights (n : Int) :
    (cachedHeights n).filter (fun k => k % 2016 = 0) = epochHeights n := by
  have hepochs : (epochHeights n).filter (fun k => k % 2016 = 0) = epochHeights n :=
    filter_eq_self.mpr fun e he => decide_eq_true (mem_epochHeights.mp he).2.2
  rw [cachedHeights, filter_append, hepochs]
  split
  · rw [filter_nil, append_nil]
  · next hmod =>
      rw [filter_cons_of_neg (by rwa [decide_eq_true_eq]), filter_nil, append_nil]

/-! ### The table of a chain -/

/-- A chain of headers, each at its own height. -/
structure EpochChain where
  header : Int → BitcoinEpochHeader
  height_eq : ∀ k, (header k).height = k

namespace EpochChain

def bits (chain : EpochChain) (k : Int) : UInt32 := (chain.header k).bits

def time (chain : EpochChain) (k : Int) : Int := (chain.header k).blockTime

/-- The headers that a cache with horizon `n` holds. -/
def cached (chain : EpochChain) (n : Int) : List BitcoinEpochHeader :=
  (cachedHeights n).map chain.header

/-- The greatest time in the cache with horizon `n`. -/
def observedTime (chain : EpochChain) (n : Int) : Int :=
  (chain.cached n).foldl (fun t header => max t header.blockTime) (chain.time n)

/-- The table of the cache with horizon `n` and the stored horizon time. -/
def tableOf (chain : EpochChain) (n cachedHorizonTime : Int) : NbitsTable :=
  .ofEpochRows (daaEpochStart n) n (max cachedHorizonTime (chain.observedTime n))
    ((epochHeights n).map chain.header)

theorem filter_cached (chain : EpochChain) (n : Int) :
    (chain.cached n).filter (fun header => header.height % 2016 = 0) =
      (epochHeights n).map chain.header := by
  rw [cached, List.filter_map, ← filter_cachedHeights]
  simp only [Function.comp_def, chain.height_eq]

end EpochChain

theorem ascending_eq_true {headers : List BitcoinEpochHeader} :
    ascending headers = true ↔ headers.IsChain fun a b => a.height < b.height := by
  fun_induction ascending headers with
  | case1 a b rest ih => rw [Bool.and_eq_true, ih, decide_eq_true_eq, isChain_cons_cons]
  | case2 headers h =>
    rcases headers with _ | ⟨a, _ | ⟨b, rest⟩⟩
    · simp
    · simp
    · exact absurd rfl (h a b rest)

theorem ensureContiguous_eq_ok {headers : List BitcoinEpochHeader} :
    ensureContiguous headers = .ok () ↔ headers.IsChain fun a b => b.height = a.height + 2016 := by
  fun_induction ensureContiguous headers with
  | case1 a b rest ih =>
    rw [bind_eq_ok, isChain_cons_cons, ← ih]
    simp
  | case2 headers h =>
    rcases headers with _ | ⟨a, _ | ⟨b, rest⟩⟩
    · simp
    · simp
    · exact absurd rfl (h a b rest)

theorem fromBitcoinCoreHeaders_cached (chain : EpochChain) {n : Int} (hn : 0 ≤ n)
    (cachedHorizonTime : Int) :
    NbitsTable.fromBitcoinCoreHeadersWithHorizonTime (chain.cached n) cachedHorizonTime =
      .ok (chain.tableOf n cachedHorizonTime) := by
  have hlast : (chain.cached n).getLast? = some (chain.header n) := by
    rw [EpochChain.cached, getLast?_map, getLast?_cachedHeights hn, map_some]
  have hascending : ascending (chain.cached n) = true := by
    rw [ascending_eq_true, EpochChain.cached, isChain_map]
    simp only [chain.height_eq]
    exact (pairwise_cachedHeights n).isChain
  have hfirst : ((epochHeights n).map chain.header).head? = some (chain.header 0) := by
    rw [head?_map, head?_epochHeights hn, map_some]
  have hcontiguous : ensureContiguous ((epochHeights n).map chain.header) = .ok () := by
    rw [ensureContiguous_eq_ok, isChain_map]
    simp only [chain.height_eq]
    exact isChain_epochHeights n
  have hlastEpoch : ((epochHeights n).map chain.header).getLast? =
      some (chain.header (daaEpochStart n)) := by
    rw [getLast?_map, getLast?_epochHeights hn, map_some]
  rw [NbitsTable.fromBitcoinCoreHeadersWithHorizonTime, chain.filter_cached]
  refine bind_eq_ok.mpr ⟨_, required_eq_ok.mpr hlast, ?_⟩
  refine bind_eq_ok.mpr ⟨(), ensure_eq_ok.mpr hascending, ?_⟩
  refine bind_eq_ok.mpr ⟨_, required_eq_ok.mpr hfirst, ?_⟩
  refine bind_eq_ok.mpr ⟨(), ensure_eq_ok.mpr (chain.height_eq 0), ?_⟩
  refine bind_eq_ok.mpr ⟨(), hcontiguous, ?_⟩
  refine bind_eq_ok.mpr ⟨_, required_eq_ok.mpr hlastEpoch, ?_⟩
  simp only [chain.height_eq]
  refine bind_eq_ok.mpr ⟨(), ensure_eq_ok.mpr (daaEpochStart_le n), ?_⟩
  exact bind_eq_ok.mpr ⟨(), ensure_eq_ok.mpr (lt_daaEpochStart n), rfl⟩

/-! ### The lookups -/

namespace EpochChain

variable (chain : EpochChain) {n cachedHorizonTime : Int}

theorem lookup_byEpoch (e : Int) :
    (chain.tableOf n cachedHorizonTime).byEpoch.lookup e =
      if e ∈ epochHeights n then some (chain.bits e) else none := by
  rw [tableOf, NbitsTable.ofEpochRows, List.map_map]
  simp only [Function.comp_def, chain.height_eq]
  exact lookup_map_mk _

theorem mem_epochsByTime {s e : Int} :
    (s, e) ∈ (chain.tableOf n cachedHorizonTime).epochsByTime ↔
      e ∈ epochHeights n ∧ s = chain.time e := by
  rw [tableOf, NbitsTable.ofEpochRows, mem_orderByKey, List.map_map, List.mem_map]
  simp only [Function.comp_def, chain.height_eq, Prod.mk.injEq]
  constructor
  · rintro ⟨e', he', rfl, rfl⟩
    exact ⟨he', rfl⟩
  · rintro ⟨he, rfl⟩
    exact ⟨e, he, rfl, rfl⟩

/-- A height is found through the boundary of its epoch, up to the end of the horizon's epoch. -/
theorem expectedNbits_tableOf {h : Int} (hpos : 0 ≤ h) :
    (chain.tableOf n cachedHorizonTime).expectedNbits h =
      if h < daaEpochStart n + 2016 then .found (chain.bits (daaEpochStart h)) else .aboveTable := by
  rw [NbitsTable.expectedNbits, if_neg (by omega)]
  have hmax : (chain.tableOf n cachedHorizonTime).heightCoverageMax = daaEpochStart n + 2016 - 1 :=
    rfl
  by_cases hlt : h < daaEpochStart n + 2016
  · have hmem : daaEpochStart h ∈ epochHeights n := by
      refine daaEpochStart_mem_epochHeights hpos (le_trans ?_ (daaEpochStart_le n))
      rw [daaEpochStart, daaEpochStart] at *
      omega
    rw [if_pos hlt, hmax, if_neg (by omega), lookup_byEpoch, if_pos hmem]
    rfl
  · rw [if_neg hlt, hmax, if_pos (by omega)]

end EpochChain

namespace NbitsTable

variable {table : NbitsTable} {t e : Int}

theorem expectedNbits_of_neg {h : Int} (hneg : h < 0) :
    table.expectedNbits h = .belowTable := by
  rw [expectedNbits, if_pos hneg]

theorem epochHeightForTime_eq_some :
    table.epochHeightForTime t = some e ↔ t ≤ table.horizonTime ∧
      ∃ s, (s, e) ∈ table.epochsByTime ∧ s ≤ t ∧
        ∀ b ∈ table.epochsByTime, b.1 ≤ t → LexLe b (s, e) := by
  simp only [epochHeightForTime, ← partitionPoint_eq_zero_iff_head]
  constructor
  · intro h
    split at h
    · cases h
    · next hcond =>
        push Not at hcond
        obtain ⟨⟨s, e'⟩, hrow, rfl⟩ := map_eq_some_iff.mp h
        exact ⟨hcond.1, s, (getElem?_partitionPoint table.sorted hcond.2).mp hrow⟩
  · rintro ⟨ht, s, hmem, hs, hmax⟩
    have hpos : partitionPoint table.epochsByTime t ≠ 0 := by
      intro hzero
      exact absurd hs (not_le.mpr ((partitionPoint_eq_zero table.sorted).mp hzero _ hmem))
    rw [if_neg (not_or.mpr ⟨not_lt.mpr ht, hpos⟩)]
    simp only [(getElem?_partitionPoint table.sorted hpos).mpr ⟨hmem, hs, hmax⟩, map_some]

theorem epochHeightForTime_eq_none :
    table.epochHeightForTime t = none ↔
      table.horizonTime < t ∨ ∀ b ∈ table.epochsByTime, t < b.1 := by
  simp only [epochHeightForTime, ← partitionPoint_eq_zero_iff_head]
  rw [← partitionPoint_eq_zero table.sorted]
  split
  · next hcond => simp [hcond]
  · next hcond =>
      rw [iff_false_right hcond, map_eq_none_iff, getElem?_eq_none_iff]
      have hle : partitionPoint table.epochsByTime t ≤ table.epochsByTime.length :=
        (List.takeWhile_prefix _).length_le
      push Not at hcond
      omega

theorem classifyNbitsByTime_of_some {bits : UInt32} (h : table.epochHeightForTime t = some e) :
    (table.classifyNbitsByTime t bits = .match ∧
      ∃ e' ∈ [e - 2016, e, e + 2016], table.byEpoch.lookup e' = some bits) ∨
    (table.classifyNbitsByTime t bits = .nonBtcEpochBits ∧
      ∀ e' ∈ [e - 2016, e, e + 2016], table.byEpoch.lookup e' ≠ some bits) := by
  have ht := (epochHeightForTime_eq_some.mp h).1
  rw [classifyNbitsByTime, if_neg (not_lt.mpr ht), h]
  have hany : (([e - 2016, e, e + 2016].filterMap fun height => table.byEpoch.lookup height).any
      (bits = ·)) = true ↔ ∃ e' ∈ [e - 2016, e, e + 2016], table.byEpoch.lookup e' = some bits := by
    simp only [List.any_eq_true, List.mem_filterMap, decide_eq_true_eq]
    constructor
    · rintro ⟨_, ⟨e', he', hbits⟩, rfl⟩
      exact ⟨e', he', hbits⟩
    · rintro ⟨e', he', hbits⟩
      exact ⟨bits, ⟨e', he', hbits⟩, rfl⟩
  simp only
  split
  · next hbits => exact .inl ⟨rfl, hany.mp hbits⟩
  · next hbits => exact .inr ⟨rfl, fun e' he' hlookup => hbits (hany.mpr ⟨e', he', hlookup⟩)⟩

end NbitsTable

namespace EpochChain

variable (chain : EpochChain) {n cachedHorizonTime : Int}

theorem epochHeightForTime_tableOf {t e : Int} :
    (chain.tableOf n cachedHorizonTime).epochHeightForTime t = some e ↔
      t ≤ (chain.tableOf n cachedHorizonTime).horizonTime ∧ e ∈ epochHeights n ∧
      chain.time e ≤ t ∧
      ∀ e' ∈ epochHeights n, chain.time e' ≤ t → LexLe (chain.time e', e') (chain.time e, e) := by
  rw [NbitsTable.epochHeightForTime_eq_some]
  simp only [Prod.forall, mem_epochsByTime]
  constructor
  · rintro ⟨ht, s, ⟨he, rfl⟩, hs, hmax⟩
    exact ⟨ht, he, hs, fun e' he' hs' => hmax _ e' ⟨he', rfl⟩ hs'⟩
  · rintro ⟨ht, he, hs, hmax⟩
    refine ⟨ht, _, ⟨he, rfl⟩, hs, ?_⟩
    rintro s e' ⟨he', rfl⟩ hs'
    exact hmax e' he' hs'

/-- A time within the cache selects an epoch, unless every epoch started later. -/
theorem exists_epochHeightForTime {t e : Int} (he : e ∈ epochHeights n) (hle : chain.time e ≤ t)
    (ht : t ≤ (chain.tableOf n cachedHorizonTime).horizonTime) :
    ∃ e', (chain.tableOf n cachedHorizonTime).epochHeightForTime t = some e' := by
  refine ne_none_iff_exists'.mp fun hnone => ?_
  rcases NbitsTable.epochHeightForTime_eq_none.mp hnone with hlt | hall
  · exact absurd ht (not_le.mpr hlt)
  · exact absurd hle (not_le.mpr (hall _ (chain.mem_epochsByTime.mpr ⟨he, rfl⟩)))

theorem lookup_byEpoch_eq_some {e : Int} {bits : UInt32} :
    (chain.tableOf n cachedHorizonTime).byEpoch.lookup e = some bits ↔
      e ∈ epochHeights n ∧ chain.bits e = bits := by
  rw [lookup_byEpoch]
  split
  · next he => simp [he]
  · next he => simp [he]

end EpochChain

end MergeMiningMonitor
