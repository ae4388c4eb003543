import MergeMiningMonitor.Support.FixedWidth
import MergeMiningMonitor.Lineage.NbitsTable

/-!
# Lineage — Verdict

Whether a parent header belongs to Bitcoin (`lineage.rs`).  The rule looks for the height of the
header: from its prev, from the height in its coinbase, or else from its time; and compares the
header's bits with those that Bitcoin has there.

For a block of the chain that the table was built from, the rule errs in two places, both for a
header whose height is not given.  One of them is how the rule is meant: a header newer than the
cache is held against the horizon's epoch.  Away from the other, a block is refused exactly there
(`genuine_block_refused_iff`).
-/

namespace MergeMiningMonitor

open Fallible FixedWidth Ordered List Option

/-- `ParentLineageInput`.  A header that misses its own target is a share. -/
structure ParentLineageInput where
  bits : UInt32
  time : Int
  meetsOwnTarget : Bool
  prevHeight : Option Int
  strictHeight : Option Int

inductive LineageEvidence
  | placedPrev
  | strictHeight
  | epochTime
  | currentEpoch
deriving DecidableEq

inductive Lineage
  | bitcoin (evidence : LineageEvidence)
  | notBitcoin (reason : String)
  | pending (reason : String)
deriving DecidableEq

section Rule

variable (input : ParentLineageInput) (table : NbitsTable)

def previousEpochBits (height : Int) : Option UInt32 :=
  match table.expectedNbits (daaEpochStart height - 1) with
  | .found bits => some bits
  | .belowTable | .aboveTable => none

def aboveHorizonLineage (bits : UInt32) (isShare : Bool) : Lineage :=
  let horizon := table.horizonHeight
  if table.expectedNbits horizon = .found bits ∨
      (isShare ∧ previousEpochBits table horizon = some bits) then .bitcoin .currentEpoch
  else if daaEpochStart horizon + 2016 - horizon ≤ 6 then .pending "next_epoch_not_cached"
  else .notBitcoin "non_btc_current_epoch_bits"

/-- The verdict on a header with a known prev. -/
def placedPrevLineage (prevHeight : Int) : Lineage :=
  if input.meetsOwnTarget = false then .bitcoin .placedPrev
  else
    match table.expectedNbits (wrapI32 (prevHeight + 1)) with
    | .found expected =>
      if expected = input.bits then .bitcoin .placedPrev
      else .notBitcoin "placed_prev_nbits_mismatch"
    | .aboveTable => .pending "next_epoch_not_cached"
    | .belowTable => .notBitcoin "prev_below_table"

/-- A coinbase height counts above the horizon time, and in the epoch that the time selects. -/
def consistentHeight (height : Int) : Bool :=
  table.horizonTime < input.time ||
    (table.epochHeightForTime input.time).any fun epoch => epoch ≤ height && height < epoch + 2016

/-- The verdict on a header with a coinbase height, unless it is left to the time rule. -/
def strictHeightLineage (height : Int) : Option Lineage :=
  if consistentHeight input table height then
    match table.expectedNbits height with
    | .found expected =>
      if expected = input.bits ∨
          (input.meetsOwnTarget = false ∧ previousEpochBits table height = some input.bits) then
        some (.bitcoin .strictHeight)
      else some (.notBitcoin "strict_height_nbits_mismatch")
    | .aboveTable =>
      if table.horizonHeight + 144 < height then some (.notBitcoin "strict_height_far_future")
      else some (.pending "next_epoch_not_cached")
    | .belowTable => none
  else none

/-- The verdict by the header's time. -/
def timeLineage : Lineage :=
  match table.classifyNbitsByTime input.time input.bits with
  | .match => .bitcoin .epochTime
  | .nonBtcEpochBits => .notBitcoin "non_btc_epoch_bits"
  | .belowFloor => .notBitcoin "time_below_table"
  | .aboveHorizon => aboveHorizonLineage table input.bits (!input.meetsOwnTarget)

def bitcoinLineage : Lineage :=
  match input.prevHeight with
  | some prevHeight => placedPrevLineage input table prevHeight
  | none => (input.strictHeight.bind (strictHeightLineage input table)).getD (timeLineage input table)

end Rule

/-- The header is not Bitcoin's. -/
def Lineage.Refused (l : Lineage) : Prop := ∃ reason, l = .notBitcoin reason

@[simp] theorem Lineage.refused_notBitcoin (reason : String) :
    (Lineage.notBitcoin reason).Refused :=
  ⟨reason, rfl⟩

@[simp] theorem Lineage.not_refused_bitcoin (e : LineageEvidence) :
    ¬ (Lineage.bitcoin e).Refused := by
  rintro ⟨_, h⟩
  cases h

@[simp] theorem Lineage.not_refused_pending (reason : String) :
    ¬ (Lineage.pending reason).Refused := by
  rintro ⟨_, h⟩
  cases h

/-! ### Blocks of the chain -/

/-- The blocks of an epoch all carry the bits of its boundary. -/
def EpochChain.EpochBits (chain : EpochChain) : Prop :=
  ∀ k, 0 ≤ k → chain.bits k = chain.bits (daaEpochStart k)

/-- The header of a block at height `h`, a little above the horizon `n` at most. -/
structure IsBlockAt (chain : EpochChain) (n h : Int) (input : ParentLineageInput) : Prop where
  pos : 1 ≤ h
  le : h ≤ n + 6
  range : InI32 h
  bits : input.bits = chain.bits h
  block : input.meetsOwnTarget = true

variable {chain : EpochChain} {n h horizonTime : Int} {input : ParentLineageInput}

theorem expectedNbits_self (hchain : chain.EpochBits) (hpos : 0 ≤ h) :
    (chain.tableOf n horizonTime).expectedNbits h =
      if h < daaEpochStart n + 2016 then .found (chain.bits h) else .aboveTable := by
  rw [chain.expectedNbits_tableOf hpos, hchain h hpos]

section Genuine

variable (hchain : chain.EpochBits) (hblock : IsBlockAt chain n h input)
include hchain hblock

theorem placedPrev_not_refused :
    ¬ (placedPrevLineage input (chain.tableOf n horizonTime) (h - 1)).Refused := by
  have hpos := hblock.pos
  rw [placedPrevLineage, if_neg (by simp [hblock.block]), sub_add_cancel,
    wrapI32_eq_self hblock.range, expectedNbits_self hchain (by omega)]
  split
  · next expected hfound =>
      split at hfound
      · rw [if_pos (hblock.bits ▸ (NbitsLookup.found.inj hfound).symm)]
        simp
      · cases hfound
  · simp
  · next hbelow => split at hbelow <;> cases hbelow

theorem strictHeight_not_refused {l : Lineage}
    (hl : strictHeightLineage input (chain.tableOf n horizonTime) h = some l) :
    ¬ l.Refused := by
  have hpos := hblock.pos
  have hle := hblock.le
  rw [strictHeightLineage, expectedNbits_self hchain (by omega)] at hl
  split at hl
  · by_cases hcovered : h < daaEpochStart n + 2016
    · rw [if_pos hcovered] at hl
      simp only [hblock.bits, true_or, if_true, Option.some.injEq] at hl
      simp [← hl]
    · rw [if_neg hcovered] at hl
      have hnear : ¬ (chain.tableOf n horizonTime).horizonHeight + 144 < h := by
        change ¬ n + 144 < h
        omega
      simp only [if_neg hnear, Option.some.injEq] at hl
      simp [← hl]
  · cases hl

theorem strictHeight_isSome
    (htime : (chain.tableOf n horizonTime).horizonTime < input.time) :
    ∃ l, strictHeightLineage input (chain.tableOf n horizonTime) h = some l := by
  have hpos := hblock.pos
  rw [strictHeightLineage, consistentHeight, expectedNbits_self hchain (by omega)]
  simp only [htime, decide_true, Bool.true_or, if_true]
  by_cases hcovered : h < daaEpochStart n + 2016
  · simp only [if_pos hcovered]
    split <;> exact ⟨_, rfl⟩
  · simp only [if_neg hcovered]
    split <;> exact ⟨_, rfl⟩

/-- Within the horizon time, a block is recognised by the epoch of its time, when its own epoch is
cached or has the bits of one of the last two that are. -/
theorem timeLineage_of_le
    (htime : input.time ≤ (chain.tableOf n horizonTime).horizonTime)
    (hfirst : ∃ e ∈ epochHeights n, chain.time e ≤ input.time)
    (hnear : ∀ e, (chain.tableOf n horizonTime).epochHeightForTime input.time = some e →
      e - 2016 ≤ daaEpochStart h ∧ daaEpochStart h ≤ e + 2016)
    (hbits : daaEpochStart n + 2016 ≤ h →
      ∃ e ∈ epochHeights n, daaEpochStart n - 2016 ≤ e ∧ chain.bits e = input.bits) :
    timeLineage input (chain.tableOf n horizonTime) = .bitcoin .epochTime := by
  obtain ⟨e₀, he₀, hle₀⟩ := hfirst
  obtain ⟨e, he⟩ := chain.exists_epochHeightForTime he₀ hle₀ htime
  obtain ⟨hlow, hhigh⟩ := hnear e he
  obtain ⟨-, hmem, -⟩ := chain.epochHeightForTime_tableOf.mp he
  obtain ⟨-, hen, hemod⟩ := mem_epochHeights.mp hmem
  have hpos := hblock.pos
  have hmatch : ∃ e' ∈ [e - 2016, e, e + 2016],
      (chain.tableOf n horizonTime).byEpoch.lookup e' = some input.bits := by
    simp only [chain.lookup_byEpoch_eq_some]
    rw [daaEpochStart] at hlow hhigh
    by_cases hcovered : h < daaEpochStart n + 2016
    · -- the block's own epoch is cached
      have hown : daaEpochStart h ≤ n := by
        rw [daaEpochStart] at hcovered ⊢
        omega
      refine ⟨daaEpochStart h, ?_, daaEpochStart_mem_epochHeights (by omega) hown, ?_⟩
      · simp only [mem_cons, not_mem_nil, or_false]
        rw [daaEpochStart]
        omega
      · rw [hblock.bits, hchain h (by omega)]
    · -- the time selects the last cached epoch
      obtain ⟨e', he', hlow', hbits'⟩ := hbits (by omega)
      obtain ⟨-, hen', hemod'⟩ := mem_epochHeights.mp he'
      refine ⟨e', ?_, he', hbits'⟩
      simp only [mem_cons, not_mem_nil, or_false]
      rw [daaEpochStart] at hcovered hlow'
      omega
  rw [timeLineage]
  rcases NbitsTable.classifyNbitsByTime_of_some he with ⟨hclass, -⟩ | ⟨-, hnone⟩
  · rw [hclass]
  · obtain ⟨e', he', hlookup⟩ := hmatch
    exact absurd hlookup (hnone e' he')

/-- Above the horizon time, a block is held against the horizon's epoch. -/
theorem timeLineage_of_gt (hn : 0 ≤ n)
    (htime : (chain.tableOf n horizonTime).horizonTime < input.time) :
    (timeLineage input (chain.tableOf n horizonTime)).Refused ↔
      chain.bits h ≠ chain.bits n ∧ 6 < daaEpochStart n + 2016 - n := by
  have hlookup : (chain.tableOf n horizonTime).expectedNbits n = .found (chain.bits n) := by
    rw [expectedNbits_self hchain hn, if_pos (lt_daaEpochStart n)]
  have hhorizon : (chain.tableOf n horizonTime).horizonHeight = n := rfl
  rw [timeLineage, NbitsTable.classifyNbitsByTime, if_pos htime]
  simp only [aboveHorizonLineage, hhorizon, hlookup, hblock.block, hblock.bits, Bool.not_true,
    Bool.false_eq_true, false_and, or_false, NbitsLookup.found.injEq]
  by_cases hbits : chain.bits n = chain.bits h
  · simp [hbits]
  · rw [if_neg hbits]
    by_cases hretarget : daaEpochStart n + 2016 - n ≤ 6
    · rw [if_pos hretarget]
      simp only [Lineage.not_refused_pending, false_iff, not_and, not_lt]
      exact fun _ => hretarget
    · rw [if_neg hretarget]
      simp only [Lineage.refused_notBitcoin, true_iff]
      exact ⟨Ne.symm hbits, not_le.mp hretarget⟩

end Genuine

/-- **A block is refused only above the horizon time.**  Take a chain whose epochs carry their own bits,
the table of its cache up to a horizon, and the header of a block at most six heights above it, with
its prev height and its coinbase height given or not, whose time selects its own epoch or a
neighbour.  It is refused exactly when neither height is given, its time is above the horizon time,
its bits are not the horizon's, and the next retarget is more than six blocks above the horizon.

Left out are headers without a prev height, within the horizon time, of an epoch that is not cached
and that has the bits of neither of the last two cached epochs. -/
theorem genuine_block_refused_iff {table : NbitsTable} (hchain : chain.EpochBits) (hn : 0 ≤ n)
    (htable : NbitsTable.fromBitcoinCoreHeadersWithHorizonTime (chain.cached n) horizonTime =
      .ok table)
    (hblock : IsBlockAt chain n h input)
    (hprev : input.prevHeight = some (h - 1) ∨ input.prevHeight = none)
    (hstrict : input.strictHeight = some h ∨ input.strictHeight = none)
    (hfirst : ∃ e ∈ epochHeights n, chain.time e ≤ input.time)
    (hnear : ∀ e, table.epochHeightForTime input.time = some e →
      e - 2016 ≤ daaEpochStart h ∧ daaEpochStart h ≤ e + 2016)
    (hcached : ¬ (input.prevHeight = none ∧ input.time ≤ table.horizonTime ∧
      daaEpochStart n + 2016 ≤ h ∧
      ∀ e ∈ epochHeights n, daaEpochStart n - 2016 ≤ e → chain.bits e ≠ input.bits)) :
    (∃ reason, bitcoinLineage input table = .notBitcoin reason) ↔
      input.prevHeight = none ∧ input.strictHeight = none ∧ table.horizonTime < input.time ∧
      chain.bits h ≠ chain.bits n ∧ 6 < daaEpochStart n + 2016 - n := by
  obtain rfl : chain.tableOf n horizonTime = table :=
    Except.ok.inj ((fromBitcoinCoreHeaders_cached chain hn horizonTime).symm.trans htable)
  change (bitcoinLineage input _).Refused ↔ _
  rw [bitcoinLineage]
  rcases hprev with hprev | hprev
  · simp only [hprev, placedPrev_not_refused hchain hblock, reduceCtorEq, false_and]
  · simp only [hprev, true_and] at hcached ⊢
    rcases le_or_gt input.time (chain.tableOf n horizonTime).horizonTime with htime | htime
    · have hrule := timeLineage_of_le hchain hblock htime hfirst hnear fun hh => by
        by_contra hnone
        push Not at hnone
        exact hcached ⟨htime, hh, hnone⟩
      have hnot : ¬ (chain.tableOf n horizonTime).horizonTime < input.time := not_lt.mpr htime
      simp only [hnot, false_and, and_false, iff_false]
      rcases hstrict with hstrict | hstrict
      · rw [hstrict, bind_some]
        rcases hl : strictHeightLineage input (chain.tableOf n horizonTime) h with _ | l
        · simp [hrule]
        · exact strictHeight_not_refused hchain hblock hl
      · simp [hstrict, hrule]
    · rcases hstrict with hstrict | hstrict
      · obtain ⟨l, hl⟩ := strictHeight_isSome hchain hblock htime
        simp only [hstrict, bind_some, hl, getD_some, reduceCtorEq, false_and,
          strictHeight_not_refused hchain hblock hl]
      · simp only [hstrict, bind_none, getD_none, htime, true_and,
          timeLineage_of_gt hchain hblock hn htime]

section TwoEpochs

/-- A chain with one retarget.  Its boundaries have time `0`, its other blocks time `100`. -/
def oneRetarget : EpochChain where
  header k := ⟨k, if k % 2016 = 0 then 0 else 100, if k < 2016 then 1 else 2⟩
  height_eq _ := rfl

theorem epochBits_oneRetarget : oneRetarget.EpochBits := by
  intro k hk
  change (if k < 2016 then (1 : UInt32) else 2) = if daaEpochStart k < 2016 then 1 else 2
  have hiff : k < 2016 ↔ daaEpochStart k < 2016 := by
    rw [daaEpochStart]
    omega
  simp only [hiff]

/-- The first block after the retarget, known by nothing but its header. -/
def afterRetarget : ParentLineageInput := ⟨2, 50, true, none, none⟩

/-- The last block before the retarget, known by nothing but its header. -/
def beforeRetarget : ParentLineageInput := ⟨1, 200, true, none, none⟩

/-- A block can be refused.  With the horizon just below the retarget, the block after it is, when its
time is not above the horizon's; with the horizon past the retarget, the block before it is, when its
time is. -/
theorem genuine_blocks_refused :
    oneRetarget.EpochBits ∧
    (∃ table, NbitsTable.fromBitcoinCoreHeadersWithHorizonTime (oneRetarget.cached 2015) 0 =
        .ok table ∧
      IsBlockAt oneRetarget 2015 2016 afterRetarget ∧
      (∃ e ∈ epochHeights 2015, oneRetarget.time e ≤ afterRetarget.time) ∧
      table.epochHeightForTime afterRetarget.time = some 0 ∧
      bitcoinLineage afterRetarget table = .notBitcoin "non_btc_epoch_bits") ∧
    ∃ table, NbitsTable.fromBitcoinCoreHeadersWithHorizonTime (oneRetarget.cached 2026) 0 =
        .ok table ∧
      IsBlockAt oneRetarget 2026 2015 beforeRetarget ∧
      (∃ e ∈ epochHeights 2026, oneRetarget.time e ≤ beforeRetarget.time) ∧
      table.epochHeightForTime beforeRetarget.time = none ∧
      bitcoinLineage beforeRetarget table = .notBitcoin "non_btc_current_epoch_bits" := by
  refine ⟨epochBits_oneRetarget, ⟨_, fromBitcoinCoreHeaders_cached _ (by decide) 0,
    ⟨by decide, by decide, by decide, rfl, rfl⟩, ⟨0, by decide, by decide⟩, by decide, by decide⟩, ⟨_,
    fromBitcoinCoreHeaders_cached _ (by decide) 0, ⟨by decide, by decide, by decide, rfl, rfl⟩,
    ⟨0, by decide, by decide⟩, by decide, by decide⟩⟩

/-- The block before the retarget, with the horizon past it. -/
theorem block_before_retarget_refused :
    ∃ reason, bitcoinLineage beforeRetarget (oneRetarget.tableOf 2026 0) = .notBitcoin reason := by
  refine (genuine_block_refused_iff (h := 2015) epochBits_oneRetarget (by decide)
    (fromBitcoinCoreHeaders_cached oneRetarget (by decide) 0) ⟨by decide, by decide, by decide, rfl, rfl⟩
    (.inr rfl) (.inr rfl) ⟨0, by decide, by decide⟩ ?_ ?_).mpr ⟨rfl, rfl, by decide, by decide,
      by decide⟩
  · have hnone : (oneRetarget.tableOf 2026 0).epochHeightForTime beforeRetarget.time = none := by
      decide
    intro e he
    rw [hnone] at he
    cases he
  · exact fun h => absurd h.2.1 (by decide)

end TwoEpochs

end MergeMiningMonitor
