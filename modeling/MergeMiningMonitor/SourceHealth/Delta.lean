import MergeMiningMonitor.SourceHealth.Contribution

/-!
# Source health — Delta

How a bracket changes the health rows.  For each source it adds up, over its parents, what a parent
contributes after the mutation less what it contributed before (`addParentDiff`,
`aggregateSourceHealthDiffs`), and applies the sum to the source's row in two statements: the counters
are added (`upsertCounters`), and the last event seen is raised, or read again from the base tables
when some parent's latest capture is gone (`setLastEventSeen`).

The statements are right when nothing but the bracket's own parents changed (`Replaces`): from the row
of the base before they make the row of the base after (`counters_of_replaces`,
`lastEventSeen_of_replaces`).
-/

namespace MergeMiningMonitor.SourceHealth

open Relational Lists List

variable {Source Hash : Type} [LinearOrder Source] [LinearOrder Hash]

/-! ### The difference of one source -/

/-- `SourceHealthDelta`; `KindDeltas` has a number for each kind. -/
structure SourceHealthDelta where
  events : ℤ
  kinds : ParentKind → ℤ
  strictOrphans : ℤ
  weakOrphans : ℤ
  maxAfterConfirmedAt : Option ℤ
  recomputeLastEventSeen : Bool

instance : Inhabited SourceHealthDelta := ⟨⟨0, 0, 0, 0, none, false⟩⟩

/-- `KindDeltas::add` -/
def addKind (kinds : ParentKind → ℤ) (kind : ParentKind) (delta : ℤ) : ParentKind → ℤ :=
  Function.update kinds kind (kinds kind + delta)

/-- Whether the latest capture of a parent may have been the last event seen and is gone. -/
def drops : Option ParentSourceContribution → Option ParentSourceContribution → Bool
  | none, _ => false
  | some _, none => true
  | some before, some after => after.maxConfirmedAt < before.maxConfirmedAt

def SourceHealthDelta.addParentDiff (d : SourceHealthDelta)
    (before after : Option ParentSourceContribution) : SourceHealthDelta :=
  let kinds := before.elim d.kinds fun c => addKind d.kinds c.currentKind (-1)
  let kinds := after.elim kinds fun c => addKind kinds c.currentKind 1
  let (beforeStrict, beforeWeak) := before.elim (0, 0) orphanBucket
  let (afterStrict, afterWeak) := after.elim (0, 0) orphanBucket
  { events := d.events + (after.elim 0 (·.activeEvents) - before.elim 0 (·.activeEvents))
    kinds := kinds
    strictOrphans := d.strictOrphans + (afterStrict - beforeStrict)
    weakOrphans := d.weakOrphans + (afterWeak - beforeWeak)
    maxAfterConfirmedAt := after.elim d.maxAfterConfirmedAt fun c =>
      some (d.maxAfterConfirmedAt.elim c.maxConfirmedAt fun current => max current c.maxConfirmedAt)
    recomputeLastEventSeen := d.recomputeLastEventSeen || drops before after }

/-- The numbers that the first statement of `apply_one_source_delta` adds. -/
def SourceHealthDelta.counters (d : SourceHealthDelta) : Counter → ℤ
  | .events => d.events
  | .parents kind => d.kinds kind
  | .strictOrphanParents => d.strictOrphans
  | .weakOrphanParents => d.weakOrphans

/-- The latest capture after the mutation, if there is one. -/
def SourceHealthDelta.latestAfter (d : SourceHealthDelta) : WithBot ℤ :=
  d.maxAfterConfirmedAt.elim ⊥ (↑)

section addParentDiff

variable (d : SourceHealthDelta) (before after : Option ParentSourceContribution)

theorem elim_addKind (c : Option ParentSourceContribution) (kinds : ParentKind → ℤ) (delta : ℤ)
    (kind : ParentKind) : (c.elim kinds fun c => addKind kinds c.currentKind delta) kind =
      kinds kind + delta * countsOf c (.parents kind) := by
  cases c with
  | none => simp [countsOf]
  | some c =>
    rw [Option.elim_some, addKind, countsOf, Option.elim_some, ParentSourceContribution.counts]
    by_cases hk : c.currentKind = kind
    · rw [hk, Function.update_self, if_pos rfl, mul_one]
    · rw [Function.update_of_ne (Ne.symm hk), if_neg hk, mul_zero, add_zero]

theorem counters_addParentDiff :
    (d.addParentDiff before after).counters = d.counters + (countsOf after - countsOf before) := by
  funext counter
  rcases counter with _ | kind | _ | _
  · cases before <;> cases after <;> rfl
  · have hbefore := elim_addKind before d.kinds (-1) kind
    have hafter := elim_addKind after
      (before.elim d.kinds fun c => addKind d.kinds c.currentKind (-1)) 1 kind
    refine (hafter.trans (by rw [hbefore])).trans ?_
    rw [Pi.add_apply, Pi.sub_apply, SourceHealthDelta.counters]
    omega
  · cases before <;> cases after <;> rfl
  · cases before <;> cases after <;> rfl

theorem latestAfter_addParentDiff :
    (d.addParentDiff before after).latestAfter = max d.latestAfter (latestOf after) := by
  cases after with
  | none => exact (max_bot_right _).symm
  | some c =>
    rw [SourceHealthDelta.latestAfter, SourceHealthDelta.latestAfter,
      SourceHealthDelta.addParentDiff]
    cases d.maxAfterConfirmedAt with
    | none => exact (max_bot_left _).symm
    | some x => exact WithBot.coe_max _ _

theorem recompute_addParentDiff : (d.addParentDiff before after).recomputeLastEventSeen =
    (d.recomputeLastEventSeen || drops before after) := rfl

theorem addParentDiff_none : d.addParentDiff none none = d := by
  simp [SourceHealthDelta.addParentDiff, drops]

end addParentDiff

/-! ### The differences of a bracket -/

/-- The map of a bracket's differences: its keys, and for each the difference; that of any other
source is the default. -/
structure DeltaMap (Source : Type) where
  keys : List Source
  delta : Source → SourceHealthDelta

/-- `per_source.entry(source_id).or_default()` -/
def DeltaMap.modify (m : DeltaMap Source) (s : Source)
    (f : SourceHealthDelta → SourceHealthDelta) : DeltaMap Source where
  keys := s :: m.keys
  delta := Function.update m.delta s (f (m.delta s))

/-- The sources that a parent contributes to before or after. -/
def changedSources (before after : ParentContribution Source) : List Source :=
  sortedDistinct (before.perSource.map (·.1) ++ after.perSource.map (·.1))

/-- The loop over the sources of one parent. -/
def DeltaMap.addParent (m : DeltaMap Source) (before after : ParentContribution Source) :
    DeltaMap Source :=
  (changedSources before after).foldl
    (fun m s => m.modify s
      (·.addParentDiff (before.perSource.lookup s) (after.perSource.lookup s))) m

def aggregateSourceHealthDiffs (diffs : List (ParentContribution Source × ParentContribution Source)) :
    DeltaMap Source × ℤ :=
  diffs.foldl
    (fun (perSource, invalidUnknownDelta) (before, after) =>
      (perSource.addParent before after,
        invalidUnknownDelta +
          ((if after.invalidUnknown then 1 else 0) - if before.invalidUnknown then 1 else 0)))
    (⟨[], fun _ => default⟩, 0)

section aggregate

variable {s : Source} {m : DeltaMap Source}

theorem foldl_modify {sources : List Source} (f : Source → SourceHealthDelta → SourceHealthDelta)
    (hsources : sources.Nodup) :
    (∀ s, (sources.foldl (fun m s => m.modify s (f s)) m).delta s =
      if s ∈ sources then f s (m.delta s) else m.delta s) ∧
    ∀ s, s ∈ (sources.foldl (fun m s => m.modify s (f s)) m).keys ↔ s ∈ sources ∨ s ∈ m.keys := by
  induction sources generalizing m with
  | nil => exact ⟨fun s => (if_neg not_mem_nil).symm, fun s => by simp⟩
  | cons t sources ih =>
    obtain ⟨ht, hsources⟩ := nodup_cons.mp hsources
    obtain ⟨hdelta, hkeys⟩ := ih (m := m.modify t (f t)) hsources
    refine ⟨fun s => ?_, fun s => ?_⟩
    · rw [foldl_cons, hdelta]
      by_cases hs : s = t
      · rw [hs, if_neg ht, if_pos mem_cons_self]
        exact Function.update_self ..
      · have hmodify : (m.modify t (f t)).delta s = m.delta s := Function.update_of_ne hs ..
        simp [hs, hmodify]
    · rw [List.foldl_cons, hkeys, DeltaMap.modify, List.mem_cons, List.mem_cons]
      exact or_left_comm.trans (or_assoc.symm)

theorem nodup_changedSources (before after : ParentContribution Source) :
    (changedSources before after).Nodup := nodup_sortedDistinct _

/-- One parent changes the difference of every source, if only by nothing. -/
theorem delta_addParent (before after : ParentContribution Source) :
    (m.addParent before after).delta s =
      (m.delta s).addParentDiff (before.perSource.lookup s) (after.perSource.lookup s) := by
  rw [DeltaMap.addParent, (foldl_modify _ (nodup_changedSources before after)).1]
  split
  · rfl
  · next hs =>
      rw [changedSources, mem_sortedDistinct, mem_append, not_or] at hs
      rw [lookup_eq_none.mpr hs.1, lookup_eq_none.mpr hs.2, addParentDiff_none]

theorem mem_keys_addParent (before after : ParentContribution Source) :
    s ∈ (m.addParent before after).keys ↔ (before.perSource.lookup s ≠ none ∨
      after.perSource.lookup s ≠ none) ∨ s ∈ m.keys := by
  rw [DeltaMap.addParent, (foldl_modify _ (nodup_changedSources before after)).2, changedSources,
    mem_sortedDistinct, mem_append, Ne, Ne, lookup_eq_none, lookup_eq_none, not_not,
    not_not]

end aggregate

/-- The difference of a source, over the parents `hs`. -/
def deltaOf (hs : List Hash) (b b' : Base Source Hash) (s : Source) : SourceHealthDelta :=
  hs.foldl (fun d h => d.addParentDiff (contribution b h s) (contribution b' h s)) default

/-- How many more of the parents `hs` fail their target. -/
def invalidDeltaOf (hs : List Hash) (b b' : Base Source Hash) : ℤ :=
  (hs.map fun h => invalidOf b' h - invalidOf b h).sum

theorem deltaOf_concat (hs : List Hash) (h : Hash) (b b' : Base Source Hash) (s : Source) :
    deltaOf (hs ++ [h]) b b' s =
      (deltaOf hs b b' s).addParentDiff (contribution b h s) (contribution b' h s) := by
  rw [deltaOf, foldl_concat]
  rfl

/-- The snapshots of the parents before and after. -/
def snapshotDiffs (hs : List Hash) (b b' : Base Source Hash) :
    List (ParentContribution Source × ParentContribution Source) :=
  hs.map fun h => (snapshotParentContribution b h, snapshotParentContribution b' h)

/-- **What a bracket aggregates.**  The keys are the sources that a parent contributes to before or
after. -/
theorem aggregate_snapshotDiffs (hs : List Hash) (b b' : Base Source Hash) :
    (∀ s, (aggregateSourceHealthDiffs (snapshotDiffs hs b b')).1.delta s = deltaOf hs b b' s) ∧
    (∀ s, s ∈ (aggregateSourceHealthDiffs (snapshotDiffs hs b b')).1.keys ↔
      ∃ h ∈ hs, contribution b h s ≠ none ∨ contribution b' h s ≠ none) ∧
    (aggregateSourceHealthDiffs (snapshotDiffs hs b b')).2 = invalidDeltaOf hs b b' := by
  induction hs using List.reverseRecOn with
  | nil => exact ⟨fun s => rfl, fun s => by simp [snapshotDiffs, aggregateSourceHealthDiffs], rfl⟩
  | append_singleton hs h ih =>
    obtain ⟨hdelta, hkeys, hinvalid⟩ := ih
    rw [snapshotDiffs, map_append, map_singleton, aggregateSourceHealthDiffs,
      foldl_concat]
    refine ⟨fun s => ?_, fun s => ?_, ?_⟩
    · rw [deltaOf_concat, ← hdelta, ← lookup_snapshot, ← lookup_snapshot]
      exact delta_addParent ..
    · refine (mem_keys_addParent ..).trans ?_
      rw [lookup_snapshot, lookup_snapshot]
      refine (or_congr_right (hkeys s)).trans ?_
      simp only [mem_append, mem_singleton]
      constructor
      · rintro (hc | ⟨h', hh', hc⟩)
        · exact ⟨h, .inr rfl, hc⟩
        · exact ⟨h', .inl hh', hc⟩
      · rintro ⟨h', hh' | rfl, hc⟩
        · exact .inr ⟨h', hh', hc⟩
        · exact .inl hc
    · rw [invalidDeltaOf, map_append, sum_append, map_singleton, sum_singleton,
        ← invalidDeltaOf, ← hinvalid]
      rfl

/-! ### What the difference tells -/

section deltaOf

variable (hs : List Hash) (b b' : Base Source Hash) (s : Source)

theorem counters_deltaOf : (deltaOf hs b b' s).counters =
    (hs.map fun h => countsOf (contribution b' h s) - countsOf (contribution b h s)).sum := by
  induction hs using List.reverseRecOn with
  | nil =>
    funext counter
    cases counter <;> rfl
  | append_singleton hs h ih =>
    rw [deltaOf_concat, counters_addParentDiff, ih, map_append, sum_append,
      map_singleton, sum_singleton]

theorem latestAfter_deltaOf : (deltaOf hs b b' s).latestAfter =
    hs.toFinset.sup fun h => latestOf (contribution b' h s) := by
  induction hs using List.reverseRecOn with
  | nil => rfl
  | append_singleton hs h ih =>
    rw [deltaOf_concat, latestAfter_addParentDiff, ih, toFinset_append, Finset.sup_union]
    simp

theorem not_drops_of_deltaOf (hd : (deltaOf hs b b' s).recomputeLastEventSeen = false) :
    ∀ h ∈ hs, drops (contribution b h s) (contribution b' h s) = false := by
  induction hs using List.reverseRecOn with
  | nil => exact fun h hh => absurd hh not_mem_nil
  | append_singleton hs h ih =>
    rw [deltaOf_concat, recompute_addParentDiff, Bool.or_eq_false_iff] at hd
    intro h' hh'
    rcases mem_append.mp hh' with hh' | hh'
    · exact ih hd.1 h' hh'
    · rw [mem_singleton.mp hh']
      exact hd.2

end deltaOf

theorem latestOf_le_of_not_drops {before after : Option ParentSourceContribution}
    (h : drops before after = false) : latestOf before ≤ latestOf after := by
  cases before with
  | none => exact bot_le
  | some c =>
    cases after with
    | none => cases h
    | some c' => exact WithBot.coe_le_coe.mpr (not_lt.mp (of_decide_eq_false h))

/-! ### The statements of a bracket -/

/-- The first statement of `apply_one_source_delta`: the row is inserted, or the counters are added. -/
def upsertCounters (row : Option HealthRow) (d : SourceHealthDelta) : HealthRow :=
  match row with
  | none => ⟨d.counters, ⊥⟩
  | some row => { row with counters := row.counters + d.counters }

/-- The second statement: the last event seen is read again from the base tables, or is raised to the
latest capture. -/
def setLastEventSeen (b : Base Source Hash) (s : Source) (d : SourceHealthDelta) (row : HealthRow) :
    HealthRow :=
  if d.recomputeLastEventSeen then { row with lastEventSeen := b.computedLastEventSeen s }
  else
    match d.maxAfterConfirmedAt with
    | some x => { row with lastEventSeen := ((max (row.lastEventSeen.unbotD x) x : ℤ) : WithBot ℤ) }
    | none => row

theorem upsertCounters_eq (row : Option HealthRow) (d : SourceHealthDelta) :
    upsertCounters row d =
      ⟨(row.getD .zero).counters + d.counters, (row.getD .zero).lastEventSeen⟩ := by
  cases row with
  | none => exact HealthRow.ext (zero_add _).symm rfl
  | some row => rfl

omit [LinearOrder Hash] in
@[simp] theorem counters_setLastEventSeen (b : Base Source Hash) (s : Source) (d : SourceHealthDelta)
    (row : HealthRow) : (setLastEventSeen b s d row).counters = row.counters := by
  rw [setLastEventSeen]
  split
  · rfl
  · split <;> rfl

theorem coe_max_unbotD (last : WithBot ℤ) (x : ℤ) :
    ((max (last.unbotD x) x : ℤ) : WithBot ℤ) = max last x := by
  cases last with
  | bot => simp
  | coe y => rfl

omit [LinearOrder Hash] in
theorem lastEventSeen_of_not_recompute (b : Base Source Hash) (s : Source) {d : SourceHealthDelta}
    (row : HealthRow) (hd : d.recomputeLastEventSeen = false) :
    (setLastEventSeen b s d row).lastEventSeen = max row.lastEventSeen d.latestAfter := by
  rw [setLastEventSeen, hd, SourceHealthDelta.latestAfter]
  cases d.maxAfterConfirmedAt with
  | none => exact (max_bot_right _).symm
  | some x => exact coe_max_unbotD _ x

/-- Only the rows of the parents `hs` differ. -/
structure Replaces (hs : List Hash) (b b' : Base Source Hash) : Prop where
  nodup : hs.Nodup
  same : ∀ h, h ∉ hs → SameAt b b' h

section Replaces

variable {hs : List Hash} {b b' : Base Source Hash} {s : Source}

omit [LinearOrder Source] in
theorem exists_cover (hs : List Hash) (b b' : Base Source Hash) :
    ∃ P : Finset Hash, Covers P b ∧ Covers P b' ∧ ∀ h ∈ hs, h ∈ P := by
  refine ⟨b.parents ∪ b'.parents ∪ hs.toFinset, covers_of_subset ?_, covers_of_subset ?_, ?_⟩
  · exact Finset.subset_union_left.trans Finset.subset_union_left
  · exact Finset.subset_union_right.trans Finset.subset_union_left
  · exact fun h hh => Finset.mem_union_right _ (mem_toFinset.mpr hh)

variable (hr : Replaces hs b b')
include hr

/-- **The counters of the base after are those of the base before and the difference.** -/
theorem counters_of_replaces (hb : ∀ h, ExclusiveAt b h) (hb' : ∀ h, ExclusiveAt b' h) :
    b'.computedCounters s = b.computedCounters s + (deltaOf hs b b' s).counters := by
  obtain ⟨P, hP, hP', hsub⟩ := exists_cover hs b b'
  rw [computed_counters hb hP, computed_counters hb' hP', counters_deltaOf]
  refine sum_eq_add_sum_map hr.nodup hsub fun h hh => ?_
  rw [(hr.same h hh).contribution]

/-- **The last event seen follows from the one before and the difference.** -/
theorem lastEventSeen_of_replaces (hb : ∀ h, ExclusiveAt b h) (hb' : ∀ h, ExclusiveAt b' h)
    {row : HealthRow} (hrow : row.lastEventSeen = b.computedLastEventSeen s) :
    (setLastEventSeen b' s (deltaOf hs b b' s) row).lastEventSeen = b'.computedLastEventSeen s := by
  cases hd : (deltaOf hs b b' s).recomputeLastEventSeen with
  | true => rw [setLastEventSeen, if_pos hd]
  | false =>
    obtain ⟨P, hP, hP', hsub⟩ := exists_cover hs b b'
    rw [lastEventSeen_of_not_recompute _ _ _ hd, hrow, latestAfter_deltaOf,
      computed_lastEventSeen hb hP, computed_lastEventSeen hb' hP']
    -- no parent's latest capture went back, so the greatest is old or of a replaced parent
    refine (sup_eq_max_sup hsub (fun h hh => ?_) fun h hh => ?_).symm
    · rw [(hr.same h hh).contribution]
    · exact latestOf_le_of_not_drops (not_drops_of_deltaOf hs b b' s hd h hh)

theorem invalid_of_replaces : b'.computedInvalidUnknownParents =
    b.computedInvalidUnknownParents + invalidDeltaOf hs b b' := by
  obtain ⟨P, hP, hP', hsub⟩ := exists_cover hs b b'
  rw [computed_invalidUnknownParents hP, computed_invalidUnknownParents hP']
  refine sum_eq_add_sum_map hr.nodup hsub fun h hh => ?_
  rw [(hr.same h hh).invalidOf]

/-- The row of a source that the replaced parents contribute nothing to, before and after. -/
theorem computedRow_of_replaces (hb : ∀ h, ExclusiveAt b h) (hb' : ∀ h, ExclusiveAt b' h)
    (hnone : ∀ h ∈ hs, contribution b h s = none ∧ contribution b' h s = none) :
    b'.computedRow s = b.computedRow s := by
  obtain ⟨P, hP, hP', -⟩ := exists_cover hs b b'
  have hsame : ∀ h, contribution b h s = contribution b' h s := by
    intro h
    by_cases hh : h ∈ hs
    · rw [(hnone h hh).1, (hnone h hh).2]
    · exact (hr.same h hh).contribution s
  rw [Base.computedRow, Base.computedRow, computed_counters hb hP, computed_counters hb' hP',
    computed_lastEventSeen hb hP, computed_lastEventSeen hb' hP']
  simp only [hsame]

end Replaces

end MergeMiningMonitor.SourceHealth
