import MergeMiningMonitor.Support.Runs
import MergeMiningMonitor.Support.Fallible
import MergeMiningMonitor.SourceHealth.Brackets

/-!
# Source health — Interleaving

Health that is maintained by brackets is the health of a recompute, in every interleaving.

What a transaction knows while it runs is in `Progress`, phase by phase.  Its snapshots are right, since
nobody else may touch its parents.  A health row that it wrote is the row of a recompute over what it
sees (`Settled`), and stays so: whoever else changes what the source has must write this row too, and
the row is locked.  That is what makes the reading again of the last event seen right although other
transactions have not committed.  A source that it does not write has nothing on its parents, before or
after.

`incremental_health_is_recompute` is for every state of a run: at every commit, the committed rows are
those of a recompute from the committed tables.
-/

namespace MergeMiningMonitor.SourceHealth

open Relational Transition List Option

variable {Source Hash : Type} [LinearOrder Source] [LinearOrder Hash]

/-! ### What a transaction knows -/

section Progress

variable (b : Base Source Hash) (health : Source → Option HealthRow) (T : Bracket Source Hash)

/-- The rows of the transaction have no source with an active event and a near observation on one of
its parents. -/
def Bracket.Exclusive : Prop := ∀ h ∈ T.hashes, ExclusiveAt T.rows h

/-- The health row of a source is written, and is that of a recompute; or the transaction has nothing
to do with the source. -/
def Settled (s : Source) : Prop :=
  match T.health s with
  | some row => T.Exclusive → row = (T.view b).computedRow s
  | none => ∀ h ∈ T.hashes, contribution b h s = none ∧ contribution T.rows h s = none

/-- The differences that are still to be applied. -/
structure Pending (deltas : List (Source × SourceHealthDelta)) (invalidUnknownDelta : ℤ) : Prop where
  nodup : (deltas.map (·.1)).Nodup
  delta : ∀ p ∈ deltas, p.2 = deltaOf T.hashes b T.rows p.1
  unwritten : ∀ p ∈ deltas, T.health p.1 = none
  invalid : invalidUnknownDelta = invalidDeltaOf T.hashes b T.rows
  uncounted : T.invalidUnknownParents = none

/-- Nothing is written to the health tables. -/
structure Unwritten : Prop where
  health : ∀ s, T.health s = none
  invalid : T.invalidUnknownParents = none

/-- The counters of the source are those of a recompute, and its last event seen is still the
committed one. -/
def CountersAdded (s : Source) : Prop :=
  ∃ row, T.health s = some row ∧ (T.Exclusive → row.counters = (T.view b).computedCounters s) ∧
    row.lastEventSeen = ((health s).getD .zero).lastEventSeen

/-- What a transaction knows of the committed base `b` and the committed health rows. -/
def Progress : Prop :=
  match T.phase with
  | .opening todo before =>
    (∃ taken, taken ++ todo = T.hashes ∧
      before = taken.map fun h => (h, snapshotParentContribution b h)) ∧
    (∀ h ∈ T.hashes, SameAt b T.rows h) ∧ Unwritten T
  | .mutating before =>
    before = (T.hashes.map fun h => (h, snapshotParentContribution b h)) ∧ Unwritten T
  | .closing todo before after =>
    (before = T.hashes.map fun h => (h, snapshotParentContribution b h)) ∧
    (∃ taken, taken ++ todo = T.hashes ∧ after = taken.map (snapshotParentContribution T.rows)) ∧
    Unwritten T
  | .applying deltas invalidUnknownDelta =>
    Pending b T deltas invalidUnknownDelta ∧ ∀ s, s ∉ deltas.map (·.1) → Settled b T s
  | .applied s delta deltas invalidUnknownDelta =>
    Pending b T deltas invalidUnknownDelta ∧ s ∉ deltas.map (·.1) ∧
    delta = deltaOf T.hashes b T.rows s ∧ CountersAdded b health T s ∧
    ∀ s', s' ∉ deltas.map (·.1) → s' ≠ s → Settled b T s'
  | .closed => (∀ s, Settled b T s) ∧
      match T.invalidUnknownParents with
      | some count => count = (T.view b).computedInvalidUnknownParents
      | none => invalidDeltaOf T.hashes b T.rows = 0

end Progress

/-- What is known of a transaction: it has its locks. -/
structure Running (w : Database Source Hash) (t : ℕ) (T : Bracket Source Hash) : Prop where
  nodup : T.hashes.Nodup
  parents : ∀ h ∈ T.hashes, w.parentLock h = some t
  rows : ∀ s, T.health s ≠ none → w.rowLock s = some t
  invariant : T.invalidUnknownParents ≠ none → w.invariantLock = some t
  progress : Progress w.base w.health T

/-- What is known of the database. -/
structure Sound (w : Database Source Hash) : Prop where
  exclusive : ∀ h, ExclusiveAt w.base h
  rows : ∀ s, (w.health s).getD .zero = w.base.computedRow s
  invalid : w.invalidUnknownParents = w.base.computedInvalidUnknownParents
  running : ∀ t T, w.brackets t = some T → Running w t T

theorem Sound.fresh {w : Database Source Hash} (h : Sound w) : Fresh w :=
  ⟨fun s => (h.rows s).trans (lookup_computed w.base s).symm, h.invalid⟩

/-! ### Other transactions -/

section Congr

variable {b b₁ : Base Source Hash} {rows rows₁ : Base Source Hash} {hs : List Hash} {s : Source}

theorem deltaOf_congr (hb : ∀ h ∈ hs, SameAt b b₁ h) (hrows : ∀ h ∈ hs, SameAt rows rows₁ h) :
    deltaOf hs b rows s = deltaOf hs b₁ rows₁ s := by
  rw [deltaOf, deltaOf]
  refine foldl_ext _ _ _ fun d h hh => ?_
  rw [(hb h hh).contribution, (hrows h hh).contribution]

theorem invalidDeltaOf_congr (hb : ∀ h ∈ hs, SameAt b b₁ h) (hrows : ∀ h ∈ hs, SameAt rows rows₁ h) :
    invalidDeltaOf hs b rows = invalidDeltaOf hs b₁ rows₁ := by
  rw [invalidDeltaOf, invalidDeltaOf]
  refine congrArg List.sum (map_congr_left fun h hh => ?_)
  rw [(hb h hh).invalidOf, (hrows h hh).invalidOf]

end Congr

section Frame

variable {b b' : Base Source Hash} {health health' : Source → Option HealthRow}
  {T : Bracket Source Hash}

omit [LinearOrder Source] in
theorem exclusive_view (hb : ∀ h, ExclusiveAt b h) (hT : T.Exclusive) :
    ∀ h, ExclusiveAt (T.view b) h := by
  intro h
  by_cases hh : h ∈ T.hashes
  · exact (sameAt_view hh).exclusiveAt (hT h hh)
  · exact (sameAt_view_of_not_mem hh).exclusiveAt (hb h)

/-- What another transaction commits leaves alone what `T` knows, if it changes nothing of the parents
of `T`, of what `T` wrote and of what is counted there. -/
structure LeavesAlone (b b' : Base Source Hash) (health health' : Source → Option HealthRow)
    (T : Bracket Source Hash) : Prop where
  same : ∀ h ∈ T.hashes, SameAt b b' h
  row : ∀ s, T.health s ≠ none → T.Exclusive → (T.view b').computedRow s = (T.view b).computedRow s
  health : ∀ s, T.health s ≠ none → health' s = health s
  invalid : T.invalidUnknownParents ≠ none →
    (T.view b').computedInvalidUnknownParents = (T.view b).computedInvalidUnknownParents

namespace LeavesAlone

variable (hl : LeavesAlone b b' health health' T)
include hl

theorem deltaOf_eq (s : Source) : deltaOf T.hashes b' T.rows s = deltaOf T.hashes b T.rows s :=
  deltaOf_congr (fun h hh => (hl.same h hh).symm) fun _ _ => ⟨rfl, rfl, rfl⟩

theorem invalidDeltaOf_eq : invalidDeltaOf T.hashes b' T.rows = invalidDeltaOf T.hashes b T.rows :=
  invalidDeltaOf_congr (fun h hh => (hl.same h hh).symm) fun _ _ => ⟨rfl, rfl, rfl⟩

theorem snapshots_eq : (T.hashes.map fun h => (h, snapshotParentContribution b' h)) =
    T.hashes.map fun h => (h, snapshotParentContribution b h) :=
  map_congr_left fun h hh => by rw [(hl.same h hh).snapshot]

theorem settled {s : Source} (h : Settled b T s) : Settled b' T s := by
  rw [Settled] at h ⊢
  cases hrow : T.health s with
  | some row =>
    rw [hrow] at h
    exact fun hT => (h hT).trans (hl.row s (by simp [hrow]) hT).symm
  | none =>
    rw [hrow] at h
    exact fun p hp => ⟨(hl.same p hp).contribution s ▸ (h p hp).1, (h p hp).2⟩

theorem pending {deltas : List (Source × SourceHealthDelta)} {i : ℤ} (h : Pending b T deltas i) :
    Pending b' T deltas i where
  nodup := h.nodup
  delta p hp := (h.delta p hp).trans (hl.deltaOf_eq p.1).symm
  unwritten := h.unwritten
  invalid := h.invalid.trans hl.invalidDeltaOf_eq.symm
  uncounted := h.uncounted

theorem progress (h : Progress b health T) : Progress b' health' T := by
  rw [Progress] at h ⊢
  cases hphase : T.phase with
  | opening todo before =>
    rw [hphase] at h
    obtain ⟨⟨taken, htaken, rfl⟩, hrows, hunwritten⟩ := h
    refine ⟨⟨taken, htaken, map_congr_left fun p hp => ?_⟩,
      fun p hp => (hl.same p hp).symm.trans (hrows p hp), hunwritten⟩
    rw [(hl.same p (htaken ▸ mem_append_left _ hp)).snapshot]
  | mutating before =>
    rw [hphase] at h
    exact ⟨h.1.trans hl.snapshots_eq.symm, h.2⟩
  | closing todo before after =>
    rw [hphase] at h
    exact ⟨h.1.trans hl.snapshots_eq.symm, h.2⟩
  | applying deltas i =>
    rw [hphase] at h
    exact ⟨hl.pending h.1, fun s hs => hl.settled (h.2 s hs)⟩
  | applied s delta deltas i =>
    rw [hphase] at h
    obtain ⟨hpending, hs, hdelta, ⟨row, hrow, hcounters, hlast⟩, hsettled⟩ := h
    have hwritten : T.health s ≠ none := by simp [hrow]
    refine ⟨hl.pending hpending, hs, hdelta.trans (hl.deltaOf_eq s).symm,
      ⟨row, hrow, fun hT => (hcounters hT).trans ?_, ?_⟩,
      fun s' hs' hne => hl.settled (hsettled s' hs' hne)⟩
    · exact congrArg HealthRow.counters (hl.row s hwritten hT).symm
    · rw [hlast, hl.health s hwritten]
  | closed =>
    rw [hphase] at h
    refine ⟨fun s => hl.settled (h.1 s), ?_⟩
    have hcount := h.2
    cases hinvalid : T.invalidUnknownParents with
    | some count =>
      rw [hinvalid] at hcount
      exact hcount.trans (hl.invalid (by simp [hinvalid])).symm
    | none =>
      rw [hinvalid] at hcount
      exact hl.invalidDeltaOf_eq.trans hcount

end LeavesAlone

end Frame

/-! ### A statement of the transaction -/

section Statements

variable {b : Base Source Hash} {health : Source → Option HealthRow} {T : Bracket Source Hash}
  {h : Hash} {todo : List Hash} {before : List (Hash × ParentContribution Source)}
  {after : List (ParentContribution Source)} {s : Source} {delta : SourceHealthDelta}
  {deltas : List (Source × SourceHealthDelta)} {i : ℤ}

theorem settled_of_health_eq {T' : Bracket Source Hash} (hs : Settled b T s)
    (hhashes : T'.hashes = T.hashes) (hrows : T'.rows = T.rows) (hhealth : T'.health s = T.health s) :
    Settled b T' s := by
  rw [Settled, hhealth, Bracket.Exclusive, Bracket.view, hhashes, hrows]
  exact hs

theorem deltaOf_view : deltaOf T.hashes b T.rows s = deltaOf T.hashes b (T.view b) s :=
  deltaOf_congr (fun _ _ => ⟨rfl, rfl, rfl⟩) fun _ hh => sameAt_view hh

variable (hp : Progress b health T)
include hp

theorem progress_opening (hphase : T.phase = .opening (h :: todo) before) :
    Progress b health { T with
      phase := .opening todo (before ++ [(h, snapshotParentContribution (T.view b) h)]) } := by
  rw [Progress, hphase] at hp
  obtain ⟨⟨taken, htaken, rfl⟩, hrows, hunwritten⟩ := hp
  have hh : h ∈ T.hashes := htaken ▸ mem_append_right _ mem_cons_self
  refine ⟨⟨taken ++ [h], by rw [← htaken, append_assoc, singleton_append], ?_⟩, hrows,
    ⟨hunwritten.health, hunwritten.invalid⟩⟩
  rw [map_append, map_singleton, ← ((hrows h hh).trans (sameAt_view hh)).snapshot]

theorem progress_opened (hphase : T.phase = .opening [] before) :
    Progress b health { T with phase := .mutating before } := by
  rw [Progress, hphase] at hp
  obtain ⟨⟨taken, htaken, rfl⟩, -, hunwritten⟩ := hp
  rw [append_nil] at htaken
  exact ⟨by rw [htaken], ⟨hunwritten.health, hunwritten.invalid⟩⟩

theorem progress_mutate (hphase : T.phase = .mutating before)
    (rows : Base Source Hash) : Progress b health { T with rows } := by
  rw [Progress, hphase] at hp
  rw [Progress, hphase]
  exact ⟨hp.1, ⟨hp.2.health, hp.2.invalid⟩⟩

theorem progress_close (hphase : T.phase = .mutating before) :
    Progress b health { T with phase := .closing (before.map (·.1)) before [] } := by
  rw [Progress, hphase] at hp
  refine ⟨hp.1, ⟨[], ?_, rfl⟩, ⟨hp.2.health, hp.2.invalid⟩⟩
  rw [List.nil_append, hp.1, List.map_map]
  exact List.map_id _

theorem progress_closing (hphase : T.phase = .closing (h :: todo) before after) :
    Progress b health { T with
      phase := .closing todo before (after ++ [snapshotParentContribution (T.view b) h]) } := by
  rw [Progress, hphase] at hp
  obtain ⟨hbefore, ⟨taken, htaken, rfl⟩, hunwritten⟩ := hp
  have hh : h ∈ T.hashes := htaken ▸ mem_append_right _ mem_cons_self
  refine ⟨hbefore, ⟨taken ++ [h], by rw [← htaken, append_assoc, singleton_append], ?_⟩,
    ⟨hunwritten.health, hunwritten.invalid⟩⟩
  rw [map_append, map_singleton, ← (sameAt_view hh).snapshot]

/-- The differences are those of the snapshots, and a source without one has nothing there. -/
theorem progress_aggregate (hphase : T.phase = .closing [] before after) :
    let aggregate := aggregateSourceHealthDiffs ((before.map (·.2)).zip after)
    Progress b health { T with
      phase := .applying ((sortedDistinct aggregate.1.keys).map fun s => (s, aggregate.1.delta s))
        aggregate.2 } := by
  rw [Progress, hphase] at hp
  obtain ⟨rfl, ⟨taken, htaken, rfl⟩, hunwritten⟩ := hp
  rw [append_nil] at htaken
  have hdiffs : ((T.hashes.map fun h => (h, snapshotParentContribution b h)).map (·.2)).zip
      (taken.map (snapshotParentContribution T.rows)) = snapshotDiffs T.hashes b T.rows := by
    rw [htaken, List.map_map, snapshotDiffs]
    exact zip_map'
  rw [hdiffs]
  obtain ⟨hdelta, hkeys, hinvalid⟩ := aggregate_snapshotDiffs T.hashes b T.rows
  intro aggregate
  have hfst : ((sortedDistinct aggregate.1.keys).map fun s => (s, aggregate.1.delta s)).map (·.1) =
      sortedDistinct aggregate.1.keys := by
    rw [List.map_map]
    exact map_id _
  refine ⟨⟨(congrArg List.Nodup hfst).mpr (nodup_sortedDistinct _), fun p hmem => ?_,
    fun p _ => hunwritten.health p.1, hinvalid, hunwritten.invalid⟩, fun s hs => ?_⟩
  · obtain ⟨s, -, rfl⟩ := mem_map.mp hmem
    exact hdelta s
  · rw [hfst, mem_sortedDistinct, hkeys] at hs
    rw [Settled, hunwritten.health s]
    intro h hh
    by_contra hcontributes
    exact hs ⟨h, hh, not_and_or.mp hcontributes⟩

/-- The counters of a recompute over what is committed, and the difference, are those of a recompute
over what the transaction sees. -/
theorem progress_counters (hb : ∀ h, ExclusiveAt b h)
    (hrows : ∀ s, (health s).getD .zero = b.computedRow s) (hnodup : T.hashes.Nodup)
    (hphase : T.phase = .applying ((s, delta) :: deltas) i) :
    Progress b health { T with
      health := Function.update T.health s
        (some (upsertCounters ((T.health s).or (health s)) delta))
      phase := .applied s delta deltas i } := by
  rw [Progress, hphase] at hp
  obtain ⟨hpending, hsettled⟩ := hp
  obtain ⟨hs, hdeltas⟩ := nodup_cons.mp hpending.nodup
  have hdelta : delta = deltaOf T.hashes b T.rows s := hpending.delta _ mem_cons_self
  have hnone : T.health s = none := hpending.unwritten _ mem_cons_self
  have hne : ∀ p ∈ deltas, p.1 ≠ s := fun p hmem heq => hs (mem_map.mpr ⟨p, hmem, heq⟩)
  refine ⟨⟨hdeltas, fun p hmem => hpending.delta p (mem_cons_of_mem _ hmem), fun p hmem => ?_,
    hpending.invalid, hpending.uncounted⟩, hs, hdelta, ⟨_, Function.update_self .., ?_, ?_⟩,
    fun s' hs' hne' => ?_⟩
  · rw [← hpending.unwritten p (mem_cons_of_mem _ hmem)]
    exact Function.update_of_ne (hne p hmem) ..
  · intro hT
    rw [hnone, none_or, upsertCounters_eq, hrows, hdelta, deltaOf_view]
    exact (counters_of_replaces (replaces_view hnodup) hb (exclusive_view hb hT)).symm
  · rw [hnone, none_or, upsertCounters_eq]
  · refine settled_of_health_eq (hsettled s' ?_) rfl rfl (Function.update_of_ne hne' ..)
    exact fun hmem => (mem_cons.mp hmem).elim hne' hs'

/-- The last event seen, raised or read again, is that of a recompute over what the transaction sees. -/
theorem progress_lastEventSeen (hb : ∀ h, ExclusiveAt b h)
    (hrows : ∀ s, (health s).getD .zero = b.computedRow s) (hnodup : T.hashes.Nodup)
    (hphase : T.phase = .applied s delta deltas i) :
    Progress b health { T with
      health := Function.update T.health s
        ((T.health s).map (setLastEventSeen (T.view b) s delta))
      phase := .applying deltas i } := by
  rw [Progress, hphase] at hp
  obtain ⟨hpending, hs, rfl, ⟨row, hrow, hcounters, hlast⟩, hsettled⟩ := hp
  have hne : ∀ p ∈ deltas, p.1 ≠ s := fun p hmem heq => hs (mem_map.mpr ⟨p, hmem, heq⟩)
  refine ⟨⟨hpending.nodup, hpending.delta, fun p hmem => ?_, hpending.invalid, hpending.uncounted⟩,
    fun s' hs' => ?_⟩
  · rw [← hpending.unwritten p hmem]
    exact Function.update_of_ne (hne p hmem) ..
  · by_cases hs'' : s' = s
    · subst hs''
      rw [Settled]
      simp only [Function.update_self, hrow, map_some]
      intro hT
      refine HealthRow.ext ?_ ?_
      · rw [counters_setLastEventSeen]
        exact hcounters hT
      · rw [deltaOf_view]
        refine lastEventSeen_of_replaces (replaces_view hnodup) hb (exclusive_view hb hT) ?_
        rw [hlast, hrows, Base.computedRow]
    · exact settled_of_health_eq (hsettled s' hs' hs'') rfl rfl (Function.update_of_ne hs'' ..)

theorem progress_unchanged_count (hphase : T.phase = .applying [] 0) :
    Progress b health { T with phase := .closed } := by
  rw [Progress, hphase] at hp
  refine ⟨fun s => settled_of_health_eq (hp.2 s not_mem_nil) rfl rfl rfl, ?_⟩
  simp only [hp.1.uncounted]
  exact hp.1.invalid.symm

theorem progress_count {count : ℤ} (hcount : count = b.computedInvalidUnknownParents)
    (hnodup : T.hashes.Nodup) (hphase : T.phase = .applying [] i) :
    Progress b health { T with
      invalidUnknownParents := some (T.invalidUnknownParents.getD count + i)
      phase := .closed } := by
  rw [Progress, hphase] at hp
  refine ⟨fun s => settled_of_health_eq (hp.2 s not_mem_nil) rfl rfl rfl, ?_⟩
  have hview : invalidDeltaOf T.hashes b T.rows = invalidDeltaOf T.hashes b (T.view b) :=
    invalidDeltaOf_congr (fun _ _ => ⟨rfl, rfl, rfl⟩) fun h hh => sameAt_view hh
  rw [hp.1.uncounted, getD_none, hcount, hp.1.invalid, hview]
  exact (invalid_of_replaces (replaces_view hnodup)).symm

end Statements

/-! ### Steps -/

section Steps

variable {w w' : Database Source Hash} {t u : ℕ} {T T' U : Bracket Source Hash}

/-- The locks of every transaction but `t` are kept. -/
structure KeepsLocks (t : ℕ) (w w' : Database Source Hash) : Prop where
  parents : ∀ u ≠ t, ∀ h, w.parentLock h = some u → w'.parentLock h = some u
  rows : ∀ u ≠ t, ∀ s, w.rowLock s = some u → w'.rowLock s = some u
  invariant : ∀ u ≠ t, w.invariantLock = some u → w'.invariantLock = some u

theorem Running.keep (hU : Running w u U) (hu : u ≠ t) (hlocks : KeepsLocks t w w')
    (hprogress : Progress w'.base w'.health U) : Running w' u U where
  nodup := hU.nodup
  parents h hh := hlocks.parents u hu h (hU.parents h hh)
  rows s hs := hlocks.rows u hu s (hU.rows s hs)
  invariant hi := hlocks.invariant u hu (hU.invariant hi)
  progress := hprogress

theorem Sound.goesOn (hw : Sound w) (hbase : w'.base = w.base) (hhealth : w'.health = w.health)
    (hinvalid : w'.invalidUnknownParents = w.invalidUnknownParents)
    (hbrackets : w'.brackets = Function.update w.brackets t (some T'))
    (hlocks : KeepsLocks t w w') (hT' : Running w' t T') : Sound w' where
  exclusive := hbase ▸ hw.exclusive
  rows := hbase ▸ hhealth ▸ hw.rows
  invalid := by rw [hinvalid, hbase, hw.invalid]
  running u U hU := by
    rw [hbrackets] at hU
    by_cases hu : u = t
    · subst hu
      rw [Function.update_self] at hU
      exact some.inj hU ▸ hT'
    · rw [Function.update_of_ne hu] at hU
      have hrunning := hw.running u U hU
      refine hrunning.keep hu hlocks ?_
      rw [hbase, hhealth]
      exact hrunning.progress

theorem Sound.set (hw : Sound w) (hT : w.brackets t = some T) (hhashes : T'.hashes = T.hashes)
    (hrows : ∀ s, T'.health s ≠ none → T.health s ≠ none)
    (hinvalid : T'.invalidUnknownParents = T.invalidUnknownParents)
    (hprogress : Progress w.base w.health T') : Sound (w.set t T') := by
  have hrunning := hw.running t T hT
  refine hw.goesOn rfl rfl rfl rfl ⟨fun _ _ _ h => h, fun _ _ _ h => h, fun _ _ h => h⟩ ?_
  exact ⟨hhashes ▸ hrunning.nodup, hhashes ▸ hrunning.parents, fun s hs => hrunning.rows s (hrows s hs),
    hinvalid ▸ hrunning.invariant, hprogress⟩

theorem Sound.begin {hashes : List Hash} (hw : Sound w) (hstep : w.begin t hashes = some w') :
    Sound w' := by
  rw [Database.begin] at hstep
  split at hstep
  · next hfree =>
      obtain rfl := some.inj hstep
      refine hw.goesOn rfl rfl rfl rfl ⟨fun u _ h hu => ?_, fun _ _ _ h => h, fun _ _ h => h⟩
        ⟨nodup_sortedDistinct _, fun h hh => if_pos hh, fun s hs => absurd rfl hs,
          fun hi => absurd rfl hi, ⟨[], rfl, rfl⟩, fun h _ => ⟨rfl, rfl, rfl⟩, fun _ => rfl, rfl⟩
      refine (if_neg fun hh => ?_).trans hu
      rw [hfree.2 h hh] at hu
      cases hu
  · cases hstep

theorem not_canLock {lock : Option ℕ} (hu : u ≠ t) (hlock : lock = some u) : canLock t lock = false := by
  simp [canLock, hlock, hu]

theorem update_lock {A : Type*} [DecidableEq A] {lock : A → Option ℕ} {a a' : A}
    (hcan : canLock t (lock a) = true) (hu : u ≠ t) (ha' : lock a' = some u) :
    Function.update lock a (some t) a' = some u := by
  by_cases heq : a' = a
  · rw [← heq, not_canLock hu ha'] at hcan
    cases hcan
  · rw [Function.update_of_ne heq, ha']

theorem ne_none_of_update {A B : Type*} [DecidableEq A] {f : A → Option B} {a a' : A} {v : Option B}
    (hne : a' ≠ a) (h : Function.update f a v a' ≠ none) : f a' ≠ none := by
  rwa [Function.update_of_ne hne] at h

theorem Sound.next (hw : Sound w) (hT : w.brackets t = some T) (hstep : w.next t T = some w') :
    Sound w' := by
  have hrunning := hw.running t T hT
  have hp := hrunning.progress
  rw [Database.next] at hstep
  split at hstep
  · next h todo before hphase =>
      obtain rfl := some.inj hstep
      exact hw.set hT rfl (fun _ hs => hs) rfl (progress_opening hp hphase)
  · next before hphase =>
      obtain rfl := some.inj hstep
      exact hw.set hT rfl (fun _ hs => hs) rfl (progress_opened hp hphase)
  · cases hstep
  · next h todo before after hphase =>
      obtain rfl := some.inj hstep
      exact hw.set hT rfl (fun _ hs => hs) rfl (progress_closing hp hphase)
  · next before after hphase =>
      obtain rfl := some.inj hstep
      exact hw.set hT rfl (fun _ hs => hs) rfl (progress_aggregate hp hphase)
  · next s delta deltas i hphase =>
      split at hstep
      · next hlock =>
          obtain rfl := some.inj hstep
          refine hw.goesOn rfl rfl rfl rfl
            ⟨fun _ _ _ h => h, fun u hu s' hs' => update_lock hlock hu hs', fun _ _ h => h⟩
            ⟨hrunning.nodup, hrunning.parents, fun s' hs' => ?_, hrunning.invariant,
              progress_counters hp hw.exclusive hw.rows hrunning.nodup hphase⟩
          by_cases heq : s' = s
          · rw [heq]
            exact Function.update_self ..
          · exact (Function.update_of_ne heq ..).trans
              (hrunning.rows s' (ne_none_of_update heq hs'))
      · cases hstep
  · next s delta deltas i hphase =>
      obtain rfl := some.inj hstep
      refine hw.set hT rfl (fun s' hs' => ?_) rfl
        (progress_lastEventSeen hp hw.exclusive hw.rows hrunning.nodup hphase)
      by_cases heq : s' = s
      · subst heq
        exact fun hnone => hs' ((Function.update_self ..).trans (by rw [hnone, map_none]))
      · exact ne_none_of_update heq hs'
  · next i hphase =>
      split at hstep
      · next hi =>
          obtain rfl := some.inj hstep
          exact hw.set hT rfl (fun _ hs => hs) rfl (progress_unchanged_count hp (hi ▸ hphase))
      · split at hstep
        · next hlock =>
            obtain rfl := some.inj hstep
            refine hw.goesOn rfl rfl rfl rfl
              ⟨fun _ _ _ h => h, fun _ _ _ h => h, fun u hu h => ?_⟩
              ⟨hrunning.nodup, hrunning.parents, hrunning.rows, fun _ => rfl,
                progress_count hp hw.invalid hrunning.nodup hphase⟩
            rw [not_canLock hu h] at hlock
            cases hlock
        · cases hstep
  · cases hstep

omit [LinearOrder Source] [LinearOrder Hash] in
theorem keepsLocks_release : KeepsLocks t w (w.release t) := by
  have hkeep : ∀ u ≠ t, ∀ lock : Option ℕ, lock = some u →
      (if lock = some t then none else lock) = some u := by
    rintro u hu lock rfl
    exact if_neg fun h => hu (some.inj h)
  exact ⟨fun u hu h => hkeep u hu _, fun u hu s => hkeep u hu _, fun u hu => hkeep u hu _⟩

omit [LinearOrder Source] [LinearOrder Hash] in
theorem ne_and_running_of_update (hU : Function.update w.brackets t none u = some U) :
    u ≠ t ∧ w.brackets u = some U := by
  by_cases hu : u = t
  · rw [hu, Function.update_self] at hU
    cases hU
  · rw [Function.update_of_ne hu] at hU
    exact ⟨hu, hU⟩

theorem Sound.release (hw : Sound w) : Sound (w.release t) where
  exclusive := hw.exclusive
  rows := hw.rows
  invalid := hw.invalid
  running u U hU := by
    obtain ⟨hu, hU⟩ := ne_and_running_of_update hU
    exact (hw.running u U hU).keep hu keepsLocks_release (hw.running u U hU).progress

/-! ### Commits -/

theorem Progress.of_closed {b : Base Source Hash} {health : Source → Option HealthRow}
    (hp : Progress b health T) (hphase : T.phase = .closed) :
    (∀ s, Settled b T s) ∧
      match T.invalidUnknownParents with
      | some count => count = (T.view b).computedInvalidUnknownParents
      | none => invalidDeltaOf T.hashes b T.rows = 0 := by
  rw [Progress, hphase] at hp
  exact hp

theorem disjoint_hashes (hT : Running w t T) (hU : Running w u U) (hu : u ≠ t) {h : Hash}
    (hh : h ∈ U.hashes) : h ∉ T.hashes := by
  intro hh'
  have hlock := (hU.parents h hh).symm.trans (hT.parents h hh')
  exact hu (some.inj hlock)

theorem replaces_views (hT : Running w t T) :
    Replaces T.hashes (U.view w.base) (U.view (T.view w.base)) := by
  refine ⟨hT.nodup, fun h hh => ?_⟩
  by_cases hh' : h ∈ U.hashes
  · exact (sameAt_view hh').symm.trans (sameAt_view hh')
  · exact ((sameAt_view_of_not_mem hh').symm.trans (sameAt_view_of_not_mem hh)).trans
      (sameAt_view_of_not_mem hh')

/-- **A commit leaves the other transactions alone.** -/
theorem leavesAlone_commit (hw : Sound w) (hT : Running w t T) (hphase : T.phase = .closed)
    (hTe : T.Exclusive) (hU : Running w u U) (hu : u ≠ t) :
    LeavesAlone w.base (w.commit t T).base w.health (w.commit t T).health U := by
  obtain ⟨hsettled, hcount⟩ := hT.progress.of_closed hphase
  have hdisjoint : ∀ h ∈ T.hashes, h ∉ U.hashes := fun h hh => disjoint_hashes hU hT hu.symm hh
  have hbefore : ∀ h ∈ T.hashes, SameAt w.base (U.view w.base) h :=
    fun h hh => sameAt_view_of_not_mem (hdisjoint h hh)
  have hafter : ∀ h ∈ T.hashes, SameAt T.rows (U.view (T.view w.base)) h :=
    fun h hh => (sameAt_view hh).trans (sameAt_view_of_not_mem (hdisjoint h hh))
  -- the health row is locked by `U`, so `T` did not write it
  have hnone : ∀ s, U.health s ≠ none → T.health s = none := by
    intro s hs
    by_contra hs'
    exact hu (some.inj ((hU.rows s hs).symm.trans (hT.rows s hs')))
  refine ⟨fun h hh => sameAt_view_of_not_mem (disjoint_hashes hT hU hu hh), fun s hs hUe => ?_,
    fun s hs => ?_, fun hi => ?_⟩
  · have huntouched := hsettled s
    rw [Settled, hnone s hs] at huntouched
    refine computedRow_of_replaces (replaces_views hT) (exclusive_view hw.exclusive hUe)
      (exclusive_view (exclusive_view hw.exclusive hTe) hUe) fun h hh => ⟨?_, ?_⟩
    · rw [← (hbefore h hh).contribution]
      exact (huntouched h hh).1
    · rw [Database.base_commit, ← (hafter h hh).contribution]
      exact (huntouched h hh).2
  · rw [Database.health_commit, hnone s hs, none_or]
  · have hinvalid : T.invalidUnknownParents = none := by
      by_contra hi'
      exact hu (some.inj ((hU.invariant hi).symm.trans (hT.invariant hi')))
    rw [hinvalid] at hcount
    rw [Database.base_commit, invalid_of_replaces (replaces_views hT),
      ← invalidDeltaOf_congr hbefore hafter, hcount, add_zero]

/-- **A commit keeps the health that of a recompute.** -/
theorem Sound.commit (hw : Sound w) (hT : w.brackets t = some T) (hphase : T.phase = .closed)
    (hexclusive : ∀ h, ExclusiveAt (w.commit t T).base h) : Sound (w.commit t T) := by
  have hrunning := hw.running t T hT
  obtain ⟨hsettled, hcount⟩ := hrunning.progress.of_closed hphase
  have hTe : T.Exclusive := fun h hh => (sameAt_view hh).symm.exclusiveAt (hexclusive h)
  have hreplaces : Replaces T.hashes w.base (T.view w.base) := replaces_view hrunning.nodup
  refine ⟨hexclusive, fun s => ?_, ?_, fun u U hU => ?_⟩
  · have hs := hsettled s
    rw [Settled] at hs
    rw [Database.health_commit, Database.base_commit]
    cases hrow : T.health s with
    | some row =>
      rw [hrow] at hs
      exact hs hTe
    | none =>
      rw [hrow] at hs
      refine (hw.rows s).trans (computedRow_of_replaces hreplaces hw.exclusive hexclusive ?_).symm
      exact fun h hh => ⟨(hs h hh).1, (sameAt_view hh).contribution s ▸ (hs h hh).2⟩
  · rw [Database.invalidUnknownParents_commit, Database.base_commit]
    cases hinvalid : T.invalidUnknownParents with
    | some count =>
      rw [hinvalid] at hcount
      exact hcount
    | none =>
      rw [hinvalid] at hcount
      have hzero : invalidDeltaOf T.hashes w.base (T.view w.base) = 0 :=
        (invalidDeltaOf_congr (fun _ _ => ⟨rfl, rfl, rfl⟩) fun h hh => sameAt_view hh).symm.trans
          hcount
      refine hw.invalid.trans ?_
      rw [invalid_of_replaces hreplaces, hzero, add_zero]
  · obtain ⟨hu, hU⟩ := ne_and_running_of_update hU
    have hU' := hw.running u U hU
    have hkeeps : KeepsLocks t w (w.commit t T) :=
      ⟨keepsLocks_release.parents, keepsLocks_release.rows, keepsLocks_release.invariant⟩
    exact hU'.keep hu hkeeps
      ((leavesAlone_commit hw hrunning hphase hTe hU' hu).progress hU'.progress)

theorem Sound.step {a : ℕ × Action Source Hash} (hw : Sound w) (hstep : step w a = some w')
    (hexclusive : Exclusive w'.base) : Sound w' := by
  obtain ⟨t, action⟩ := a
  cases action with
  | «begin» hashes => exact hw.begin hstep
  | next =>
    obtain ⟨T, hT, hnext⟩ := bind_eq_some_iff.mp hstep
    exact hw.next hT hnext
  | rollback =>
    obtain ⟨T, -, rfl⟩ := map_eq_some_iff.mp hstep
    exact hw.release
  | mutate rows =>
    obtain ⟨T, hT, hmutate⟩ := bind_eq_some_iff.mp hstep
    split at hmutate
    · next before hphase =>
        obtain rfl := some.inj hmutate
        exact hw.set hT rfl (fun _ hs => hs) rfl
          (progress_mutate (hw.running t T hT).progress hphase rows)
    · cases hmutate
  | close =>
    obtain ⟨T, hT, hclose⟩ := bind_eq_some_iff.mp hstep
    split at hclose
    · next before hphase =>
        obtain rfl := some.inj hclose
        exact hw.set hT rfl (fun _ hs => hs) rfl
          (progress_close (hw.running t T hT).progress hphase)
    · cases hclose
  | commit =>
    obtain ⟨T, hT, hcommit⟩ := bind_eq_some_iff.mp hstep
    split at hcommit
    · next hphase =>
        obtain rfl := some.inj hcommit
        exact hw.commit hT hphase (exclusive_iff.mp hexclusive)
    · cases hcommit

end Steps

/-- **Incremental source health equals a full recompute.**  From a database whose health is that of a
recompute and in which no transaction runs, any brackets run, interleaved statement by statement.  If
in every committed state no source has both an active event and a near observation on one parent, then
the health is that of a recompute after every step, and so when all of them are committed. -/
theorem incremental_health_is_recompute {w₀ w : Database Source Hash}
    {as : List (ℕ × Action Source Hash)} (hidle : ∀ t, w₀.brackets t = none) (hfresh : Fresh w₀)
    (hrun : exec step w₀ as = some w)
    (hexclusive : ∀ pre w₁, pre <+: as → exec step w₀ pre = some w₁ → Exclusive w₁.base) :
    Fresh w := by
  have hsound : Sound w := by
    induction as using List.reverseRecOn generalizing w with
    | nil =>
      obtain rfl : w₀ = w := by simpa [exec] using hrun
      have hw₀ := hexclusive [] w₀ (prefix_refl _) rfl
      refine ⟨exclusive_iff.mp hw₀, fun s => (hfresh.1 s).trans (lookup_computed _ s), hfresh.2,
        fun t T hT => ?_⟩
      rw [hidle t] at hT
      cases hT
    | append_singleton as a ih =>
      obtain ⟨w₁, has, hstep⟩ := exec_snoc.mp hrun
      refine (ih has fun pre w₂ hpre => hexclusive pre w₂ ?_).step hstep
        (hexclusive _ w (prefix_refl _) hrun)
      exact hpre.trans (prefix_append _ _)
  exact hsound.fresh

namespace Sample

/-- An event of the source 1 on the canonical parent 10. -/
def base : Base ℕ ℕ where
  events := [⟨1, 10, true, 100, false⟩]
  nears := []
  block h := if h = 10 then some ⟨.canonical, none⟩ else none

def start : Database ℕ ℕ where
  base := base
  health := fun s => (computeSourceHealthFromBase base).rows.lookup s
  invalidUnknownParents := (computeSourceHealthFromBase base).invalidUnknownParents
  brackets := fun _ => none
  parentLock := fun _ => none
  rowLock := fun _ => none
  invariantLock := none

/-- The event is revoked, while another transaction adds an earlier near observation of the source. -/
def race : List (ℕ × Action ℕ ℕ) :=
  [(0, .begin [10]), (1, .begin [11]), (0, .next), (1, .next), (0, .next), (1, .next),
    (0, .mutate { base with events := [⟨1, 10, true, 100, true⟩] }),
    (1, .mutate { base with nears := [⟨1, 11, 50⟩] }),
    (0, .close), (0, .next), (0, .next), (1, .close), (1, .next), (1, .next),
    -- the last event seen is read again before the other transaction commits
    (0, .next), (0, .next), (0, .next), (0, .commit),
    (1, .next), (1, .next), (1, .next), (1, .commit)]

end Sample

/-- The near observation is what is seen last, although the recompute of the one transaction did not see
it. -/
theorem race_ends_fresh : ∃ w, Transition.exec step Sample.start Sample.race = some w ∧
    (w.health 1).map (·.lastEventSeen) = some ((50 : ℤ) : WithBot ℤ) ∧ Fresh w := by
  obtain ⟨w, hrun, hlast⟩ := Fallible.exists_of_any
    (x := Transition.exec step Sample.start Sample.race)
    (P := fun w => (w.health 1).map (·.lastEventSeen) = some ((50 : ℤ) : WithBot ℤ)) (by decide +kernel)
  refine ⟨w, hrun, hlast, incremental_health_is_recompute (fun _ => rfl) ⟨fun _ => rfl, rfl⟩ hrun ?_⟩
  intro pre w₁ hpre hw₁
  have hall : ∀ pre ∈ Sample.race.inits,
      (Transition.exec step Sample.start pre).all (fun w => decide (Exclusive w.base)) = true := by
    decide +kernel
  have h := hall pre (mem_inits _ _ |>.mpr hpre)
  rw [hw₁] at h
  exact of_decide_eq_true h

end MergeMiningMonitor.SourceHealth
