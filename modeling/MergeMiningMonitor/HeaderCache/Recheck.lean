import Mathlib.Data.List.Dedup
import MergeMiningMonitor.Support.Runs
import MergeMiningMonitor.HeaderCache.Publication

/-!
# Header cache — Recheck

The recheck that publications and migrations schedule (`bitcoin_core_header.rs`,
`unknown_reclassify.rs`).  A trigger takes the next generation and widens the pending scope.  The
runner binds a pass to the pending generation, which consumes the pending scope, pages through it, and
acknowledges its generation.  An invalidating trigger clears the pass and puts its scope back, in SQL
for a scheduled recheck and in Rust, by the scope of everything, for a publication.

A scheduled scope is in the pending scope or in the bound pass until a pass that holds it is
acknowledged (`step_owed`); so it is never lost (`scheduled_scope_is_rechecked`).
-/

namespace MergeMiningMonitor

open Transition List Option

namespace RecheckScope

def nothing : RecheckScope := ⟨false, some []⟩

/-- The scope has the events of the source. -/
def Covers (s : RecheckScope) (source : String) : Prop := ∀ sources ∈ s.sources, source ∈ sources

/-- Containment of the orphan flag and of the sources. -/
structure Within (s other : RecheckScope) : Prop where
  orphans : s.orphans = true → other.orphans = true
  sources : ∀ source, s.Covers source → other.Covers source

theorem within_everything (s : RecheckScope) : s.Within everything where
  orphans _ := rfl
  sources _ _ := fun _ h => nomatch h

theorem Within.trans {s t u : RecheckScope} (h : s.Within t) (h' : t.Within u) : s.Within u where
  orphans ho := h'.orphans (h.orphans ho)
  sources source hs := h'.sources source (h.sources source hs)

theorem covers_union {s other : RecheckScope} {source : String}
    (h : s.Covers source ∨ other.Covers source) : (s.union other).Covers source := by
  intro sources hsources
  rcases hs : s.sources with _ | mine <;> rcases ho : other.sources with _ | theirs <;>
    simp only [union, hs, ho, mem_def, reduceCtorEq, Option.some.injEq] at hsources
  subst hsources
  rw [mem_append, mem_filter, Bool.not_eq_true', contains_eq_mem]
  by_cases hmem : source ∈ mine
  · exact .inl hmem
  · refine .inr ⟨?_, by simpa using hmem⟩
    rcases h with h | h
    · exact absurd (h mine hs) hmem
    · exact h theirs ho

theorem within_union_left (s other : RecheckScope) : s.Within (s.union other) where
  orphans ho := by rw [union, ho, Bool.true_or]
  sources _ hs := covers_union (.inl hs)

theorem within_union_right (s other : RecheckScope) : other.Within (s.union other) where
  orphans ho := by rw [union, ho, Bool.or_true]
  sources _ hs := covers_union (.inr hs)

end RecheckScope

/-! ### The updates of the state row -/

namespace CacheState

def isPending (st : CacheState) : Bool := st.acknowledgedGeneration < st.pendingGeneration

/-- The scope that `schedule_core_recheck` leaves pending: of the row, of the trigger, and of the pass
that an invalidating trigger clears. -/
def widenedScope (st : CacheState) (scope : RecheckScope) (invalidating : Bool) : RecheckScope where
  orphans := st.pendingScope.orphans || scope.orphans ||
    (invalidating && (st.pass.map (·.scope.orphans)).getD false)
  sources :=
    if st.pendingScope.sources = none ∨ scope.sources = none ∨
        (invalidating = true ∧ ∃ pass ∈ st.pass, pass.scope.sources = none) then none
    else some ((st.pendingScope.sources.getD [] ++ scope.sources.getD [] ++
      if invalidating then (st.pass.bind (·.scope.sources)).getD [] else []).dedup)

def scheduleCoreRecheck (st : CacheState) (scope : RecheckScope) (invalidating : Bool) : CacheState :=
  { st with
    pendingGeneration := st.pendingGeneration + 1
    pendingScope := st.widenedScope scope invalidating
    pass := if invalidating then none else st.pass }

theorem covers_widenedScope {st : CacheState} {scope : RecheckScope} {invalidating : Bool}
    {source : String}
    (h : st.pendingScope.Covers source ∨ scope.Covers source ∨
      (invalidating = true ∧ ∃ pass ∈ st.pass, pass.scope.Covers source)) :
    (st.widenedScope scope invalidating).Covers source := by
  intro sources hsources
  rw [widenedScope] at hsources
  split at hsources
  · cases hsources
  · next hsome =>
      obtain rfl := some.inj hsources
      push Not at hsome
      obtain ⟨hpending, hscope, hpass⟩ := hsome
      obtain ⟨pending, hpending⟩ := ne_none_iff_exists'.mp hpending
      obtain ⟨added, hscope⟩ := ne_none_iff_exists'.mp hscope
      rw [mem_dedup, hpending, hscope, mem_append, mem_append]
      rcases h with h | h | ⟨rfl, pass, hbound, h⟩
      · exact .inl (.inl (h pending hpending))
      · exact .inl (.inr (h added hscope))
      · obtain ⟨bound, hsources⟩ := ne_none_iff_exists'.mp (hpass rfl pass hbound)
        rw [mem_def.mp hbound, bind_some, hsources]
        exact .inr (h bound hsources)

theorem pendingScope_within_widened (st : CacheState) (scope : RecheckScope) (invalidating : Bool) :
    st.pendingScope.Within (st.widenedScope scope invalidating) where
  orphans ho := by rw [widenedScope, ho, Bool.true_or, Bool.true_or]
  sources _ hs := covers_widenedScope (.inl hs)

theorem scope_within_widened (st : CacheState) (scope : RecheckScope) (invalidating : Bool) :
    scope.Within (st.widenedScope scope invalidating) where
  orphans ho := by rw [widenedScope, ho, Bool.or_true, Bool.true_or]
  sources _ hs := covers_widenedScope (.inr (.inl hs))

theorem pass_within_widened {st : CacheState} {pass : RecheckPass} (hpass : pass ∈ st.pass)
    (scope : RecheckScope) : pass.scope.Within (st.widenedScope scope true) where
  orphans ho := by
    rw [widenedScope, mem_def.mp hpass, map_some, getD_some, ho, Bool.true_and,
      Bool.or_true]
  sources _ hs := covers_widenedScope (.inr (.inr ⟨rfl, pass, hpass, hs⟩))

def bindRecheckPass (st : CacheState) (scope : RecheckScope) : CacheState × RecheckPass :=
  let pass := ⟨st.pendingGeneration, scope, none⟩
  ({ st with pendingScope := .nothing, pass := some pass }, pass)

/-- `persist_recheck_cursor`, which fails when the pass is no longer bound. -/
def persistRecheckCursor (st : CacheState) (generation : Int) (cursor : Int × Int) :
    Option CacheState :=
  match st.pass with
  | some pass =>
    if pass.generation = generation then
      some { st with pass := some { pass with cursor := some cursor } }
    else none
  | none => none

/-- `acknowledge_recheck_pass`, which fails when the pass is no longer bound. -/
def acknowledgeRecheckPass (st : CacheState) (generation : Int) : Option CacheState :=
  match st.pass with
  | some pass =>
    if pass.generation = generation then
      some { st with acknowledgedGeneration := generation, pass := none }
    else none
  | none => none

theorem persistRecheckCursor_eq_some {st st' : CacheState} {generation : Int} {cursor : Int × Int}
    (h : st.persistRecheckCursor generation cursor = some st') :
    ∃ pass, st.pass = some pass ∧ pass.generation = generation ∧
      st' = { st with pass := some { pass with cursor := some cursor } } := by
  rw [persistRecheckCursor] at h
  split at h
  · next pass hpass =>
      split at h
      · next hgeneration => exact ⟨pass, hpass, hgeneration, (some.inj h).symm⟩
      · cases h
  · cases h

theorem acknowledgeRecheckPass_eq_some {st st' : CacheState} {generation : Int}
    (h : st.acknowledgeRecheckPass generation = some st') :
    ∃ pass, st.pass = some pass ∧ pass.generation = generation ∧
      st' = { st with acknowledgedGeneration := generation, pass := none } := by
  rw [acknowledgeRecheckPass] at h
  split at h
  · next pass hpass =>
      split at h
      · next hgeneration => exact ⟨pass, hpass, hgeneration, (some.inj h).symm⟩
      · cases h
  · cases h

end CacheState

/-! ### The machine -/

/-- The state row, and the pass that the runner has loaded. -/
structure Recheck where
  state : CacheState
  runner : Option RecheckPass

inductive RecheckAction (Hash : Type)
  | schedule (scope : RecheckScope) (invalidating : Bool)
  | publish (rows : HeaderRows Hash) (previousHorizonHeight : Option Int)
      (horizon : BitcoinCoreHeader Hash) (shallowReorged epochCoverageOverlapsPriorHorizon : Bool)
  /-- The runner loads the state and binds a pass, under the exclusive cache lock. -/
  | load
  | persistCursor (cursor : Int × Int)
  | acknowledge
  | crash

namespace Recheck

variable {Hash : Type}

/-- One committed update.  A runner whose pass is no longer bound stops and leaves the row alone. -/
def step (st : Recheck) : RecheckAction Hash → Option Recheck
  | .schedule scope invalidating =>
    some { st with state := st.state.scheduleCoreRecheck scope invalidating }
  | .publish rows previousHorizonHeight horizon shallowReorged overlaps =>
    some { st with
      state := (updateCacheState rows st.state previousHorizonHeight horizon shallowReorged
        overlaps).1 }
  | .load =>
    if st.state.isPending then
      match st.state.pass with
      | some pass => some { st with runner := some pass }
      | none =>
        let bound := st.state.bindRecheckPass st.state.pendingScope
        some ⟨bound.1, some bound.2⟩
    else some { st with runner := none }
  | .persistCursor cursor => do
    let pass ← st.runner
    return ⟨(st.state.persistRecheckCursor pass.generation cursor).getD st.state, none⟩
  | .acknowledge => do
    let pass ← st.runner
    return ⟨(st.state.acknowledgeRecheckPass pass.generation).getD st.state, none⟩
  | .crash => some { st with runner := none }

/-- The generation and the scope that an action schedules. -/
def scheduled (st : Recheck) : RecheckAction Hash → Option (Int × RecheckScope)
  | .schedule scope _ => some (st.state.pendingGeneration + 1, scope)
  | .publish rows previousHorizonHeight horizon shallowReorged overlaps =>
    if (updateCacheState rows st.state previousHorizonHeight horizon shallowReorged
        overlaps).2.scheduled then
      some (st.state.pendingGeneration + 1,
        if shallowReorged || overlaps || previousHorizonHeight.isNone then .everything
        else .pendingRows)
    else none
  | _ => none

/-- The bound pass is this one, wherever its cursor is. -/
def Holds (st : Recheck) (pass : RecheckPass) : Prop :=
  ∃ cursor, st.state.pass = some { pass with cursor }

/-- The runner acknowledges the bound pass. -/
def Acknowledges (st : Recheck) (a : RecheckAction Hash) : Prop :=
  a = .acknowledge ∧ ∃ loaded ∈ st.runner, ∃ pass ∈ st.state.pass,
    pass.generation = loaded.generation

/-- What a step does to the state row. -/
inductive Move (st : Recheck) (a : RecheckAction Hash) (st' : Recheck) : Prop
  /-- A trigger widens the pending scope.  It leaves the pass alone, or puts its scope back. -/
  | trigger (scope : RecheckScope)
      (scheduled : st.scheduled a = some (st.state.pendingGeneration + 1, scope))
      (generation : st'.state.pendingGeneration = st.state.pendingGeneration + 1)
      (acknowledged : st'.state.acknowledgedGeneration = st.state.acknowledgedGeneration)
      (adds : scope.Within st'.state.pendingScope)
      (keeps : st.state.pendingScope.Within st'.state.pendingScope)
      (pass : st'.state.pass = st.state.pass ∨ (st'.state.pass = none ∧
        ∀ pass ∈ st.state.pass, pass.scope.Within st'.state.pendingScope))
  /-- The runner binds a pass. -/
  | bind (load : a = .load) (scheduled : st.scheduled a = none) (unbound : st.state.pass = none)
      (bound : st'.state.pass = some ⟨st.state.pendingGeneration, st.state.pendingScope, none⟩)
      (generation : st'.state.pendingGeneration = st.state.pendingGeneration)
      (acknowledged : st'.state.acknowledgedGeneration = st.state.acknowledgedGeneration)
      (pending : st.state.acknowledgedGeneration < st.state.pendingGeneration)
  /-- The runner acknowledges the bound pass. -/
  | acknowledge (scheduled : st.scheduled a = none) (pass : RecheckPass)
      (acknowledges : st.Acknowledges a) (bound : st.state.pass = some pass)
      (unbound : st'.state.pass = none)
      (generation : st'.state.pendingGeneration = st.state.pendingGeneration)
      (acknowledged : st'.state.acknowledgedGeneration = pass.generation)
      (scope : st'.state.pendingScope = st.state.pendingScope)
  /-- The rest changes at most the cursor. -/
  | other (scheduled : st.scheduled a = none)
      (generation : st'.state.pendingGeneration = st.state.pendingGeneration)
      (acknowledged : st'.state.acknowledgedGeneration = st.state.acknowledgedGeneration)
      (scope : st'.state.pendingScope = st.state.pendingScope)
      (unbound : st.state.pass = none → st'.state.pass = none)
      (holds : ∀ pass, st.Holds pass → st'.Holds pass)

theorem move_schedule {st : Recheck} (scope : RecheckScope) (invalidating : Bool) :
    Move st (.schedule scope invalidating : RecheckAction Hash)
      { st with state := st.state.scheduleCoreRecheck scope invalidating } := by
  refine .trigger scope rfl rfl rfl (st.state.scope_within_widened scope invalidating)
    (st.state.pendingScope_within_widened scope invalidating) ?_
  cases invalidating with
  | false => exact .inl rfl
  | true => exact .inr ⟨rfl, fun pass hpass => CacheState.pass_within_widened hpass scope⟩

/-- What a publication does to the recheck: nothing, or it takes the next generation. -/
theorem updateCacheState_recheck (rows : HeaderRows Hash) (st : CacheState)
    (previousHorizonHeight : Option Int) (horizon : BitcoinCoreHeader Hash)
    (shallowReorged overlaps : Bool) {st' : CacheState} {update : CacheUpdate}
    (h : updateCacheState rows st previousHorizonHeight horizon shallowReorged overlaps =
      (st', update)) :
    st'.acknowledgedGeneration = st.acknowledgedGeneration ∧
      ((update.scheduled = false ∧ st'.pendingGeneration = st.pendingGeneration ∧
          st'.pendingScope = st.pendingScope ∧ st'.pass = st.pass) ∨
        (update.scheduled = true ∧ st'.pendingGeneration = st.pendingGeneration + 1 ∧
          st'.pendingScope = st.pendingScope.union
            (if shallowReorged || overlaps || previousHorizonHeight.isNone then .everything
              else .pendingRows) ∧
          st'.pass = if shallowReorged || overlaps || previousHorizonHeight.isNone then none
            else st.pass)) := by
  obtain ⟨rfl, rfl⟩ := Prod.mk.inj h
  refine ⟨rfl, ?_⟩
  rcases hschedule : (updateCacheState rows st previousHorizonHeight horizon shallowReorged
    overlaps).2.scheduled with _ | _
  · have hnot := Bool.eq_false_iff.mp hschedule
    have hinvalidating : (shallowReorged || overlaps || previousHorizonHeight.isNone) = false :=
      (Bool.or_eq_false_iff.mp (Bool.or_eq_false_iff.mp hschedule).1).1
    refine .inl ⟨hschedule, if_neg hnot, ?_, if_neg (Bool.eq_false_iff.mp hinvalidating)⟩
    exact (if_neg fun hboth => hnot (Bool.and_eq_true_iff.mp hboth).1).trans (if_neg hnot)
  · refine .inr ⟨hschedule, if_pos hschedule, ?_, rfl⟩
    by_cases hinvalidating : (shallowReorged || overlaps || previousHorizonHeight.isNone) = true
    · refine Eq.trans ?_ (congrArg st.pendingScope.union (if_pos hinvalidating).symm)
      exact if_pos (Bool.and_eq_true_iff.mpr ⟨hschedule, hinvalidating⟩)
    · refine Eq.trans ?_ (congrArg st.pendingScope.union (if_neg hinvalidating).symm)
      exact (if_neg fun hboth => hinvalidating (Bool.and_eq_true_iff.mp hboth).2).trans
        (if_pos hschedule)

theorem move_publish {st : Recheck} (rows : HeaderRows Hash) (previousHorizonHeight : Option Int)
    (horizon : BitcoinCoreHeader Hash) (shallowReorged overlaps : Bool) :
    Move st (.publish rows previousHorizonHeight horizon shallowReorged overlaps)
      { st with
        state := (updateCacheState rows st.state previousHorizonHeight horizon shallowReorged
          overlaps).1 } := by
  rcases hupdate : updateCacheState rows st.state previousHorizonHeight horizon shallowReorged overlaps
    with ⟨state, update⟩
  obtain ⟨hacknowledged, ⟨hquiet, hgeneration, hscope, hpass⟩ |
    ⟨hscheduled, hgeneration, hscope, hpass⟩⟩ := updateCacheState_recheck _ _ _ _ _ _ hupdate
  · refine .other ?_ hgeneration hacknowledged hscope (fun hunbound => hpass.trans hunbound) ?_
    · rw [scheduled, hupdate, if_neg (by simp [hquiet])]
    · rintro pass ⟨cursor, hbound⟩
      exact ⟨cursor, hpass.trans hbound⟩
  · refine .trigger _ ?_ hgeneration hacknowledged
      (hscope ▸ RecheckScope.within_union_right _ _) (hscope ▸ RecheckScope.within_union_left _ _) ?_
    · rw [scheduled, hupdate, if_pos hscheduled]
    · split at hpass
      · next hinvalidating =>
          refine .inr ⟨hpass, fun pass _ => (RecheckScope.within_everything pass.scope).trans ?_⟩
          rw [if_pos hinvalidating] at hscope
          exact hscope ▸ RecheckScope.within_union_right _ _
      · exact .inl hpass

variable {a : RecheckAction Hash} {st st' : Recheck} {acts : List (RecheckAction Hash)}
  {scope : RecheckScope}

theorem step_move (h : step st a = some st') : Move st a st' := by
  cases a with
  | schedule scope invalidating =>
    obtain rfl := some.inj h
    exact move_schedule scope invalidating
  | publish rows previousHorizonHeight horizon shallowReorged overlaps =>
    obtain rfl := some.inj h
    exact move_publish rows previousHorizonHeight horizon shallowReorged overlaps
  | load =>
    rw [step] at h
    split at h
    · next hpending =>
        split at h
        · obtain rfl := some.inj h
          exact .other rfl rfl rfl rfl id fun _ => id
        · next hunbound =>
            obtain rfl := some.inj h
            exact .bind rfl rfl hunbound rfl rfl rfl (of_decide_eq_true hpending)
    · obtain rfl := some.inj h
      exact .other rfl rfl rfl rfl id fun _ => id
  | persistCursor cursor =>
    obtain ⟨loaded, -, h⟩ := bind_eq_some_iff.mp h
    obtain rfl := some.inj h
    rcases hpersist : st.state.persistRecheckCursor loaded.generation cursor with _ | state
    · exact .other rfl rfl rfl rfl id fun _ => id
    · obtain ⟨pass, hbound, -, rfl⟩ := CacheState.persistRecheckCursor_eq_some hpersist
      refine .other rfl rfl rfl rfl (fun hunbound => ?_) fun held ⟨_, hheld⟩ => ⟨cursor, ?_⟩
      · rw [hbound] at hunbound
        cases hunbound
      · rw [hbound] at hheld
        rw [getD_some, some.inj hheld]
  | acknowledge =>
    obtain ⟨loaded, hloaded, h⟩ := bind_eq_some_iff.mp h
    obtain rfl := some.inj h
    rcases hack : st.state.acknowledgeRecheckPass loaded.generation with _ | state
    · exact .other rfl rfl rfl rfl id fun _ => id
    · obtain ⟨pass, hbound, hgeneration, rfl⟩ := CacheState.acknowledgeRecheckPass_eq_some hack
      exact .acknowledge rfl pass ⟨rfl, loaded, hloaded, pass, hbound, hgeneration⟩ hbound rfl rfl
        hgeneration.symm rfl
  | crash =>
    obtain rfl := some.inj h
    exact .other rfl rfl rfl rfl id fun _ => id

/-! ### Scopes along a run -/

/-- The generations are in order: the acknowledged one and the one of the pass are not above the
pending one. -/
structure WellFormed (st : Recheck) : Prop where
  acknowledged : st.state.acknowledgedGeneration ≤ st.state.pendingGeneration
  pass : ∀ pass ∈ st.state.pass, pass.generation ≤ st.state.pendingGeneration

theorem Move.pass_of_holds (hunbound : st.state.pass = none → st'.state.pass = none)
    (hholds : ∀ pass, st.Holds pass → st'.Holds pass) {pass' : RecheckPass}
    (h : pass' ∈ st'.state.pass) :
    ∃ pass ∈ st.state.pass, pass.generation = pass'.generation := by
  rcases hpass : st.state.pass with _ | pass
  · rw [hunbound hpass] at h
    cases h
  · obtain ⟨cursor, hbound⟩ := hholds pass ⟨pass.cursor, hpass⟩
    obtain rfl := some.inj (hbound.symm.trans h)
    exact ⟨pass, rfl, rfl⟩

theorem step_wellFormed (hwf : st.WellFormed) (h : step st a = some st') : st'.WellFormed := by
  obtain ⟨hle, hgenerations⟩ := hwf
  cases step_move h with
  | trigger scope scheduled generation acknowledged adds keeps pass =>
    refine ⟨by omega, fun pass' hpass' => ?_⟩
    rcases pass with hkept | ⟨hcleared, -⟩
    · have hbound := hgenerations pass' (hkept ▸ hpass')
      omega
    · rw [hcleared] at hpass'
      cases hpass'
  | bind load scheduled unbound bound generation acknowledged pending =>
    refine ⟨by omega, fun pass' hpass' => ?_⟩
    obtain rfl := some.inj (bound.symm.trans hpass')
    exact generation.ge
  | acknowledge scheduled pass acknowledges bound unbound generation acknowledged scope =>
    have hbound := hgenerations pass bound
    refine ⟨by omega, fun pass' hpass' => ?_⟩
    rw [unbound] at hpass'
    cases hpass'
  | other scheduled generation acknowledged scope unbound holds =>
    refine ⟨by omega, fun pass' hpass' => ?_⟩
    obtain ⟨pass, hbound, hsame⟩ := Move.pass_of_holds unbound holds hpass'
    have hpass := hgenerations pass hbound
    omega

/-- The bound pass was bound in the run with an empty cursor, has the scope, and has been the bound pass
since. -/
def HeldSince (scope : RecheckScope) (since : Recheck) (acts : List (RecheckAction Hash))
    (st : Recheck) : Prop :=
  ∃ pre post before bound pass, acts = pre ++ .load :: post ∧
    exec step since pre = some before ∧ before.state.pass = none ∧
    step before (.load : RecheckAction Hash) = some bound ∧ bound.state.pass = some pass ∧
    pass.cursor = none ∧ scope.Within pass.scope ∧
    exec step bound post = some st ∧ Along step (fun st _ => st.Holds pass) bound post ∧
    st.Holds pass

/-- The scope is rechecked in the run: a pass that was bound in it and has the scope is acknowledged,
without having been reset. -/
def Rechecked (scope : RecheckScope) (since : Recheck) (acts : List (RecheckAction Hash)) : Prop :=
  Happens step (fun acts st a => st.Acknowledges a ∧ HeldSince scope since acts st) since acts

theorem HeldSince.snoc {since st st' : Recheck}
    (h : HeldSince scope since acts st) (hstep : step st a = some st')
    (hholds : ∀ pass, st.Holds pass → st'.Holds pass) :
    HeldSince scope since (acts ++ [a]) st' := by
  obtain ⟨pre, post, before, bound, pass, rfl, hpre, hunbound, hload, hpass, hcursor, hscope, hpost,
    halong, hst⟩ := h
  exact ⟨pre, post ++ [a], before, bound, pass, by simp, hpre, hunbound, hload, hpass, hcursor, hscope,
    exec_snoc.mpr ⟨st, hpost, hstep⟩, along_snoc hpost halong hst, hholds pass hst⟩

/-- A scheduled scope that is not rechecked yet: it is pending, for a later generation than the bound
pass has, or the bound pass has it. -/
structure Owed (generation : Int) (scope : RecheckScope) (since : Recheck)
    (acts : List (RecheckAction Hash)) (st : Recheck) : Prop where
  le : generation ≤ st.state.pendingGeneration
  lt : st.state.acknowledgedGeneration < generation
  waits : (scope.Within st.state.pendingScope ∧
    ∀ pass ∈ st.state.pass, pass.generation < generation) ∨ HeldSince scope since acts st

/-- **A scheduled scope is not lost by a step.**  It stays pending or held, or its pass is
acknowledged. -/
theorem step_owed {g : Int} {since st st' : Recheck}
    (hrun : exec step since acts = some st) (howed : Owed g scope since acts st)
    (h : step st a = some st') :
    Owed g scope since (acts ++ [a]) st' ∨ (st.Acknowledges a ∧ HeldSince scope since acts st) := by
  obtain ⟨hle, hlt, hwaits⟩ := howed
  cases step_move h with
  | trigger added scheduled generation acknowledged adds keeps pass =>
    refine .inl ⟨by omega, by omega, ?_⟩
    rcases hwaits with ⟨hpending, hlater⟩ | hheld
    · refine .inl ⟨hpending.trans keeps, fun pass' hpass' => ?_⟩
      rcases pass with hkept | ⟨hcleared, -⟩
      · exact hlater pass' (hkept ▸ hpass')
      · rw [hcleared] at hpass'
        cases hpass'
    · rcases pass with hkept | ⟨hcleared, hfolded⟩
      · refine .inr (hheld.snoc h ?_)
        rintro pass' ⟨cursor, hbound⟩
        exact ⟨cursor, hkept.trans hbound⟩
      · -- the scope of the cleared pass is pending again
        obtain ⟨-, -, -, -, pass', -, -, -, -, -, -, hscope, -, -, ⟨cursor, hbound⟩⟩ := hheld
        refine .inl ⟨hscope.trans (hfolded { pass' with cursor } hbound), fun pass'' hpass'' => ?_⟩
        rw [hcleared] at hpass''
        cases hpass''
  | bind load scheduled unbound bound generation acknowledged pending =>
    subst load
    refine .inl ⟨by omega, by omega, .inr ?_⟩
    rcases hwaits with ⟨hpending, -⟩ | hheld
    · exact ⟨acts, [], st, st', _, rfl, hrun, unbound, h, bound, rfl, hpending, rfl, trivial,
        none, bound⟩
    · obtain ⟨-, -, -, -, pass, -, -, -, -, -, -, -, -, -, ⟨cursor, hbound⟩⟩ := hheld
      rw [unbound] at hbound
      cases hbound
  | acknowledge scheduled pass acknowledges bound unbound generation acknowledged pendingScope =>
    rcases hwaits with ⟨hpending, hlater⟩ | hheld
    · have hbefore := hlater pass bound
      refine .inl ⟨by omega, by omega, .inl ⟨pendingScope ▸ hpending, fun pass' hpass' => ?_⟩⟩
      rw [unbound] at hpass'
      cases hpass'
    · exact .inr ⟨acknowledges, hheld⟩
  | other scheduled generation acknowledged pendingScope unbound holds =>
    refine .inl ⟨by omega, by omega, ?_⟩
    rcases hwaits with ⟨hpending, hlater⟩ | hheld
    · refine .inl ⟨pendingScope ▸ hpending, fun pass' hpass' => ?_⟩
      obtain ⟨pass, hbound, hsame⟩ := Move.pass_of_holds unbound holds hpass'
      exact hsame ▸ hlater pass hbound
    · exact .inr (hheld.snoc h holds)

theorem owed_of_scheduled {g : Int} (hwf : st.WellFormed) (h : step st a = some st')
    (hscheduled : st.scheduled a = some (g, scope)) :
    Owed g scope st' ([] : List (RecheckAction Hash)) st' := by
  obtain ⟨hle, hgenerations⟩ := hwf
  cases step_move h with
  | trigger added scheduled generation acknowledged adds keeps pass =>
    obtain ⟨rfl, rfl⟩ := Prod.mk.inj (some.inj (scheduled.symm.trans hscheduled))
    refine ⟨by omega, by omega, .inl ⟨adds, fun pass' hpass' => ?_⟩⟩
    rcases pass with hkept | ⟨hcleared, -⟩
    · have hbound := hgenerations pass' (hkept ▸ hpass')
      omega
    · rw [hcleared] at hpass'
      cases hpass'
  | bind load scheduled unbound bound generation acknowledged pending =>
    rw [scheduled] at hscheduled
    cases hscheduled
  | acknowledge scheduled pass acknowledges bound unbound generation acknowledged pendingScope =>
    rw [scheduled] at hscheduled
    cases hscheduled
  | other scheduled generation acknowledged pendingScope unbound holds =>
    rw [scheduled] at hscheduled
    cases hscheduled

theorem exec_wellFormed {st₀ st : Recheck}
    (hwf : st₀.WellFormed) (hrun : exec step st₀ acts = some st) : st.WellFormed :=
  exec_history (G := fun _ _ => True) (J := fun _ st => st.WellFormed) hwf
    (fun _ _ _ _ _ hwf _ hstep => step_wellFormed hwf hstep) hrun
    (along_of_forall st₀ fun _ _ _ => trivial)

/-- **A scheduled scope is never lost.**  Along any run, the acknowledged generation is not above the
pending one, and once it has reached the generation of a scheduled scope, that scope has been
rechecked since it was scheduled. -/
theorem scheduled_scope_is_rechecked {st₀ st : Recheck} {acts : List (RecheckAction Hash)}
    (hwf : st₀.WellFormed) (hrun : exec step st₀ acts = some st) :
    st.state.acknowledgedGeneration ≤ st.state.pendingGeneration ∧
      ∀ pre a post before after g scope, acts = pre ++ a :: post →
        exec step st₀ pre = some before → step before a = some after →
        before.scheduled a = some (g, scope) → g ≤ st.state.acknowledgedGeneration →
        Rechecked scope after post := by
  refine ⟨(exec_wellFormed hwf hrun).acknowledged, ?_⟩
  rintro pre a post before after g scope rfl hpre hstep hscheduled hacknowledged
  have hpost : exec step after post = some st := by
    obtain ⟨before', hpre', hrest⟩ := exec_append.mp hrun
    obtain rfl := some.inj (hpre.symm.trans hpre')
    obtain ⟨after', hstep', hrest⟩ := exec_cons.mp hrest
    obtain rfl := some.inj (hstep.symm.trans hstep')
    exact hrest
  have howed := owed_of_scheduled (exec_wellFormed hwf hpre) hstep hscheduled
  rcases exec_until (G := fun _ _ => True) (J := Owed g scope after)
    (D := fun acts st a => st.Acknowledges a ∧ HeldSince scope after acts st) howed
    (fun _ _ _ _ hrun howed _ hstep => step_owed hrun howed hstep) hpost
    (along_of_forall after fun _ _ _ => trivial) with howed | hrechecked
  · exact absurd howed.lt (not_lt.mpr hacknowledged)
  · exact hrechecked

/-- The row that the migration leaves. -/
def initial : Recheck := ⟨⟨0, 0, 0, .nothing, 0, none, 0⟩, none⟩

/-- One source is scheduled; its pass is reset by an invalidating trigger for another, and the next pass
is acknowledged. -/
def resetOnce : List (RecheckAction Nat) :=
  [.schedule ⟨true, some ["hathor"]⟩ false, .load, .schedule ⟨false, some ["rsk"]⟩ true, .crash,
    .load, .persistCursor (7, 1), .load, .acknowledge]

/-- The reset scope is rechecked by the second pass. -/
theorem reset_scope_is_rechecked :
    ∃ after, step initial (.schedule ⟨true, some ["hathor"]⟩ false : RecheckAction Nat) = some after ∧
      Rechecked ⟨true, some ["hathor"]⟩ after resetOnce.tail := by
  have hwf : initial.WellFormed := ⟨by decide, fun pass hpass => nomatch hpass⟩
  obtain ⟨st, hrun⟩ : ∃ st, exec step initial resetOnce = some st := ⟨_, rfl⟩
  have hacknowledged : st.state.acknowledgedGeneration = 2 := by
    obtain rfl := some.inj hrun
    rfl
  refine ⟨_, rfl, (scheduled_scope_is_rechecked hwf hrun).2 [] _ _ initial _ 1 _ rfl rfl rfl rfl ?_⟩
  rw [hacknowledged]
  decide

end Recheck

end MergeMiningMonitor
