import MergeMiningMonitor.CoreSuffix.Expansion

/-!
# Core suffix — Suspended

A producer error outlives the suffix replacements that hide it.  While a pending record is on
display the error is filed in its details, through any number of replacements; when the queue has
drained it is put back.  `loadSuspendedSyncError` reads it in both places, so what a run keeps is
the value that this reader returns (`step_held`).

Two things take the error away.  A replacement that resolves it, and, for an error without a
height, a progress update on an empty queue while the error is on display: a progress update
clears the error on display when it is at the updated height or at none.

That rule reads the height of whatever is on display.  The last settle of a drain empties the
queue without clearing the pending record, and until somebody does, a progress update at the first
height of the replaced suffix clears the pending record with the error filed in it
(`progress_clears_pending_record`, second part).
-/

namespace MergeMiningMonitor.System

open Relational Transition FixedWidth SyncStateRow List Option

variable {Hash Drainer : Type} [LinearOrder Hash] [ToString Hash] [DecidableEq Drainer]

/-- An error that a producer can have put on display: not the pending code, and at a height that
fits its column. -/
structure ProducerError extends SuspendedSyncError where
  code_ne : code ≠ reconcilePending
  height_range : ∀ n ∈ height, InI32 n

/-- A pending record is on display. -/
def ShowsPending (s : System Hash Drainer) : Prop :=
  ∃ row, s.db.syncState = some row ∧ row.ShowsPending

/-- The steps between which an error `E` is followed: errors are recorded only while a pending
record is on display, and progress is made at other heights than `E`'s own. -/
def KeepsClearOf (E : ProducerError) (s : System Hash Drainer) (a : Act Hash Drainer) : Prop :=
  match a with
  | .syncError .. => s.ShowsPending
  | .syncProgress height _ _ => E.height ≠ some height
  | _ => True

/-- The step is a progress update that clears a pending record: the queue is empty, and the record
is still on display with its first height the updated one. -/
def ClearsPendingRecord (s : System Hash Drainer) (a : Act Hash Drainer) : Prop :=
  ∃ height cch row, a = .syncProgress height cch false ∧ s.db.queue.rows = [] ∧
    s.db.syncState = some row ∧ row.ShowsPending ∧ row.lastErrorHeight = some height

/-- The step is a suffix replacement that resolves `E`. -/
def Resolves (E : ProducerError) (a : Act Hash Drainer) : Prop :=
  ∃ now pending affected readModel, a = .replaceSuffix now pending affected readModel ∧
    E.isResolvedBy pending = true

/-- The step is a progress update that clears an error without a height, on an empty queue while
no pending record is on display. -/
def ClearsHeightless (E : ProducerError) (s : System Hash Drainer) (a : Act Hash Drainer) : Prop :=
  E.height = none ∧ (∃ height cch, a = .syncProgress height cch false) ∧ s.db.queue.rows = [] ∧
    ¬ s.ShowsPending

/-- The step takes `E` away. -/
def TakesAway (E : ProducerError) (_ : List (Act Hash Drainer)) (s : System Hash Drainer)
    (a : Act Hash Drainer) : Prop :=
  Resolves E a ∨ s.ClearsHeightless E a

/-- The producer error that the status row holds, on display or filed, is `e`; a pending record has
a height. -/
def HoldsError (s : System Hash Drainer) (e : Option SuspendedSyncError) : Prop :=
  ∃ row, s.db.syncState = some row ∧ row.loadSuspendedSyncError = .ok e ∧
    (row.ShowsPending → row.lastErrorHeight ≠ none)

/-- What a held error can be: `E`, or nothing. -/
def Possible (E : ProducerError) (e : Option SuspendedSyncError) : Prop :=
  ∀ x ∈ e, x = E.toSuspendedSyncError

variable {E : ProducerError} {e : Option SuspendedSyncError}

omit [LinearOrder Hash] [DecidableEq Drainer] in
theorem holdsError_replaceSuffix
    (hE : Possible E e) {s' : System Hash Drainer} {row row' : SyncStateRow Hash}
    {pending : ReplacementPending Hash}
    (hload : row.loadSuspendedSyncError = .ok e)
    (hmark : row.markReplacementPending pending = .ok row')
    (hrow' : s'.db.syncState = some row') :
    s'.HoldsError (e.filter fun x => !x.isResolvedBy pending) := by
  have hrange : ∀ x ∈ e, ∀ n ∈ x.height, InI32 n := fun x hx => hE x hx ▸ E.height_range
  refine ⟨row', hrow', load_markReplacementPending hload hrange hmark, fun _ => ?_⟩
  obtain ⟨_, _, rfl⟩ := markReplacementPending_eq_ok hmark
  simp [pendingRow]

omit [LinearOrder Hash] [ToString Hash] [DecidableEq Drainer] in
theorem lastErrorHeight_of_displayed {row : SyncStateRow Hash} {x : SuspendedSyncError}
    (hload : row.loadSuspendedSyncError = .ok (some x)) (hshown : ¬ row.ShowsPending) :
    row.lastErrorHeight = x.height := by
  rw [loadSuspendedSyncError, if_neg hshown] at hload
  obtain ⟨_, -, rfl⟩ := map_eq_some_iff.mp (Except.ok.inj hload)
  rfl

omit [LinearOrder Hash] [ToString Hash] [DecidableEq Drainer] in
/-- A progress update takes away an error without a height, or keeps the error. -/
theorem holdsError_syncProgress
    (hE : Possible E e) {s s' : System Hash Drainer} {acts : List (Act Hash Drainer)}
    {row : SyncStateRow Hash} {height cch : Int} {preserveError : Bool}
    (hrow : s.db.syncState = some row) (hload : row.loadSuspendedSyncError = .ok e)
    (hheight : row.ShowsPending → row.lastErrorHeight ≠ none)
    (hrow' : s'.db.syncState =
      some (row.updateSyncProgress s.db.queue.rows.isEmpty height cch preserveError))
    (hkeep : E.height ≠ some height)
    (hpend : ¬ s.ClearsPendingRecord (.syncProgress height cch preserveError)) :
    (TakesAway E acts s (.syncProgress height cch preserveError) → s'.HoldsError none) ∧
      (¬ TakesAway E acts s (.syncProgress height cch preserveError) → s'.HoldsError e) := by
  have hshows : s.ShowsPending ↔ row.ShowsPending := by simp [ShowsPending, hrow]
  rcases updateSyncProgress_error row s.db.queue.rows.isEmpty height cch preserveError with
    ⟨⟨rfl, hat, hempty⟩, hload', hshown'⟩ | ⟨hnot, hload', hshown', hheight'⟩
  · have hnone : s'.HoldsError none := ⟨_, hrow', hload', fun h => absurd h hshown'⟩
    refine ⟨fun _ => hnone, fun hkept => ?_⟩
    cases e with
    | none => exact hnone
    | some x =>
      obtain rfl := hE x rfl
      exfalso
      by_cases hshown : row.ShowsPending
      · -- the update is at the first height of the pending record
        obtain ⟨n, hn⟩ := ne_none_iff_exists'.mp (hheight hshown)
        obtain rfl := hat n hn
        exact hpend ⟨n, cch, row, rfl, isEmpty_iff.mp hempty, hrow, hshown, hn⟩
      · rw [lastErrorHeight_of_displayed hload hshown] at hat
        refine hkept (.inr ⟨?_, ⟨height, cch, rfl⟩, isEmpty_iff.mp hempty,
          mt hshows.mp hshown⟩)
        cases hEh : E.height with
        | none => rfl
        | some n => exact absurd (hat n hEh ▸ hEh) hkeep
  · have hsame : s'.HoldsError e :=
      ⟨_, hrow', hload'.trans hload, fun h => hheight' ▸ hheight (hshown'.mp h)⟩
    refine ⟨?_, fun _ => hsame⟩
    rintro (⟨_, _, _, _, h, -⟩ | ⟨hEh, ⟨_, _, h⟩, hempty, hshown⟩)
    · cases h
    · cases h
      cases e with
      | none => exact hsame
      | some x =>
        obtain rfl := hE x rfl
        refine absurd ⟨rfl, ?_, by simp [hempty]⟩ hnot
        rw [lastErrorHeight_of_displayed hload (mt hshows.mpr hshown), hEh]
        simp

theorem step_held (hE : Possible E e)
    {s s' : System Hash Drainer} {a : Act Hash Drainer} (acts : List (Act Hash Drainer))
    (hs : s.step a = some s') (hkeep : s.KeepsClearOf E a) (hpend : ¬ s.ClearsPendingRecord a)
    (hheld : s.HoldsError e) :
    (TakesAway E acts s a → s'.HoldsError none) ∧ (¬ TakesAway E acts s a → s'.HoldsError e) := by
  obtain ⟨row, hrow, hload, hheight⟩ := hheld
  have hcode : ∀ x ∈ e, x.code ≠ reconcilePending := fun x hx => hE x hx ▸ E.code_ne
  cases step_sync hs with
  | keep ha ha' hrow' =>
    have hnot : ¬ TakesAway E acts s a := by
      rintro (⟨now, pending, affected, readModel, rfl, -⟩ | ⟨-, ⟨height, cch, rfl⟩, -⟩)
      · exact ha now pending affected readModel rfl
      · exact ha' height cch false rfl
    exact ⟨fun h => absurd h hnot, fun _ => ⟨row, hrow'.trans hrow, hload, hheight⟩⟩
  | mark now pending affected readModel row₁ row' ha hrow₁ hmark hrow' =>
    obtain rfl := some.inj (hrow.symm.trans hrow₁)
    have hnew := holdsError_replaceSuffix hE hload hmark hrow'
    subst ha
    have htakes : TakesAway E acts s (.replaceSuffix now pending affected readModel) ↔
        E.isResolvedBy pending = true := by
      constructor
      · rintro (⟨_, _, _, _, h, hres⟩ | ⟨-, ⟨_, _, h⟩, -⟩)
        · cases h
          exact hres
        · cases h
      · exact fun hres => .inl ⟨now, pending, affected, readModel, rfl, hres⟩
    rw [htakes]
    cases e with
    | none => exact ⟨fun _ => hnew, fun _ => hnew⟩
    | some x =>
      obtain rfl := hE x rfl
      cases hres : E.isResolvedBy pending with
      | true => exact ⟨fun _ => by simpa [Option.filter, hres] using hnew, by simp⟩
      | false => exact ⟨by simp, fun _ => by simpa [Option.filter, hres] using hnew⟩
  | clear row₁ row' queueEmpty ha hrow₁ hclear hrow' =>
    obtain rfl := some.inj (hrow.symm.trans hrow₁)
    have hnot : ¬ TakesAway E acts s a := by
      rintro (⟨_, _, _, _, rfl, -⟩ | ⟨-, ⟨_, _, rfl⟩, -⟩) <;> simp at ha
    refine ⟨fun h => absurd h hnot, fun _ => ?_⟩
    rcases clearPendingError_eq_ok hclear with rfl | ⟨e', he', rfl⟩
    · exact ⟨row', hrow', hload, hheight⟩
    · obtain rfl : e = e' := Except.ok.inj (hload.symm.trans he')
      exact ⟨_, hrow', load_showError hcode, fun h => absurd h (not_showsPending_showError hcode)⟩
  | error height code message details ha hrow' =>
    subst ha
    have hnot : ¬ TakesAway E acts s (.syncError height code message details) := by
      rintro (⟨_, _, _, _, h, -⟩ | ⟨-, ⟨_, _, h⟩, -⟩) <;> cases h
    obtain ⟨row₁, hrow₁, hshown⟩ := hkeep
    obtain rfl := some.inj (hrow.symm.trans hrow₁)
    rw [hrow, map_some, updateSyncError_of_showsPending hshown] at hrow'
    exact ⟨fun h => absurd h hnot, fun _ => ⟨row, hrow', hload, hheight⟩⟩
  | progress height cch preserveError ha hrow' =>
    subst ha
    rw [hrow, map_some] at hrow'
    exact holdsError_syncProgress hE hrow hload hheight hrow' hkeep hpend

/-- **A suspended error survives.**  From a status row with a producer error `E` on display, run
any suffix replacements, queue and drainer steps, errors recorded while a pending record is on
display, and progress updates at other heights than `E`'s own that do not clear a pending record
off an empty queue.  Whenever no pending record is on display, `E` is, with its code, height,
message and details, unless a replacement resolved it or, `E` being without a height, a progress
update cleared it on an empty queue; then no error is. -/
theorem suspended_error_survives (E : ProducerError) {s₀ s : System Hash Drainer}
    {row₀ : SyncStateRow Hash} {acts : List (Act Hash Drainer)}
    (hrow₀ : s₀.db.syncState = some row₀)
    (hE : row₀.visibleError = some E.toSuspendedSyncError) (hrun : exec step s₀ acts = some s)
    (halong : Along step (fun s a => s.KeepsClearOf E a ∧ ¬ s.ClearsPendingRecord a) s₀ acts) :
    ∃ row, s.db.syncState = some row ∧ (¬ row.ShowsPending →
      (Happens step (TakesAway E) s₀ acts → row.visibleError = none) ∧
      (¬ Happens step (TakesAway E) s₀ acts →
        row.visibleError = some E.toSuspendedSyncError)) := by
  have hcode₀ : row₀.lastErrorCode = some E.code := by
    obtain ⟨c, hc, hE⟩ := map_eq_some_iff.mp hE
    rw [hc, ← hE]
  have hshown₀ : ¬ row₀.ShowsPending := by
    simpa [SyncStateRow.ShowsPending, hcode₀] using E.code_ne
  have hheld := exec_history
    (J := fun acts s => (Happens step (TakesAway E) s₀ acts → s.HoldsError none) ∧
      (¬ Happens step (TakesAway E) s₀ acts → s.HoldsError (some E.toSuspendedSyncError)))
    ⟨fun h => absurd h not_happens_nil, fun _ => ⟨row₀, hrow₀,
      (if_neg hshown₀).trans (congrArg _ hE), fun h => absurd h hshown₀⟩⟩
    (fun acts s a s' hacts hJ hG hs => ?_) hrun halong
  · by_cases hdone : Happens step (TakesAway E) s₀ acts
    · obtain ⟨row, hrow, hload, -⟩ := hheld.1 hdone
      refine ⟨row, hrow, fun hshown => ⟨fun _ => ?_, fun h => absurd hdone h⟩⟩
      rw [loadSuspendedSyncError, if_neg hshown] at hload
      exact Except.ok.inj hload
    · obtain ⟨row, hrow, hload, -⟩ := hheld.2 hdone
      refine ⟨row, hrow, fun hshown => ⟨fun h => absurd h hdone, fun _ => ?_⟩⟩
      rw [loadSuspendedSyncError, if_neg hshown] at hload
      exact Except.ok.inj hload
  · rw [happens_snoc hacts]
    by_cases hdone : Happens step (TakesAway E) s₀ acts
    · have hstep := step_held (by simp [Possible]) acts hs hG.1 hG.2 (hJ.1 hdone)
      refine ⟨fun _ => ?_, fun h => absurd (.inl hdone) h⟩
      by_cases htake : TakesAway E acts s a
      · exact hstep.1 htake
      · exact hstep.2 htake
    · have hstep := step_held (by simp [Possible]) acts hs hG.1 hG.2 (hJ.2 hdone)
      refine ⟨fun h => hstep.1 (h.resolve_left hdone), fun h => hstep.2 fun ht => h (.inr ht)⟩

/-- A fetch failure at some height, which no replacement resolves. -/
def fetchFailed (height : Option Int) : ProducerError where
  code := "coinbase_fetch_failed"
  height := height.filter (decide <| InI32 ·)
  message := some "timeout"
  details := .obj []
  code_ne := by decide
  height_range := fun _ hn => of_decide_eq_true (mem_filter_iff.mp hn).2

/-- The database of `childOfOne`, an empty queue, and `E` on display. -/
def showing (E : ProducerError) : System Nat Nat where
  db.readModel := childOfOne
  db.queue := Table.empty
  db.syncState := some (SyncStateRow.showError ⟨none, none, 2, none, none, none, none, none, .null⟩
    E.toSuspendedSyncError)
  hand := fun _ => none

/-- Heights `10` to `12` are replaced. -/
def replacesTenToTwelve : ReplacementPending Nat := ⟨12, 9, 10, 12, 112, 12, 112, 1, 2⟩

/-- A replacement queues `1`; drainer `0` reconciles it and expands it, which queues `2`, and then
reconciles `2`. -/
def replacedAndDrained : List (Act Nat Nat) :=
  [.replaceSuffix 0 replacesTenToTwelve [1] childOfOne, .load 0, .reconcile 0 1 [] childOfOne,
    .load 0, .expand 0 2, .load 0, .reconcile 0 3 [] childOfOne]

/-- Drainer `0` finds the queue empty and the fetch failure at height `3` is on display again. -/
theorem fetch_failure_survives_replacement :
    ∃ s row, exec step (showing (fetchFailed (some 3))) (replacedAndDrained ++ [.load 0]) = some s ∧
      s.db.syncState = some row ∧ ¬ row.ShowsPending ∧
      row.visibleError = some (fetchFailed (some 3)).toSuspendedSyncError := by
  obtain ⟨s, row, hs, hrow, hshown⟩ : ∃ s row,
      exec step (showing (fetchFailed (some 3))) (replacedAndDrained ++ [.load 0]) = some s ∧
        s.db.syncState = some row ∧ ¬ row.ShowsPending := ⟨_, _, rfl, rfl, by decide⟩
  have halong : Along step (fun s a => s.KeepsClearOf (fetchFailed (some 3)) a ∧
      ¬ s.ClearsPendingRecord a) (showing (fetchFailed (some 3)))
      (replacedAndDrained ++ [.load 0]) := by
    refine along_of_forall _ fun s a ha => ?_
    simp only [replacedAndDrained, cons_append, nil_append, mem_cons,
      not_mem_nil, or_false] at ha
    rcases ha with rfl | rfl | rfl | rfl | rfl | rfl | rfl | rfl <;>
      exact ⟨trivial, fun ⟨_, _, _, h, _⟩ => by cases h⟩
  have hnot : ¬ Happens step (TakesAway (fetchFailed (some 3))) (showing (fetchFailed (some 3)))
      (replacedAndDrained ++ [.load 0]) := by
    rintro ⟨pre, a, post, s', hsplit, -, ⟨now, pending, affected, readModel, rfl, hres⟩ | h⟩
    · simp [SuspendedSyncError.isResolvedBy, fetchFailed, suffixResolvedStructuralErrors] at hres
    · exact absurd h.1 (by decide)
  obtain ⟨row', hrow', hE⟩ := suspended_error_survives (fetchFailed (some 3)) rfl rfl hs halong
  obtain rfl := some.inj (hrow.symm.trans hrow')
  exact ⟨s, row, hs, hrow, hshown, (hE hshown).2 hnot⟩

/-- **Progress clears more than the error of its height.**  A fetch failure without a height is
cleared by any progress update on an empty queue.  And a fetch failure at height `3`, filed by a
replacement of the heights `10` to `12`, is lost with the pending record: the last settle of the
drain empties the queue, and before a drainer finds it empty progress is made at height `10`. -/
theorem progress_clears_pending_record :
    (∃ s row, exec step (showing (fetchFailed none)) [.syncProgress 5 2 false] = some s ∧
      s.db.queue.rows = [] ∧ s.db.syncState = some row ∧ row.visibleError = none) ∧
    (∃ s row, exec step (showing (fetchFailed (some 3)))
        (replacedAndDrained ++ [.syncProgress 10 12 false]) = some s ∧
      s.db.queue.rows = [] ∧ s.db.syncState = some row ∧ row.visibleError = none) :=
  ⟨⟨_, _, rfl, rfl, rfl, rfl⟩, ⟨_, _, rfl, rfl, rfl, rfl⟩⟩

end MergeMiningMonitor.System
