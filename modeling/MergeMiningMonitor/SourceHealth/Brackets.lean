import MergeMiningMonitor.SourceHealth.Delta

/-!
# Source health — Brackets

Mutations of parents, each bracketed by its source health: a bracket takes the snapshots of its
parents (`open`), the parents' rows are mutated, the snapshots are taken again and the differences
are applied, source by source (`close`), and the transaction commits.  Many brackets run at once,
statement by statement.

A transaction has the locks of its parents from the beginning, and takes the lock of a health row with
its first write to it; both are released when it ends.  A statement reads what is committed, and
over it the transaction's own rows (`Bracket.view`).  A statement that would have to wait for a lock
is refused here, and a run takes it later.

A bracket of one parent (`apply_source_health_diff`) is the same with one hash.
-/

namespace MergeMiningMonitor.SourceHealth

open Relational

/-- The base whose rows of the parents `hs` are those of `rows`. -/
def Base.overlay {Source Hash : Type} [DecidableEq Hash] (b : Base Source Hash) (hs : List Hash)
    (rows : Base Source Hash) : Base Source Hash where
  events := (b.events.filter fun e => e.btcParentHeaderHash ∉ hs) ++
    rows.events.filter fun e => e.btcParentHeaderHash ∈ hs
  nears := (b.nears.filter fun o => o.btcParentHeaderHash ∉ hs) ++
    rows.nears.filter fun o => o.btcParentHeaderHash ∈ hs
  block h := if h ∈ hs then rows.block h else b.block h

/-! ### Transactions -/

/-- What a transaction does next. -/
inductive Phase (Source Hash : Type)
  /-- `open`: the parents whose snapshot is to be taken, and the snapshots so far. -/
  | opening (todo : List Hash) (before : List (Hash × ParentContribution Source))
  /-- The bracket is open. -/
  | mutating (before : List (Hash × ParentContribution Source))
  /-- `close`: the parents whose snapshot is to be taken again. -/
  | closing (todo : List Hash) (before : List (Hash × ParentContribution Source))
      (after : List (ParentContribution Source))
  /-- The sources whose difference is to be applied, and the difference of the global count. -/
  | applying (deltas : List (Source × SourceHealthDelta)) (invalidUnknownDelta : ℤ)
  /-- The counters of a source are added, and its last event seen is next. -/
  | applied (source : Source) (delta : SourceHealthDelta)
      (deltas : List (Source × SourceHealthDelta)) (invalidUnknownDelta : ℤ)
  /-- The transaction is ready to commit. -/
  | closed

/-- A transaction: its parents, their rows as it has them, and the health rows it wrote. -/
structure Bracket (Source Hash : Type) where
  hashes : List Hash
  rows : Base Source Hash
  phase : Phase Source Hash
  health : Source → Option HealthRow
  invalidUnknownParents : Option ℤ

/-- What is committed, the transactions that run, and who holds the locks. -/
structure Database (Source Hash : Type) where
  base : Base Source Hash
  health : Source → Option HealthRow
  /-- `read_model_invariant.invalid_unknown_parents` -/
  invalidUnknownParents : ℤ
  brackets : ℕ → Option (Bracket Source Hash)
  parentLock : Hash → Option ℕ
  rowLock : Source → Option ℕ
  invariantLock : Option ℕ

variable {Source Hash : Type} [LinearOrder Source] [LinearOrder Hash]

/-- The base tables as the transaction's statements see them. -/
def Bracket.view (T : Bracket Source Hash) (b : Base Source Hash) : Base Source Hash :=
  b.overlay T.hashes T.rows

/-- The lock is free, or the transaction has it. -/
def canLock (t : ℕ) (lock : Option ℕ) : Bool := lock = none || lock = some t

namespace Database

variable (w : Database Source Hash) (t : ℕ) (T : Bracket Source Hash)

/-- The transaction goes on as `T`. -/
def set : Database Source Hash := { w with brackets := Function.update w.brackets t (some T) }

/-- The transaction begins, with the advisory locks of its parents. -/
def begin (hashes : List Hash) : Option (Database Source Hash) :=
  let hs := sortedDistinct hashes
  if w.brackets t = none ∧ ∀ h ∈ hs, w.parentLock h = none then
    some { w.set t ⟨hs, w.base, .opening hs [], fun _ => none, none⟩ with
      parentLock := fun h => if h ∈ hs then some t else w.parentLock h }
  else none

/-- The next statement of `open` or `close`; none when the transaction has to wait for a lock, or has
no statement left. -/
def next : Option (Database Source Hash) :=
  match T.phase with
  | .opening (h :: todo) before =>
    some (w.set t { T with
      phase := .opening todo (before ++ [(h, snapshotParentContribution (T.view w.base) h)]) })
  | .opening [] before => some (w.set t { T with phase := .mutating before })
  | .mutating _ => none
  | .closing (h :: todo) before after =>
    some (w.set t { T with
      phase := .closing todo before (after ++ [snapshotParentContribution (T.view w.base) h]) })
  | .closing [] before after =>
    let (perSource, invalidUnknownDelta) :=
      aggregateSourceHealthDiffs ((before.map (·.2)).zip after)
    some (w.set t { T with
      phase := .applying ((sortedDistinct perSource.keys).map fun s => (s, perSource.delta s))
        invalidUnknownDelta })
  | .applying ((s, delta) :: deltas) invalidUnknownDelta =>
    if canLock t (w.rowLock s) then
      let row := upsertCounters ((T.health s).or (w.health s)) delta
      some { w.set t { T with
          health := Function.update T.health s (some row)
          phase := .applied s delta deltas invalidUnknownDelta } with
        rowLock := Function.update w.rowLock s (some t) }
    else none
  | .applied s delta deltas invalidUnknownDelta =>
    let row := (T.health s).map (setLastEventSeen (T.view w.base) s delta)
    some (w.set t { T with
      health := Function.update T.health s row
      phase := .applying deltas invalidUnknownDelta })
  | .applying [] invalidUnknownDelta =>
    if invalidUnknownDelta = 0 then some (w.set t { T with phase := .closed })
    else if canLock t w.invariantLock then
      let count := T.invalidUnknownParents.getD w.invalidUnknownParents + invalidUnknownDelta
      some { w.set t { T with invalidUnknownParents := some count, phase := .closed } with
        invariantLock := some t }
    else none
  | .closed => none

/-- The transaction ends, and its locks are released. -/
def release : Database Source Hash :=
  { w with
    brackets := Function.update w.brackets t none
    parentLock := fun h => if w.parentLock h = some t then none else w.parentLock h
    rowLock := fun s => if w.rowLock s = some t then none else w.rowLock s
    invariantLock := if w.invariantLock = some t then none else w.invariantLock }

/-- What the transaction wrote is committed. -/
def commit : Database Source Hash :=
  { w.release t with
    base := T.view w.base
    health := fun s => (T.health s).or (w.health s)
    invalidUnknownParents := T.invalidUnknownParents.getD w.invalidUnknownParents }

section Commit

omit [LinearOrder Source]

@[simp] theorem base_commit : (w.commit t T).base = T.view w.base := rfl

@[simp] theorem health_commit (s : Source) :
    (w.commit t T).health s = (T.health s).or (w.health s) := rfl

@[simp] theorem invalidUnknownParents_commit : (w.commit t T).invalidUnknownParents =
    T.invalidUnknownParents.getD w.invalidUnknownParents := rfl

end Commit

end Database

/-- What a transaction is told to do. -/
inductive Action (Source Hash : Type)
  | begin (hashes : List Hash)
  /-- Its own parents' rows become those of `rows`: events and near observations are added, revoked,
  deleted or timed again, and blocks change. -/
  | mutate (rows : Base Source Hash)
  | close
  | next
  | commit
  | rollback

/-- One action of one transaction. -/
def step (w : Database Source Hash) : ℕ × Action Source Hash → Option (Database Source Hash)
  | (t, .begin hashes) => w.begin t hashes
  | (t, .next) => (w.brackets t).bind fun T => w.next t T
  | (t, .rollback) => (w.brackets t).map fun _ => w.release t
  | (t, .mutate rows) => (w.brackets t).bind fun T =>
    match T.phase with
    | .mutating _ => some (w.set t { T with rows })
    | _ => none
  | (t, .close) => (w.brackets t).bind fun T =>
    match T.phase with
    | .mutating before =>
      some (w.set t { T with phase := .closing (before.map (·.1)) before [] })
    | _ => none
  | (t, .commit) => (w.brackets t).bind fun T =>
    match T.phase with
    | .closed => some (w.commit t T)
    | _ => none

/-- The health rows and the global count are those of a recompute from the base tables, where an
absent row is a row of zeros. -/
def Fresh (w : Database Source Hash) : Prop :=
  (∀ s, (w.health s).getD .zero = ((computeSourceHealthFromBase w.base).rows.lookup s).getD .zero) ∧
    w.invalidUnknownParents = (computeSourceHealthFromBase w.base).invalidUnknownParents

/-! ### Overlays -/

section Overlay

variable {b rows : Base Source Hash} {hs : List Hash} {h : Hash}

omit [LinearOrder Source] in
theorem active_overlay : (b.overlay hs rows).active =
    (b.active.filter fun e => e.btcParentHeaderHash ∉ hs) ++
      rows.active.filter fun e => e.btcParentHeaderHash ∈ hs := by
  simp only [Base.active, Base.overlay, List.filter_append, List.filter_filter, Bool.and_comm]

theorem group_overlay {R : Type*} {key : R → Hash} {old new : List R} :
    group key ((old.filter fun r => key r ∉ hs) ++ new.filter fun r => key r ∈ hs) h =
      if h ∈ hs then group key new h else group key old h := by
  have hold : group key (old.filter fun r => key r ∉ hs) h =
      if decide (h ∉ hs) = true then group key old h else [] :=
    group_filter_key (fun h => decide (h ∉ hs)) h
  have hnew : group key (new.filter fun r => key r ∈ hs) h =
      if decide (h ∈ hs) = true then group key new h else [] :=
    group_filter_key (fun h => decide (h ∈ hs)) h
  rw [group, List.filter_append, ← group, ← group, hold, hnew]
  by_cases hh : h ∈ hs <;> simp [hh]

omit [LinearOrder Source] in
theorem sameAt_overlay : SameAt (if h ∈ hs then rows else b) (b.overlay hs rows) h := by
  constructor
  · rw [Base.parentEvents, Base.parentEvents, active_overlay, group_overlay]
    split <;> rfl
  · rw [Base.parentNears, Base.parentNears, Base.overlay, group_overlay]
    split <;> rfl
  · exact apply_ite (fun base => Base.block base h) (h ∈ hs) rows b

end Overlay

section View

variable {T : Bracket Source Hash} {b : Base Source Hash} {h : Hash}

omit [LinearOrder Source] in
theorem sameAt_view (hh : h ∈ T.hashes) : SameAt T.rows (T.view b) h := by
  have hsame : SameAt (if h ∈ T.hashes then T.rows else b) (T.view b) h := sameAt_overlay
  rwa [if_pos hh] at hsame

omit [LinearOrder Source] in
theorem sameAt_view_of_not_mem (hh : h ∉ T.hashes) : SameAt b (T.view b) h := by
  have hsame : SameAt (if h ∈ T.hashes then T.rows else b) (T.view b) h := sameAt_overlay
  rwa [if_neg hh] at hsame

omit [LinearOrder Source] in
theorem replaces_view (hnodup : T.hashes.Nodup) : Replaces T.hashes b (T.view b) :=
  ⟨hnodup, fun _ hh => sameAt_view_of_not_mem hh⟩

end View

end MergeMiningMonitor.SourceHealth
