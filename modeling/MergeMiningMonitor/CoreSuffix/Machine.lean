import MergeMiningMonitor.CoreSuffix.Queue
import MergeMiningMonitor.CoreSuffix.Status
import MergeMiningMonitor.Support.Fallible

/-!
# Core suffix — Machine

Everything that writes the durable Core cascade, as one machine whose steps are the committed
transactions.  Its state is the database and, for every drainer, the work item it loaded and has
not finished (`hand`): a drainer loads in one transaction and writes back in a later one, and
between the two anybody may write.

A reconcile is an arbitrary change of the read model that reports which parents it changed; it
settles the queue row in its own transaction.  Drainers come and go: `abandon` is a drainer that
fails, is stopped, or reaches its budget with an item in hand.

`step_row` says everything a step can do to the queue row of one parent, `step_hand` what it can do
to a drainer's hand and `step_sync` what it can do to the status row.  The results about runs use
nothing else.
-/

namespace MergeMiningMonitor

open Relational Fallible CoreReconcileRow Option

/-- The tables the cascade works on. -/
structure Db (Hash : Type) where
  readModel : ReadModel Hash
  queue : CoreReconcileQueue Hash
  syncState : Option (SyncStateRow Hash)

variable {Hash Drainer : Type} [LinearOrder Hash]

namespace Db

/-- `clear_pending_error_in_transaction`, on the row if there is one. -/
def clearPendingErrorInTransaction (db : Db Hash) : Except String (Db Hash) :=
  match db.syncState with
  | none => .ok db
  | some row => do
    return { db with syncState := some (← row.clearPendingError db.queue.rows.isEmpty) }

/-- `expand_core_reconcile_work`.  A superseded item rolls back and leaves the database as it is;
`none` is a transaction that fails. -/
def expandCoreReconcileWork (db : Db Hash) (now : Int) (w : CoreReconcileWork Hash) :
    Option (Db Hash) :=
  match db.queue.find? w.hash with
  | none => some db
  | some current =>
    if current.primaryPending || decide (current.generation ≠ w.generation) then some db
    else do
      let queue ← db.queue.enqueueDependents now (db.readModel.dependentHashes w.hash)
      ({ db with queue := queue.completeExpansion w }).clearPendingErrorInTransaction.toOption

omit [LinearOrder Hash] in
theorem clearPendingErrorInTransaction_eq_ok {db db' : Db Hash}
    (h : db.clearPendingErrorInTransaction = .ok db') :
    db'.queue = db.queue ∧ db'.readModel = db.readModel ∧
      ((db.syncState = none ∧ db'.syncState = none) ∨ ∃ row row', db.syncState = some row ∧
        row.clearPendingError db.queue.rows.isEmpty = .ok row' ∧ db'.syncState = some row') := by
  cases hs : db.syncState with
  | none =>
    simp only [clearPendingErrorInTransaction, hs, Except.ok.injEq] at h
    subst h
    exact ⟨rfl, rfl, .inl ⟨rfl, hs⟩⟩
  | some row =>
    simp only [clearPendingErrorInTransaction, hs] at h
    cases hc : row.clearPendingError db.queue.rows.isEmpty with
    | error => simp [hc, bind, Except.bind] at h
    | ok row' =>
      simp only [hc, bind, Except.bind, pure, Except.pure, Except.ok.injEq] at h
      subst h
      exact ⟨rfl, rfl, .inr ⟨row, row', rfl, hc, rfl⟩⟩

/-- The drainer of an expansion still finds the row it loaded. -/
def Expandable (db : Db Hash) (w : CoreReconcileWork Hash) : Prop :=
  ∃ r, db.queue.find? w.hash = some r ∧ r.primaryPending = false ∧ r.generation = w.generation

/-- An expansion either finds its row superseded and changes nothing, or takes the row out and
queues every dependent of its parent as a primary. -/
theorem expandCoreReconcileWork_eq_some {db db' : Db Hash} {now : Int}
    {w : CoreReconcileWork Hash} (h : db.expandCoreReconcileWork now w = some db') :
    (¬ db.Expandable w ∧ db' = db) ∨
      (db.Expandable w ∧
        (∀ k, db'.queue.find? k =
          if k = w.hash then none
          else if k ∈ db.readModel.dependentHashes w.hash then
            some (primary now false k (db.queue.find? k))
          else db.queue.find? k) ∧
        ∃ queue, ({ db with queue }).clearPendingErrorInTransaction = .ok db') := by
  rw [expandCoreReconcileWork] at h
  cases hq : db.queue.find? w.hash with
  | none =>
    simp only [hq, Option.some.injEq] at h
    refine .inl ⟨?_, h.symm⟩
    rintro ⟨r, hr, -⟩
    simp [hq] at hr
  | some current =>
    simp only [hq] at h
    split at h
    · next hsup =>
        simp only [Option.some.injEq] at h
        refine .inl ⟨?_, h.symm⟩
        rintro ⟨r, hr, hpp, hgen⟩
        obtain rfl : current = r := by simpa [hq] using hr
        simp [hpp, hgen] at hsup
    · next hcur =>
        simp only [Bool.or_eq_true, not_or, Bool.not_eq_true, decide_eq_true_eq,
          Decidable.not_not] at hcur
        obtain ⟨queue, hqueue, hclear⟩ := bind_eq_some_iff.mp h
        have hclear := toOption_eq_some hclear
        refine .inr ⟨⟨current, hq, hcur.1, hcur.2⟩, fun k => ?_, _, hclear⟩
        rw [(clearPendingErrorInTransaction_eq_ok hclear).1]
        rw [CoreReconcileQueue.find?_completeExpansion,
          CoreReconcileQueue.find?_enqueueDependents hqueue]
        by_cases hk : k = w.hash
        · -- a parent is not its own dependent, so its row is still the one that was loaded
          subst hk
          simp [db.readModel.self_notMem_dependentHashes, hq, hcur, Option.filter]
        · simp [hk]

end Db

/-- The committed transactions that write the queue or the status row, and the drainers' moves. -/
inductive Act (Hash Drainer : Type)
  /-- `enqueue_core_reconcile_hashes` -/
  | enqueuePrimaries (now : Int) (hashes : List Hash) (expandUnchanged : Bool)
  /-- `enqueue_core_reconcile_expansions` -/
  | enqueueExpansions (now : Int) (hashes : List Hash)
  /-- A suffix replacement: new rows, the affected hashes queued, the pending record shown. -/
  | replaceSuffix (now : Int) (pending : ReplacementPending Hash) (affected : List Hash)
      (readModel : ReadModel Hash)
  | load (d : Drainer)
  /-- `reconcile_one_block_strict` of the primary in hand, settled in its transaction. -/
  | reconcile (d : Drainer) (now : Int) (changedHashes : List Hash) (readModel : ReadModel Hash)
  | expand (d : Drainer) (now : Int)
  | abandon (d : Drainer)
  /-- Any other transaction that writes events or blocks. -/
  | write (readModel : ReadModel Hash)
  | syncError (height : Int) (code message : String) (details : Json)
  | syncProgress (height contiguousCompleteHeight : Int) (preserveError : Bool)

/-- The database and the item each drainer has in hand. -/
structure System (Hash Drainer : Type) where
  db : Db Hash
  hand : Drainer → Option (CoreReconcileWork Hash)

namespace System

variable [ToString Hash] [DecidableEq Drainer]

/-- No tables written, no drainer at work. -/
def init : System Hash Drainer := ⟨⟨default, Table.empty, none⟩, fun _ => none⟩

/-- One committed transaction or drainer move; `none` when it fails or is not possible. -/
def step (s : System Hash Drainer) : Act Hash Drainer → Option (System Hash Drainer)
  | .enqueuePrimaries now hashes expandUnchanged => do
    let queue ← s.db.queue.enqueueCoreReconcileHashes now hashes expandUnchanged
    return { s with db := { s.db with queue } }
  | .enqueueExpansions now hashes => do
    let queue ← s.db.queue.enqueueCoreReconcileExpansions now hashes
    return { s with db := { s.db with queue } }
  | .replaceSuffix now pending affected readModel => do
    let row ← s.db.syncState
    let row ← (row.markReplacementPending pending).toOption
    let queue ← s.db.queue.enqueueCoreReconcileHashes now affected true
    return { s with db := { readModel, queue, syncState := some row } }
  | .load d =>
    match s.db.queue.loadNextCoreReconcileWork with
    | some w => some { s with hand := Function.update s.hand d (some w) }
    | none => do
      -- an empty queue ends the drain with `clear_pending_error_if_queue_empty`
      let db ← s.db.clearPendingErrorInTransaction.toOption
      return { db, hand := Function.update s.hand d none }
  | .reconcile d now changedHashes readModel => do
    let w ← s.hand d
    if w.primaryPending then
      let queue ← s.db.queue.settle now w changedHashes
      return ⟨{ s.db with readModel, queue }, Function.update s.hand d none⟩
    else none
  | .expand d now => do
    let w ← s.hand d
    if w.primaryPending then none
    else
      let db ← s.db.expandCoreReconcileWork now w
      return ⟨db, Function.update s.hand d none⟩
  | .abandon d => some { s with hand := Function.update s.hand d none }
  | .write readModel => some { s with db := { s.db with readModel } }
  | .syncError height code message details => some { s with db := { s.db with
      syncState := s.db.syncState.map (·.updateSyncError height code message details) } }
  | .syncProgress height cch preserveError => some { s with db := { s.db with
      syncState := s.db.syncState.map
        (·.updateSyncProgress s.db.queue.rows.isEmpty height cch preserveError) } }

/-! ### What a step does to the queue row of one parent -/

/-- The queue row of `h`. -/
def row (s : System Hash Drainer) (h : Hash) : Option (CoreReconcileRow Hash) :=
  s.db.queue.find? h

section PerAction

variable {s s' : System Hash Drainer} {now : Int}

theorem step_load {d : Drainer} (hs : s.step (.load d) = some s') :
    (∃ w, s' = { s with hand := Function.update s.hand d (some w) }) ∨
      ∃ db, s.db.clearPendingErrorInTransaction = .ok db ∧ s' = ⟨db, Function.update s.hand d none⟩ := by
  simp only [step] at hs
  split at hs
  · exact .inl ⟨_, (some.inj hs).symm⟩
  · obtain ⟨db, hdb, hs⟩ := bind_eq_some_iff.mp hs
    exact .inr ⟨db, toOption_eq_some hdb, (some.inj hs).symm⟩

theorem step_reconcile {d : Drainer} {changedHashes : List Hash} {readModel : ReadModel Hash}
    (hs : s.step (.reconcile d now changedHashes readModel) = some s') :
    ∃ w queue, s.hand d = some w ∧ w.primaryPending = true ∧
      s.db.queue.settle now w changedHashes = some queue ∧
      s' = ⟨{ s.db with readModel, queue }, Function.update s.hand d none⟩ := by
  obtain ⟨w, hw, hs⟩ := bind_eq_some_iff.mp hs
  split at hs
  · next hp =>
      obtain ⟨queue, hqueue, hs⟩ := bind_eq_some_iff.mp hs
      exact ⟨w, queue, hw, hp, hqueue, (some.inj hs).symm⟩
  · cases hs

theorem step_expand {d : Drainer} (hs : s.step (.expand d now) = some s') :
    ∃ w db, s.hand d = some w ∧ w.primaryPending = false ∧
      s.db.expandCoreReconcileWork now w = some db ∧ s' = ⟨db, Function.update s.hand d none⟩ := by
  obtain ⟨w, hw, hs⟩ := bind_eq_some_iff.mp hs
  split at hs
  · cases hs
  · next hp =>
      obtain ⟨db, hdb, hs⟩ := bind_eq_some_iff.mp hs
      exact ⟨w, db, hw, by simpa using hp, hdb, (some.inj hs).symm⟩

theorem row_enqueuePrimaries {hashes : List Hash} {flag : Bool}
    (hs : s.step (.enqueuePrimaries now hashes flag) = some s') (h : Hash) :
    s'.row h = if h ∈ hashes then some (primary now flag h (s.row h)) else s.row h := by
  obtain ⟨q, hq, hs⟩ := bind_eq_some_iff.mp hs
  obtain rfl := some.inj hs
  exact CoreReconcileQueue.find?_enqueueCoreReconcileHashes hq h

theorem row_enqueueExpansions {hashes : List Hash}
    (hs : s.step (.enqueueExpansions now hashes) = some s') (h : Hash) :
    s'.row h = if h ∈ hashes then some (expansion now h (s.row h)) else s.row h := by
  obtain ⟨q, hq, hs⟩ := bind_eq_some_iff.mp hs
  obtain rfl := some.inj hs
  exact CoreReconcileQueue.find?_enqueueCoreReconcileExpansions hq h

theorem row_replaceSuffix {pending : ReplacementPending Hash} {affected : List Hash}
    {readModel : ReadModel Hash}
    (hs : s.step (.replaceSuffix now pending affected readModel) = some s') (h : Hash) :
    s'.row h = if h ∈ affected then some (primary now true h (s.row h)) else s.row h := by
  obtain ⟨row, -, hs⟩ := bind_eq_some_iff.mp hs
  obtain ⟨row', -, hs⟩ := bind_eq_some_iff.mp hs
  obtain ⟨q, hq, hs⟩ := bind_eq_some_iff.mp hs
  obtain rfl := some.inj hs
  exact CoreReconcileQueue.find?_enqueueCoreReconcileHashes hq h

theorem row_load {d : Drainer} (hs : s.step (.load d) = some s') (h : Hash) :
    s'.row h = s.row h := by
  rcases step_load hs with ⟨w, rfl⟩ | ⟨db, hdb, rfl⟩
  · rfl
  · simp only [row, (Db.clearPendingErrorInTransaction_eq_ok hdb).1]

theorem row_reconcile {d : Drainer} {changedHashes : List Hash} {readModel : ReadModel Hash}
    (hs : s.step (.reconcile d now changedHashes readModel) = some s') :
    ∃ w, s.hand d = some w ∧ w.primaryPending = true ∧ ∀ h, s'.row h =
      if h = w.hash then (s.row h).bind
        (CoreReconcileQueue.settledRow w.generation (decide (w.hash ∈ changedHashes)))
      else if h ∈ changedHashes then some (expansion now h (s.row h)) else s.row h := by
  obtain ⟨w, q, hw, hp, hq, rfl⟩ := step_reconcile hs
  exact ⟨w, hw, hp, CoreReconcileQueue.find?_settle hq⟩

theorem row_expand {d : Drainer} (hs : s.step (.expand d now) = some s') :
    ∃ w, s.hand d = some w ∧ w.primaryPending = false ∧
      ((¬ s.db.Expandable w ∧ ∀ h, s'.row h = s.row h) ∨
        (s.db.Expandable w ∧ ∀ h, s'.row h =
          if h = w.hash then none
          else if h ∈ s.db.readModel.dependentHashes w.hash then
            some (primary now false h (s.row h))
          else s.row h)) := by
  obtain ⟨w, db, hw, hp, hdb, rfl⟩ := step_expand hs
  refine ⟨w, hw, hp, ?_⟩
  rcases Db.expandCoreReconcileWork_eq_some hdb with ⟨hne, rfl⟩ | ⟨hexp, hq, -⟩
  · exact .inl ⟨hne, fun _ => rfl⟩
  · exact .inr ⟨hexp, hq⟩

end PerAction

/-- The step enqueues `h` as a primary: on its own, as an affected parent of a suffix replacement,
or as a dependent of an expanded parent. -/
def EnqueuesPrimary (s : System Hash Drainer) (a : Act Hash Drainer) (h : Hash) : Prop :=
  match a with
  | .enqueuePrimaries _ hashes _ => h ∈ hashes
  | .replaceSuffix _ _ affected _ => h ∈ affected
  | .expand d _ => ∃ w, s.hand d = some w ∧ s.db.Expandable w ∧
      h ∈ s.db.readModel.dependentHashes w.hash
  | _ => False

/-- The step enqueues `h` as an expansion: on its own, or as a changed sibling. -/
def EnqueuesExpansion (s : System Hash Drainer) (a : Act Hash Drainer) (h : Hash) : Prop :=
  match a with
  | .enqueueExpansions _ hashes => h ∈ hashes
  | .reconcile d _ changedHashes _ => ∃ w, s.hand d = some w ∧ h ≠ w.hash ∧ h ∈ changedHashes
  | _ => False

/-- The step commits an expansion of `h` that was not superseded, and afterwards every dependent
of `h` is queued as a primary. -/
def Expands (s : System Hash Drainer) (a : Act Hash Drainer) (h : Hash)
    (s' : System Hash Drainer) : Prop :=
  ∃ d now w, a = .expand d now ∧ s.hand d = some w ∧ w.hash = h ∧ s.db.Expandable w ∧
    ∀ k ∈ s.db.readModel.dependentHashes h, ∃ r, s'.row k = some r ∧ r.primaryPending = true

/-- Everything a step can do to the queue row of `h`. -/
inductive RowMove (s : System Hash Drainer) (a : Act Hash Drainer) (h : Hash)
    (s' : System Hash Drainer) : Prop
  | keep (hrow : s'.row h = s.row h)
  | primary (now : Int) (flag : Bool) (he : s.EnqueuesPrimary a h)
      (hrow : s'.row h = some (CoreReconcileRow.primary now flag h (s.row h)))
  | expansion (now : Int) (he : s.EnqueuesExpansion a h)
      (hrow : s'.row h = some (CoreReconcileRow.expansion now h (s.row h)))
  | settle (d : Drainer) (now : Int) (changedHashes : List Hash) (readModel : ReadModel Hash)
      (w : CoreReconcileWork Hash) (ha : a = .reconcile d now changedHashes readModel)
      (hd : s.hand d = some w) (hw : w.hash = h) (hp : w.primaryPending = true)
      (hrow : s'.row h = (s.row h).bind
        (CoreReconcileQueue.settledRow w.generation (decide (h ∈ changedHashes))))
  | complete (he : s.Expands a h s') (hrow : s'.row h = none)

variable {a : Act Hash Drainer} {s s' : System Hash Drainer}

theorem step_row (hs : s.step a = some s')
    (h : Hash) : RowMove s a h s' := by
  cases a with
  | enqueuePrimaries now hashes flag =>
    have hrow := row_enqueuePrimaries hs h
    by_cases hm : h ∈ hashes
    · exact .primary now flag hm (hrow.trans (if_pos hm))
    · exact .keep (hrow.trans (if_neg hm))
  | enqueueExpansions now hashes =>
    have hrow := row_enqueueExpansions hs h
    by_cases hm : h ∈ hashes
    · exact .expansion now hm (hrow.trans (if_pos hm))
    · exact .keep (hrow.trans (if_neg hm))
  | replaceSuffix now pending affected readModel =>
    have hrow := row_replaceSuffix hs h
    by_cases hm : h ∈ affected
    · exact .primary now true hm (hrow.trans (if_pos hm))
    · exact .keep (hrow.trans (if_neg hm))
  | load d => exact .keep (row_load hs h)
  | reconcile d now changedHashes readModel =>
    obtain ⟨w, hw, hp, hrow⟩ := row_reconcile hs
    by_cases hk : h = w.hash
    · subst hk
      exact .settle d now changedHashes readModel w rfl hw rfl hp
        ((hrow w.hash).trans (if_pos rfl))
    · by_cases hm : h ∈ changedHashes
      · exact .expansion now ⟨w, hw, hk, hm⟩
          (((hrow h).trans (if_neg hk)).trans (if_pos hm))
      · exact .keep (((hrow h).trans (if_neg hk)).trans (if_neg hm))
  | expand d now =>
    obtain ⟨w, hw, -, ⟨-, hrow⟩ | ⟨hexp, hrow⟩⟩ := row_expand hs
    · exact .keep (hrow h)
    · by_cases hk : h = w.hash
      · subst hk
        refine .complete ⟨d, now, w, rfl, hw, rfl, hexp, fun k hk => ?_⟩ (by simp [hrow])
        have hne : k ≠ w.hash := fun e =>
          s.db.readModel.self_notMem_dependentHashes w.hash (e ▸ hk)
        exact ⟨CoreReconcileRow.primary now false k (s.row k), by simp [hrow, hne, hk],
          primary_primaryPending ..⟩
      · by_cases hm : h ∈ s.db.readModel.dependentHashes w.hash
        · exact .primary now false ⟨w, hw, hexp, hm⟩ (by simp [hrow, hk, hm])
        · exact .keep (by simp [hrow, hk, hm])
  | _ =>
    obtain rfl := some.inj hs
    exact .keep rfl

/-- Everything a step can do to the status row. -/
inductive SyncMove (s : System Hash Drainer) (a : Act Hash Drainer) (s' : System Hash Drainer) :
    Prop
  | keep (ha : ∀ now pending affected readModel, a ≠ .replaceSuffix now pending affected readModel)
      (ha' : ∀ height cch preserveError, a ≠ .syncProgress height cch preserveError)
      (hrow : s'.db.syncState = s.db.syncState)
  | mark (now : Int) (pending : ReplacementPending Hash) (affected : List Hash)
      (readModel : ReadModel Hash) (row row' : SyncStateRow Hash)
      (ha : a = .replaceSuffix now pending affected readModel)
      (hrow : s.db.syncState = some row) (hmark : row.markReplacementPending pending = .ok row')
      (hrow' : s'.db.syncState = some row')
  | clear (row row' : SyncStateRow Hash) (queueEmpty : Bool)
      (ha : (∃ d, a = .load d) ∨ ∃ d now, a = .expand d now)
      (hrow : s.db.syncState = some row) (hclear : row.clearPendingError queueEmpty = .ok row')
      (hrow' : s'.db.syncState = some row')
  | error (height : Int) (code message : String) (details : Json)
      (ha : a = .syncError height code message details)
      (hrow : s'.db.syncState =
        s.db.syncState.map (·.updateSyncError height code message details))
  | progress (height cch : Int) (preserveError : Bool)
      (ha : a = .syncProgress height cch preserveError)
      (hrow : s'.db.syncState = s.db.syncState.map
        (·.updateSyncProgress s.db.queue.rows.isEmpty height cch preserveError))

omit [LinearOrder Hash] [DecidableEq Drainer] in
theorem SyncMove.of_clear {db : Db Hash}
    (ha : (∃ d, a = .load d) ∨ ∃ d now, a = .expand d now)
    (hclear : db.clearPendingErrorInTransaction = .ok s'.db)
    (hsync : db.syncState = s.db.syncState) : SyncMove s a s' := by
  obtain ⟨-, -, ⟨hnone, hnone'⟩ | ⟨row, row', hrow, hc, hrow'⟩⟩ :=
    Db.clearPendingErrorInTransaction_eq_ok hclear
  · refine .keep ?_ ?_ (hnone'.trans (hnone.symm.trans hsync)) <;>
      rcases ha with ⟨d, rfl⟩ | ⟨d, now, rfl⟩ <;> simp
  · exact .clear row row' _ ha (hsync.symm.trans hrow) hc hrow'

theorem step_sync (hs : s.step a = some s') : SyncMove s a s' := by
  cases a with
  | enqueuePrimaries now hashes flag =>
    obtain ⟨q, -, hs⟩ := bind_eq_some_iff.mp hs
    obtain rfl := some.inj hs
    exact .keep (by simp) (by simp) rfl
  | enqueueExpansions now hashes =>
    obtain ⟨q, -, hs⟩ := bind_eq_some_iff.mp hs
    obtain rfl := some.inj hs
    exact .keep (by simp) (by simp) rfl
  | replaceSuffix now pending affected readModel =>
    obtain ⟨row, hrow, hs⟩ := bind_eq_some_iff.mp hs
    obtain ⟨row', hmark, hs⟩ := bind_eq_some_iff.mp hs
    obtain ⟨q, -, hs⟩ := bind_eq_some_iff.mp hs
    obtain rfl := some.inj hs
    exact .mark now pending affected readModel row row' rfl hrow (toOption_eq_some hmark) rfl
  | load d =>
    rcases step_load hs with ⟨w, rfl⟩ | ⟨db, hdb, rfl⟩
    · exact .keep (by simp) (by simp) rfl
    · exact .of_clear (.inl ⟨d, rfl⟩) hdb rfl
  | reconcile d now changedHashes readModel =>
    obtain ⟨w, q, -, -, -, rfl⟩ := step_reconcile hs
    exact .keep (by simp) (by simp) rfl
  | expand d now =>
    obtain ⟨w, db, -, -, hdb, rfl⟩ := step_expand hs
    rcases Db.expandCoreReconcileWork_eq_some hdb with ⟨-, rfl⟩ | ⟨-, -, queue, hclear⟩
    · exact .keep (by simp) (by simp) rfl
    · exact .of_clear (.inr ⟨d, now, rfl⟩) hclear rfl
  | syncError height code message details =>
    obtain rfl := some.inj hs
    exact .error height code message details rfl rfl
  | syncProgress height cch preserveError =>
    obtain rfl := some.inj hs
    exact .progress height cch preserveError rfl rfl
  | _ =>
    obtain rfl := some.inj hs
    exact .keep (by simp) (by simp) rfl

end System

end MergeMiningMonitor
