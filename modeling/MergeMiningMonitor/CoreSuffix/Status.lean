import Mathlib.Data.Option.Basic
import Mathlib.Data.List.Basic
import MergeMiningMonitor.Support.FixedWidth

/-!
# Core suffix — Status

The sync-state row of the contiguous backbone and the writers of its visible error
(`core_suffix_status.rs`, and `update_sync_progress` and `update_sync_error` of the producer).

A committed suffix replacement puts the code `backbone_reorg_reconcile_pending` on display until
the reconcile queue drains, and files the producer error it displaces under `suspended_error` in
the details of the pending record.  `loadSuspendedSyncError` reads the producer error wherever it
is, on display or filed, and each writer is characterised by what it leaves for that reader:
`markReplacementPending` keeps the error unless the replacement resolves it
(`load_markReplacementPending`, by the JSON round trip `fromJson_toJson`), and `clearPendingError`
only moves it back on display (`clearPendingError_eq_ok`, `load_showError`).
-/

namespace MergeMiningMonitor

open FixedWidth

/-- `serde_json::Value`. -/
inductive Json
  | null
  | bool (b : Bool)
  | num (n : Int)
  | str (s : String)
  | arr (vs : List Json)
  | obj (fields : List (String × Json))

namespace Json

/-- `Value::get` at a string key: nothing on anything but an object. -/
def get (key : String) : Json → Option Json
  | .obj fields => fields.lookup key
  | _ => none

end Json

/-- The row of `bitcoin_core_sync_state` for the contiguous mode of one source. -/
structure SyncStateRow (Hash : Type) where
  targetTipHeight : Option Int
  targetTipHash : Option Hash
  contiguousCompleteHeight : Int
  lastScannedHeight : Option Int
  lastAttemptedHeight : Option Int
  lastErrorCode : Option String
  lastErrorHeight : Option Int
  lastError : Option String
  lastErrorDetails : Json

def reconcilePending : String := "backbone_reorg_reconcile_pending"

def suspendedErrorKey : String := "suspended_error"

def suffixResolvedStructuralErrors : List String :=
  ["backbone_height_conflict", "backbone_link_mismatch"]

def repairOwnedErrorCodes : List String :=
  ["near_tip_reorg_repair_retry", "target_tip_changed", "near_tip_reorg_repair_failed",
    "live_window_invariant_failed"]

/-- `ReplacementPending`: what a committed suffix replacement reports to the status row. -/
structure ReplacementPending (Hash : Type) where
  contiguousCompleteHeight : Int
  commonAncestorHeight : Int
  firstHeight : Int
  targetTipHeight : Int
  targetTipHash : Hash
  syncTargetTipHeight : Int
  syncTargetTipHash : Hash
  displacedBlocks : Nat
  queuedHashes : Nat

/-- `SuspendedSyncError`: a producer error, on display or filed. -/
structure SuspendedSyncError where
  code : String
  height : Option Int
  message : Option String
  details : Json

variable {Hash : Type}

namespace SuspendedSyncError

/-- A replacement resolves a structural error at a height it replaced. -/
def isResolvedBy (e : SuspendedSyncError) (pending : ReplacementPending Hash) : Bool :=
  suffixResolvedStructuralErrors.contains e.code &&
    e.height.any fun h =>
      decide (pending.firstHeight ≤ h) && decide (h ≤ pending.targetTipHeight)

def toJson (e : SuspendedSyncError) : Json :=
  .obj [("code", .str e.code), ("height", e.height.elim .null .num),
    ("message", e.message.elim .null .str), ("details", e.details)]

private def heightFromJson : Option Json → Except String (Option Int)
  | none | some .null => .ok none
  | some (.num n) =>
    if InI32 n then .ok (some n)
    else .error "Bitcoin Core suspended sync error height overflows i32"
  | some _ => .error "Bitcoin Core suspended sync error height must be an integer"

private def messageFromJson : Option Json → Except String (Option String)
  | none | some .null => .ok none
  | some (.str s) => .ok (some s)
  | some _ => .error "Bitcoin Core suspended sync error message must be a string"

def fromJson : Option Json → Except String (Option SuspendedSyncError)
  | none => .ok none
  | some value@(.obj _) =>
    match value.get "code" with
    | some (.str code) => do
      let height ← heightFromJson (value.get "height")
      let message ← messageFromJson (value.get "message")
      return some ⟨code, height, message, (value.get "details").getD (.obj [])⟩
    | _ => .error "Bitcoin Core suspended sync error is missing its code"
  | some _ => .error "Bitcoin Core suspended sync error must be a JSON object"

theorem fromJson_toJson {e : SuspendedSyncError} (h : ∀ n ∈ e.height, InI32 n) :
    fromJson (some e.toJson) = .ok (some e) := by
  obtain ⟨code, height, message, details⟩ := e
  have hheight : heightFromJson (some (height.elim .null .num)) = .ok height := by
    cases height with
    | none => rfl
    | some n => simp [heightFromJson, h n rfl]
  have hmessage : messageFromJson (some (message.elim .null .str)) = .ok message := by
    cases message <;> rfl
  simp [fromJson, toJson, Json.get, List.lookup_cons, hheight, hmessage, bind, Except.bind, pure,
    Except.pure]

end SuspendedSyncError

namespace SyncStateRow

open SuspendedSyncError

variable (row : SyncStateRow Hash)

/-- The error on display, if any. -/
def visibleError : Option SuspendedSyncError :=
  row.lastErrorCode.map fun code =>
    ⟨code, row.lastErrorHeight, row.lastError, row.lastErrorDetails⟩

/-- The pending record of a suffix replacement is on display. -/
def ShowsPending : Prop :=
  row.lastErrorCode = some reconcilePending

instance : Decidable row.ShowsPending :=
  inferInstanceAs (Decidable (_ = _))

/-- `load_suspended_sync_error`: the producer error, out of the pending record if that is what is
on display. -/
def loadSuspendedSyncError : Except String (Option SuspendedSyncError) :=
  if row.ShowsPending then fromJson (row.lastErrorDetails.get suspendedErrorKey)
  else .ok row.visibleError

/-- The details of a pending record. -/
def pendingDetails [ToString Hash] (pending : ReplacementPending Hash)
    (suspended : Option SuspendedSyncError) : Json :=
  .obj ([("common_ancestor_height", .num pending.commonAncestorHeight),
    ("replacement_start_height", .num pending.firstHeight),
    ("replacement_target_height", .num pending.targetTipHeight),
    ("replacement_target_hash", .str (toString pending.targetTipHash)),
    ("displaced_blocks", .num pending.displacedBlocks),
    ("queued_hashes", .num pending.queuedHashes)] ++
    suspended.toList.map fun e => (suspendedErrorKey, e.toJson))

/-- The row that shows the pending record of a replacement, `suspended` filed in it. -/
def pendingRow [ToString Hash] (pending : ReplacementPending Hash)
    (suspended : Option SuspendedSyncError) : SyncStateRow Hash where
  targetTipHeight := some pending.syncTargetTipHeight
  targetTipHash := some pending.syncTargetTipHash
  contiguousCompleteHeight := pending.contiguousCompleteHeight
  lastScannedHeight := some pending.syncTargetTipHeight
  lastAttemptedHeight := some pending.syncTargetTipHeight
  lastErrorCode := some reconcilePending
  lastErrorHeight := some pending.firstHeight
  lastError := some "Bitcoin Core canonical suffix replaced; dependent reconciliation pending"
  lastErrorDetails := pendingDetails pending suspended

def markReplacementPending [ToString Hash] (row : SyncStateRow Hash)
    (pending : ReplacementPending Hash) : Except String (SyncStateRow Hash) := do
  let suspended ← row.loadSuspendedSyncError
  return pendingRow pending (suspended.filter fun e => !e.isResolvedBy pending)

/-- The row with `e` on display instead of what it shows. -/
def showError : Option SuspendedSyncError → SyncStateRow Hash
  | some e => { row with
      lastErrorCode := some e.code
      lastErrorHeight := e.height
      lastError := e.message
      lastErrorDetails := e.details }
  | none => { row with
      lastErrorCode := none
      lastErrorHeight := none
      lastError := none
      lastErrorDetails := .obj [] }

/-- `clear_pending_error_in_transaction` on the row, where `queueEmpty` says that no reconcile
work is left: the filed error goes back on display. -/
def clearPendingError (queueEmpty : Bool) : Except String (SyncStateRow Hash) :=
  if queueEmpty ∧ row.ShowsPending then do
    return row.showError (← fromJson (row.lastErrorDetails.get suspendedErrorKey))
  else .ok row

/-- `update_sync_progress`: one height succeeded.  The error on display goes if it is at this
height or at none, unless the batch preserves errors or reconcile work is left. -/
def updateSyncProgress (queueEmpty : Bool) (height : Int) (contiguousCompleteHeight : Int)
    (preserveError : Bool) : SyncStateRow Hash :=
  let scanned := { row with
    contiguousCompleteHeight := max row.contiguousCompleteHeight contiguousCompleteHeight
    lastScannedHeight := some height
    lastAttemptedHeight := some height }
  if !preserveError && (row.lastErrorHeight.all fun h => decide (h = height)) && queueEmpty then
    scanned.showError none
  else scanned

/-- `update_sync_error`: record an error, unless a pending record owns the display or a repair
code would displace a producer error. -/
def updateSyncError (height : Int) (code message : String) (details : Json) : SyncStateRow Hash :=
  if ¬ row.ShowsPending ∧ (code ∉ repairOwnedErrorCodes ∨
      row.lastErrorCode.all fun shown => decide (shown ∈ repairOwnedErrorCodes)) then
    { row.showError (some ⟨code, some height, some message, details⟩) with
      lastScannedHeight := some height
      lastAttemptedHeight := some height }
  else row

/-! ### What each writer leaves for the reader of the producer error -/

variable {row} {pending : ReplacementPending Hash} {row' : SyncStateRow Hash}
  {e : Option SuspendedSyncError}

theorem markReplacementPending_eq_ok [ToString Hash] (h : row.markReplacementPending pending = .ok row') :
    ∃ e, row.loadSuspendedSyncError = .ok e ∧
      row' = pendingRow pending (e.filter fun e => !e.isResolvedBy pending) := by
  cases hl : row.loadSuspendedSyncError with
  | error => simp [markReplacementPending, hl, bind, Except.bind] at h
  | ok e =>
    simp only [markReplacementPending, hl, bind, Except.bind, pure, Except.pure,
      Except.ok.injEq] at h
    exact ⟨e, rfl, h.symm⟩

/-- A pending record files its suspended error where the reader looks for it. -/
theorem fromJson_pendingDetails [ToString Hash] (pending : ReplacementPending Hash)
    {suspended : Option SuspendedSyncError} (h : ∀ e ∈ suspended, ∀ n ∈ e.height, InI32 n) :
    fromJson ((pendingDetails pending suspended).get suspendedErrorKey) = .ok suspended := by
  cases suspended with
  | none => simp [pendingDetails, Json.get, List.lookup_cons, suspendedErrorKey, fromJson]
  | some e =>
    have hget : (pendingDetails pending (some e)).get suspendedErrorKey = some e.toJson := by
      simp [pendingDetails, Json.get, List.lookup_cons, suspendedErrorKey]
    rw [hget, fromJson_toJson (h e rfl)]

/-- A replacement keeps the producer error, on display or already filed, unless it resolves it. -/
theorem load_markReplacementPending [ToString Hash]
    (hload : row.loadSuspendedSyncError = .ok e) (he : ∀ x ∈ e, ∀ n ∈ x.height, InI32 n)
    (h : row.markReplacementPending pending = .ok row') :
    row'.loadSuspendedSyncError = .ok (e.filter fun x => !x.isResolvedBy pending) := by
  obtain ⟨e', he', rfl⟩ := markReplacementPending_eq_ok h
  obtain rfl : e = e' := Except.ok.inj (hload.symm.trans he')
  rw [loadSuspendedSyncError, if_pos (show (pendingRow pending _).ShowsPending from rfl)]
  exact fromJson_pendingDetails pending fun x hx => he x (Option.mem_filter_iff.mp hx).1

theorem visibleError_showError (row : SyncStateRow Hash) (e : Option SuspendedSyncError) :
    (row.showError e).visibleError = e := by
  cases e <;> rfl

theorem not_showsPending_showError {row : SyncStateRow Hash}
    (he : ∀ x ∈ e, x.code ≠ reconcilePending) : ¬ (row.showError e).ShowsPending := by
  cases e with
  | none => simp [showError, ShowsPending]
  | some x => simpa [showError, ShowsPending] using he x rfl

/-- A producer error has another code than a pending record, so on display it reads as itself. -/
theorem load_showError {row : SyncStateRow Hash} (he : ∀ x ∈ e, x.code ≠ reconcilePending) :
    (row.showError e).loadSuspendedSyncError = .ok e := by
  rw [loadSuspendedSyncError, if_neg (not_showsPending_showError he), visibleError_showError]

theorem clearPendingError_eq_ok {queueEmpty : Bool}
    (h : row.clearPendingError queueEmpty = .ok row') :
    row' = row ∨ ∃ e, row.loadSuspendedSyncError = .ok e ∧ row' = row.showError e := by
  rw [clearPendingError] at h
  split at h
  · next hc =>
      cases hl : fromJson (row.lastErrorDetails.get suspendedErrorKey) with
      | error => simp [hl, bind, Except.bind] at h
      | ok e =>
        simp only [hl, bind, Except.bind, pure, Except.pure, Except.ok.injEq] at h
        exact .inr ⟨e, (if_pos hc.2).trans hl, h.symm⟩
  · exact .inl (Except.ok.inj h).symm

/-- A progress update clears what is on display, at this height or at none on an empty queue, or
leaves the error columns alone. -/
theorem updateSyncProgress_error (row : SyncStateRow Hash) (queueEmpty : Bool)
    (height cch : Int) (preserveError : Bool) :
    let row' := row.updateSyncProgress queueEmpty height cch preserveError
    let clears := preserveError = false ∧ (∀ n ∈ row.lastErrorHeight, n = height) ∧
      queueEmpty = true
    (clears ∧ row'.loadSuspendedSyncError = .ok none ∧ ¬ row'.ShowsPending) ∨
      (¬ clears ∧ row'.loadSuspendedSyncError = row.loadSuspendedSyncError ∧
        (row'.ShowsPending ↔ row.ShowsPending) ∧ row'.lastErrorHeight = row.lastErrorHeight) := by
  intro row' clears
  have hcond : (!preserveError && (row.lastErrorHeight.all fun h => decide (h = height)) &&
      queueEmpty) = true ↔ clears := by
    cases hh : row.lastErrorHeight <;> simp [clears, hh, and_assoc]
  by_cases hc : clears
  · have hrow' : row' = _ := if_pos (hcond.mpr hc)
    rw [hrow']
    exact .inl ⟨hc, load_showError (by simp), not_showsPending_showError (by simp)⟩
  · have hrow' : row' = _ := if_neg (mt hcond.mp hc)
    rw [hrow']
    exact .inr ⟨hc, rfl, Iff.rfl, rfl⟩

theorem updateSyncError_of_showsPending {row : SyncStateRow Hash} (h : row.ShowsPending)
    (height : Int) (code message : String) (details : Json) :
    row.updateSyncError height code message details = row :=
  if_neg fun hc => hc.1 h

end SyncStateRow

end MergeMiningMonitor
