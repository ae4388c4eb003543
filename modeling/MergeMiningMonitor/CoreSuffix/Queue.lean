import MergeMiningMonitor.ReadModel.Rows

/-!
# Core suffix — Queue

`bitcoin_core_reconcile_queue`, the durable work list of the Bitcoin Core cascade, for one source:
every statement filters on `source_id`, which leads the primary key.

A row is in one of two phases.  While `primary_pending`, its parent is to be reconciled; after
that, its parent's dependents are to be enqueued (expanded).  `expand_unchanged` asks for the
second phase even when the first changed nothing.  Every write moves `generation`, and a drainer
names the generation it loaded when it writes back.

Each statement has one lemma that says what a lookup returns after it.
-/

namespace MergeMiningMonitor

open Relational List Option

/-- A row of `bitcoin_core_reconcile_queue`. -/
structure CoreReconcileRow (Hash : Type) where
  hash : Hash
  primaryPending : Bool
  expandUnchanged : Bool
  generation : Nat
  enqueuedAt : Int
deriving DecidableEq, Repr

/-- `CoreReconcileWork`: what a drainer remembers of the row it loaded. -/
structure CoreReconcileWork (Hash : Type) where
  hash : Hash
  primaryPending : Bool
  generation : Nat
deriving DecidableEq, Repr

/-- The rows of one source. -/
abbrev CoreReconcileQueue (Hash : Type) := Table (@CoreReconcileRow.hash Hash)

variable {Hash : Type}

namespace CoreReconcileRow

/-- A row the drainer of `w` would still recognise: same phase, same generation. -/
def Carries (r : CoreReconcileRow Hash) (w : CoreReconcileWork Hash) : Prop :=
  r.primaryPending = w.primaryPending ∧ r.generation = w.generation

/-- The dependents of this row's parent are to be enqueued, whatever a reconcile reports. -/
def OwesExpansion (r : CoreReconcileRow Hash) : Prop :=
  r.primaryPending = false ∨ r.expandUnchanged = true

/-- The row that `enqueue_core_reconcile_hashes` leaves for `h`. -/
def primary (now : Int) (expandUnchanged : Bool) (h : Hash) :
    Option (CoreReconcileRow Hash) → CoreReconcileRow Hash
  | none => ⟨h, true, expandUnchanged, 1, now⟩
  | some old =>
    { old with
      primaryPending := true
      expandUnchanged := old.expandUnchanged || expandUnchanged || !old.primaryPending
      generation := old.generation + 1 }

@[simp] theorem primary_primaryPending (now : Int) (expandUnchanged : Bool) (h : Hash)
    (old : Option (CoreReconcileRow Hash)) :
    (primary now expandUnchanged h old).primaryPending = true := by
  cases old <;> rfl

/-- The row that `enqueue_core_reconcile_expansions` leaves for `h`. -/
def expansion (now : Int) (h : Hash) :
    Option (CoreReconcileRow Hash) → CoreReconcileRow Hash
  | none => ⟨h, false, false, 1, now⟩
  | some old => { old with expandUnchanged := true, generation := old.generation + 1 }

end CoreReconcileRow

variable [LinearOrder Hash]

namespace CoreReconcileQueue

open CoreReconcileRow

variable (q : CoreReconcileQueue Hash) (now : Int)

def enqueueCoreReconcileHashes (hashes : List Hash) (expandUnchanged : Bool) :
    Option (CoreReconcileQueue Hash) :=
  q.upsertAll (hashes.map fun h => primary now expandUnchanged h none)
    (fun new old => primary now new.expandUnchanged new.hash (some old)) fun _ _ => rfl

def enqueueCoreReconcileExpansions (hashes : List Hash) : Option (CoreReconcileQueue Hash) :=
  q.upsertAll (hashes.map fun h => expansion now h none)
    (fun new old => expansion now new.hash (some old)) fun _ _ => rfl

/-- The drain order of two rows. -/
def queuedBefore (r r' : CoreReconcileRow Hash) : Bool :=
  decide (r.enqueuedAt < r'.enqueuedAt) ||
    (decide (r.enqueuedAt = r'.enqueuedAt) && decide (r.hash < r'.hash))

/-- `load_next_core_reconcile_work`: `ORDER BY enqueued_at, btc_parent_header_hash LIMIT 1`. -/
def loadNextCoreReconcileWork : Option (CoreReconcileWork Hash) :=
  (q.first queuedBefore).map fun r => ⟨r.hash, r.primaryPending, r.generation⟩

/-- `settle_core_reconcile_primary`: retire the primary when nothing changed and nothing asked
for its expansion, otherwise turn it into an expansion.  A row that was written since the load
does not match, and both statements then leave the table alone. -/
def settleCoreReconcilePrimary (hash : Hash) (generation : Nat) (changed : Bool) :
    CoreReconcileQueue Hash :=
  let loaded := fun r : CoreReconcileRow Hash =>
    decide (r.hash = hash) && r.primaryPending && decide (r.generation = generation)
  let retirable := fun r => loaded r && !r.expandUnchanged
  if !changed && q.rows.any retirable then q.delete retirable
  else q.update loaded
    (fun r => { r with primaryPending := false, generation := r.generation + 1 }) fun _ => rfl

/-- The siblings a reconcile changed enter as expansions. -/
def enqueueSiblings (siblings : List Hash) : Option (CoreReconcileQueue Hash) :=
  if siblings.isEmpty then some q else q.enqueueCoreReconcileExpansions now siblings

/-- `DurableCascade::settle`: queue the changed siblings of the reconciled parent for expansion,
then settle the parent's own row. -/
def settle (w : CoreReconcileWork Hash) (changedHashes : List Hash) :
    Option (CoreReconcileQueue Hash) :=
  (q.enqueueSiblings now (changedHashes.filter (· ≠ w.hash))).map fun q =>
    q.settleCoreReconcilePrimary w.hash w.generation (decide (w.hash ∈ changedHashes))

/-- The dependents of an expanded parent enter as primaries, without `expand_unchanged`. -/
def enqueueDependents (dependents : List Hash) : Option (CoreReconcileQueue Hash) :=
  if dependents.isEmpty then some q else q.enqueueCoreReconcileHashes now dependents false

/-- The statement that ends an expansion: `DELETE … WHERE primary_pending = FALSE AND
generation = $3`. -/
def completeExpansion (w : CoreReconcileWork Hash) : CoreReconcileQueue Hash :=
  q.delete fun r =>
    decide (r.hash = w.hash) && !r.primaryPending && decide (r.generation = w.generation)

/-! ### What a lookup returns after each statement -/

private theorem find?_map_hash (mk : Hash → CoreReconcileRow Hash) (hmk : ∀ h, (mk h).hash = h)
    (hashes : List Hash) (k : Hash) :
    (hashes.map mk).find? (fun r => decide (r.hash = k)) =
      if k ∈ hashes then some (mk k) else none := by
  induction hashes with
  | nil => rfl
  | cons h hs ih =>
    rw [map_cons, find?_cons]
    by_cases hk : h = k
    · simp [hmk, hk]
    · simp [hmk, hk, Ne.symm hk, ih]

variable {q now} {hashes : List Hash} {q' : CoreReconcileQueue Hash}

theorem find?_enqueueCoreReconcileHashes {flag : Bool}
    (h : q.enqueueCoreReconcileHashes now hashes flag = some q') (k : Hash) :
    q'.find? k = if k ∈ hashes then some (primary now flag k (q.find? k)) else q.find? k := by
  rw [Table.find?_upsertAll h k, find?_map_hash _ (fun _ => rfl)]
  by_cases hk : k ∈ hashes
  · cases hq : q.find? k <;> simp [hk, primary]
  · simp [hk]

theorem find?_enqueueCoreReconcileExpansions
    (h : q.enqueueCoreReconcileExpansions now hashes = some q') (k : Hash) :
    q'.find? k = if k ∈ hashes then some (expansion now k (q.find? k)) else q.find? k := by
  rw [Table.find?_upsertAll h k, find?_map_hash _ (fun _ => rfl)]
  by_cases hk : k ∈ hashes
  · cases hq : q.find? k <;> simp [hk, expansion]
  · simp [hk]

theorem find?_enqueueDependents
    {dependents : List Hash} (h : q.enqueueDependents now dependents = some q') (k : Hash) :
    q'.find? k =
      if k ∈ dependents then some (primary now false k (q.find? k)) else q.find? k := by
  rw [enqueueDependents] at h
  split at h
  · next hempty =>
      cases h
      simp [isEmpty_iff.mp hempty]
  · exact find?_enqueueCoreReconcileHashes h k

theorem find?_enqueueSiblings
    {siblings : List Hash} (h : q.enqueueSiblings now siblings = some q') (k : Hash) :
    q'.find? k = if k ∈ siblings then some (expansion now k (q.find? k)) else q.find? k := by
  rw [enqueueSiblings] at h
  split at h
  · next hempty =>
      cases h
      simp [isEmpty_iff.mp hempty]
  · exact find?_enqueueCoreReconcileExpansions h k

/-- What settling does to the settled parent's own row. -/
def settledRow (generation : Nat) (changed : Bool) (r : CoreReconcileRow Hash) :
    Option (CoreReconcileRow Hash) :=
  if r.primaryPending && decide (r.generation = generation) then
    if !changed && !r.expandUnchanged then none
    else some { r with primaryPending := false, generation := r.generation + 1 }
  else some r

theorem find?_settleCoreReconcilePrimary (q : CoreReconcileQueue Hash) (h : Hash)
    (generation : Nat) (changed : Bool) (k : Hash) :
    (q.settleCoreReconcilePrimary h generation changed).find? k =
      if k = h then (q.find? k).bind (settledRow generation changed) else q.find? k := by
  simp only [settleCoreReconcilePrimary]
  split
  · next hret =>
      -- the first statement matched a row, which has to be the one with key `h`
      simp only [Bool.and_eq_true, Bool.not_eq_true', List.any_eq_true, decide_eq_true_eq] at hret
      obtain ⟨hch, r, hr, ⟨⟨⟨rfl, hpp⟩, hgen⟩, heu⟩⟩ := hret
      rw [Table.find?_delete]
      by_cases hk : k = r.hash
      · subst hk
        simp [Table.find?_key hr, settledRow, hpp, hgen, heu, hch, Option.filter]
      · cases hq : q.find? k with
        | none => simp [hk]
        | some r' => simp [hk, Table.key_of_find? hq, Option.filter]
  · next hret =>
      rw [Table.find?_update]
      cases hq : q.find? k with
      | none => simp
      | some r =>
        obtain rfl : r.hash = k := Table.key_of_find? hq
        by_cases hk : r.hash = h
        · subst hk
          have hkeep : ¬ (changed = false ∧ r.primaryPending = true ∧
              r.generation = generation ∧ r.expandUnchanged = false) := by
            rintro ⟨hch, hpp, hgen, heu⟩
            refine hret ?_
            simp only [hch, Bool.not_false, Bool.true_and, List.any_eq_true]
            exact ⟨r, Table.mem_of_find? hq, by simp [hpp, hgen, heu]⟩
          by_cases hpp : r.primaryPending = true ∧ r.generation = generation
          · obtain ⟨hpp, hgen⟩ := hpp
            cases hch : changed <;> cases heu : r.expandUnchanged <;>
              simp_all [settledRow]
          · simp only [Option.map_some, if_true, Option.bind_some, settledRow]
            simp [hpp]
        · simp [hk]

/-- Settling writes the row of every changed sibling, and the parent's own row. -/
theorem find?_settle {w : CoreReconcileWork Hash}
    {changedHashes : List Hash} (h : q.settle now w changedHashes = some q') (k : Hash) :
    q'.find? k =
      if k = w.hash then
        (q.find? k).bind (settledRow w.generation (decide (w.hash ∈ changedHashes)))
      else if k ∈ changedHashes then some (expansion now k (q.find? k))
      else q.find? k := by
  obtain ⟨q₁, hq₁, rfl⟩ := map_eq_some_iff.mp h
  rw [find?_settleCoreReconcilePrimary, find?_enqueueSiblings hq₁]
  by_cases hk : k = w.hash <;> simp [hk]

theorem find?_completeExpansion (q : CoreReconcileQueue Hash) (w : CoreReconcileWork Hash)
    (k : Hash) :
    (q.completeExpansion w).find? k =
      if k = w.hash then (q.find? k).filter fun r =>
        r.primaryPending || !decide (r.generation = w.generation)
      else q.find? k := by
  rw [completeExpansion, Table.find?_delete]
  cases hq : q.find? k with
  | none => simp
  | some r =>
    obtain rfl : r.hash = k := Table.key_of_find? hq
    by_cases hk : r.hash = w.hash <;> simp [hk, Option.filter]

end CoreReconcileQueue

end MergeMiningMonitor
