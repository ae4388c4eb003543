import MergeMiningMonitor.ReadModel.Rows
import MergeMiningMonitor.Support.Runs

/-!
# Historical — Drain

`historical_reconcile_queue` and the loop that drains it.  A row is drained in two phases: its
parent is reconciled, and the parents that changed are stored in the row as seeds; then the
dependents of the seeds are reconciled breadth first, each in its own transaction, and the row is
deleted.  The frontier of that cascade lives in memory only.

What a reconcile does is a parameter (`Reconciler`): any function of the read model that reports
the parents it changed, over any dependency graph.  The drain takes one step at a time (`tick`),
which is a committed transaction or a move in memory; `abort` is a crash, an error or an exhausted
budget, and forgets what was in memory.
-/

namespace MergeMiningMonitor.Historical

open Relational Option

/-- `ReconcileWork`, as `enqueue_dependents` makes it. -/
inductive ReconcileWork (Hash : Type)
  | event (id : Nat)
  | block (hash : Hash)
deriving DecidableEq, Repr

/-- What the drain calls: reconciles over a read model `σ`, and the dependency graph. -/
structure Reconciler (σ Hash : Type) where
  /-- The parent that a piece of evidence attests. -/
  eventParent : Nat → Hash
  /-- Reconcile one parent: the read model afterwards, and the parents that changed. -/
  reconcile : σ → Hash → σ × List Hash
  /-- The child events, derived child blocks and stale competitor blocks of a parent. -/
  dependents : Hash → List (ReconcileWork Hash)
  /-- The local Core-attested block row already proves the parent's classification. -/
  provenCanonical : σ → Hash → Bool
  /-- Refresh the rollups and proofs of proven parents. -/
  refreshRollups : σ → List Hash → σ

namespace Reconciler

variable {σ Hash : Type} (R : Reconciler σ Hash)

/-- The parent that a work item reconciles. -/
def parent : ReconcileWork Hash → Hash
  | .event id => R.eventParent id
  | .block hash => hash

/-- Reconciling a parent again right after reconciling it reports no change. -/
def Idempotent : Prop :=
  ∀ m p, (R.reconcile (R.reconcile m p).1 p).2 = []

/-- The work items that depend on one of `hashes`. -/
def dependentsOf (hashes : List Hash) : List (ReconcileWork Hash) :=
  hashes.flatMap R.dependents

end Reconciler

/-- A row of `historical_reconcile_queue`. -/
structure Row (Hash : Type) where
  hash : Hash
  primaryPending : Bool
  changedHashes : List Hash
  generation : Nat
  enqueuedAt : Int
deriving DecidableEq, Repr

abbrev Queue (Hash : Type) := Table (@Row.hash Hash)

/-- A cascade in memory: the row it drains, the items waiting, the items visited and the number of
parents reconciled so far. -/
structure Cascade (Hash : Type) where
  row : Row Hash
  frontier : List (ReconcileWork Hash)
  visited : List (ReconcileWork Hash)
  parentsReconciled : Nat

/-- The read model, the queue and the cascade in memory, if one is running. -/
structure Drain (σ Hash : Type) where
  readModel : σ
  queue : Queue Hash
  cascade : Option (Cascade Hash)

/-- What the loop does next. -/
inductive Move (Hash : Type)
  /-- `reconcile_proven_canonical_batch` finds these parents. -/
  | bulk (parents : List Hash)
  /-- The next row is a primary. -/
  | primary (row : Row Hash)
  /-- The next row has its seeds stored: start the cascade. -/
  | openCascade (row : Row Hash)
  /-- The next item was visited already. -/
  | skip (work : ReconcileWork Hash)
  /-- The next item is reconciled. -/
  | item (work : ReconcileWork Hash)
  /-- No item is left: delete the row. -/
  | finish

inductive Act (Hash : Type)
  | tick
  | abort
  /-- `enqueue_historical_parent` -/
  | enqueue (now : Int) (hash : Hash)

variable {σ Hash : Type} [LinearOrder Hash]

namespace Queue

/-- `ORDER BY enqueued_at, btc_parent_header_hash`. -/
def queuedBefore (r r' : Row Hash) : Bool :=
  decide (r.enqueuedAt < r'.enqueuedAt) ||
    (decide (r.enqueuedAt = r'.enqueuedAt) && decide (r.hash < r'.hash))

/-- `enqueue_historical_parent`: a new base mutation keeps the seeds not consumed yet. -/
def enqueueHistoricalParent (q : Queue Hash) (now : Int) (hash : Hash) : Queue Hash :=
  q.upsert ⟨hash, true, [], 1, now⟩
    (fun old => { old with primaryPending := true, generation := old.generation + 1 })
    fun _ => rfl

/-- `persist_historical_primary`: store the changed parents as seeds. -/
def persistHistoricalPrimary (q : Queue Hash) (row : Row Hash) (changedHashes : List Hash) :
    Queue Hash :=
  q.update
    (fun r => decide (r.hash = row.hash) && r.primaryPending &&
      decide (r.generation = row.generation))
    (fun r => { r with
      primaryPending := false
      changedHashes := sortedDistinct (r.changedHashes ++ changedHashes)
      generation := r.generation + 1 })
    fun _ => rfl

/-- The queue part of the bulk statement: rows without seeds are done, the others wait for their
cascade. -/
def completeBulk (q : Queue Hash) (parents : List Hash) : Queue Hash :=
  (q.delete fun r =>
    decide (r.hash ∈ parents) && r.primaryPending && r.changedHashes.isEmpty).update
      (fun r => decide (r.hash ∈ parents) && r.primaryPending)
      (fun r => { r with primaryPending := false, generation := r.generation + 1 })
      fun _ => rfl

/-- The statement that ends a cascade. -/
def completeCascade (q : Queue Hash) (row : Row Hash) : Queue Hash :=
  q.delete fun r =>
    decide (r.hash = row.hash) && !r.primaryPending && decide (r.generation = row.generation) &&
      decide (r.changedHashes = row.changedHashes)

end Queue

namespace Drain

variable (R : Reconciler σ Hash) (budget batchSize : Nat)

/-- The parents of a bulk batch. -/
def eligible (s : Drain σ Hash) : List Hash :=
  (((s.queue.rows.filter fun r => r.primaryPending && R.provenCanonical s.readModel r.hash).insertionSort
    fun r r' => Queue.queuedBefore r r' || decide (r = r')).take batchSize).map (·.hash)

/-- What the loop of `drain_historical_reconcile_queue_with_budget` does next, with the loop of
`drain_reconcile_queue` inside it; nothing when the queue is empty, or when the next item exceeds
the cascade budget, which is an error. -/
def move (s : Drain σ Hash) : Option (Move Hash) :=
  match s.cascade with
  | some c =>
    match c.frontier with
    | [] => some .finish
    | w :: _ =>
      if budget ≤ c.parentsReconciled then none
      else if w ∈ c.visited then some (.skip w)
      else some (.item w)
  | none =>
    if (s.eligible R batchSize).isEmpty then
      (s.queue.first Queue.queuedBefore).map fun r =>
        if r.primaryPending then .primary r else .openCascade r
    else some (.bulk (s.eligible R batchSize))

/-- The effect of a move. -/
def apply (s : Drain σ Hash) : Move Hash → Drain σ Hash
  | .bulk parents => { s with
      readModel := R.refreshRollups s.readModel parents
      queue := s.queue.completeBulk parents }
  | .primary row =>
    let (readModel, changedHashes) := R.reconcile s.readModel row.hash
    { s with readModel, queue := s.queue.persistHistoricalPrimary row changedHashes }
  | .openCascade row => { s with
      cascade := some ⟨row, R.dependentsOf row.changedHashes, [], 0⟩ }
  | .skip _ => { s with
      cascade := s.cascade.map fun c => { c with frontier := c.frontier.tail } }
  | .item work =>
    let (readModel, changedHashes) := R.reconcile s.readModel (R.parent work)
    { s with
      readModel
      cascade := s.cascade.map fun c =>
        let visited := work :: c.visited
        { c with
          frontier := c.frontier.tail ++
            (R.dependentsOf changedHashes).filter fun w => decide (w ∉ visited)
          visited
          parentsReconciled := c.parentsReconciled + 1 } }
  | .finish => { s with
      queue := s.cascade.elim s.queue fun c => s.queue.completeCascade c.row
      cascade := none }

/-- One step of the drain, an abort, or an enqueue by an importer. -/
def step (s : Drain σ Hash) : Act Hash → Option (Drain σ Hash)
  | .tick => (s.move R budget batchSize).map (s.apply R)
  | .abort => some { s with cascade := none }
  | .enqueue now hash => some { s with queue := s.queue.enqueueHistoricalParent now hash }

/-- The states in which the loop makes a given move. -/
def Enabled (s : Drain σ Hash) : Move Hash → Prop
  | .bulk parents => s.cascade = none ∧ parents = s.eligible R batchSize
  | .primary row => s.cascade = none ∧ row ∈ s.queue.rows ∧ row.primaryPending = true
  | .openCascade row => s.cascade = none ∧ row ∈ s.queue.rows ∧ row.primaryPending = false
  | .skip work => ∃ c rest, s.cascade = some c ∧ c.frontier = work :: rest ∧ work ∈ c.visited
  | .item work => ∃ c rest, s.cascade = some c ∧ c.frontier = work :: rest ∧ work ∉ c.visited ∧
      c.parentsReconciled < budget
  | .finish => ∃ c, s.cascade = some c ∧ c.frontier = []

theorem enabled_of_move {s : Drain σ Hash} {mv : Move Hash}
    (h : s.move R budget batchSize = some mv) : s.Enabled R budget batchSize mv := by
  rw [move] at h
  cases hc : s.cascade with
  | some c =>
    simp only [hc] at h
    cases hf : c.frontier with
    | nil =>
      obtain rfl : Move.finish = mv := by simpa [hf] using h
      exact ⟨c, hc, hf⟩
    | cons w rest =>
      simp only [hf] at h
      split at h
      · cases h
      · next hb =>
          split at h <;> obtain rfl := some.inj h
          · exact ⟨c, rest, hc, hf, ‹_›⟩
          · exact ⟨c, rest, hc, hf, ‹_›, not_le.mp hb⟩
  | none =>
    simp only [hc] at h
    split at h
    · obtain ⟨r, hr, rfl⟩ := map_eq_some_iff.mp h
      split
      · exact ⟨hc, Table.mem_of_first hr, ‹_›⟩
      · exact ⟨hc, Table.mem_of_first hr, by simpa using ‹¬ r.primaryPending = true›⟩
    · obtain rfl := some.inj h
      exact ⟨hc, rfl⟩

theorem step_tick {s s' : Drain σ Hash} (h : s.step R budget batchSize .tick = some s') :
    ∃ mv, s.move R budget batchSize = some mv ∧ s.Enabled R budget batchSize mv ∧
      s' = s.apply R mv := by
  obtain ⟨mv, hmv, rfl⟩ := map_eq_some_iff.mp h
  exact ⟨mv, hmv, enabled_of_move R budget batchSize hmv, rfl⟩

end Drain

/-! ### Seeds survive every statement but the one that consumes them -/

namespace Queue

/-- The queue has a row of `h` that stores at least these seeds. -/
def Stores (q : Queue Hash) (h : Hash) (seeds : List Hash) : Prop :=
  ∃ r ∈ q.rows, r.hash = h ∧ ∀ k ∈ seeds, k ∈ r.changedHashes

variable {q : Queue Hash} {seeds : List Hash}

omit [LinearOrder Hash] in
theorem stores_of_mem {r : Row Hash} (h : r ∈ q.rows) : q.Stores r.hash r.changedHashes :=
  ⟨r, h, rfl, fun _ hk => hk⟩

theorem stores_enqueueHistoricalParent {h : Hash} (hq : q.Stores h seeds) (now : Int) (k : Hash) :
    (q.enqueueHistoricalParent now k).Stores h seeds := by
  obtain ⟨r, hr, rfl, hseeds⟩ := hq
  have hfind := Table.find?_upsert q ⟨k, true, [], 1, now⟩
    (fun old => { old with primaryPending := true, generation := old.generation + 1 })
    (fun _ => rfl) r.hash
  rw [Table.find?_key hr] at hfind
  split at hfind
  · exact ⟨_, Table.mem_of_find? hfind, rfl, hseeds⟩
  · exact ⟨r, Table.mem_of_find? hfind, rfl, hseeds⟩

theorem stores_persistHistoricalPrimary {h : Hash}
    (hq : q.Stores h seeds) (row : Row Hash) (changedHashes : List Hash) :
    (q.persistHistoricalPrimary row changedHashes).Stores h seeds := by
  obtain ⟨r, hr, rfl, hseeds⟩ := hq
  refine ⟨_, Table.mem_update.mpr ⟨r, hr, rfl⟩, ?_, fun k hk => ?_⟩
  · split <;> rfl
  · split
    · exact mem_sortedDistinct.mpr (List.mem_append_left _ (hseeds k hk))
    · exact hseeds k hk

theorem persistHistoricalPrimary_stores {row : Row Hash} (hrow : row ∈ q.rows)
    (hp : row.primaryPending = true) (changedHashes : List Hash) :
    (q.persistHistoricalPrimary row changedHashes).Stores row.hash changedHashes := by
  refine ⟨_, Table.mem_update.mpr ⟨row, hrow, rfl⟩, ?_, fun k hk => ?_⟩
  · split <;> rfl
  · simp [hp, hk]

theorem stores_completeBulk {h k : Hash}
    (hq : q.Stores h seeds) (hk : k ∈ seeds) (parents : List Hash) :
    (q.completeBulk parents).Stores h seeds := by
  obtain ⟨r, hr, rfl, hseeds⟩ := hq
  -- a row with seeds is not deleted
  have hkept : r ∈ (q.delete fun r =>
      decide (r.hash ∈ parents) && r.primaryPending && r.changedHashes.isEmpty).rows := by
    refine Table.mem_delete.mpr ⟨hr, ?_⟩
    have hne : r.changedHashes ≠ [] := List.ne_nil_of_mem (hseeds k hk)
    simp [hne]
  refine ⟨_, Table.mem_update.mpr ⟨r, hkept, rfl⟩, ?_, fun l hl => ?_⟩
  · split <;> rfl
  · split <;> exact hseeds l hl

theorem stores_completeCascade {h : Hash}
    (hq : q.Stores h seeds) {row : Row Hash} (hne : row.hash ≠ h) :
    (q.completeCascade row).Stores h seeds := by
  obtain ⟨r, hr, rfl, hseeds⟩ := hq
  exact ⟨r, Table.mem_delete.mpr ⟨hr, by simp [Ne.symm hne]⟩, rfl, hseeds⟩

end Queue

end MergeMiningMonitor.Historical
