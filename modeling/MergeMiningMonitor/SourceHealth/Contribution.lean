import Mathlib.Algebra.BigOperators.Pi
import Mathlib.Data.Int.ConditionallyCompleteOrder
import Mathlib.Order.ConditionallyCompleteLattice.Basic
import Mathlib.Algebra.BigOperators.Ring.Finset
import MergeMiningMonitor.Support.Lists
import MergeMiningMonitor.Support.Grouped
import MergeMiningMonitor.ReadModel.Rows

/-!
# Source health — Contribution

What a Bitcoin parent contributes to the health of each source (`source_health_sql.rs`).  Health is
read from three tables: events, near observations and the blocks derived from them.  A bracket takes
a parent's contribution from the rows of this one parent (`snapshotParentContribution`), and a
rebuild counts over all rows (`computeSourceHealthFromBase`).

The two agree: where no source has both an active event and a near observation on one parent
(`Exclusive`), a counter is the sum over the parents of what each contributes (`computed_counters`),
the last event seen is the latest that a parent contributes (`computed_lastEventSeen`), and the
parents that fail their target are counted one by one (`computed_invalidUnknownParents`).

Sources and hashes are any linear orders.  Of `child_block_observation` only the rows of kind `near`
are read, and these have a parent.
-/

namespace MergeMiningMonitor

open List

/-- The text of a block's kind, as a parent's kind. -/
def BlockKind.parentKind : BlockKind → ParentKind
  | .canonical => .canonical
  | .stale => .stale
  | .invalidBlock => .invalidBlock
  | .unknown => .unknown

theorem BlockKind.parentKind_ne_near (kind : BlockKind) : kind.parentKind ≠ .near := by
  cases kind <;> exact ParentKind.noConfusion

namespace SourceHealth

open Relational Lists

/-! ### The base tables -/

/-- A row of `merge_mining_event`. -/
structure EventRow (Source Hash : Type) where
  sourceId : Source
  btcParentHeaderHash : Hash
  powValidatesBtcTarget : Bool
  confirmedAt : ℤ
  /-- `revoked_at IS NOT NULL` -/
  revoked : Bool

/-- A row of `child_block_observation` of kind `near`. -/
structure NearRow (Source Hash : Type) where
  sourceId : Source
  btcParentHeaderHash : Hash
  recordedAt : ℤ

/-- A row of `block`, whose primary key is the header hash. -/
structure BlockRow where
  kind : BlockKind
  btcOrphanClass : Option OrphanClass

/-- The tables that health is derived from. -/
structure Base (Source Hash : Type) where
  events : List (EventRow Source Hash)
  nears : List (NearRow Source Hash)
  block : Hash → Option BlockRow

variable {Source Hash : Type} [LinearOrder Source] [LinearOrder Hash]

namespace Base

variable (b : Base Source Hash)

/-- The events with `revoked_at IS NULL`. -/
def active : List (EventRow Source Hash) := b.events.filter fun e => !e.revoked

/-- The active events on a parent. -/
def parentEvents (h : Hash) : List (EventRow Source Hash) :=
  group EventRow.btcParentHeaderHash b.active h

/-- The near observations of a parent. -/
def parentNears (h : Hash) : List (NearRow Source Hash) :=
  group NearRow.btcParentHeaderHash b.nears h

/-- The active events of a source. -/
def sourceEvents (s : Source) : List (EventRow Source Hash) := group EventRow.sourceId b.active s

/-- The near observations of a source. -/
def sourceNears (s : Source) : List (NearRow Source Hash) := group NearRow.sourceId b.nears s

/-- The kind of a parent's block; a parent without one is unknown. -/
def currentKind (h : Hash) : ParentKind := ((b.block h).map (·.kind.parentKind)).getD .unknown

def orphanClass (h : Hash) : Option OrphanClass := (b.block h).bind (·.btcOrphanClass)

/-- `bool_or(NOT pow_validates_btc_target)` -/
def hasFailedTarget (h : Hash) : Bool := (b.parentEvents h).any fun e => !e.powValidatesBtcTarget

end Base

/-! ### The snapshot of a parent -/

structure ParentSourceContribution where
  activeEvents : ℤ
  currentKind : ParentKind
  orphanClass : Option OrphanClass
  maxConfirmedAt : ℤ
deriving DecidableEq

/-- `ParentContribution`; the map holds each source once. -/
structure ParentContribution (Source : Type) where
  perSource : List (Source × ParentSourceContribution)
  invalidUnknown : Bool

def orphanBucket (contribution : ParentSourceContribution) : ℤ × ℤ :=
  if contribution.currentKind ≠ .unknown then (0, 0)
  else
    match contribution.orphanClass with
    | some .strictBtcOrphan => (1, 0)
    | some .weakBtcOrphan => (0, 1)
    | _ => (0, 0)

/-- A row of the snapshot query. -/
structure SnapshotRow (Source : Type) extends ParentSourceContribution where
  sourceId : Source
  invalidUnknown : Bool

/-- `max`, over at least one time. -/
def latest (times : List ℤ) : ℤ := (maximumOf times).unbotD 0

section Snapshot

variable (b : Base Source Hash) (h : Hash)

/-- What active events of one source on the parent contribute. -/
def eventsContribution (events : List (EventRow Source Hash)) : ParentSourceContribution where
  activeEvents := events.length
  maxConfirmedAt := latest (events.map (·.confirmedAt))
  currentKind := b.currentKind h
  orphanClass := b.orphanClass h

/-- What near observations of one source contribute. -/
def nearsContribution (nears : List (NearRow Source Hash)) : ParentSourceContribution where
  activeEvents := 0
  maxConfirmedAt := latest (nears.map (·.recordedAt))
  currentKind := .near
  orphanClass := none

/-- The snapshot query: one row for each source with an active event on the parent, and one for each
other source with a near observation of it. -/
def snapshotRows : List (SnapshotRow Source) :=
  ((b.parentEvents h).map (·.sourceId)).dedup.map (fun s =>
    { eventsContribution b h (group EventRow.sourceId (b.parentEvents h) s) with
      sourceId := s
      invalidUnknown := b.currentKind h = .unknown && b.hasFailedTarget h }) ++
  (((b.parentNears h).map (·.sourceId)).dedup.filter
      fun s => !(b.parentEvents h).any (·.sourceId = s)).map (fun s =>
    { nearsContribution (group NearRow.sourceId (b.parentNears h) s) with
      sourceId := s
      invalidUnknown := false })

def snapshotParentContribution : ParentContribution Source :=
  { perSource := (snapshotRows b h).map fun row => (row.sourceId, row.toParentSourceContribution)
    invalidUnknown := (snapshotRows b h).any (·.invalidUnknown) }

/-- What the parent `h` contributes to the source `s`. -/
def contribution (s : Source) : Option ParentSourceContribution :=
  let events := group EventRow.btcParentHeaderHash (b.sourceEvents s) h
  let nears := group NearRow.btcParentHeaderHash (b.sourceNears s) h
  if events ≠ [] then some (eventsContribution b h events)
  else if nears ≠ [] then some (nearsContribution nears)
  else none

variable {b h} {s : Source}

theorem group_parentEvents : group EventRow.sourceId (b.parentEvents h) s =
    group EventRow.btcParentHeaderHash (b.sourceEvents s) h := group_group s h

theorem group_parentNears : group NearRow.sourceId (b.parentNears h) s =
    group NearRow.btcParentHeaderHash (b.sourceNears s) h := group_group s h

/-- A source is among those of the rows exactly when its group is not empty. -/
theorem mem_dedup_map_iff {R : Type*} {key : R → Source} {rows : List R} :
    s ∈ (rows.map key).dedup ↔ group key rows s ≠ [] := by
  rw [mem_dedup, Ne, group_eq_nil_iff, not_not]

theorem lookup_snapshot :
    (snapshotParentContribution b h).perSource.lookup s = contribution b h s := by
  rw [snapshotParentContribution, snapshotRows, map_append, map_map, map_map,
    lookup_append]
  have hevents := lookup_map_mk (a := s)
    (fun s => eventsContribution b h (group EventRow.sourceId (b.parentEvents h) s))
    (l := ((b.parentEvents h).map (·.sourceId)).dedup)
  have hnears := lookup_map_mk (a := s)
    (fun s => nearsContribution (group NearRow.sourceId (b.parentNears h) s))
    (l := ((b.parentNears h).map (·.sourceId)).dedup.filter
      fun s => !(b.parentEvents h).any (·.sourceId = s))
  refine (congrArg₂ Option.or hevents hnears).trans ?_
  have hany : (b.parentEvents h).any (·.sourceId = s) = true ↔
      s ∈ ((b.parentEvents h).map (·.sourceId)).dedup := by simp
  simp only [mem_filter, Bool.not_eq_true', ← Bool.not_eq_true, hany, mem_dedup_map_iff,
    group_parentEvents, group_parentNears, contribution]
  by_cases hes : group EventRow.btcParentHeaderHash (b.sourceEvents s) h = []
  · simp [hes]
  · simp [hes]

theorem invalidUnknown_snapshot : (snapshotParentContribution b h).invalidUnknown =
    (decide (b.currentKind h = .unknown) && b.hasFailedTarget h) := by
  rw [Bool.eq_iff_iff, snapshotParentContribution, any_eq_true]
  constructor
  · rintro ⟨row, hrow, hinvalid⟩
    rcases mem_append.mp hrow with hrow | hrow
    · obtain ⟨s, -, rfl⟩ := mem_map.mp hrow
      exact hinvalid
    · obtain ⟨s, -, rfl⟩ := mem_map.mp hrow
      cases hinvalid
  · intro hinvalid
    obtain ⟨e, he, -⟩ := any_eq_true.mp (Bool.and_eq_true_iff.mp hinvalid).2
    have hsource : e.sourceId ∈ ((b.parentEvents h).map (·.sourceId)).dedup :=
      mem_dedup.mpr (mem_map_of_mem he)
    exact ⟨_, mem_append_left _ (mem_map_of_mem hsource), hinvalid⟩

end Snapshot

/-! ### The recompute -/

/-- The counters of a row of `source_health`. -/
inductive Counter
  | events
  /-- `near_parents`, `unknown_parents`, `canonical_parents`, `stale_parents` and
  `invalid_block_parents` -/
  | parents (kind : ParentKind)
  | strictOrphanParents
  | weakOrphanParents
deriving DecidableEq

/-- A row of `source_health`. -/
@[ext] structure HealthRow where
  counters : Counter → ℤ
  lastEventSeen : WithBot ℤ

/-- What an absent row counts as. -/
def HealthRow.zero : HealthRow := ⟨0, ⊥⟩

namespace Base

variable (b : Base Source Hash)

/-- `COALESCE(block_kind, 'unknown')` of the parent rollup. -/
def rollupKind (h : Hash) : ParentKind :=
  (((b.parentEvents h).filterMap fun e =>
    (b.block e.btcParentHeaderHash).map (·.kind.parentKind)).head?).getD .unknown

/-- `block_orphan_class` of the parent rollup. -/
def rollupOrphanClass (h : Hash) : Option OrphanClass :=
  ((b.parentEvents h).filterMap fun e => (b.block e.btcParentHeaderHash).bind (·.btcOrphanClass)).head?

/-- `count(DISTINCT btc_parent_header_hash)` over the active events of a source whose parent meets a
condition. -/
def distinctParents (s : Source) (condition : Hash → Bool) : ℤ :=
  ((((b.sourceEvents s).filter fun e => condition e.btcParentHeaderHash).map
    (·.btcParentHeaderHash)).dedup.length : ℕ)

/-- The counters of a source, counted over all rows. -/
def computedCounters (s : Source) : Counter → ℤ
  | .events => ((b.sourceEvents s).length : ℕ)
  | .parents .near => (((b.sourceNears s).map (·.btcParentHeaderHash)).dedup.length : ℕ)
  | .parents kind => b.distinctParents s fun h => b.rollupKind h = kind
  | .strictOrphanParents => b.distinctParents s fun h =>
    b.rollupKind h = .unknown && b.rollupOrphanClass h = some .strictBtcOrphan
  | .weakOrphanParents => b.distinctParents s fun h =>
    b.rollupKind h = .unknown && b.rollupOrphanClass h = some .weakBtcOrphan

/-- The latest active event or near observation of a source. -/
def computedLastEventSeen (s : Source) : WithBot ℤ :=
  greatest (maximumOf ((b.sourceEvents s).map (·.confirmedAt)))
    (maximumOf ((b.sourceNears s).map (·.recordedAt)))

/-- The row of a source, counted over all rows. -/
def computedRow (s : Source) : HealthRow := ⟨b.computedCounters s, b.computedLastEventSeen s⟩

/-- The parents of active events that are unknown and fail their target. -/
def computedInvalidUnknownParents : ℤ :=
  (((b.active.map (·.btcParentHeaderHash)).dedup.filter fun h =>
    b.rollupKind h = .unknown && b.hasFailedTarget h).length : ℕ)

end Base

structure ComputedSourceHealth (Source : Type) where
  rows : List (Source × HealthRow)
  invalidUnknownParents : ℤ

/-- `compute_source_health_from_base`: a row for each source with an active event or a near
observation, and the parents that fail their target. -/
def computeSourceHealthFromBase (b : Base Source Hash) : ComputedSourceHealth Source where
  rows := (sortedDistinct (b.active.map (·.sourceId) ++ b.nears.map (·.sourceId))).map
    fun s => (s, b.computedRow s)
  invalidUnknownParents := b.computedInvalidUnknownParents

theorem lookup_computed (b : Base Source Hash) (s : Source) :
    ((computeSourceHealthFromBase b).rows.lookup s).getD .zero = b.computedRow s := by
  rw [computeSourceHealthFromBase, lookup_map_mk]
  split
  · rfl
  · next hs =>
      rw [mem_sortedDistinct, mem_append, not_or] at hs
      have hevents : b.sourceEvents s = [] := group_eq_nil_iff.mpr hs.1
      have hnears : b.sourceNears s = [] := group_eq_nil_iff.mpr hs.2
      have hdistinct : ∀ condition, b.distinctParents s condition = 0 := by
        intro condition
        rw [Base.distinctParents, hevents]
        rfl
      refine HealthRow.ext ?_ ?_
      · funext counter
        change 0 = b.computedCounters s counter
        rcases counter with _ | kind | _ | _
        · rw [Base.computedCounters, hevents]
          rfl
        · cases kind <;> simp [Base.computedCounters, hdistinct, hnears]
        · rw [Base.computedCounters, hdistinct]
        · rw [Base.computedCounters, hdistinct]
      · rw [Base.computedRow, Base.computedLastEventSeen, hevents, hnears]
        rfl

/-! ### Parent by parent -/

/-- What a contribution adds to each counter. -/
def ParentSourceContribution.counts (c : ParentSourceContribution) : Counter → ℤ
  | .events => c.activeEvents
  | .parents kind => if c.currentKind = kind then 1 else 0
  | .strictOrphanParents => (orphanBucket c).1
  | .weakOrphanParents => (orphanBucket c).2

/-- What a parent that contributes `c`, or nothing, adds to each counter. -/
def countsOf (c : Option ParentSourceContribution) : Counter → ℤ :=
  c.elim 0 ParentSourceContribution.counts

/-- The latest capture at a parent that contributes `c`, or nothing. -/
def latestOf (c : Option ParentSourceContribution) : WithBot ℤ := c.elim ⊥ (·.maxConfirmedAt)

/-- No source has both an active event and a near observation on the parent. -/
def ExclusiveAt (b : Base Source Hash) (h : Hash) : Prop :=
  ∀ e ∈ b.parentEvents h, ∀ o ∈ b.parentNears h, e.sourceId ≠ o.sourceId

/-- No source has both an active event and a near observation on one parent. -/
def Exclusive (b : Base Source Hash) : Prop :=
  ∀ e ∈ b.active, ∀ o ∈ b.nears, e.btcParentHeaderHash = o.btcParentHeaderHash →
    e.sourceId ≠ o.sourceId

instance (b : Base Source Hash) : Decidable (Exclusive b) :=
  inferInstanceAs (Decidable (∀ e ∈ b.active, ∀ o ∈ b.nears,
    e.btcParentHeaderHash = o.btcParentHeaderHash → e.sourceId ≠ o.sourceId))

omit [LinearOrder Source] in
theorem exclusive_iff {b : Base Source Hash} : Exclusive b ↔ ∀ h, ExclusiveAt b h := by
  constructor
  · intro hb h e he o ho
    obtain ⟨hactive, hevent⟩ := mem_group.mp he
    obtain ⟨hnear, hparent⟩ := mem_group.mp ho
    exact hb e hactive o hnear (hevent.trans hparent.symm)
  · intro hb e he o ho hparent
    exact hb _ e (mem_group.mpr ⟨he, rfl⟩) o (mem_group.mpr ⟨ho, hparent.symm⟩)

/-- The parents are those of `P`. -/
structure Covers (P : Finset Hash) (b : Base Source Hash) : Prop where
  events : ∀ e ∈ b.active, e.btcParentHeaderHash ∈ P
  nears : ∀ o ∈ b.nears, o.btcParentHeaderHash ∈ P

section Sums

variable {b : Base Source Hash} {h : Hash} {s : Source} {P : Finset Hash}

omit [LinearOrder Source] in
theorem rollupKind_eq (he : b.parentEvents h ≠ []) : b.rollupKind h = b.currentKind h := by
  rw [Base.rollupKind, Base.currentKind]
  refine congrArg (Option.getD · _) (head?_filterMap_of_forall_eq he fun e hmem => ?_)
  rw [(mem_group.mp hmem).2]

omit [LinearOrder Source] in
theorem rollupOrphanClass_eq (he : b.parentEvents h ≠ []) :
    b.rollupOrphanClass h = b.orphanClass h := by
  refine head?_filterMap_of_forall_eq he fun e hmem => ?_
  rw [(mem_group.mp hmem).2, Base.orphanClass]

/-- A source with a near observation of the parent has no active event on it. -/
theorem ExclusiveAt.events_eq_nil (hb : ExclusiveAt b h)
    (hnears : group NearRow.btcParentHeaderHash (b.sourceNears s) h ≠ []) :
    group EventRow.btcParentHeaderHash (b.sourceEvents s) h = [] := by
  rw [← group_parentNears] at hnears
  rw [← group_parentEvents]
  obtain ⟨o, ho⟩ := exists_mem_of_ne_nil _ hnears
  obtain ⟨hnear, hsource⟩ := mem_group.mp ho
  refine eq_nil_iff_forall_not_mem.mpr fun e he => ?_
  obtain ⟨hevent, hsource'⟩ := mem_group.mp he
  exact hb e hevent o hnear (hsource'.trans hsource.symm)

theorem parentEvents_ne_nil (he : group EventRow.btcParentHeaderHash (b.sourceEvents s) h ≠ []) :
    b.parentEvents h ≠ [] := by
  intro hnil
  rw [← group_parentEvents, hnil] at he
  exact he rfl

/-- A parent contributes by the active events of the source, or else by its near observations. -/
theorem contribution_cases (b : Base Source Hash) (h : Hash) (s : Source) :
    (group EventRow.btcParentHeaderHash (b.sourceEvents s) h ≠ [] ∧ contribution b h s =
      some (eventsContribution b h (group EventRow.btcParentHeaderHash (b.sourceEvents s) h))) ∨
    group EventRow.btcParentHeaderHash (b.sourceEvents s) h = [] ∧
      ((group NearRow.btcParentHeaderHash (b.sourceNears s) h ≠ [] ∧ contribution b h s =
        some (nearsContribution (group NearRow.btcParentHeaderHash (b.sourceNears s) h))) ∨
      (group NearRow.btcParentHeaderHash (b.sourceNears s) h = [] ∧ contribution b h s = none)) := by
  by_cases hes : group EventRow.btcParentHeaderHash (b.sourceEvents s) h = []
  · by_cases hns : group NearRow.btcParentHeaderHash (b.sourceNears s) h = []
    · exact .inr ⟨hes, .inr ⟨hns, by simp [contribution, hes, hns]⟩⟩
    · exact .inr ⟨hes, .inl ⟨hns, by simp [contribution, hes, hns]⟩⟩
  · exact .inl ⟨hes, by simp [contribution, hes]⟩

omit [LinearOrder Source] [LinearOrder Hash] in
theorem currentKind_ne_near (b : Base Source Hash) (h : Hash) : b.currentKind h ≠ .near := by
  rw [Base.currentKind]
  cases b.block h with
  | none => exact ParentKind.noConfusion
  | some block => exact block.kind.parentKind_ne_near

theorem countsOf_events : countsOf (contribution b h s) .events =
    (group EventRow.btcParentHeaderHash (b.sourceEvents s) h).length := by
  rcases contribution_cases b h s with ⟨-, hc⟩ | ⟨hes, ⟨-, hc⟩ | ⟨-, hc⟩⟩
  · rw [hc]
    rfl
  · rw [hc, hes]
    rfl
  · rw [hc, hes]
    rfl

theorem countsOf_near (hb : ExclusiveAt b h) : countsOf (contribution b h s) (.parents .near) =
    if group NearRow.btcParentHeaderHash (b.sourceNears s) h = [] then 0 else 1 := by
  rcases contribution_cases b h s with ⟨hes, hc⟩ | ⟨-, ⟨hns, hc⟩ | ⟨hns, hc⟩⟩
  · rw [hc, if_pos (by_contra fun hns => hes (hb.events_eq_nil hns))]
    exact if_neg (currentKind_ne_near b h)
  · rw [hc, if_neg hns]
    rfl
  · rw [hc, if_pos hns]
    rfl

theorem latestOf_contribution (hb : ExclusiveAt b h) : latestOf (contribution b h s) =
    greatest
      (maximumOf ((group EventRow.btcParentHeaderHash (b.sourceEvents s) h).map (·.confirmedAt)))
      (maximumOf ((group NearRow.btcParentHeaderHash (b.sourceNears s) h).map (·.recordedAt))) := by
  rcases contribution_cases b h s with ⟨hes, hc⟩ | ⟨hes, ⟨hns, hc⟩ | ⟨hns, hc⟩⟩
  · rw [hc, by_contra fun hns => hes (hb.events_eq_nil hns), map_nil]
    refine Eq.trans ?_ (max_bot_right _).symm
    exact coe_unbotD_maximumOf 0 (mt map_eq_nil_iff.mp hes)
  · rw [hc, hes, map_nil]
    refine Eq.trans ?_ (max_bot_left _).symm
    exact coe_unbotD_maximumOf 0 (mt map_eq_nil_iff.mp hns)
  · rw [hc, hes, hns]
    rfl

/-- A count of distinct parents is the sum of what the parents contribute, for a counter that an event
adds to when its parent meets the condition, and a near observation never. -/
theorem distinctParents_eq_sum (hP : Covers P b) (s : Source) (counter : Counter)
    (condition : Hash → Bool)
    (hevents : ∀ h es, b.parentEvents h ≠ [] →
      (eventsContribution b h es).counts counter = if condition h then 1 else 0)
    (hnears : ∀ ns : List (NearRow Source Hash), (nearsContribution ns).counts counter = 0) :
    b.distinctParents s condition = ∑ h ∈ P, countsOf (contribution b h s) counter := by
  have hcover : ∀ e ∈ (b.sourceEvents s).filter (fun e => condition e.btcParentHeaderHash),
      e.btcParentHeaderHash ∈ P :=
    fun e he => hP.events e (mem_group.mp (mem_of_mem_filter he)).1
  rw [Base.distinctParents, length_dedup_eq_sum hcover, Nat.cast_sum]
  refine Finset.sum_congr rfl fun h _ => ?_
  rw [group_filter_key condition h]
  rcases contribution_cases b h s with ⟨hes, hc⟩ | ⟨hes, ⟨-, hc⟩ | ⟨-, hc⟩⟩
  · rw [hc, countsOf, Option.elim_some, hevents h _ (parentEvents_ne_nil hes)]
    cases condition h with
    | true => simp [hes]
    | false => simp
  · rw [hc, hes, countsOf, Option.elim_some, hnears]
    simp
  · rw [hc, hes]
    simp [countsOf]

omit [LinearOrder Source] in
theorem orphanBucket_events (es : List (EventRow Source Hash)) (he : b.parentEvents h ≠ []) :
    orphanBucket (eventsContribution b h es) =
      (if b.rollupKind h = .unknown && b.rollupOrphanClass h = some .strictBtcOrphan then 1 else 0,
        if b.rollupKind h = .unknown && b.rollupOrphanClass h = some .weakBtcOrphan then 1 else 0) := by
  rw [rollupKind_eq he, rollupOrphanClass_eq he, orphanBucket, eventsContribution]
  by_cases hkind : b.currentKind h = .unknown
  · rcases b.orphanClass h with _ | (_ | _ | _) <;> simp [hkind]
  · simp [hkind]

/-- **A counter is the sum of what the parents contribute.** -/
theorem computed_counters (hb : ∀ h, ExclusiveAt b h) (hP : Covers P b) (s : Source) :
    b.computedCounters s = ∑ h ∈ P, countsOf (contribution b h s) := by
  have hkinds : ∀ kind ≠ ParentKind.near, (b.distinctParents s fun h => b.rollupKind h = kind) =
      ∑ h ∈ P, countsOf (contribution b h s) (.parents kind) := by
    intro kind hkind
    refine distinctParents_eq_sum hP s _ _ (fun h es he => ?_) fun ns => if_neg hkind.symm
    rw [rollupKind_eq he, ParentSourceContribution.counts, eventsContribution]
    exact if_congr decide_eq_true_iff.symm rfl rfl
  funext counter
  rw [Finset.sum_apply]
  rcases counter with _ | kind | _ | _
  · have hcover : ∀ e ∈ b.sourceEvents s, e.btcParentHeaderHash ∈ P :=
      fun e he => hP.events e (mem_group.mp he).1
    rw [Base.computedCounters, length_eq_sum hcover, Nat.cast_sum]
    exact Finset.sum_congr rfl fun h _ => countsOf_events.symm
  · by_cases hkind : kind = .near
    · have hcover : ∀ o ∈ b.sourceNears s, o.btcParentHeaderHash ∈ P :=
        fun o ho => hP.nears o (mem_group.mp ho).1
      rw [hkind, Base.computedCounters, length_dedup_eq_sum hcover, Nat.cast_sum]
      refine Finset.sum_congr rfl fun h _ => ?_
      rw [countsOf_near (hb h), Nat.cast_ite, Nat.cast_zero, Nat.cast_one]
    · rw [← hkinds kind hkind]
      cases kind <;> first | rfl | exact absurd rfl hkind
  · exact distinctParents_eq_sum hP s .strictOrphanParents _
      (fun h es he => congrArg Prod.fst (orphanBucket_events es he)) fun _ => rfl
  · exact distinctParents_eq_sum hP s .weakOrphanParents _
      (fun h es he => congrArg Prod.snd (orphanBucket_events es he)) fun _ => rfl

/-- **The last event seen is the latest capture of a parent.** -/
theorem computed_lastEventSeen (hb : ∀ h, ExclusiveAt b h) (hP : Covers P b) (s : Source) :
    b.computedLastEventSeen s = P.sup fun h => latestOf (contribution b h s) := by
  have hevents : ∀ e ∈ b.sourceEvents s, e.btcParentHeaderHash ∈ P :=
    fun e he => hP.events e (mem_group.mp he).1
  have hnears : ∀ o ∈ b.sourceNears s, o.btcParentHeaderHash ∈ P :=
    fun o ho => hP.nears o (mem_group.mp ho).1
  rw [Base.computedLastEventSeen, maximumOf_eq_sup hevents, maximumOf_eq_sup hnears]
  refine Finset.sup_sup.symm.trans ?_
  exact Finset.sup_congr rfl fun h _ => (latestOf_contribution (hb h)).symm

/-- What a parent adds to the count of those that fail their target. -/
def invalidOf (b : Base Source Hash) (h : Hash) : ℤ :=
  if (snapshotParentContribution b h).invalidUnknown then 1 else 0

/-- **The parents that fail their target are counted one by one.** -/
theorem computed_invalidUnknownParents (hP : Covers P b) :
    b.computedInvalidUnknownParents = ∑ h ∈ P, invalidOf b h := by
  let parents := b.active.map (·.btcParentHeaderHash)
  have hinvalid : ∀ h ∈ parents.toFinset,
      (if b.rollupKind h = .unknown && b.hasFailedTarget h then 1 else 0) = invalidOf b h := by
    intro h hh
    have he : b.parentEvents h ≠ [] :=
      fun hnil => group_eq_nil_iff.mp hnil (mem_toFinset.mp hh)
    rw [invalidOf, invalidUnknown_snapshot, rollupKind_eq he]
  have hdedup : parents.dedup.toFinset = parents.toFinset := by
    ext h
    simp
  calc b.computedInvalidUnknownParents
      = ({h ∈ parents.toFinset | (b.rollupKind h = .unknown && b.hasFailedTarget h) = true}.card : ℕ) := by
        rw [Base.computedInvalidUnknownParents,
          ← toFinset_card_of_nodup ((nodup_dedup _).filter _), toFinset_filter,
          hdedup]
    _ = ∑ h ∈ parents.toFinset, invalidOf b h := by
        rw [Finset.natCast_card_filter]
        exact Finset.sum_congr rfl hinvalid
    _ = ∑ h ∈ P, invalidOf b h := by
        refine Finset.sum_subset (fun h hh => ?_) fun h _ hh => ?_
        · obtain ⟨e, he, rfl⟩ := mem_map.mp (mem_toFinset.mp hh)
          exact hP.events e he
        · have hnil : b.parentEvents h = [] :=
            group_eq_nil_iff.mpr fun hmem => hh (mem_toFinset.mpr hmem)
          simp [invalidOf, invalidUnknown_snapshot, Base.hasFailedTarget, hnil]

end Sums

/-! ### Rows of one parent -/

/-- The two bases have the same rows of the parent. -/
structure SameAt (b b' : Base Source Hash) (h : Hash) : Prop where
  events : b.parentEvents h = b'.parentEvents h
  nears : b.parentNears h = b'.parentNears h
  block : b.block h = b'.block h

/-- The parents of a base. -/
def Base.parents (b : Base Source Hash) : Finset Hash :=
  (b.active.map (·.btcParentHeaderHash) ++ b.nears.map (·.btcParentHeaderHash)).toFinset

section SameAt

variable {b b' b'' : Base Source Hash} {h : Hash} {s : Source}

omit [LinearOrder Source] in
theorem SameAt.symm (hsame : SameAt b b' h) : SameAt b' b h :=
  ⟨hsame.events.symm, hsame.nears.symm, hsame.block.symm⟩

omit [LinearOrder Source] in
theorem SameAt.trans (hsame : SameAt b b' h) (hsame' : SameAt b' b'' h) : SameAt b b'' h :=
  ⟨hsame.events.trans hsame'.events, hsame.nears.trans hsame'.nears,
    hsame.block.trans hsame'.block⟩

theorem SameAt.snapshot (hsame : SameAt b b' h) :
    snapshotParentContribution b h = snapshotParentContribution b' h := by
  have hkind : b.currentKind h = b'.currentKind h := by
    rw [Base.currentKind, hsame.block, Base.currentKind]
  have horphan : b.orphanClass h = b'.orphanClass h := by
    rw [Base.orphanClass, hsame.block, Base.orphanClass]
  have hfailed : b.hasFailedTarget h = b'.hasFailedTarget h := by
    rw [Base.hasFailedTarget, hsame.events, Base.hasFailedTarget]
  simp only [snapshotParentContribution, snapshotRows, eventsContribution, hsame.events, hsame.nears,
    hkind, horphan, hfailed]

theorem SameAt.contribution (hsame : SameAt b b' h) (s : Source) :
    contribution b h s = contribution b' h s := by
  rw [← lookup_snapshot, hsame.snapshot, lookup_snapshot]

theorem SameAt.invalidOf (hsame : SameAt b b' h) : invalidOf b h = invalidOf b' h := by
  rw [SourceHealth.invalidOf, hsame.snapshot, SourceHealth.invalidOf]

omit [LinearOrder Source] in
theorem SameAt.exclusiveAt (hsame : SameAt b b' h) (hb : ExclusiveAt b h) : ExclusiveAt b' h := by
  rw [ExclusiveAt, ← hsame.events, ← hsame.nears]
  exact hb

omit [LinearOrder Source] in
theorem covers_of_subset {P : Finset Hash} (hP : b.parents ⊆ P) : Covers P b where
  events _ he := hP (mem_toFinset.mpr (mem_append_left _ (mem_map_of_mem he)))
  nears _ ho := hP (mem_toFinset.mpr (mem_append_right _ (mem_map_of_mem ho)))

end SameAt

end SourceHealth

end MergeMiningMonitor
