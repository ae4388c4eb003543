import MergeMiningMonitor.Store.Events

/-!
# Store — Child chain

Which block the child chain carries at a height (`child_displacement.rs`).  A producer that sees the
chain's block at a height records it as the head (`recordChildChainBlock`), or sees the recorded
block again (`reobserveChildChainBlock`); either marks the observations of the height
(`applyChildDisplacement`).  The observation of the block is restored, every other undisplaced one is
displaced, and one that is displaced already keeps its first record.

A hashless observation is known by its Bitcoin parent only, so what it is depends on what is said of
the parent of the current block (`CurrentBlockParent`).  `found` is the verdict on one row, and
`displacementSet` what becomes of its marks.
-/

namespace MergeMiningMonitor.Store

open Relational Fallible
open AuxPow (Hash32)

/-! ### The head of a height -/

inductive CurrentBlockParent
  | known (parent : Hash32)
  | noAuxpow
  | unknown
deriving DecidableEq

def CurrentBlockParent.parentHash : CurrentBlockParent → Option Hash32
  | .known parent => some parent
  | .noAuxpow | .unknown => none

inductive ChildChainHeadOutcome
  | captured
  | recorded
  | noAuxpow
  | unverified
  | held
deriving DecidableEq

/-- `ChildChainHeadRecord`, without what only rescans compare. -/
structure ChildChainHeadRecord where
  blockHash : Hash32
  parent : CurrentBlockParent
  outcome : ChildChainHeadOutcome
  observedAt : Int

/-- A row of `child_chain_head`. -/
structure ChildChainHead where
  blockHash : Hash32
  btcParentHeaderHash : Option Hash32
  outcome : ChildChainHeadOutcome
  observedAt : Int

/-- One source: its events and observations, and the head of each child height. -/
structure ChildChain extends SourceRows where
  heads : Int → Option ChildChainHead

/-! ### Displacement -/

/-- `is_current`: the row is the block, or is hashless with the block's parent. -/
def isCurrent (currentBlockHash : Hash32) (currentParent : CurrentBlockParent)
    (o : ObservationRow) : Bool :=
  o.childBlockHash = some currentBlockHash ||
    (o.childBlockHash.isNone && currentParent.parentHash.isSome &&
      o.btcParentHeaderHash = currentParent.parentHash)

/-- The rows of the `candidate` query: those of the height, without the hashless ones when nothing is
known of the parent. -/
def isCandidate (childHeight : Int) (currentParent : CurrentBlockParent) (o : ObservationRow) :
    Bool :=
  o.childHeight = some childHeight && !(o.childBlockHash.isNone && currentParent = .unknown)

/-- The rows that the update changes: current and displaced, or not current and not displaced. -/
def displacementChanges (childHeight : Int) (currentBlockHash : Hash32)
    (currentParent : CurrentBlockParent) (o : ObservationRow) : Bool :=
  isCandidate childHeight currentParent o &&
    if isCurrent currentBlockHash currentParent o then o.childDisplacedAt.isSome
    else o.childDisplacedAt.isNone

/-- The `SET` of the update. -/
def displacementSet (currentBlockHash : Hash32) (currentParent : CurrentBlockParent)
    (observedAt : Int) (o : ObservationRow) : ObservationRow :=
  { o with
    childDisplacedAt := if isCurrent currentBlockHash currentParent o then none else some observedAt
    childDisplacedBy :=
      if isCurrent currentBlockHash currentParent o then none else some currentBlockHash }

@[simp] theorem displacementSet_id (b : Hash32) (parent : CurrentBlockParent) (t : Int)
    (o : ObservationRow) : (displacementSet b parent t o).id = o.id := rfl

structure ChildDisplacementOutcome where
  restored : ℕ
  displaced : ℕ
deriving DecidableEq

def applyChildDisplacement (s : SourceRows) (childHeight : Int) (currentBlockHash : Hash32)
    (currentParent : CurrentBlockParent) (observedAt : Int) :
    ChildDisplacementOutcome × SourceRows :=
  let changed := s.observations.rows.filter
    (displacementChanges childHeight currentBlockHash currentParent)
  let restored := (changed.filter (isCurrent currentBlockHash currentParent)).length
  (⟨restored, changed.length - restored⟩,
    { s with
      observations := s.observations.update
        (displacementChanges childHeight currentBlockHash currentParent)
        (displacementSet currentBlockHash currentParent observedAt)
        (displacementSet_id currentBlockHash currentParent observedAt) })

def recordChildChainBlock (c : ChildChain) (childHeight : Int) (record : ChildChainHeadRecord) :
    ChildDisplacementOutcome × ChildChain :=
  let (outcome, rows) := applyChildDisplacement c.toSourceRows childHeight record.blockHash
    record.parent record.observedAt
  let head : ChildChainHead :=
    { blockHash := record.blockHash
      btcParentHeaderHash := record.parent.parentHash
      outcome := record.outcome
      observedAt := record.observedAt }
  (outcome, { rows with heads := Function.update c.heads childHeight (some head) })

/-- `reobserve_child_chain_block_in_own_transaction`: refused unless the head of the height records
the block. -/
def reobserveChildChainBlock (c : ChildChain) (childHeight : Int) (currentBlockHash : Hash32)
    (currentParent : CurrentBlockParent) (observedAt : Int) :
    Option (ChildDisplacementOutcome × ChildChain) :=
  match c.heads childHeight with
  | none => none
  | some head =>
    if head.blockHash = currentBlockHash then
      let (outcome, rows) := applyChildDisplacement c.toSourceRows childHeight currentBlockHash
        currentParent observedAt
      some (outcome,
        { rows with heads := Function.update c.heads childHeight (some { head with observedAt }) })
    else none

/-! ### One row -/

/-- What is found of a row: nothing, that it is current, or that it is not. -/
def found (childHeight : Int) (currentBlockHash : Hash32) (currentParent : CurrentBlockParent)
    (o : ObservationRow) : Option Bool :=
  if isCandidate childHeight currentParent o then some (isCurrent currentBlockHash currentParent o)
  else none

/-- A row after an application of displacement. -/
def displaceRow (childHeight : Int) (currentBlockHash : Hash32) (currentParent : CurrentBlockParent)
    (observedAt : Int) (o : ObservationRow) : ObservationRow :=
  if displacementChanges childHeight currentBlockHash currentParent o then
    displacementSet currentBlockHash currentParent observedAt o
  else o

section displaceRow

variable {n t : Int} {b : Hash32} {parent : CurrentBlockParent} {o : ObservationRow}

@[simp] theorem displaceRow_toChildBlockObservation :
    (displaceRow n b parent t o).toChildBlockObservation = o.toChildBlockObservation := by
  rw [displaceRow]
  split <;> rfl

@[simp] theorem displaceRow_id : (displaceRow n b parent t o).id = o.id := by
  rw [displaceRow]
  split <;> rfl

theorem displaceRow_of_not_found (h : found n b parent o = none) : displaceRow n b parent t o = o := by
  have hc : isCandidate n parent o = false := by
    by_contra hc
    simp [found, hc] at h
  rw [displaceRow, if_neg]
  simp [displacementChanges, hc]

/-- The displaced time and the displacing hash of a row are those of `mark`. -/
structure HasMark (mark : Option (Int × Hash32)) (o : ObservationRow) : Prop where
  displacedAt : o.childDisplacedAt = mark.map Prod.fst
  displacedBy : o.childDisplacedBy = mark.map Prod.snd

/-- A row found current loses its mark, and one found not to be current takes one if it has none. -/
theorem HasMark.displaceRow {mark : Option (Int × Hash32)} (h : HasMark mark o) (n : Int)
    (b : Hash32) (parent : CurrentBlockParent) (t : Int) :
    HasMark
      (match found n b parent o with
        | none => mark
        | some true => none
        | some false => mark.or (some (t, b)))
      (displaceRow n b parent t o) := by
  cases hf : found n b parent o with
  | none =>
    rw [displaceRow_of_not_found hf]
    exact h
  | some current =>
    obtain ⟨hc, hcurrent⟩ : isCandidate n parent o = true ∧ isCurrent b parent o = current := by
      simpa [found] using hf
    cases current with
    | true =>
      cases mark with
      | none =>
        rw [Store.displaceRow, if_neg (by simp [displacementChanges, hcurrent, h.displacedAt])]
        exact h
      | some m =>
        rw [Store.displaceRow,
          if_pos (by simp [displacementChanges, hc, hcurrent, h.displacedAt])]
        exact ⟨if_pos hcurrent, if_pos hcurrent⟩
    | false =>
      cases mark with
      | none =>
        rw [Store.displaceRow,
          if_pos (by simp [displacementChanges, hc, hcurrent, h.displacedAt])]
        exact ⟨by simp [displacementSet, hcurrent], by simp [displacementSet, hcurrent]⟩
      | some m =>
        rw [Store.displaceRow, if_neg (by simp [displacementChanges, hcurrent, h.displacedAt])]
        exact h

theorem displaceRow_displaceRow :
    displaceRow n b parent t (displaceRow n b parent t o) = displaceRow n b parent t o := by
  have hsettled : displacementChanges n b parent (displaceRow n b parent t o) = false := by
    by_cases hchange : displacementChanges n b parent o = true
    · have hsame : isCurrent b parent (displacementSet b parent t o) = isCurrent b parent o := rfl
      rw [displaceRow, if_pos hchange, displacementChanges, hsame]
      by_cases hcurrent : isCurrent b parent o = true <;> simp [displacementSet, hcurrent]
    · rw [displaceRow, if_neg hchange]
      simpa using hchange
  rw [displaceRow.eq_1 n b parent t (displaceRow n b parent t o), hsettled]
  rfl

end displaceRow

end MergeMiningMonitor.Store
