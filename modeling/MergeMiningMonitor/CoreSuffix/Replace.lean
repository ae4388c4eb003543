import MergeMiningMonitor.Support.Consecutive
import MergeMiningMonitor.ReadModel.Writers
import MergeMiningMonitor.ReadModel.Canonical
import MergeMiningMonitor.CoreSuffix.Machine

/-!
# Core suffix — Replace

The atomic replacement of a canonical suffix (`core_suffix.rs`): the blocks above a common ancestor
are replaced by those of Core's active chain.  The transaction re-checks the rows it was planned
on, upserts the replacements as canonical, demotes every displaced block to stale with the
replacement at its own height as competitor, and queues the parents it touched.

What a committed replacement leaves behind is in `CoreSuffix.Committed`.
-/

namespace MergeMiningMonitor

open Relational Fallible FixedWidth Ordered Consecutive

/-- One fully fetched block of the replacement suffix. -/
structure CoreCanonicalReplacement (Hash : Type) where
  height : Int
  header : Header Hash
  coinbase : BlockCoinbase

/-- One local canonical row seen while the replacement was planned. -/
structure ExpectedCoreCanonicalRow (Hash : Type) where
  height : Int
  hash : Hash
  prevHash : Hash
deriving DecidableEq

/-- One canonical row, locked by the replacement. -/
structure LockedCanonicalRow (Hash : Type) where
  height : Int
  hash : Hash
  prevHash : Hash
  coinbaseTxid : Option Bytes
  coinbaseScript : Option Bytes
  coinbaseOutputs : Option Bytes

structure CoreSuffixReplacementInput (Hash : Type) where
  expectedLocal : List (ExpectedCoreCanonicalRow Hash)
  replacements : List (CoreCanonicalReplacement Hash)
  pendingSyncTarget : Option (Int × Hash)

structure CoreSuffixReplacementSummary where
  commonAncestorHeight : Int
  replacedFromHeight : Int
  replacedThroughHeight : Int
  displacedBlocks : Nat
  queuedHashes : Nat

/-- Why a replacement fails. -/
inductive SuffixError
  | emptyReplacement
  | ancestorOverflow
  /-- The suffix starts at another height than the one above the ancestor. -/
  | wrongStart (start expected : Int)
  | notContiguous
  | linkMismatch (height : Int)
  /-- The expected rows do not have exactly one at the ancestor's height. -/
  | ancestorRows
  | ancestorNotLinked
  /-- The pending sync target does not cover the replacement target. -/
  | targetNotCovered
  | syncStateMissing
  | cursorChanged (expected found : Int)
  | localSuffixChanged
  | competitorMissing
  /-- Core's active chain moved during the replacement. -/
  | targetMoved
  /-- Core gave no answer. -/
  | rpc
  /-- A hash is queued twice in one statement. -/
  | queue
  /-- The suspended error of the status row does not decode. -/
  | status (message : String)
  | write (e : WriteError)

variable {Hash : Type}

namespace LockedCanonicalRow

def expected (r : LockedCanonicalRow Hash) : ExpectedCoreCanonicalRow Hash :=
  ⟨r.height, r.hash, r.prevHash⟩

def coinbase (r : LockedCanonicalRow Hash) : Option BlockCoinbase := do
  return ⟨← r.coinbaseTxid, ← r.coinbaseScript, ← r.coinbaseOutputs⟩

end LockedCanonicalRow

structure SuffixMutationPlan (Hash : Type) where
  /-- The replacement at each height. -/
  replacementHashes : List (Int × Hash)
  displaced : List (LockedCanonicalRow Hash)
  affectedHashes : List Hash

variable [LinearOrder Hash] (blockHash : Header Hash → Hash)

/-! ### The checks -/

/-- Consecutive replacements are at consecutive heights and linked. -/
def validateLinks : List (CoreCanonicalReplacement Hash) → Except SuffixError Unit
  | a :: b :: rest => do
    ensure (b.height = a.height + 1) .notContiguous
    ensure (b.header.prevBlockhash = blockHash a.header) (.linkMismatch b.height)
    validateLinks (b :: rest)
  | _ => .ok ()

/-- The one expected row at the ancestor's height is what the suffix extends. -/
def validateAncestor (prevBlockhash : Hash) :
    List (ExpectedCoreCanonicalRow Hash) → Except SuffixError Unit
  | [ancestor] => ensure (ancestor.hash = prevBlockhash) .ancestorNotLinked
  | _ => .error .ancestorRows

def validateReplacement (commonAncestorHeight : Int)
    (expectedLocal : List (ExpectedCoreCanonicalRow Hash))
    (replacements : List (CoreCanonicalReplacement Hash)) : Except SuffixError Unit :=
  match replacements.head? with
  | none => .error .emptyReplacement
  | some first => do
    -- `checked_add` on an `i32`
    ensure (InI32 (commonAncestorHeight + 1)) .ancestorOverflow
    ensure (first.height = commonAncestorHeight + 1)
      (.wrongStart first.height (commonAncestorHeight + 1))
    validateLinks blockHash replacements
    validateAncestor first.header.prevBlockhash
      (expectedLocal.filter (·.height = commonAncestorHeight))

def normalizedExpectedSuffix (expected : List (ExpectedCoreCanonicalRow Hash))
    (start through : Int) : List (ExpectedCoreCanonicalRow Hash) :=
  orderByKey (fun r => (r.height, r.hash))
    (expected.filter fun r => decide (start ≤ r.height ∧ r.height ≤ through))

/-- The columns of a canonical block that the replacement reads. -/
def lockedRow (height : Int) (b : Block Hash) : LockedCanonicalRow Hash :=
  ⟨height, b.hash, b.prevHash, b.coinbaseTxid, b.coinbaseScript, b.coinbaseOutputs⟩

def loadLockedCanonicalRows (m : ReadModel Hash) (start through : Int) :
    List (LockedCanonicalRow Hash) :=
  (m.canonicalBetween start through).map fun r => lockedRow r.1 r.2

def verifyExpectedRows (current : List (LockedCanonicalRow Hash))
    (expected : List (ExpectedCoreCanonicalRow Hash)) : Except SuffixError Unit :=
  ensure (current.map (·.expected) = expected) .localSuffixChanged

def lockAndVerifySyncState (syncState : Option (SyncStateRow Hash)) (expectedCch : Int) :
    Except SuffixError (SyncStateRow Hash) := do
  let row ← required syncState .syncStateMissing
  ensure (row.contiguousCompleteHeight = expectedCch)
    (.cursorChanged expectedCch row.contiguousCompleteHeight)
  return row

/-! ### The mutation -/

def planSuffixMutation (current : List (LockedCanonicalRow Hash))
    (replacements : List (CoreCanonicalReplacement Hash)) (firstHeight : Int) :
    SuffixMutationPlan Hash :=
  let replacementHashes := replacements.map fun r => (r.height, blockHash r.header)
  let displaced := current.filter fun r =>
    decide (firstHeight ≤ r.height) && replacementHashes.lookup r.height ≠ some r.hash
  { replacementHashes
    displaced
    affectedHashes := sortedDistinct (replacementHashes.map (·.2) ++ displaced.map (·.hash)) }

section Mutation

variable (catalogue : Hash → Option InvalidBlock)

/-- The verdict on a displaced block. -/
def staleVerdict (old : LockedCanonicalRow Hash) (competitor : Hash) :
    ParentClassification Hash where
  kind := .stale
  height := some old.height
  heightSource := some .bitcoinCore
  canonicalCompetitorHash := some competitor
  coinbase := old.coinbase
  difficultyEpochOk := some true
  rejectionReason := none
  liveObserved := true
  coreAttested := true

/-- The verdict on a replacement. -/
def canonicalVerdict (r : CoreCanonicalReplacement Hash) : ParentClassification Hash where
  kind := .canonical
  height := some r.height
  heightSource := some .bitcoinCore
  canonicalCompetitorHash := none
  coinbase := some r.coinbase
  difficultyEpochOk := some true
  rejectionReason := none
  liveObserved := true
  coreAttested := true

/-- The row of a displaced block without evidence. -/
def demotedRow (old : LockedCanonicalRow Hash) (competitor : Hash) (b : Block Hash) :
    Block Hash :=
  { b with
    kind := .stale
    height := some old.height
    heightSource := some .bitcoinCore
    competitor := some competitor
    liveObserved := true
    coreAttested := true
    powValidated := true
    difficultyEpochOk := some true
    invalidBlockReason := none }

omit [LinearOrder Hash] in
theorem demotedRow_hash (old : LockedCanonicalRow Hash) (competitor : Hash) (b : Block Hash) :
    (demotedRow old competitor b).hash = b.hash :=
  rfl

def demoteDisplacedParent (m : ReadModel Hash) (old : LockedCanonicalRow Hash)
    (competitor : Hash) : Except WriteError (ReadModel Hash) :=
  match m.findAnchorEventForBlock old.hash with
  | some event => m.reconcileOneEventInTxn catalogue blockHash event (staleVerdict old competitor)
  | none => m.putBlocks (m.blocks.update (fun b => b.hash = old.hash) (demotedRow old competitor)
      (demotedRow_hash old competitor))

def rebindStaleCompetitors (m : ReadModel Hash) (old : LockedCanonicalRow Hash)
    (competitor : Hash) : Except WriteError (ReadModel Hash) :=
  m.putBlocks (m.blocks.update
    (fun b => b.kind = .stale && b.height = some old.height && b.competitor = some old.hash)
    (fun b => { b with competitor := some competitor }) (fun _ => rfl))

def reconcileReplacementParent (m : ReadModel Hash) (r : CoreCanonicalReplacement Hash) :
    Except WriteError (ReadModel Hash) :=
  match m.findAnchorEventForBlock (blockHash r.header) with
  | none => .ok m
  | some event => m.reconcileOneEventInTxn catalogue blockHash event (canonicalVerdict r)

/-- One turn of the first loop of `apply_suffix_mutation`. -/
def upsertReplacement (m : ReadModel Hash) (r : CoreCanonicalReplacement Hash) :
    Except WriteError (ReadModel Hash) :=
  m.upsertCoreCanonicalHeaderWithCoinbase (blockHash r.header) r.header r.height (some r.coinbase)

/-- One turn of the second loop of `apply_suffix_mutation`. -/
def displace (replacementHashes : List (Int × Hash)) (m : ReadModel Hash)
    (old : LockedCanonicalRow Hash) : Except SuffixError (ReadModel Hash) := do
  let competitor ← required (replacementHashes.lookup old.height) .competitorMissing
  let m ← (demoteDisplacedParent blockHash catalogue m old competitor).mapError .write
  (rebindStaleCompetitors m old competitor).mapError .write

def applySuffixMutation (m : ReadModel Hash) (replacements : List (CoreCanonicalReplacement Hash))
    (plan : SuffixMutationPlan Hash) : Except SuffixError (ReadModel Hash) := do
  let m ← (replacements.foldlM (upsertReplacement blockHash) m).mapError .write
  let m ← plan.displaced.foldlM (displace blockHash catalogue plan.replacementHashes) m
  (replacements.foldlM (reconcileReplacementParent blockHash catalogue) m).mapError .write

/-! ### The transaction -/

variable [ToString Hash]

/-- `replace_core_canonical_suffix_validated`.  The two validators ask Core again, before the rows
are read and before the commit. -/
def replaceCoreCanonicalSuffixValidated (db : Db Hash) (now : Int)
    (expectedContiguousCompleteHeight commonAncestorHeight : Int)
    (input : CoreSuffixReplacementInput Hash)
    (validateBefore validateAfter : Except SuffixError Unit) :
    Except SuffixError (Db Hash × CoreSuffixReplacementSummary) := do
  validateReplacement blockHash commonAncestorHeight input.expectedLocal input.replacements
  match input.replacements.head?, input.replacements.getLast? with
  | some first, some target =>
    let targetTipHash := blockHash target.header
    let (syncTargetTipHeight, syncTargetTipHash) :=
      input.pendingSyncTarget.getD (target.height, targetTipHash)
    ensure (¬ (syncTargetTipHeight < target.height ∨
      (syncTargetTipHeight = target.height ∧ syncTargetTipHash ≠ targetTipHash)))
      .targetNotCovered
    validateBefore
    let row ← lockAndVerifySyncState db.syncState expectedContiguousCompleteHeight
    let current := loadLockedCanonicalRows db.readModel commonAncestorHeight target.height
    verifyExpectedRows current
      (normalizedExpectedSuffix input.expectedLocal commonAncestorHeight target.height)
    let plan := planSuffixMutation blockHash current input.replacements first.height
    let readModel ← applySuffixMutation blockHash catalogue db.readModel input.replacements plan
    let queue ← required
      (db.queue.enqueueCoreReconcileHashes now plan.affectedHashes true) .queue
    let nextCch := if commonAncestorHeight ≤ row.contiguousCompleteHeight then target.height
      else row.contiguousCompleteHeight
    let row ← (row.markReplacementPending
      { contiguousCompleteHeight := nextCch
        commonAncestorHeight
        firstHeight := first.height
        targetTipHeight := target.height
        targetTipHash
        syncTargetTipHeight
        syncTargetTipHash
        displacedBlocks := plan.displaced.length
        queuedHashes := plan.affectedHashes.length }).mapError .status
    validateAfter
    return (⟨readModel, queue, some row⟩,
      { commonAncestorHeight
        replacedFromHeight := first.height
        replacedThroughHeight := target.height
        displacedBlocks := plan.displaced.length
        queuedHashes := plan.affectedHashes.length })
  | _, _ => .error .emptyReplacement

end Mutation

end MergeMiningMonitor
