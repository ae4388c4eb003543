import Mathlib.Data.List.Sort
import Mathlib.Data.List.Dedup
import MergeMiningMonitor.Support.Table

/-!
# Read model — Rows

The two tables every reconcile reads and writes: `merge_mining_event`, the evidence, and `block`,
the derived row of each Bitcoin parent header.  A row keeps the columns that some modelled
statement reads; counts of attestations, miner attributions and timestamps are left out.

A parent depends on another in three ways: it extends it, as evidence or as a derived block, or it
is a stale block whose canonical competitor the other is (`dependentHashes`).

Hashes are 32-byte strings ordered bytewise; here they are any linear order.
-/

namespace MergeMiningMonitor

open Relational

/-- A block header, as `bitcoin::block::Header` has it.  Its hash is a parameter of what uses it. -/
structure Header (Hash : Type) where
  version : Int
  prevBlockhash : Hash
  merkleRoot : Hash
  time : Nat
  bits : Nat
  nonce : Nat
deriving DecidableEq

/-- `ParentKind`: what a piece of evidence says of its parent. -/
inductive ParentKind
  | canonical
  | stale
  | invalidBlock
  | near
  | unknown
deriving DecidableEq, Repr

/-- `BlockKind`: the `kind` column of `block`. -/
inductive BlockKind
  | canonical
  | stale
  | invalidBlock
  | unknown
deriving DecidableEq, Repr

/-- `HeightSource`: where a block's height is known from. -/
inductive HeightSource
  | bitcoinCore
  | prevCanonical
  | prevStale
  | invalidBlockCatalog
deriving DecidableEq, Repr

/-- `btc_orphan_class` -/
inductive OrphanClass
  | strictBtcOrphan
  | weakBtcOrphan
  | excluded
deriving DecidableEq

/-- `CoreCoinbaseStatus`: the `btc_coinbase_status` column. -/
inductive CoreCoinbaseStatus
  | notAttempted
  | complete
  | failed
deriving DecidableEq, Repr

/-- A byte string. -/
abbrev Bytes := List UInt8

/-- A row of `merge_mining_event`. -/
structure MergeMiningEvent (Hash : Type) where
  id : Nat
  childHeight : Option Int
  parentHash : Hash
  parentPrevHash : Hash
  parentHeader : Header Hash
  parentHeight : Option Int
  parentKind : ParentKind
  powValidatesBtcTarget : Bool
  difficultyEpochOk : Option Bool
  coinbaseScript : Option Bytes
  /-- `revoked_at IS NOT NULL` -/
  revoked : Bool

/-- A row of `block`. -/
structure Block (Hash : Type) where
  hash : Hash
  prevHash : Hash
  height : Option Int
  heightSource : Option HeightSource
  kind : BlockKind
  coinbaseTxid : Option Bytes
  coinbaseScript : Option Bytes
  coinbaseOutputs : Option Bytes
  coinbaseStatus : CoreCoinbaseStatus
  invalidBlockReason : Option String
  competitor : Option Hash
  liveObserved : Bool
  coreAttested : Bool
  powValidated : Bool
  difficultyEpochOk : Option Bool
deriving DecidableEq

/-- The evidence and the blocks derived from it. -/
structure ReadModel (Hash : Type) where
  events : Table (@MergeMiningEvent.id Hash)
  blocks : Table (@Block.hash Hash)

instance {Hash : Type} : Inhabited (ReadModel Hash) := ⟨⟨Table.empty, Table.empty⟩⟩

variable {Hash : Type} [LinearOrder Hash]

/-- `SELECT DISTINCT … ORDER BY` over a column of hashes. -/
def sortedDistinct (hashes : List Hash) : List Hash :=
  hashes.dedup.insertionSort (· ≤ ·)

@[simp] theorem mem_sortedDistinct {hashes : List Hash} {h : Hash} :
    h ∈ sortedDistinct hashes ↔ h ∈ hashes := by
  simp [sortedDistinct]

theorem nodup_sortedDistinct (hashes : List Hash) : (sortedDistinct hashes).Nodup :=
  (List.perm_insertionSort _ _).nodup_iff.mpr (List.nodup_dedup hashes)

namespace ReadModel

/-- Active evidence whose parent extends `h` and meets the Bitcoin target. -/
def childEvents (m : ReadModel Hash) (h : Hash) : List (MergeMiningEvent Hash) :=
  m.events.rows.filter fun e => e.parentPrevHash = h && e.powValidatesBtcTarget && !e.revoked

/-- `find_derived_child_blocks`: the blocks that extend `h`. -/
def derivedChildBlocks (m : ReadModel Hash) (h : Hash) : List (Block Hash) :=
  m.blocks.rows.filter fun b => b.prevHash = h

/-- `find_stale_competitor_dependents`: the stale blocks whose canonical competitor is `h`. -/
def staleCompetitorDependents (m : ReadModel Hash) (h : Hash) : List (Block Hash) :=
  m.blocks.rows.filter fun b => b.kind = .stale && b.competitor = some h

/-- The parents that depend on `h`, as the expansion of a queue row selects them. -/
def dependentHashes (m : ReadModel Hash) (h : Hash) : List Hash :=
  sortedDistinct
    (((m.childEvents h).map (·.parentHash) ++ (m.derivedChildBlocks h).map (·.hash) ++
      (m.staleCompetitorDependents h).map (·.hash)).filter (· ≠ h))

theorem self_notMem_dependentHashes (m : ReadModel Hash) (h : Hash) :
    h ∉ m.dependentHashes h := by
  simp [dependentHashes]

end ReadModel

end MergeMiningMonitor
