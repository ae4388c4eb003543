import MergeMiningMonitor.Support.Fallible
import MergeMiningMonitor.ReadModel.Rows

/-!
# Read model — Writers

How one parent's rows are rewritten under a verdict that is already known: the upserts of `block`
(`writers.rs`), the classification of the parent's evidence and the rebuild of its block
(`classify.rs`), and the reconcile of one event that puts them together (`reconcile.rs`).

Every statement that leaves a row outside the table's constraints fails, and the transaction with
it.

A reconcile under a canonical or a stale verdict writes one block, the event's parent, and gives it
the verdict's kind, height and competitor, provided that the evidence meets the Bitcoin target and
the parent is not a catalogued invalid block (`writesOne_reconcileOneEventInTxn`).  It leaves what
the evidence proves as it is (`SameEvidence`).
-/

namespace MergeMiningMonitor

open Relational Fallible List

/-- `BitcoinCoreBlockCoinbase` -/
structure BlockCoinbase where
  txid : Bytes
  script : Bytes
  outputs : Bytes
deriving DecidableEq

/-- `InvalidBlock`: what the pinned catalogue says of a consensus-invalid block. -/
structure InvalidBlock where
  height : Int
  rejectionReason : String

def timeBelowMtp : String := "time_below_mtp"

/-- `ParentClassification`: a verdict on one parent. -/
structure ParentClassification (Hash : Type) where
  kind : ParentKind
  height : Option Int
  heightSource : Option HeightSource
  canonicalCompetitorHash : Option Hash
  coinbase : Option BlockCoinbase
  difficultyEpochOk : Option Bool
  rejectionReason : Option String
  liveObserved : Bool
  coreAttested : Bool

/-- Why a write fails. -/
inductive WriteError
  /-- A live canonical or stale verdict on a catalogued median-time violation. -/
  | contradictsCatalogue
  /-- A live invalid-block verdict with another height or reason than the catalogue's. -/
  | disagreesWithCatalogue
  /-- A canonical, stale or invalid-block verdict without a height. -/
  | noHeight (event : Nat)
  /-- Active evidence for one parent with two headers. -/
  | headersDisagree
  | incompleteInvalidBlock
  | liveCoreDrift
  /-- A row outside the constraints of its table. -/
  | constraint
deriving DecidableEq

variable {Hash : Type}

namespace ParentClassification

def unknown : ParentClassification Hash where
  kind := .unknown
  height := none
  heightSource := none
  canonicalCompetitorHash := none
  coinbase := none
  difficultyEpochOk := none
  rejectionReason := none
  liveObserved := false
  coreAttested := false

def invalidBlock (height : Int) (heightSource : HeightSource) (difficultyEpochOk : Option Bool)
    (rejectionReason : String) : ParentClassification Hash :=
  { unknown with
    kind := .invalidBlock
    height := some height
    heightSource := some heightSource
    difficultyEpochOk
    rejectionReason := some rejectionReason }

end ParentClassification

/-! ### The constraints of the tables -/

/-- `chk_mme_parent_kind_consistency` -/
def MergeMiningEvent.chkParentKindConsistency (e : MergeMiningEvent Hash) : Bool :=
  e.parentKind = .unknown || (e.parentHeight.isSome && e.powValidatesBtcTarget)

namespace Block

/-- `chk_block_kind_height` -/
def chkKindHeight (b : Block Hash) : Bool :=
  match b.kind with
  | .canonical => b.height.isSome && b.heightSource = some .bitcoinCore && b.competitor.isNone
  | .stale => b.height.isSome && (b.heightSource = some .bitcoinCore ||
      b.heightSource = some .prevCanonical || b.heightSource = some .prevStale) &&
      b.competitor.isSome
  | .invalidBlock => b.height.isSome && (b.heightSource = some .invalidBlockCatalog ||
      b.heightSource = some .prevCanonical || b.heightSource = some .prevStale) &&
      b.competitor.isNone
  | .unknown => b.height.isNone && b.heightSource.isNone && b.competitor.isNone

/-- `chk_block_invalid_block_reason` -/
def chkInvalidBlockReason (b : Block Hash) : Bool :=
  decide (b.kind = .invalidBlock) == b.invalidBlockReason.isSome

/-- `chk_block_btc_coinbase_complete_has_script` -/
def chkCoinbaseCompleteHasScript (b : Block Hash) : Bool :=
  b.coinbaseStatus ≠ .complete || b.coinbaseScript.isSome

variable [DecidableEq Hash]

/-- `chk_block_competitor_not_self` -/
def chkCompetitorNotSelf (b : Block Hash) : Bool := b.competitor ≠ some b.hash

/-- The row meets its `CHECK`s and its competitor is a row of the table. -/
def meetsConstraints (blocks : Table (@Block.hash Hash)) (b : Block Hash) : Bool :=
  b.chkKindHeight && b.chkInvalidBlockReason && b.chkCoinbaseCompleteHasScript &&
    b.chkCompetitorNotSelf && b.competitor.all fun h => (blocks.find? h).isSome

end Block

/-! ### The upserts of `block` -/

/-- `COINBASE_MERGE_SET`, the status: `complete` wins, `failed` only over what is not. -/
def CoreCoinbaseStatus.merge (new old : CoreCoinbaseStatus) : CoreCoinbaseStatus :=
  if new = .complete then .complete
  else if new = .failed ∧ old ≠ .complete then .failed
  else old

inductive BlockWriteMode
  | eventRollup
  | synthesizedCore
deriving DecidableEq

namespace BlockWriteMode

/-- The `SET` list of the upsert.  Its `WHERE` clause skips updates that change nothing. -/
def merge (mode : BlockWriteMode) (new old : Block Hash) : Block Hash :=
  let coinbaseMerged : Block Hash := { old with
    prevHash := new.prevHash
    coinbaseTxid := new.coinbaseTxid <|> old.coinbaseTxid
    coinbaseScript := new.coinbaseScript <|> old.coinbaseScript
    coinbaseOutputs := new.coinbaseOutputs <|> old.coinbaseOutputs
    coinbaseStatus := new.coinbaseStatus.merge old.coinbaseStatus }
  match mode with
  | .eventRollup => { coinbaseMerged with
      height := new.height
      heightSource := new.heightSource
      kind := new.kind
      competitor := new.competitor
      liveObserved := new.liveObserved
      coreAttested := new.coreAttested
      powValidated := new.powValidated
      difficultyEpochOk := new.difficultyEpochOk
      invalidBlockReason := new.invalidBlockReason }
  | .synthesizedCore =>
    let promotes : Bool := new.coreAttested && new.kind = .canonical && old.kind ≠ .canonical
    let live := old.liveObserved || old.coreAttested || new.liveObserved || new.coreAttested
    { coinbaseMerged with
      height := if promotes then new.height else old.height <|> new.height
      heightSource := if promotes then new.heightSource else old.heightSource <|> new.heightSource
      kind := if promotes then new.kind else if old.kind = .unknown then new.kind else old.kind
      competitor := if promotes then none else old.competitor
      liveObserved := live
      coreAttested := live
      powValidated := old.powValidated || new.powValidated
      difficultyEpochOk := old.difficultyEpochOk <|> new.difficultyEpochOk
      invalidBlockReason := old.invalidBlockReason <|> new.invalidBlockReason }

@[simp] theorem merge_hash (mode : BlockWriteMode) (new old : Block Hash) :
    (mode.merge new old).hash = old.hash := by
  cases mode <;> rfl

theorem merge_coinbaseStatus (mode : BlockWriteMode) {new : Block Hash} (old : Block Hash)
    (h : new.coinbaseStatus = .complete) : (mode.merge new old).coinbaseStatus = .complete := by
  cases mode <;> simp [merge, CoreCoinbaseStatus.merge, h]

/-- A row upserted from the event rollup, over a row that was there or not. -/
theorem eventRollup_row (new : Block Hash) (old : Option (Block Hash)) :
    let b := old.elim new (eventRollup.merge new)
    b.prevHash = new.prevHash ∧ b.kind = new.kind ∧ b.height = new.height ∧
      b.competitor = new.competitor ∧
      (new.coinbaseStatus = .complete → b.coinbaseStatus = .complete) := by
  cases old with
  | none => exact ⟨rfl, rfl, rfl, rfl, id⟩
  | some old => exact ⟨rfl, rfl, rfl, rfl, fun h => merge_coinbaseStatus eventRollup old h⟩

/-- A canonical Core row upserted over a row that, if canonical, is at the same height. -/
theorem synthesizedCore_row {new : Block Hash} {old : Option (Block Hash)}
    (hkind : new.kind = .canonical) (hcore : new.coreAttested = true)
    (hheight : ∀ b ∈ old, b.kind = .canonical → ∀ n ∈ b.height, new.height = some n) :
    let b := old.elim new (synthesizedCore.merge new)
    b.prevHash = new.prevHash ∧ b.kind = .canonical ∧ b.height = new.height ∧
      (new.coinbaseStatus = .complete → b.coinbaseStatus = .complete) := by
  cases old with
  | none => exact ⟨rfl, hkind, rfl, id⟩
  | some old =>
    refine ⟨rfl, ?_, ?_, fun h => merge_coinbaseStatus synthesizedCore old h⟩
    · by_cases hold : old.kind = .canonical <;> simp [merge, hkind, hcore, hold]
    · by_cases hold : old.kind = .canonical
      · cases hn : old.height with
        | none => simp [merge, hold, hn]
        | some n => simp [merge, hold, hn, hheight old rfl hold n hn]
      · simp [merge, hkind, hcore, hold]

end BlockWriteMode

namespace ReadModel

variable [LinearOrder Hash] (m : ReadModel Hash)

/-- A statement on `block`, which fails on a row outside the constraints. -/
def putBlocks (blocks : Table (@Block.hash Hash)) :
    Except WriteError (ReadModel Hash) := do
  ensure (blocks.rows.all (Block.meetsConstraints blocks)) .constraint
  return { m with blocks }

/-- A statement on `merge_mining_event`, which fails on a row outside the constraints. -/
def putEvents (events : Table (@MergeMiningEvent.id Hash)) :
    Except WriteError (ReadModel Hash) := do
  ensure (events.rows.all MergeMiningEvent.chkParentKindConsistency) .constraint
  return { m with events }

def upsertBlockRow (block : Block Hash) (mode : BlockWriteMode) :
    Except WriteError (ReadModel Hash) := do
  -- `ensure_live_core_lockstep`
  ensure (block.liveObserved = block.coreAttested) .liveCoreDrift
  m.putBlocks (m.blocks.upsert block (mode.merge block) (mode.merge_hash block))

/-- `coinbase_columns`, written into the columns of a block. -/
def withCoinbaseColumns (coinbase : Option BlockCoinbase) (b : Block Hash) : Block Hash :=
  { b with
    coinbaseTxid := coinbase.map (·.txid)
    coinbaseScript := coinbase.map (·.script)
    coinbaseOutputs := coinbase.map (·.outputs)
    coinbaseStatus := if coinbase.isSome then .complete else .notAttempted }

/-- The row that `upsert_core_canonical_header_with_coinbase` writes: `header`, of the given hash, is
on Core's active chain at `height`. -/
def coreCanonicalRow (hash : Hash) (header : Header Hash) (height : Int)
    (coinbase : Option BlockCoinbase) : Block Hash :=
  withCoinbaseColumns coinbase
    { hash
      prevHash := header.prevBlockhash
      height := some height
      heightSource := some .bitcoinCore
      kind := .canonical
      coinbaseTxid := none
      coinbaseScript := none
      coinbaseOutputs := none
      coinbaseStatus := .notAttempted
      invalidBlockReason := none
      competitor := none
      liveObserved := true
      coreAttested := true
      powValidated := true
      difficultyEpochOk := some true }

def upsertCoreCanonicalHeaderWithCoinbase (hash : Hash) (header : Header Hash) (height : Int)
    (coinbase : Option BlockCoinbase) : Except WriteError (ReadModel Hash) :=
  m.upsertBlockRow (coreCanonicalRow hash header height coinbase) .synthesizedCore

/-! ### The evidence of one parent -/

/-- The active evidence for the parent `h`. -/
def activeEvents (h : Hash) : List (MergeMiningEvent Hash) :=
  m.events.rows.filter fun e => e.parentHash = h && !e.revoked

/-- `ORDER BY child_height NULLS LAST, id` -/
def childBefore (e e' : MergeMiningEvent Hash) : Bool :=
  match e.childHeight, e'.childHeight with
  | some h, some h' => decide (h < h') || (decide (h = h') && decide (e.id < e'.id))
  | some _, none => true
  | none, some _ => false
  | none, none => decide (e.id < e'.id)

/-- `ORDER BY (btc_parent_coinbase_script IS NULL), child_height NULLS LAST, id` -/
def representativeBefore (e e' : MergeMiningEvent Hash) : Bool :=
  if e.coinbaseScript.isSome = e'.coinbaseScript.isSome then childBefore e e'
  else e.coinbaseScript.isSome

def findAnchorEventForBlock (h : Hash) : Option (MergeMiningEvent Hash) :=
  Table.firstBy childBefore (m.activeEvents h)

/-- SQL's `bool_or`, which skips nulls. -/
def boolOr (bs : List (Option Bool)) : Option Bool :=
  match bs.filterMap id with
  | [] => none
  | bs => some (bs.any id)

/-- `apply_event_classification`: the verdict goes to all active evidence for the event's parent. -/
def applyEventClassification (event : MergeMiningEvent Hash) (c : ParentClassification Hash) :
    Except WriteError (ReadModel Hash) := do
  let proven : Bool := c.kind = .canonical || c.kind = .stale || c.kind = .invalidBlock
  let height := if proven then c.height else none
  ensure (proven → height.isSome) (.noHeight event.id)
  m.putEvents (m.events.update
    (fun e => e.parentHash = event.parentHash && !e.revoked &&
      (c.kind ≠ .unknown || e.parentKind = .unknown || e.parentKind = .invalidBlock))
    (fun e => { e with
      parentKind := c.kind
      parentHeight := height
      difficultyEpochOk := c.difficultyEpochOk <|> e.difficultyEpochOk })
    (fun _ => rfl))

/-! ### The verdict that holds -/

section Verdict

variable (catalogue : Hash → Option InvalidBlock)

/-- `resolve_parent_classification` for a live verdict. -/
def resolveParentClassification (hash : Hash) (live : ParentClassification Hash) :
    Except WriteError (ParentClassification Hash) :=
  match catalogue hash with
  | none => .ok live
  | some entry =>
    if live.kind = .invalidBlock then do
      ensure (live.height = some entry.height ∧
        live.rejectionReason = some entry.rejectionReason) .disagreesWithCatalogue
      return live
    else do
      ensure (¬ (entry.rejectionReason = timeBelowMtp ∧
        (live.kind = .canonical ∨ live.kind = .stale))) .contradictsCatalogue
      return .invalidBlock entry.height .invalidBlockCatalog none entry.rejectionReason

/-- The verdict a block row stands for: `persisted_classification_from_hash`, the part after the row
is found. -/
def persistedVerdict (b : Block Hash) (kind : ParentKind) (competitor : Option Hash) :
    ParentClassification Hash where
  kind
  height := b.height
  heightSource := b.heightSource
  canonicalCompetitorHash := competitor
  coinbase := none
  difficultyEpochOk := b.difficultyEpochOk
  rejectionReason := b.invalidBlockReason
  liveObserved := b.coreAttested
  coreAttested := b.coreAttested

def persistedClassificationFromHash (m : ReadModel Hash) (h : Hash) :
    Option (ParentClassification Hash) := do
  let b ← m.blocks.find? h
  match b.kind with
  | .canonical => return persistedVerdict b .canonical none
  | .stale =>
    let competitor ← b.competitor
    let other ← m.blocks.find? competitor
    if other.kind = .canonical then return persistedVerdict b .stale (some competitor) else none
  | .invalidBlock =>
    if b.heightSource = some .invalidBlockCatalog ∧ (catalogue h).isNone then none
    else return persistedVerdict b .invalidBlock none
  | .unknown => none

def classificationFromEvent (e : MergeMiningEvent Hash) : Option (ParentClassification Hash) :=
  if e.parentKind = .canonical then
    some { ParentClassification.unknown with
      kind := .canonical
      height := e.parentHeight
      heightSource := e.parentHeight.map fun _ => .bitcoinCore
      difficultyEpochOk := e.difficultyEpochOk }
  else none

/-- `effective_classification`: a transient `unknown` does not erase a proven verdict. -/
def effectiveClassification (m : ReadModel Hash) (event : MergeMiningEvent Hash)
    (c : ParentClassification Hash) : ParentClassification Hash :=
  if c.kind = .unknown then
    match m.persistedClassificationFromHash catalogue event.parentHash with
    | some persisted => persisted
    | none =>
      match classificationFromEvent event with
      | some fromEvent => fromEvent
      | none =>
        if event.parentKind = .stale then
          { ParentClassification.unknown with difficultyEpochOk := c.difficultyEpochOk }
        else c
  else c

/-! ### The rebuild of a parent's block -/

/-- `retire_zero_active_block`: without evidence a block stays if Core attests it or a stale block
refers to it, and goes otherwise. -/
def retireZeroActiveBlock (m : ReadModel Hash) (h : Hash) : Except WriteError (ReadModel Hash) :=
  let coreAttested := (m.blocks.find? h).any (·.coreAttested)
  let referenced := (m.blocks.find? h).isSome && m.blocks.rows.any (·.competitor = some h)
  if coreAttested || referenced then
    m.putBlocks (m.blocks.update (fun b => b.hash = h)
      (fun b => if b.coreAttested then { b with powValidated := true } else { b with
        kind := .unknown
        height := none
        heightSource := none
        competitor := none
        powValidated := false
        difficultyEpochOk := none
        invalidBlockReason := none })
      (fun b => by split <;> rfl))
  else m.putBlocks (m.blocks.delete fun b => b.hash = h)

/-- The kind, height, height source, competitor and rejection reason that a verdict gives the
block. -/
def verdictColumns (c : ParentClassification Hash) : Except WriteError
    (BlockKind × Option Int × Option HeightSource × Option Hash × Option String) :=
  match c.kind with
  | .canonical =>
    .ok (.canonical, c.height, c.heightSource <|> some .bitcoinCore, none, none)
  | .stale => .ok (.stale, c.height, c.heightSource, c.canonicalCompetitorHash, none)
  | .invalidBlock => do
    ensure (c.height.isSome ∧ c.heightSource.isSome ∧ c.rejectionReason.isSome)
      .incompleteInvalidBlock
    return (.invalidBlock, c.height, c.heightSource, none, c.rejectionReason)
  | .unknown | .near => .ok (.unknown, none, none, none, none)

/-- `rebuild_parent_read_model` under a given verdict. -/
def rebuildParentReadModel (m : ReadModel Hash) (h : Hash) (c : ParentClassification Hash) :
    Except WriteError (ReadModel Hash) :=
  match Table.firstBy representativeBefore (m.activeEvents h) with
  | none => m.retireZeroActiveBlock h
  | some event => do
    -- `load_representative_active_event` checks that the evidence agrees on the header
    ensure ((m.activeEvents h).all fun e => e.parentHeader = event.parentHeader) .headersDisagree
    let c := m.effectiveClassification catalogue event c
    let (kind, height, heightSource, competitor, invalidBlockReason) ← verdictColumns c
    m.upsertBlockRow (withCoinbaseColumns c.coinbase
      { hash := h
        prevHash := event.parentPrevHash
        height
        heightSource
        kind
        coinbaseTxid := none
        coinbaseScript := none
        coinbaseOutputs := none
        coinbaseStatus := .notAttempted
        invalidBlockReason
        competitor
        liveObserved := c.liveObserved
        coreAttested := c.coreAttested
        powValidated :=
          ((m.activeEvents h).any fun e => e.powValidatesBtcTarget) || c.coreAttested
        -- `merge_difficulty`
        difficultyEpochOk := c.difficultyEpochOk <|>
          boolOr ((m.activeEvents h).map (·.difficultyEpochOk)) }) .eventRollup

/-- `reconcile_one_event_in_txn` under a trusted verdict, which names no sibling headers. -/
def reconcileOneEventInTxn (blockHash : Header Hash → Hash) (m : ReadModel Hash)
    (event : MergeMiningEvent Hash) (trusted : ParentClassification Hash) :
    Except WriteError (ReadModel Hash) :=
  -- `skips_parent_read_model`
  if !event.powValidatesBtcTarget then .ok m
  else do
    let c ← resolveParentClassification catalogue (blockHash event.parentHeader) trusted
    let c := m.effectiveClassification catalogue event c
    let m ← m.applyEventClassification event c
    m.rebuildParentReadModel catalogue event.parentHash c

end Verdict

/-! ### What the statements do -/

/-- What a piece of evidence proves, whatever the verdict on its parent. -/
def proof (e : MergeMiningEvent Hash) : Bool × Header Hash × Hash :=
  (e.powValidatesBtcTarget, e.parentHeader, e.parentPrevHash)

/-- The active evidence is the same, but for its verdicts. -/
def SameEvidence (m m' : ReadModel Hash) : Prop :=
  ∀ h, (m'.activeEvents h).map proof = (m.activeEvents h).map proof

variable {m} {m' : ReadModel Hash} {c : ParentClassification Hash}

theorem SameEvidence.of_events_eq (h : m'.events = m.events) : m.SameEvidence m' :=
  fun k => by rw [activeEvents, activeEvents, h]

theorem SameEvidence.trans {m₁ m₂ m₃ : ReadModel Hash} (h₁ : m₁.SameEvidence m₂)
    (h₂ : m₂.SameEvidence m₃) : m₁.SameEvidence m₃ :=
  fun k => (h₂ k).trans (h₁ k)

theorem SameEvidence.exists_mem (h : m.SameEvidence m') {k : Hash}
    {e' : MergeMiningEvent Hash} (he' : e' ∈ m'.activeEvents k) :
    ∃ e ∈ m.activeEvents k, proof e = proof e' := by
  have hmem := mem_map_of_mem (f := proof) he'
  rw [h k] at hmem
  exact mem_map.mp hmem

theorem SameEvidence.ne_nil (h : m.SameEvidence m') {k : Hash}
    (hk : m.activeEvents k ≠ []) : m'.activeEvents k ≠ [] := by
  intro hnil
  have := h k
  rw [hnil] at this
  exact hk (map_eq_nil_iff.mp this.symm)

theorem putBlocks_eq_ok {blocks : Table (@Block.hash Hash)}
    (h : m.putBlocks blocks = .ok m') : m' = { m with blocks } := by
  obtain ⟨_, -, h⟩ := bind_eq_ok.mp h
  exact (Except.ok.inj h).symm

theorem upsertBlockRow_eq_ok {block : Block Hash} {mode : BlockWriteMode}
    (h : m.upsertBlockRow block mode = .ok m') :
    m'.events = m.events ∧ ∀ k, m'.blocks.find? k =
      if k = block.hash then some ((m.blocks.find? k).elim block (mode.merge block))
      else m.blocks.find? k := by
  obtain ⟨_, -, h⟩ := bind_eq_ok.mp h
  obtain rfl := putBlocks_eq_ok h
  exact ⟨rfl, fun k => Table.find?_upsert _ _ _ _ k⟩

/-- Classifying evidence changes no block and nothing of the evidence but its verdict. -/
theorem applyEventClassification_eq_ok {event : MergeMiningEvent Hash}
    (h : m.applyEventClassification event c = .ok m') :
    m'.blocks = m.blocks ∧ m.SameEvidence m' := by
  obtain ⟨_, -, h⟩ := bind_eq_ok.mp h
  obtain ⟨_, -, h⟩ := bind_eq_ok.mp h
  obtain rfl := Except.ok.inj h
  refine ⟨rfl, fun k => ?_⟩
  simp only [activeEvents, Table.update, filter_map, map_map]
  refine congrArg₂ List.map ?_ (filter_congr fun e _ => ?_)
  · funext e
    simp only [Function.comp_apply]
    split <;> rfl
  · simp only [Function.comp_apply]
    split <;> rfl

omit [LinearOrder Hash] in
theorem verdictColumns_canonical (h : c.kind = .canonical) : verdictColumns c =
      .ok (.canonical, c.height, c.heightSource <|> some .bitcoinCore, none, none) := by
  rw [verdictColumns, h]

omit [LinearOrder Hash] in
theorem verdictColumns_stale (h : c.kind = .stale) :
    verdictColumns c = .ok (.stale, c.height, c.heightSource, c.canonicalCompetitorHash, none) := by
  rw [verdictColumns, h]

variable {catalogue : Hash → Option InvalidBlock}

/-- Between the two read models one block is written, the one of `h`; its row is then a `P`. -/
structure WritesOne (m m' : ReadModel Hash) (h : Hash) (P : Block Hash → Prop) : Prop where
  evidence : m.SameEvidence m'
  others : ∀ k, k ≠ h → m'.blocks.find? k = m.blocks.find? k
  row : ∃ b, m'.blocks.find? h = some b ∧ P b

/-- The row has the columns that the verdict gives it, and the previous hash of some evidence of
`m`. -/
def Follows (m : ReadModel Hash) (c : ParentClassification Hash) (b : Block Hash) : Prop :=
  (∃ heightSource reason,
    verdictColumns c = .ok (b.kind, b.height, heightSource, b.competitor, reason)) ∧
  (∃ e ∈ m.activeEvents b.hash, b.prevHash = e.parentPrevHash) ∧
  (c.coinbase.isSome → b.coinbaseStatus = .complete)

/-- A rebuild under a proven verdict, for a parent with active evidence, writes the verdict into the
parent's block. -/
theorem writesOne_rebuildParentReadModel {h : Hash} (hkind : c.kind ≠ .unknown)
    (hactive : m.activeEvents h ≠ []) (hm' : m.rebuildParentReadModel catalogue h c = .ok m') :
    m.WritesOne m' h (m.Follows c) := by
  rw [rebuildParentReadModel] at hm'
  split at hm'
  · next hnone =>
      -- the first row of a list that has one exists
      cases hl : m.activeEvents h with
      | nil => exact absurd hl hactive
      | cons e es =>
        rw [hl, Table.firstBy] at hnone
        split at hnone
        · cases hnone
        · split at hnone <;> cases hnone
  · next e he =>
      obtain ⟨_, -, hm'⟩ := bind_eq_ok.mp hm'
      rw [effectiveClassification, if_neg hkind] at hm'
      obtain ⟨⟨kind, height, heightSource, competitor, reason⟩, hcols, hm'⟩ := bind_eq_ok.mp hm'
      obtain ⟨hevents, hblocks⟩ := upsertBlockRow_eq_ok hm'
      have hrow := (hblocks h).trans (if_pos rfl)
      obtain ⟨hprev, hkind', hheight, hcomp, hstatus⟩ :=
        BlockWriteMode.eventRollup_row _ (m.blocks.find? h)
      refine ⟨.of_events_eq hevents, fun k hk => (hblocks k).trans (if_neg hk), _, hrow,
        ⟨heightSource, reason, ?_⟩, ⟨e, ?_, hprev⟩, fun hc => hstatus (if_pos hc)⟩
      · rw [hkind', hheight, hcomp]
        exact hcols
      · rw [show Block.hash _ = h from Table.key_of_find? hrow]
        exact Table.mem_of_firstBy he

/-- The evidence for the parent `h` meets the Bitcoin target and is of no catalogued invalid
block. -/
def Vouched (catalogue : Hash → Option InvalidBlock) (blockHash : Header Hash → Hash)
    (m : ReadModel Hash) (h : Hash) : Prop :=
  ∀ e ∈ m.activeEvents h,
    e.powValidatesBtcTarget = true ∧ catalogue (blockHash e.parentHeader) = none

theorem Vouched.sameEvidence {blockHash : Header Hash → Hash} {h : Hash}
    (hv : Vouched catalogue blockHash m h) (hm : m.SameEvidence m') :
    Vouched catalogue blockHash m' h := by
  intro e' he'
  obtain ⟨e, he, hproof⟩ := hm.exists_mem he'
  obtain ⟨hpow, hheader, -⟩ : _ ∧ _ ∧ _ := by simpa [proof] using hproof
  rw [← hpow, ← hheader]
  exact hv e he

/-- **A trusted verdict is written.**  Reconciling a piece of the active evidence for `h` under a
canonical or stale verdict writes the block of `h` and no other, with the verdict's kind, height
and competitor and the evidence's previous hash. -/
theorem writesOne_reconcileOneEventInTxn {blockHash : Header Hash → Hash}
    {h : Hash} {event : MergeMiningEvent Hash}
    (hevent : event ∈ m.activeEvents h) (hv : Vouched catalogue blockHash m h)
    (hkind : c.kind ≠ .unknown)
    (hm' : m.reconcileOneEventInTxn catalogue blockHash event c = .ok m') :
    m.WritesOne m' h (m.Follows c) := by
  obtain ⟨hpow, hcat⟩ := hv event hevent
  obtain rfl : event.parentHash = h := by
    have := (mem_filter.mp hevent).2
    simp only [Bool.and_eq_true, decide_eq_true_eq] at this
    exact this.1
  rw [reconcileOneEventInTxn, hpow] at hm'
  simp only [Bool.not_true, Bool.false_eq_true, if_false] at hm'
  obtain ⟨c', hc', hm'⟩ := bind_eq_ok.mp hm'
  rw [resolveParentClassification, hcat] at hc'
  obtain rfl := Except.ok.inj hc'
  rw [effectiveClassification, if_neg hkind] at hm'
  obtain ⟨m₁, hm₁, hm'⟩ := bind_eq_ok.mp hm'
  obtain ⟨hblocks₁, hsame⟩ := applyEventClassification_eq_ok hm₁
  have hactive := hsame.ne_nil (ne_nil_of_mem hevent)
  obtain ⟨hsame', hothers, b, hb, hcols, ⟨e₁, he₁, hprev⟩, hcoinbase⟩ :=
    writesOne_rebuildParentReadModel hkind hactive hm'
  obtain ⟨e, he, hproof⟩ := hsame.exists_mem he₁
  obtain ⟨-, -, hprev'⟩ : _ ∧ _ ∧ e.parentPrevHash = e₁.parentPrevHash := by
    simpa [proof] using hproof
  exact ⟨hsame.trans hsame', fun k hk => hblocks₁ ▸ hothers k hk, b, hb, hcols,
    ⟨e, he, hprev.trans hprev'.symm⟩, hcoinbase⟩

end ReadModel

end MergeMiningMonitor
