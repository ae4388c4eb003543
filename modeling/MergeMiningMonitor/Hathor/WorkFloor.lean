import Mathlib.Algebra.Order.Field.Basic
import Mathlib.Tactic.NormNum
import MergeMiningMonitor.Hathor.Reconstruct
import MergeMiningMonitor.Store.ChildChain
import MergeMiningMonitor.Store.Retraction

/-!
# Hathor — Work floor

The capture of one Hathor height (`hathor/capture.rs`).  A REST answer names a block; what can be
checked of it is its own proof of work, against the weight that it declares.  A block of version 3 is
captured with its Bitcoin parent, as an event with a sidecar of its graph or as a near; any other
block, and one whose parent cannot be had, is observed alone.

Whether the block becomes the head of the chain at its height is decided by its declared weight, against
the weights of the sidecars that are stored there (`mayRecordCurrentBlock`).  Without such a sidecar the
height is free unless an event is stored.

Weights are elements of an ordered field.  What reads a weight from its eight bytes, checks a hash
against a weight and decodes the coinbase is a parameter (`CaptureRules`).
-/

namespace MergeMiningMonitor.Hathor

open Relational Fallible Coalesce Store
open AuxPow (Bytes Hash32 Header u32At)

variable {K Text : Type}

/-! ### Declared work -/

structure DeclaredWork (K : Type) where
  weight : K
  parentBlock : Option Hash32

/-- What the capture reads of a coinbase transaction. -/
structure ParentCoinbase where
  txid : Hash32
  script : Bytes
  outputs : Bytes

/-- What is computed outside of the capture. -/
structure CaptureRules (K Text : Type) where
  sha : Bytes → Hash32
  /-- `BlockHash::from_str` -/
  parseHash : Text → Option Hash32
  /-- `hex::decode` -/
  decodeHex : Text → Option Bytes
  /-- `f64::from_be_bytes` -/
  weightOf : Bytes → K
  meetsHathorTarget : Hash32 → K → Bool
  /-- The bytes as a coinbase transaction, if they are one. -/
  decodeCoinbase : Bytes → Option ParentCoinbase

variable (rules : CaptureRules K Text)

/-- `declared_weight`: the eight bytes at the split. -/
def declaredWeight (raw : Bytes) (fundsGraphSplit : ℕ) : Option K :=
  if fundsGraphSplit + 8 ≤ raw.length then
    some (rules.weightOf ((raw.drop fundsGraphSplit).take 8))
  else none

theorem length_take_drop {raw : Bytes} {start size : ℕ} (h : start + size ≤ raw.length) :
    ((raw.drop start).take size).length = size := by
  rw [List.length_take, List.length_drop]
  omega

/-- `declared_parent_block`: the first of the listed parents, after weight and timestamp. -/
def declaredParentBlock (raw : Bytes) (fundsGraphSplit : ℕ) : Option Hash32 :=
  let countAt := fundsGraphSplit + 8 + 4
  match raw[countAt]? with
  | none => none
  | some count =>
    if count = 0 then none
    else if h : countAt + 1 + 32 ≤ raw.length then
      some ⟨(raw.drop (countAt + 1)).take 32, length_take_drop h⟩
    else none

def DeclaredWork.read (bytes : Bytes) (graphAt : ℕ) : Option (DeclaredWork K) :=
  (declaredWeight rules bytes graphAt).map fun weight =>
    ⟨weight, declaredParentBlock bytes graphAt⟩

/-! ### Rows -/

/-- A row of `hathor_merge_mining_evidence`. -/
structure Sidecar where
  eventId : ℕ
  fundsGraph : Bytes
  fundsGraphSplit : ℕ

/-- The source's rows, with the sidecars of its events. -/
structure HathorRows extends ChildChain where
  sidecars : Table Sidecar.eventId

/-- The start of a sidecar's graph, which holds its weight and its first parent. -/
def Sidecar.graphHead (c : Sidecar) : Bytes := (c.fundsGraph.drop c.fundsGraphSplit).take 45

/-- The sidecars of the events at a height. -/
def HathorRows.sidecarsAt (s : HathorRows) (height : ℤ) : List Sidecar :=
  s.sidecars.rows.filter fun c =>
    s.events.rows.any fun e => e.id = c.eventId && e.childHeight = some height

def hathorSidecarGraphHeadsAtHeight (s : HathorRows) (height : ℤ) : List Bytes :=
  (s.sidecarsAt height).map (·.graphHead)

def hathorEvidenceEventAtHeight (s : HathorRows) (height : ℤ) : Bool :=
  s.events.rows.any fun e => e.childHeight = some height

/-! ### The gate -/

inductive ChainObservation
  | live (forkWindow : ℕ)
  | archiveReplay

section Gate

variable [Field K] [LinearOrder K]

def hathorMaxWeightStep : K := 1 / 4

/-- How far a block's weight may lie below that of a captured block. -/
def slack (forkWindow : ℕ) (work captured : DeclaredWork K) : K :=
  let forkDepth :=
    if work.parentBlock.isSome && work.parentBlock = captured.parentBlock then 1 else forkWindow
  2 * hathorMaxWeightStep * (forkDepth : K)

def mayRecordCurrentBlock (observation : ChainObservation) (s : HathorRows) (height : ℤ)
    (work : DeclaredWork K) : Bool :=
  match observation with
  | .archiveReplay => false
  | .live forkWindow =>
    let floor := ((hathorSidecarGraphHeadsAtHeight s height).filterMap fun head =>
      (DeclaredWork.read rules head 0).map fun captured =>
        captured.weight - slack forkWindow work captured).max?
    match floor with
    | none => !hathorEvidenceEventAtHeight s height
    | some floor => floor ≤ work.weight

end Gate

/-! ### Answers -/

structure HathorBlockMeta (K Text : Type) where
  txId : Text
  version : ℤ
  height : ℤ
  isVoided : Bool
  timestamp : Option ℤ
  weight : Option K
  parents : List Text

structure HathorTransaction (Text : Type) where
  raw : Text
  auxPow : Option Text
  hash : Text
  timestamp : ℤ

/-- The result of a request. -/
inductive Fetched (α : Type)
  | found (value : α)
  | absent
  | failed

/-- What the lineage gate and the classifier say of a parent. -/
inductive ParentVerdict
  | bitcoin (kind : ParentKind) (provisional : Bool)
  | notBitcoin
  | lineagePending

/-- What one look at a height is answered: by the two requests, and about the parent. -/
structure Answer (K Text : Type) where
  block : Fetched (HathorBlockMeta K Text)
  transaction : Text → Fetched (HathorTransaction Text)
  verdict : ParentVerdict
  observedAt : ℤ

inductive HathorHeightOutcome
  | auxpowWritten
  | nonAuxpowSkipped
  | voidedSkipped
  | malformedSkipped
  | nonBitcoinParent
  | lineagePending
  | absentHold
  | transientHold
deriving DecidableEq

inductive HathorBlockDecision (Text : Type)
  | voided
  | nonAuxpow (currentHash : Hash32)
  | auxpow (currentHash : Hash32) (tx : HathorTransaction Text)

def fetchHathorBlockMeta (a : Answer K Text) : Except HathorHeightOutcome (HathorBlockMeta K Text) :=
  match a.block with
  | .found block => .ok block
  | .absent => .error .absentHold
  | .failed => .error .transientHold

/-- `gate_hathor_block_meta`; no hash for a voided block. -/
def gateHathorBlockMeta (height : ℤ) (block : HathorBlockMeta K Text) :
    Except HathorHeightOutcome (Option Hash32) := do
  ensure (block.height = height) .transientHold
  if block.isVoided then return none
  let hash ← required (rules.parseHash block.txId) .malformedSkipped
  return some hash

def fetchValidatedHathorTransaction [DecidableEq Text] (a : Answer K Text) (txId : Text) :
    Except HathorHeightOutcome (HathorTransaction Text) :=
  match a.transaction txId with
  | .found tx => if tx.hash = txId then .ok tx else .error .malformedSkipped
  | .absent => .error .absentHold
  | .failed => .error .transientHold

def classifyHathorBlock [DecidableEq Text] (height : ℤ) (a : Answer K Text)
    (block : HathorBlockMeta K Text) : Except HathorHeightOutcome (HathorBlockDecision Text) := do
  match ← gateHathorBlockMeta rules height block with
  | none => return .voided
  | some currentHash =>
    if block.version ≠ 3 then return .nonAuxpow currentHash
    let tx ← fetchValidatedHathorTransaction a block.txId
    return .auxpow currentHash tx

structure HathorReconstructedParent (K : Type) where
  raw : Bytes
  auxPow : Bytes
  recon : HathorReconstruction
  work : DeclaredWork K

def reconstructOrSkip (tx : HathorTransaction Text) : Option (HathorReconstructedParent K) := do
  let auxHex ← tx.auxPow
  let raw ← rules.decodeHex tx.raw
  let auxPow ← rules.decodeHex auxHex
  let expected ← rules.parseHash tx.hash
  let recon ← (reconstructFromBlobs rules.sha raw auxPow expected).toOption
  let work ← DeclaredWork.read rules raw recon.fundsGraphSplit
  if rules.meetsHathorTarget expected work.weight then some ⟨raw, auxPow, recon, work⟩ else none

/-! ### Captures -/

/-- `BuiltCapture`: the payload, whose kind the classifier fills in, and the sidecar without its
event. -/
structure BuiltCapture where
  payload : MergeMiningEventPayload
  fundsGraph : Bytes
  fundsGraphSplit : ℕ

/-- The child evidence of a Hathor block. -/
def hathorChild (height : ℤ) (time : Option ℤ) (prev : Option Hash32) : Record ChildColumn.Value
  | .childHeight => some height
  | .childBlockTime => time
  | .childPrevBlockHash => prev
  | _ => none

/-- The parent evidence of a Hathor block. -/
def hathorEvidence (coinbase : ParentCoinbase) (bytes : Bytes) : Record ParentColumn.Value
  | .btcParentCoinbaseTxid => some coinbase.txid
  | .btcParentCoinbaseScript => some coinbase.script
  | .btcParentCoinbaseOutputs => some coinbase.outputs
  | .btcParentCoinbaseTxBytes => some bytes
  | .auxMerkleProof => none

def buildHathorCapture (tx : HathorTransaction Text) (height : ℤ)
    (parent : HathorReconstructedParent K) : Option BuiltCapture := do
  let coinbase ← rules.decodeCoinbase parent.recon.fullCoinbase
  let blockHash := dsha rules.sha parent.recon.header.bytes
  return {
    payload :=
      { childBlockHash := some blockHash
        child := hathorChild height (some tx.timestamp) (parent.work.parentBlock.map Hash32.reverse)
        btcParentHeaderHash := blockHash
        btcParentHeaderBytes := parent.recon.header
        btcParentKind := .unknown
        evidence := hathorEvidence coinbase parent.recon.fullCoinbase }
    fundsGraph := parent.raw.take parent.recon.fundsGraphLen
    fundsGraphSplit := parent.recon.fundsGraphSplit }

/-- The payload with the kind of its parent. -/
def BuiltCapture.classified (b : BuiltCapture) (kind : ParentKind) : MergeMiningEventPayload :=
  { b.payload with btcParentKind := kind }

def BuiltCapture.sidecar (b : BuiltCapture) (eventId : ℕ) : Sidecar :=
  ⟨eventId, b.fundsGraph, b.fundsGraphSplit⟩

/-! ### Writes -/

/-- Why a look at a height fails. -/
inductive CaptureError
  | event (error : Store.WriteError)
  | childOnly (error : ChildOnlyError)
deriving DecidableEq

/-- `near`: the observation of a parent that misses the target. -/
def nearObservation (payload : MergeMiningEventPayload) : ChildBlockObservation :=
  { fromEventPayload payload with
    kind := .near
    nearParent := some
      { headerBytes := payload.btcParentHeaderBytes
        headerTime := (u32At payload.btcParentHeaderBytes.bytes 68).toNat
        coinbase := fun
          | .coinbaseTxid => payload.evidence .btcParentCoinbaseTxid
          | .coinbaseScript => payload.evidence .btcParentCoinbaseScript
          | .coinbaseOutputs => payload.evidence .btcParentCoinbaseOutputs } }

/-- `non_bitcoin_parent`: the child side of a payload. -/
def nonBitcoinParentObservation (payload : MergeMiningEventPayload) : ChildBlockObservation :=
  { fromEventPayload payload with kind := .nonBitcoinParent, btcParentHeaderHash := none }

/-- `child_only` -/
def childOnlyObservation (kind : ObservationKind) (height : ℤ) (hash : Hash32) (time : Option ℤ)
    (prev : Option Hash32) : ChildBlockObservation where
  kind
  childBlockHash := some hash
  child := hathorChild height time prev
  btcParentHeaderHash := none
  nearParent := none

inductive CaptureWrite
  | event (outcome : EventWriteOutcome)
  | near (observationId : ℕ)
deriving DecidableEq

def writeHathorCaptureInTxn (s : HathorRows) (b : BuiltCapture) (kind : ParentKind) :
    Except Store.WriteError (CaptureWrite × HathorRows) :=
  if kind = .near then do
    let (id, rows) ← writeEventObservation s.toSourceRows (nearObservation (b.classified kind))
    return (.near id, { s with toSourceRows := rows })
  else do
    let (outcome, rows) ← upsertMergeMiningEvent s.toSourceRows (b.classified kind)
    let sidecar := b.sidecar outcome.eventId
    return (.event outcome,
      { s with
        toSourceRows := rows
        sidecars := s.sidecars.upsert sidecar
          (fun c => ⟨c.eventId, sidecar.fundsGraph, sidecar.fundsGraphSplit⟩) fun _ => rfl })

/-- The deletion of a block's events, which takes their sidecars along. -/
def HathorRows.deleteBlock (s : HathorRows) (payload : MergeMiningEventPayload) : HathorRows :=
  { s with
    toSourceRows := deleteChildBlockEvents s.toSourceRows payload
    sidecars := s.sidecars.delete fun c =>
      s.events.rows.any fun e => isOfChildBlock payload e && e.id = c.eventId }

/-- The rows with the observation of a block that no event backs. -/
def HathorRows.observe (s : HathorRows) (observation : ChildBlockObservation) :
    Except ChildOnlyError HathorRows := do
  let rows ← upsertChildOnlyObservation s.toSourceRows observation
  return { s with toSourceRows := rows }

def retractChildBlock (s : HathorRows) (payload : MergeMiningEventPayload) :
    Except ChildOnlyError HathorRows :=
  let observation := nonBitcoinParentObservation payload
  if payload.childBlockHash.isNone then .ok s
  else if childBlockIsCounted s.toSourceRows payload then
    (s.deleteBlock payload).observe observation
  else s.observe observation

/-! ### One look at a height -/

/-- What a look leaves: its outcome and the rows, what its capture wrote, and the work of the block
that it recorded as the head. -/
structure Look (K : Type) where
  outcome : HathorHeightOutcome
  rows : HathorRows
  write : Option CaptureWrite
  recorded : Option (DeclaredWork K)

/-- A head written to the height, as the chain's block. -/
def HathorRows.record (s : HathorRows) (height : ℤ) (record : ChildChainHeadRecord) : HathorRows :=
  { s with toChildChain := (recordChildChainBlock s.toChildChain height record).2 }

section Look

variable [Field K] [LinearOrder K] (observation : ChainObservation)

def recordChildOnlyBlock (s : HathorRows) (height : ℤ) (a : Answer K Text) (currentHash : Hash32)
    (block : HathorBlockMeta K Text) (kind : ObservationKind)
    (reconstructed : Option (DeclaredWork K)) : Except CaptureError (Look K) :=
  let (headParent, headOutcome, outcome) : CurrentBlockParent × ChildChainHeadOutcome ×
      HathorHeightOutcome :=
    if kind = .notMergeMined then (.noAuxpow, .noAuxpow, .nonAuxpowSkipped)
    else (.unknown, .unverified, .malformedSkipped)
  if reconstructed.isNone && kind = .unverifiedParent && block.weight.isNone then
    .ok ⟨outcome, s, none, none⟩
  else
    let listed : Option Hash32 := do
      let bytes ← rules.decodeHex (← block.parents.head?)
      if h : bytes.length = 32 then some ⟨bytes, h⟩ else none
    let parentBlock := listed.or (reconstructed.bind (·.parentBlock))
    let work : Option (Option (DeclaredWork K)) :=
      match reconstructed, block.weight with
      | some work, _ => some (some work)
      | none, some weight =>
        if rules.meetsHathorTarget currentHash weight then some (some ⟨weight, parentBlock⟩)
        else none
      | none, none => some none
    match work with
    | none => .ok ⟨.malformedSkipped, s, none, none⟩
    | some work => do
      let child := childOnlyObservation kind height currentHash block.timestamp
        (parentBlock.map Hash32.reverse)
      let recorded := work.filter fun work =>
        mayRecordCurrentBlock rules observation s height work
      let s' := if recorded.isSome then
          s.record height ⟨currentHash, headParent, headOutcome, a.observedAt⟩
        else s
      let rows ← (s'.observe child).mapError .childOnly
      return ⟨outcome, rows, none, recorded⟩

/-- `write_capture`, for a parent that is not refused. -/
def writeCapture (s : HathorRows) (height : ℤ) (a : Answer K Text) (currentHash : Hash32)
    (work : DeclaredWork K) (b : BuiltCapture) (kind : ParentKind) (provisional : Bool) :
    Except CaptureError (Look K) := do
  let (write, s) ← (writeHathorCaptureInTxn s b kind).mapError .event
  let headOutcome : ChildChainHeadOutcome := if provisional then .unverified else .captured
  if mayRecordCurrentBlock rules observation s height work then
    return ⟨.auxpowWritten,
      s.record height ⟨currentHash, .known currentHash, headOutcome, a.observedAt⟩, some write, some work⟩
  else return ⟨.auxpowWritten, s, some write, none⟩

/-- The head that a refused block may still be recorded as. -/
def recordRefused (s : HathorRows) (height : ℤ) (a : Answer K Text) (currentHash : Hash32)
    (work : DeclaredWork K) (outcome : HathorHeightOutcome) (headOutcome : ChildChainHeadOutcome) :
    Look K :=
  if mayRecordCurrentBlock rules observation s height work then
    ⟨outcome, s.record height ⟨currentHash, .known currentHash, headOutcome, a.observedAt⟩, none,
      some work⟩
  else ⟨outcome, s, none, none⟩

variable [DecidableEq Text]

def processLockedBlock (s : HathorRows) (height : ℤ) (a : Answer K Text)
    (block : HathorBlockMeta K Text) : Except CaptureError (Look K) :=
  match classifyHathorBlock rules height a block with
  | .error outcome => .ok ⟨outcome, s, none, none⟩
  | .ok .voided => .ok ⟨.voidedSkipped, s, none, none⟩
  | .ok (.nonAuxpow currentHash) =>
    recordChildOnlyBlock rules observation s height a currentHash block .notMergeMined none
  | .ok (.auxpow currentHash tx) =>
    match reconstructOrSkip rules tx with
    | none => recordChildOnlyBlock rules observation s height a currentHash block .unverifiedParent none
    | some parent =>
      match buildHathorCapture rules tx height parent with
      | none =>
        recordChildOnlyBlock rules observation s height a currentHash block .unverifiedParent
          (some parent.work)
      | some b =>
        match a.verdict with
        | .bitcoin kind provisional =>
          writeCapture rules observation s height a currentHash parent.work b kind provisional
        | .notBitcoin => do
          let s ← (retractChildBlock s b.payload).mapError .childOnly
          return recordRefused rules observation s height a currentHash parent.work
            .nonBitcoinParent .recorded
        | .lineagePending =>
          .ok (recordRefused rules observation s height a currentHash parent.work
            .lineagePending .held)

def processHathorHeight (s : HathorRows) (height : ℤ) (a : Answer K Text) :
    Except CaptureError (Look K) :=
  match fetchHathorBlockMeta a with
  | .error outcome => .ok ⟨outcome, s, none, none⟩
  | .ok block => processLockedBlock rules observation s height a block

end Look

end MergeMiningMonitor.Hathor
