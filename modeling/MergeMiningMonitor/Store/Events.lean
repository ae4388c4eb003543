import MergeMiningMonitor.Support.Coalesce
import MergeMiningMonitor.Support.Serial
import MergeMiningMonitor.ReadModel.Rows
import MergeMiningMonitor.AuxPow.Commitment

/-!
# Store — Events

How one source's evidence is written (`event.rs`, `observation.rs`).  A payload describes one child
block.  It is written as an event, a row of `merge_mining_event`, and as the observation of the
child block, a row of `child_block_observation`, which the event is linked to.

A row with a child hash is *exact*: the hash identifies it.  A row without one is identified by the
child height and the Bitcoin parent.  A payload reaches the rows of its block by one of four ways:
it inserts or updates the row of its own identity (`insertEvent`), its hash promotes a row that had
none (`promotePartialEvent`, `foldHashlessObservation`), or, having none, it fills the one exact row
of its height and parent (`fillExistingEvent`).

The columns that hold evidence are a `Record` over the columns' names.  The constraints on the
lengths of hashes and headers are in the types of the values.
-/

namespace MergeMiningMonitor.Store

open Relational Coalesce Fallible
open AuxPow (Hash32)

/-! ### Columns -/

/-- The child evidence of an observation. -/
inductive ChildColumn
  | childHeight
  | childBlockTime
  | childHeaderBytes
  | childNbits
  | powValidatesChildTarget
  | childPrevBlockHash
  | childCoinbaseTxid
  | childCoinbaseScript
  | childCoinbaseOutputs
deriving DecidableEq

abbrev ChildColumn.Value : ChildColumn → Type
  | .childHeight => Int
  | .childBlockTime => Int
  | .childHeaderBytes => AuxPow.Header
  | .childNbits => UInt32
  | .powValidatesChildTarget => Bool
  | .childPrevBlockHash => Hash32
  | .childCoinbaseTxid => Hash32
  | .childCoinbaseScript => Bytes
  | .childCoinbaseOutputs => Bytes

instance : (c : ChildColumn) → DecidableEq c.Value
  | .childHeight => inferInstanceAs (DecidableEq Int)
  | .childBlockTime => inferInstanceAs (DecidableEq Int)
  | .childHeaderBytes => inferInstanceAs (DecidableEq AuxPow.Header)
  | .childNbits => inferInstanceAs (DecidableEq UInt32)
  | .powValidatesChildTarget => inferInstanceAs (DecidableEq Bool)
  | .childPrevBlockHash => inferInstanceAs (DecidableEq Hash32)
  | .childCoinbaseTxid => inferInstanceAs (DecidableEq Hash32)
  | .childCoinbaseScript => inferInstanceAs (DecidableEq Bytes)
  | .childCoinbaseOutputs => inferInstanceAs (DecidableEq Bytes)

/-- The evidence of an event about its Bitcoin parent. -/
inductive ParentColumn
  | btcParentCoinbaseTxid
  | btcParentCoinbaseScript
  | btcParentCoinbaseOutputs
  | btcParentCoinbaseTxBytes
  | auxMerkleProof
deriving DecidableEq

abbrev ParentColumn.Value : ParentColumn → Type
  | .btcParentCoinbaseTxid => Hash32
  | _ => Bytes

instance : (c : ParentColumn) → DecidableEq c.Value
  | .btcParentCoinbaseTxid => inferInstanceAs (DecidableEq Hash32)
  | .btcParentCoinbaseScript => inferInstanceAs (DecidableEq Bytes)
  | .btcParentCoinbaseOutputs => inferInstanceAs (DecidableEq Bytes)
  | .btcParentCoinbaseTxBytes => inferInstanceAs (DecidableEq Bytes)
  | .auxMerkleProof => inferInstanceAs (DecidableEq Bytes)

def checkedChildEvidence : List ChildColumn :=
  [.childHeight, .childBlockTime, .childHeaderBytes, .childNbits, .powValidatesChildTarget,
    .childPrevBlockHash]

/-- The evidence about the parent that every write of an event compares; the proof is not. -/
def checkedParentEvidence : List ParentColumn :=
  [.btcParentCoinbaseTxid, .btcParentCoinbaseScript, .btcParentCoinbaseOutputs,
    .btcParentCoinbaseTxBytes]

/-! ### Payloads and rows -/

inductive ObservationKind
  | evidence
  | near
  | notMergeMined
  | nonBitcoinParent
  | unverifiedParent
deriving DecidableEq

/-- `MergeMiningEventPayload`, without what only presentation and attribution read. -/
structure MergeMiningEventPayload where
  childBlockHash : Option Hash32
  child : Record ChildColumn.Value
  btcParentHeaderHash : Hash32
  btcParentHeaderBytes : AuxPow.Header
  btcParentKind : ParentKind
  evidence : Record ParentColumn.Value

/-- The coinbase columns of a near parent. -/
inductive NearColumn
  | coinbaseTxid
  | coinbaseScript
  | coinbaseOutputs
deriving DecidableEq

abbrev NearColumn.Value : NearColumn → Type
  | .coinbaseTxid => Hash32
  | _ => Bytes

structure NearParentEvidence where
  headerBytes : AuxPow.Header
  headerTime : Int
  coinbase : Record NearColumn.Value

/-- `ChildBlockObservation`, as it is written. -/
structure ChildBlockObservation where
  kind : ObservationKind
  childBlockHash : Option Hash32
  child : Record ChildColumn.Value
  btcParentHeaderHash : Option Hash32
  nearParent : Option NearParentEvidence

/-- A row of `merge_mining_event`. -/
structure EventRow where
  id : ℕ
  childHeight : Option Int
  childBlockHash : Option Hash32
  btcParentHeaderHash : Hash32
  btcParentHeaderBytes : AuxPow.Header
  evidence : Record ParentColumn.Value
  observationId : ℕ

/-- A row of `child_block_observation`. -/
structure ObservationRow extends ChildBlockObservation where
  id : ℕ
  childDisplacedAt : Option Int
  childDisplacedBy : Option Hash32

/-- The events and the observations of one source. -/
structure SourceRows where
  events : Serial EventRow.id
  observations : Serial ObservationRow.id

/-- A source that nothing was written to. -/
def SourceRows.empty : SourceRows := ⟨Serial.empty, Serial.empty⟩

abbrev MergeMiningEventPayload.childHeight (payload : MergeMiningEventPayload) : Option Int :=
  payload.child .childHeight

abbrev ChildBlockObservation.childHeight (observation : ChildBlockObservation) : Option Int :=
  observation.child .childHeight

/-- `header_prev_block_hash`: `hashPrevBlock`, bytes 4 to 36. -/
def headerPrevBlockHash (header : AuxPow.Header) : Hash32 :=
  ⟨(header.bytes.drop 4).take 32, by rw [List.length_take, List.length_drop, header.size]; rfl⟩

/-- `from_event_payload`: the observation of a payload's child block.  A predecessor that is not
stated is the one the header names. -/
def fromEventPayload (payload : MergeMiningEventPayload) : ChildBlockObservation where
  kind := .evidence
  childBlockHash := payload.childBlockHash
  child := Function.update payload.child .childPrevBlockHash
    ((payload.child .childPrevBlockHash).or
      ((payload.child .childHeaderBytes).map headerPrevBlockHash))
  btcParentHeaderHash := some payload.btcParentHeaderHash
  nearParent := none

section fromEventPayload

variable (payload : MergeMiningEventPayload)

@[simp] theorem fromEventPayload_kind : (fromEventPayload payload).kind = .evidence := rfl

@[simp] theorem fromEventPayload_childBlockHash :
    (fromEventPayload payload).childBlockHash = payload.childBlockHash := rfl

@[simp] theorem fromEventPayload_childHeight :
    (fromEventPayload payload).childHeight = payload.childHeight := rfl

@[simp] theorem fromEventPayload_btcParentHeaderHash :
    (fromEventPayload payload).btcParentHeaderHash = some payload.btcParentHeaderHash := rfl

@[simp] theorem fromEventPayload_nearParent : (fromEventPayload payload).nearParent = none := rfl

end fromEventPayload

/-! ### Errors and outcomes -/

/-- Why a write is refused. -/
inductive WriteError
  /-- "a near is recorded as an observation, not an event" -/
  | nearIsNoEvent
  /-- "merge-mining observation requires a child hash or child height" -/
  | noChildIdentity
  /-- "event observation contradicts the stored child evidence" -/
  | observationContradictsEvidence
  /-- "exact refinement contradicts the stored partial observation" -/
  | refinementContradictsPartial
  /-- "partial child evidence contradicts existing exact observation" -/
  | partialContradictsExact
  /-- "merge-mining observation contradicts stored evidence" -/
  | contradictsStoredEvidence
  /-- "the hashless observation contradicts the block's exact observation" -/
  | hashlessContradictsExact
  /-- "look up the event's hashless and exact observations" -/
  | eventNotFound
  /-- "hashless observation ambiguously matches … exact events for source … child height …" -/
  | ambiguousExact (count : ℕ) (childHeight : Int)
deriving DecidableEq

inductive EventWriteDisposition
  | inserted
  | updated
  | promoted
  | satisfiedByExistingExact
deriving DecidableEq

structure EventWriteOutcome where
  eventId : ℕ
  observationId : ℕ
  disposition : EventWriteDisposition
deriving DecidableEq

/-! ### Identity -/

inductive Exactness
  | exactHash
  | partialIdentity
deriving DecidableEq

/-- `identity_conflict_clause`: which stored identity a new one conflicts with.  A null parent
conflicts with nothing. -/
def identityConflict (exactness : Exactness) (hash : Option Hash32) (height : Option Int)
    (parent : Option Hash32) (hash' : Option Hash32) (height' : Option Int)
    (parent' : Option Hash32) : Bool :=
  match exactness with
  | .exactHash => hash.isSome && hash = hash'
  | .partialIdentity =>
    hash.isNone && hash'.isNone && height.isSome && height = height' && parent.isSome &&
      parent = parent'

/-! ### Observations -/

def childEvidenceAgrees (o other : Record ChildColumn.Value) : Bool :=
  AgreeOn checkedChildEvidence o other

def sameNearParent (o : ObservationRow) (excluded : ChildBlockObservation) : Bool :=
  excluded.kind = .near && o.kind = .near && o.btcParentHeaderHash = excluded.btcParentHeaderHash

/-- `near_parent_set`: a rewrite naming the same near parent keeps the stored coinbase, any other
write takes the new one. -/
def nearParentSet (o : ObservationRow) (excluded : ChildBlockObservation) :
    Option NearParentEvidence :=
  excluded.nearParent.map fun near =>
    if sameNearParent o excluded then
      { near with coinbase := fill ((o.nearParent.map (·.coinbase)).getD fun _ => none) near.coinbase }
    else near

/-- An unauthenticated child-only answer never overwrites a proven parent. -/
def kindGuard (o : ObservationRow) (excluded : ChildBlockObservation) : Bool :=
  match excluded.kind with
  | .notMergeMined | .unverifiedParent => o.kind ≠ .evidence && o.kind ≠ .near
  | _ => true

variable (excluded : ChildBlockObservation)

/-- The row that an observation conflicts with. -/
def observationConflict (o : ObservationRow) : Bool :=
  identityConflict (if excluded.childBlockHash.isSome then .exactHash else .partialIdentity)
    o.childBlockHash o.childHeight o.btcParentHeaderHash
    excluded.childBlockHash excluded.childHeight excluded.btcParentHeaderHash

/-- The `WHERE` of the observation upsert. -/
def observationGuard (o : ObservationRow) : Bool :=
  Agree o.btcParentHeaderHash excluded.btcParentHeaderHash &&
    childEvidenceAgrees o.child excluded.child && kindGuard o excluded

/-- The `SET` of the observation upsert. -/
def observationSet (o : ObservationRow) : ObservationRow :=
  { o with
    kind := excluded.kind
    child := fill o.child excluded.child
    btcParentHeaderHash := excluded.btcParentHeaderHash
    nearParent := nearParentSet o excluded }

@[simp] theorem observationSet_id (o : ObservationRow) :
    (observationSet excluded o).id = o.id := rfl

/-- The row that the observation upsert inserts. -/
def newObservation (observation : ChildBlockObservation) (id : ℕ) : ObservationRow :=
  { observation with id, childDisplacedAt := none, childDisplacedBy := none }

@[simp] theorem newObservation_id (observation : ChildBlockObservation) (id : ℕ) :
    (newObservation observation id).id = id := rfl

/-- `write_observation`; nothing when the stored row refuses the new one. -/
def writeObservation (s : SourceRows) (observation : ChildBlockObservation) : Option (ℕ × SourceRows) :=
  (s.observations.upsert (observationConflict observation) (observationGuard observation)
    (observationSet observation) (observationSet_id observation) (newObservation observation)
    (newObservation_id observation)).map fun (row, observations) => (row.id, { s with observations })

def writeEventObservation (s : SourceRows) (observation : ChildBlockObservation) :
    Except WriteError (ℕ × SourceRows) :=
  required (writeObservation s observation) .observationContradictsEvidence

def linkEventObservation (s : SourceRows) (eventId observationId : ℕ) : SourceRows :=
  { s with
    events := s.events.update (fun e => e.id = eventId && e.observationId ≠ observationId)
      (fun e => { e with observationId }) fun _ => rfl }

/-- The update that gives a hashless observation the hash its event has. -/
def promoteObservation (s : SourceRows) (e : EventRow) (observationId : ℕ) : SourceRows :=
  { s with
    observations := s.observations.update (fun o => o.id = observationId)
      (fun o => { o with
        childBlockHash := e.childBlockHash
        child := Function.update o.child .childHeight (o.childHeight.or e.childHeight) })
      fun _ => rfl }

/-- `fold_hashless_observation`: the hashless observation of an event takes the hash the event now
has, or is folded into the observation that has that hash already. -/
def foldHashlessObservation (s : SourceRows) (eventId : ℕ) : Except WriteError SourceRows := do
  let e ← required (s.events.find? eventId) .eventNotFound
  let hashless := s.observations.rows.find? fun o => o.id = e.observationId && o.childBlockHash.isNone
  let exactRow := s.observations.rows.find? fun o =>
    o.childBlockHash.isSome && o.childBlockHash = e.childBlockHash
  match hashless, exactRow with
  | some h, none => .ok (promoteObservation s e h.id)
  | some h, some x => do
    let (_, observations) ← required
      (s.observations.updateReturning (fun o => o.id = x.id && childEvidenceAgrees o.child h.child)
        (fun o => { o with child := fill o.child h.child }) fun _ => rfl)
      .hashlessContradictsExact
    let s := linkEventObservation { s with observations } eventId x.id
    .ok { s with observations := s.observations.delete fun o => o.id = h.id }
  | none, _ => .ok s

/-! ### Events -/

/-- `exact_event_parent_input`: the event of a child hash. -/
def exactEvent (s : SourceRows) (childHash : Hash32) : Option EventRow :=
  s.events.rows.find? fun e => e.childBlockHash = some childHash

def matchingPartialEventId (s : SourceRows) (childHeight : Int) (payload : MergeMiningEventPayload) :
    Option ℕ :=
  (s.events.rows.find? fun e => e.childHeight = some childHeight &&
    e.btcParentHeaderHash = payload.btcParentHeaderHash && e.childBlockHash.isNone).map (·.id)

/-- `matching_exact_event_ids`: at most two, which is enough to see that there is not one. -/
def matchingExactEventIds (s : SourceRows) (childHeight : Int) (payload : MergeMiningEventPayload) :
    List ℕ :=
  ((s.events.rows.filter fun e => e.childHeight = some childHeight &&
    e.btcParentHeaderHash = payload.btcParentHeaderHash && e.childBlockHash.isSome).map (·.id)).take 2

/-- The comparison of the stored parent evidence with a payload's. -/
def parentEvidenceAgrees (e : EventRow) (payload : MergeMiningEventPayload) : Bool :=
  AgreeOn checkedParentEvidence e.evidence payload.evidence

def promotePartialEvent (s : SourceRows) (eventId : ℕ) (payload : MergeMiningEventPayload) :
    Except WriteError (ℕ × SourceRows) := do
  let (row, events) ← required
    (s.events.updateReturning
      (fun e => e.id = eventId && e.childBlockHash.isNone &&
        e.btcParentHeaderBytes = payload.btcParentHeaderBytes && parentEvidenceAgrees e payload)
      (fun e => { e with
        childBlockHash := payload.childBlockHash
        evidence := fill e.evidence payload.evidence })
      fun _ => rfl)
    .refinementContradictsPartial
  .ok (row.id, { s with events })

/-- `fill_existing_event`: the row after the write, of which the caller reads height and hash. -/
def fillExistingEvent (s : SourceRows) (eventId : ℕ) (payload : MergeMiningEventPayload) :
    Except WriteError (EventRow × SourceRows) := do
  let (row, events) ← required
    (s.events.updateReturning
      (fun e => e.id = eventId && e.btcParentHeaderHash = payload.btcParentHeaderHash &&
        e.btcParentHeaderBytes = payload.btcParentHeaderBytes && parentEvidenceAgrees e payload)
      (fun e => { e with evidence := fill e.evidence payload.evidence })
      fun _ => rfl)
    .partialContradictsExact
  .ok (row, { s with events })

/-- The row that an event conflicts with. -/
def eventConflict (exactness : Exactness) (payload : MergeMiningEventPayload) (e : EventRow) : Bool :=
  identityConflict exactness e.childBlockHash e.childHeight (some e.btcParentHeaderHash)
    payload.childBlockHash payload.childHeight (some payload.btcParentHeaderHash)

/-- The `WHERE` of `insert_event_sql`. -/
def eventGuard (payload : MergeMiningEventPayload) (e : EventRow) : Bool :=
  e.btcParentHeaderHash = payload.btcParentHeaderHash &&
    e.btcParentHeaderBytes = payload.btcParentHeaderBytes &&
    Agree e.childHeight payload.childHeight && parentEvidenceAgrees e payload

/-- The `SET` of `insert_event_sql`. -/
def eventSet (payload : MergeMiningEventPayload) (observationId : ℕ) (e : EventRow) : EventRow :=
  { e with
    observationId
    childHeight := e.childHeight.or payload.childHeight
    evidence := fill e.evidence payload.evidence }

@[simp] theorem eventSet_id (payload : MergeMiningEventPayload) (observationId : ℕ) (e : EventRow) :
    (eventSet payload observationId e).id = e.id := rfl

/-- The row that `insert_event_sql` inserts. -/
def newEvent (payload : MergeMiningEventPayload) (observationId id : ℕ) : EventRow where
  id
  childHeight := payload.childHeight
  childBlockHash := payload.childBlockHash
  btcParentHeaderHash := payload.btcParentHeaderHash
  btcParentHeaderBytes := payload.btcParentHeaderBytes
  evidence := payload.evidence
  observationId

@[simp] theorem newEvent_id (payload : MergeMiningEventPayload) (observationId id : ℕ) :
    (newEvent payload observationId id).id = id := rfl

/-- `insert_event`: the observation first, so that a new event is inserted already linked. -/
def insertEvent (s : SourceRows) (payload : MergeMiningEventPayload) (exactness : Exactness)
    (observation : ChildBlockObservation) : Except WriteError (EventWriteOutcome × SourceRows) := do
  let (observationId, s) ← writeEventObservation s observation
  let inserted := !s.events.rows.any (eventConflict exactness payload)
  let (row, events) ← required
    (s.events.upsert (eventConflict exactness payload) (eventGuard payload)
      (eventSet payload observationId) (eventSet_id payload observationId)
      (newEvent payload observationId) (newEvent_id payload observationId))
    .contradictsStoredEvidence
  .ok (⟨row.id, observationId, if inserted then .inserted else .updated⟩, { s with events })

/-- `upsert_hashless_event`: a new partial event, or the one exact event the payload describes. -/
def upsertHashlessEvent (s : SourceRows) (payload : MergeMiningEventPayload) (childHeight : Int)
    (observation : ChildBlockObservation) : Except WriteError (EventWriteOutcome × SourceRows) :=
  match matchingExactEventIds s childHeight payload with
  | [] => insertEvent s payload .partialIdentity observation
  | [id] => do
    let (row, s) ← fillExistingEvent s id payload
    let observation :=
      { observation with
        child := Function.update observation.child .childHeight
          (row.childHeight.or observation.childHeight)
        childBlockHash := row.childBlockHash }
    let (observationId, s) ← writeEventObservation s observation
    .ok (⟨id, observationId, .satisfiedByExistingExact⟩, s)
  | ids => .error (.ambiguousExact ids.length childHeight)

/-- The exact refinement of a partial event: the fold leaves the event linked to the observation of
its hash, which the write then fills. -/
def refinePartialEvent (s : SourceRows) (payload : MergeMiningEventPayload) (id : ℕ)
    (observation : ChildBlockObservation) : Except WriteError (EventWriteOutcome × SourceRows) := do
  let (eventId, s) ← promotePartialEvent s id payload
  let s ← foldHashlessObservation s eventId
  let (observationId, s) ← writeEventObservation s observation
  .ok (⟨eventId, observationId, .promoted⟩, s)

/-- `upsert_merge_mining_event`.  A refused write leaves the store as it was: the caller's
transaction rolls back what the earlier statements wrote. -/
def upsertMergeMiningEvent (s : SourceRows) (payload : MergeMiningEventPayload) :
    Except WriteError (EventWriteOutcome × SourceRows) :=
  if payload.btcParentKind = .near then .error .nearIsNoEvent
  else
    let observation := fromEventPayload payload
    match payload.childBlockHash, payload.childHeight with
    | none, none => .error .noChildIdentity
    | none, some childHeight => upsertHashlessEvent s payload childHeight observation
    | some childHash, childHeight =>
      match exactEvent s childHash, childHeight.bind (matchingPartialEventId s · payload) with
      | none, some id => refinePartialEvent s payload id observation
      | _, _ => insertEvent s payload .exactHash observation

/-! ### Which way a payload takes -/

section upsertMergeMiningEvent

variable {s : SourceRows} {payload : MergeMiningEventPayload} {childHash : Hash32}

theorem upsert_of_near (hkind : payload.btcParentKind = .near) :
    upsertMergeMiningEvent s payload = .error .nearIsNoEvent :=
  if_pos hkind

theorem upsert_of_unidentified (hkind : payload.btcParentKind ≠ .near)
    (hhash : payload.childBlockHash = none) (hheight : payload.childHeight = none) :
    upsertMergeMiningEvent s payload = .error .noChildIdentity := by
  simp [upsertMergeMiningEvent, hkind, hhash, hheight]

theorem upsert_of_hashless {childHeight : Int} (hkind : payload.btcParentKind ≠ .near)
    (hhash : payload.childBlockHash = none) (hheight : payload.childHeight = some childHeight) :
    upsertMergeMiningEvent s payload =
      upsertHashlessEvent s payload childHeight (fromEventPayload payload) := by
  simp [upsertMergeMiningEvent, hkind, hhash, hheight]

theorem upsert_of_exactEvent {e : EventRow} (hkind : payload.btcParentKind ≠ .near)
    (hhash : payload.childBlockHash = some childHash) (hexact : exactEvent s childHash = some e) :
    upsertMergeMiningEvent s payload =
      insertEvent s payload .exactHash (fromEventPayload payload) := by
  simp [upsertMergeMiningEvent, hkind, hhash, hexact]

theorem upsert_of_no_partialEvent (hkind : payload.btcParentKind ≠ .near)
    (hhash : payload.childBlockHash = some childHash)
    (hnone : ∀ n, payload.childHeight = some n → matchingPartialEventId s n payload = none) :
    upsertMergeMiningEvent s payload =
      insertEvent s payload .exactHash (fromEventPayload payload) := by
  have hid : payload.childHeight.bind (matchingPartialEventId s · payload) = none :=
    Option.bind_eq_none_iff.mpr hnone
  simp [upsertMergeMiningEvent, hkind, hhash, hid]

theorem upsert_of_partialEvent {childHeight : Int} {id : ℕ} (hkind : payload.btcParentKind ≠ .near)
    (hhash : payload.childBlockHash = some childHash) (hexact : exactEvent s childHash = none)
    (hheight : payload.childHeight = some childHeight)
    (hid : matchingPartialEventId s childHeight payload = some id) :
    upsertMergeMiningEvent s payload =
      refinePartialEvent s payload id (fromEventPayload payload) := by
  simp [upsertMergeMiningEvent, hkind, hhash, hexact, hheight, hid]

end upsertMergeMiningEvent

/-- The payloads written one after another, each in a transaction of its own. -/
def writeEvents (s : SourceRows) (payloads : List MergeMiningEventPayload) : Except WriteError SourceRows :=
  payloads.foldlM (fun s payload => (·.2) <$> upsertMergeMiningEvent s payload) s

end MergeMiningMonitor.Store
