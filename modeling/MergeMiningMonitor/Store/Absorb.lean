import MergeMiningMonitor.Store.Events

/-!
# Store — Absorb

The four ways in which a payload reaches the rows of its block are four statements with their own
`SET` and `WHERE` clauses.  They implement one merge: when a source holds one event with its
observation, and a payload matches the event, then the write is accepted exactly when the payload
contradicts no checked column (`Accepts`), and leaves the event and the observation with what the
payload adds (`EventRow.absorb`, `ObservationRow.absorb`).  `upsert_absorbs` says so for every way.
-/

namespace MergeMiningMonitor.Store

open Relational Coalesce Fallible Option
open AuxPow (Hash32)

variable {s : SourceRows} {e : EventRow} {o : ObservationRow} {p : MergeMiningEventPayload}

/-! ### The merge -/

/-- An event with what a payload adds to it. -/
def EventRow.absorb (e : EventRow) (p : MergeMiningEventPayload) : EventRow :=
  { e with
    childHeight := e.childHeight.or p.childHeight
    childBlockHash := e.childBlockHash.or p.childBlockHash
    evidence := fill e.evidence p.evidence }

/-- An observation with what a payload adds to it. -/
def ObservationRow.absorb (o : ObservationRow) (p : MergeMiningEventPayload) : ObservationRow :=
  { o with
    childBlockHash := o.childBlockHash.or p.childBlockHash
    child := fill o.child (fromEventPayload p).child }

/-- A payload contradicts no checked column of an event and of its observation. -/
structure Accepts (e : EventRow) (o : ObservationRow) (p : MergeMiningEventPayload) : Prop where
  parentHash : e.btcParentHeaderHash = p.btcParentHeaderHash
  parentBytes : e.btcParentHeaderBytes = p.btcParentHeaderBytes
  height : Agree e.childHeight p.childHeight
  parentEvidence : AgreeOn checkedParentEvidence e.evidence p.evidence
  childEvidence : AgreeOn checkedChildEvidence o.child (fromEventPayload p).child

/-- A payload is about an event's block: it states the event's hash, or one of the two has no hash
and it states the event's height and parent. -/
def Matches (e : EventRow) (p : MergeMiningEventPayload) : Prop :=
  (∃ h, p.childBlockHash = some h ∧ e.childBlockHash = some h) ∨
    ((e.childBlockHash = none ∨ p.childBlockHash = none) ∧
      ∃ n, p.childHeight = some n ∧ e.childHeight = some n ∧
        e.btcParentHeaderHash = p.btcParentHeaderHash)

/-- An event and the observation of its block. -/
structure Paired (e : EventRow) (o : ObservationRow) : Prop where
  link : e.observationId = o.id
  hash : o.childBlockHash = e.childBlockHash
  height : o.childHeight = e.childHeight
  parent : o.btcParentHeaderHash = some e.btcParentHeaderHash
  kind : o.kind = .evidence
  near : o.nearParent = none

/-- The source holds one event, with its observation, and nothing else. -/
structure Holds (s : SourceRows) (e : EventRow) (o : ObservationRow) : Prop extends Paired e o where
  events : s.events.rows = [e]
  observations : s.observations.rows = [o]

theorem Paired.absorb (h : Paired e o) : Paired (e.absorb p) (o.absorb p) where
  link := h.link
  hash := congrArg (·.or p.childBlockHash) h.hash
  height := congrArg (·.or p.childHeight) h.height
  parent := h.parent
  kind := h.kind
  near := h.near

/-- What a write that matches an event does: it is accepted exactly when it contradicts no checked
column, and then the rows absorb the payload. -/
abbrev Absorbs (e : EventRow) (o : ObservationRow) (p : MergeMiningEventPayload)
    (result : Except WriteError (EventWriteOutcome × SourceRows)) : Prop :=
  Succeeds result (Accepts e o p) fun (_, s') => Holds s' (e.absorb p) (o.absorb p)

/-! ### The observation -/

/-- The guard of the observation compares the parent and the checked child evidence. -/
theorem observationGuard_fromEventPayload (h : Paired e o) (hash : Option Hash32) :
    observationGuard { fromEventPayload p with childBlockHash := hash } o = true ↔
      e.btcParentHeaderHash = p.btcParentHeaderHash ∧
        AgreeOn checkedChildEvidence o.child (fromEventPayload p).child := by
  have hparent : Agree o.btcParentHeaderHash (fromEventPayload p).btcParentHeaderHash ↔
      e.btcParentHeaderHash = p.btcParentHeaderHash := by
    simp [h.parent, Agree]
  have hkind : kindGuard o { fromEventPayload p with childBlockHash := hash } = true := rfl
  rw [observationGuard, childEvidenceAgrees, hkind, Bool.and_true, Bool.and_eq_true,
    decide_eq_true_iff, decide_eq_true_iff, hparent]

/-- The observation of a payload, written under the hash of the row or under no hash as the row. -/
theorem observationSet_eq_absorb (hash : Option Hash32) (h : Paired e o)
    (hparent : e.btcParentHeaderHash = p.btcParentHeaderHash)
    (hhash : o.childBlockHash.or p.childBlockHash = o.childBlockHash) :
    observationSet { fromEventPayload p with childBlockHash := hash } o = o.absorb p := by
  obtain ⟨⟨kind, rowHash, child, parent, near⟩, id, displacedAt, displacedBy⟩ := o
  obtain ⟨-, -, -, rfl, rfl, rfl⟩ := h
  simp only [observationSet, ObservationRow.absorb, nearParentSet, fromEventPayload, hparent, hhash,
    map_none]

/-- The upsert of an observation whose conflict is with the one row there is. -/
theorem succeeds_writeEventObservation {obs : ChildBlockObservation}
    (hrows : s.observations.rows = [o]) (hconflict : observationConflict obs o = true) :
    Succeeds (writeEventObservation s obs) (observationGuard obs o = true) fun (i, s') =>
      i = o.id ∧ s'.events = s.events ∧ s'.observations.rows = [observationSet obs o] := by
  rw [writeEventObservation, writeObservation, required_map]
  refine (Serial.succeeds_upsert hrows hconflict).bind_ok fun (row, observations) _ h => ?_
  obtain ⟨rfl, hrows'⟩ := h
  exact ⟨rfl, rfl, hrows'⟩

/-! ### The event of its own identity -/

theorem eventGuard_eq_true : eventGuard p e = true ↔
    e.btcParentHeaderHash = p.btcParentHeaderHash ∧
      e.btcParentHeaderBytes = p.btcParentHeaderBytes ∧ Agree e.childHeight p.childHeight ∧
      AgreeOn checkedParentEvidence e.evidence p.evidence := by
  simp only [eventGuard, parentEvidenceAgrees, Bool.and_eq_true, decide_eq_true_iff, and_assoc]

/-- An upsert of the event by an identity that conflicts with the one event there is. -/
theorem insertEvent_absorbs {x : Exactness} (hs : Holds s e o)
    (hevent : eventConflict x p e = true)
    (hobs : observationConflict (fromEventPayload p) o = true)
    (hhash : e.childBlockHash.or p.childBlockHash = e.childBlockHash) :
    Absorbs e o p (insertEvent s p x (fromEventPayload p)) := by
  have hguard := observationGuard_fromEventPayload (p := p) hs.toPaired p.childBlockHash
  refine ((succeeds_writeEventObservation hs.observations hobs).bind
    fun (i, s₁) hog ⟨hi, hevents, hrows⟩ =>
      (Serial.succeeds_upsert (hevents ▸ hs.events) hevent).bind_ok
        fun (row, events) heg ⟨hrow, hevents'⟩ => ?_).imp ?_ fun _ _ h => h
  · rw [eventGuard_eq_true, show observationGuard (fromEventPayload p) o = true ↔ _ from hguard]
    exact ⟨fun ⟨⟨_, hchild⟩, hparent, hbytes, hheight, hevidence⟩ =>
        ⟨hparent, hbytes, hheight, hevidence, hchild⟩,
      fun h => ⟨⟨h.parentHash, h.childEvidence⟩, h.parentHash, h.parentBytes, h.height,
        h.parentEvidence⟩⟩
  · refine ⟨hs.toPaired.absorb, ?_, ?_⟩
    · rw [hevents', eventSet, EventRow.absorb, hhash, hi, ← hs.link]
    · rw [hrows]
      exact congrArg ([·]) (observationSet_eq_absorb p.childBlockHash hs.toPaired (hguard.mp hog).1
        (by rw [hs.hash, hhash]))

/-! ### The exact event that a hashless payload describes -/

theorem succeeds_fillExistingEvent (hrows : s.events.rows = [e]) :
    Succeeds (fillExistingEvent s e.id p)
      (e.btcParentHeaderHash = p.btcParentHeaderHash ∧
        e.btcParentHeaderBytes = p.btcParentHeaderBytes ∧
        AgreeOn checkedParentEvidence e.evidence p.evidence)
      fun (row, s') => row = { e with evidence := fill e.evidence p.evidence } ∧
        s'.events.rows = [row] ∧ s'.observations = s.observations := by
  refine ((Serial.succeeds_updateReturning hrows).bind_ok fun (row, events) _ h => ?_).imp ?_
    fun _ _ h => h
  · simp only [parentEvidenceAgrees, decide_true, Bool.true_and, Bool.and_eq_true,
      decide_eq_true_iff, and_assoc]
  · obtain ⟨rfl, hevents⟩ := h
    exact ⟨rfl, hevents, rfl⟩

/-- A hashless payload of the height and parent of the one exact event. -/
theorem upsertHashlessEvent_absorbs {n : Int} {h : Hash32} (hs : Holds s e o)
    (hhash : e.childBlockHash = some h) (hp : p.childBlockHash = none)
    (hn : p.childHeight = some n) (hheight : e.childHeight = some n)
    (hparent : e.btcParentHeaderHash = p.btcParentHeaderHash) :
    Absorbs e o p (upsertHashlessEvent s p n (fromEventPayload p)) := by
  have hids : matchingExactEventIds s n p = [e.id] := by
    simp [matchingExactEventIds, hs.events, hheight, hparent, hhash]
  -- the observation is written under the hash of the event, which is the hash of its row
  have hobs : Function.update (fromEventPayload p).child .childHeight
      (e.childHeight.or (fromEventPayload p).childHeight) = (fromEventPayload p).child := by
    rw [fromEventPayload_childHeight, hheight, hn]
    exact Function.update_eq_self_iff.mpr hn.symm
  have hconflict : observationConflict { fromEventPayload p with childBlockHash := some h } o =
      true := by
    simp [observationConflict, identityConflict, hs.hash, hhash]
  have hguard := observationGuard_fromEventPayload (p := p) hs.toPaired (some h)
  rw [upsertHashlessEvent, hids]
  refine ((succeeds_fillExistingEvent hs.events).bind fun (row, s₁) _ ⟨hrow, hevents, hrows⟩ => ?_).imp
    (p := _ ∧ observationGuard { fromEventPayload p with childBlockHash := some h } o = true) ?_
    fun _ _ h => h
  · rw [hguard]
    exact ⟨fun ⟨⟨_, hbytes, hevidence⟩, _, hchild⟩ =>
        ⟨hparent, hbytes, by rw [hheight, hn]; exact agree_self, hevidence, hchild⟩,
      fun h => ⟨⟨hparent, h.parentBytes, h.parentEvidence⟩, hparent, h.childEvidence⟩⟩
  · subst hrow
    simp only [hobs, hhash]
    refine (succeeds_writeEventObservation (hrows ▸ hs.observations) hconflict).bind_ok
      fun (i, s₂) hog ⟨hi, hevents₂, hrows₂⟩ => ⟨hs.toPaired.absorb, ?_, ?_⟩
    · rw [hevents₂, hevents, EventRow.absorb, hheight, hp, or_none, hhash]
      rfl
    · rw [hrows₂]
      exact congrArg ([·])
        (observationSet_eq_absorb (some h) hs.toPaired hparent (by rw [hp, or_none]))

/-! ### The partial event that a hash promotes -/

theorem succeeds_promotePartialEvent (hrows : s.events.rows = [e]) (hhash : e.childBlockHash = none) :
    Succeeds (promotePartialEvent s e.id p)
      (e.btcParentHeaderBytes = p.btcParentHeaderBytes ∧
        AgreeOn checkedParentEvidence e.evidence p.evidence)
      fun (id, s') => id = e.id ∧
        s'.events.rows = [{ e with
          childBlockHash := p.childBlockHash
          evidence := fill e.evidence p.evidence }] ∧
        s'.observations = s.observations := by
  refine ((Serial.succeeds_updateReturning hrows).bind_ok fun (row, events) _ h => ?_).imp ?_
    fun _ _ h => h
  · simp only [parentEvidenceAgrees, hhash, isNone_none, decide_true, Bool.true_and,
      Bool.and_eq_true, decide_eq_true_iff]
  · obtain ⟨rfl, hevents⟩ := h
    exact ⟨rfl, hevents, rfl⟩

/-- The hashless observation of an event takes its hash, when no observation has the hash yet. -/
theorem foldHashlessObservation_eq_ok {h : Hash32} (hevents : s.events.rows = [e])
    (hrows : s.observations.rows = [o]) (hlink : e.observationId = o.id)
    (hnone : o.childBlockHash = none) (hhash : e.childBlockHash = some h)
    (hheight : o.childHeight = e.childHeight) :
    ∃ s', foldHashlessObservation s e.id = .ok s' ∧ s'.events = s.events ∧
      s'.observations.rows = [{ o with childBlockHash := some h }] := by
  have hevent : s.events.find? e.id = some e := Table.find?_key (by rw [hevents]; simp)
  have hhashless : s.observations.rows.find? (fun o => o.id = e.observationId &&
      o.childBlockHash.isNone) = some o := by
    simp [hrows, hlink, hnone]
  have hexact : s.observations.rows.find? (fun o => o.childBlockHash.isSome &&
      o.childBlockHash = e.childBlockHash) = none := by
    simp [hrows, hnone]
  have hsame : Function.update o.child .childHeight (o.childHeight.or e.childHeight) = o.child := by
    rw [← hheight, Option.or_self]
    exact Function.update_eq_self _ _
  refine ⟨promoteObservation s e o.id, bind_eq_ok.mpr ⟨e, required_eq_ok.mpr hevent, ?_⟩, rfl, ?_⟩
  · simp only [hhashless, hexact]
  · simp [promoteObservation, hrows, hsame, hhash]

/-- A payload with a hash and the height and parent of the one partial event. -/
theorem refinePartialEvent_absorbs {n : Int} {h : Hash32} (hs : Holds s e o)
    (hhash : e.childBlockHash = none) (hp : p.childBlockHash = some h)
    (hn : p.childHeight = some n) (hheight : e.childHeight = some n)
    (hparent : e.btcParentHeaderHash = p.btcParentHeaderHash) :
    Absorbs e o p (refinePartialEvent s p e.id (fromEventPayload p)) := by
  have hguard := observationGuard_fromEventPayload (p := p) hs.toPaired p.childBlockHash
  refine ((succeeds_promotePartialEvent hs.events hhash).bind
    fun (id, s₁) _ ⟨hid, hevents, hrows⟩ => ?_).imp
    (p := _ ∧ observationGuard (fromEventPayload p) o = true) ?_ fun _ _ h => h
  · rw [show observationGuard (fromEventPayload p) o = true ↔ _ from hguard]
    exact ⟨fun ⟨⟨hbytes, hevidence⟩, _, hchild⟩ =>
        ⟨hparent, hbytes, by rw [hheight, hn]; exact agree_self, hevidence, hchild⟩,
      fun h => ⟨⟨h.parentBytes, h.parentEvidence⟩, hparent, h.childEvidence⟩⟩
  · subst hid
    obtain ⟨s₂, hfold, hevents₂, hrows₂⟩ := foldHashlessObservation_eq_ok hevents
      (hrows ▸ hs.observations) hs.link (hs.hash.trans hhash) hp hs.height
    simp only [show foldHashlessObservation s₁ e.id = .ok s₂ from hfold]
    have hconflict : observationConflict (fromEventPayload p)
        { o with childBlockHash := some h } = true := by
      simp [observationConflict, identityConflict, hp]
    refine (succeeds_writeEventObservation hrows₂ hconflict).bind_ok
      fun (i, s₃) hog ⟨hi, hevents₃, hrows₃⟩ => ⟨hs.toPaired.absorb, ?_, ?_⟩
    · rw [hevents₃, hevents₂, hevents, EventRow.absorb, hheight, hhash, none_or]
      rfl
    · rw [hrows₃]
      -- the row has taken the hash before the observation is written over it
      have hpaired : Paired { e with childBlockHash := some h } { o with childBlockHash := some h } :=
        { hs.toPaired with hash := rfl }
      rw [show observationSet (fromEventPayload p) _ = _ from observationSet_eq_absorb
        p.childBlockHash hpaired hparent rfl, ObservationRow.absorb, ObservationRow.absorb, hs.hash,
        hhash, hp]
      rfl

/-! ### Every way -/

/-- **The ways of writing implement one merge.**  A payload that matches the one event of a source
is accepted exactly when it contradicts no checked column, and then the rows absorb it. -/
theorem upsert_absorbs (hs : Holds s e o) (hm : Matches e p) (hkind : p.btcParentKind ≠ .near) :
    Absorbs e o p (upsertMergeMiningEvent s p) := by
  rcases hm with ⟨h, hp, hhash⟩ | ⟨hnone, n, hn, hheight, hparent⟩
  · have hexact : exactEvent s h = some e := by simp [exactEvent, hs.events, hhash]
    rw [upsert_of_exactEvent hkind hp hexact]
    refine insertEvent_absorbs hs ?_ ?_ ?_
    · simp [eventConflict, identityConflict, hhash, hp]
    · simp [observationConflict, identityConflict, hs.hash, hhash, hp]
    · rw [hhash, hp]
      rfl
  · cases hp : p.childBlockHash with
    | none =>
      rw [upsert_of_hashless hkind hp hn]
      cases hhash : e.childBlockHash with
      | none =>
        have hids : matchingExactEventIds s n p = [] := by
          simp [matchingExactEventIds, hs.events, hhash]
        rw [upsertHashlessEvent, hids]
        refine insertEvent_absorbs hs ?_ ?_ ?_
        · simp [eventConflict, identityConflict, hhash, hp, hheight, hn, hparent]
        · simp [observationConflict, identityConflict, hs.hash, hhash, hp, hs.height, hs.parent,
            hheight, hn, hparent]
        · rw [hhash, hp]
          rfl
      | some h => exact upsertHashlessEvent_absorbs hs hhash hp hn hheight hparent
    | some h =>
      have hhash : e.childBlockHash = none := hnone.resolve_right (by rw [hp]; simp)
      have hexact : exactEvent s h = none := by simp [exactEvent, hs.events, hhash]
      have hid : matchingPartialEventId s n p = some e.id := by
        simp [matchingPartialEventId, hs.events, hheight, hparent, hhash]
      rw [upsert_of_partialEvent hkind hp hexact hn hid]
      exact refinePartialEvent_absorbs hs hhash hp hn hheight hparent

end MergeMiningMonitor.Store
