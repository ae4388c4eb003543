import MergeMiningMonitor.Store.Identity

/-!
# Store — Retraction

A write of a payload takes no event away: every event is there after it, at the height it had
(`Retains`), and the payload's own event has the payload's hash and height (`upsert_eventWritten`).
Events are deleted only when the parent of a child block turns out not to be Bitcoin's
(`deleteChildBlockEvents`); the block is then observed alone (`upsertChildOnlyObservation`).
-/

namespace MergeMiningMonitor.Store

open Relational Coalesce Fallible List Option
open AuxPow (Hash32)

/-! ### Blocks without an event -/

/-- The event is one of the payload's block: it has its hash, or has none and is at its height with
its parent. -/
def isOfChildBlock (payload : MergeMiningEventPayload) (e : EventRow) : Bool :=
  (e.childBlockHash.isSome && e.childBlockHash = payload.childBlockHash) ||
    (e.childBlockHash.isNone && payload.childHeight.isSome && e.childHeight = payload.childHeight &&
      e.btcParentHeaderHash = payload.btcParentHeaderHash)

def childBlockIsCounted (s : SourceRows) (payload : MergeMiningEventPayload) : Bool :=
  s.events.rows.any (isOfChildBlock payload) ||
    s.observations.rows.any fun o =>
      o.childBlockHash.isSome && o.childBlockHash = payload.childBlockHash && o.kind = .near

/-- `delete_child_block_events`: the events, and the hashless observations they were linked to. -/
def deleteChildBlockEvents (s : SourceRows) (payload : MergeMiningEventPayload) : SourceRows where
  events := s.events.delete (isOfChildBlock payload)
  observations := s.observations.delete fun o => o.childBlockHash.isNone &&
    s.events.rows.any fun e => isOfChildBlock payload e && e.observationId = o.id

/-- Why the observation of a block without an event is refused. -/
inductive ChildOnlyError
  /-- "an evidence or near observation is written through the capture path" -/
  | notChildOnly
  /-- "a child-only observation requires the child block hash" -/
  | noChildHash
  /-- "child-only observation conflicts with an event-backed or contradictory observation" -/
  | conflicts
deriving DecidableEq

/-- `upsert_child_only_observation`: an answer that nothing authenticates gives way to what is
stored. -/
def upsertChildOnlyObservation (s : SourceRows) (observation : ChildBlockObservation) :
    Except ChildOnlyError SourceRows := do
  ensure (observation.kind ≠ .evidence ∧ observation.kind ≠ .near) .notChildOnly
  ensure (observation.childBlockHash.isSome = true) .noChildHash
  match writeObservation s observation with
  | some (_, rows) => return rows
  | none =>
    ensure (observation.kind ≠ .nonBitcoinParent) .conflicts
    return s

variable {s s' : SourceRows} {e : EventRow} {p : MergeMiningEventPayload}

variable {obs : ChildBlockObservation} {out : EventWriteOutcome}

theorem upsertChildOnlyObservation_events
    (h : upsertChildOnlyObservation s obs = .ok s') : s'.events = s.events := by
  obtain ⟨_, -, h⟩ := bind_eq_ok.mp h
  obtain ⟨_, -, h⟩ := bind_eq_ok.mp h
  split at h
  · next id rows hwrite =>
      obtain rfl := Except.ok.inj h
      exact writeEventObservation_events (i := id) (required_eq_ok.mpr hwrite)
  · obtain ⟨_, -, h⟩ := bind_eq_ok.mp h
    rw [Except.ok.inj h]

/-! ### Events that stay -/

/-- Every event is there still, at the height it had. -/
def Retains (s s' : SourceRows) : Prop :=
  ∀ e ∈ s.events.rows, ∃ e' ∈ s'.events.rows, e'.id = e.id ∧
    ∀ n, e.childHeight = some n → e'.childHeight = some n

theorem Retains.trans {s₁ : SourceRows} (h : Retains s s₁) (h₁ : Retains s₁ s') : Retains s s' := by
  intro e he
  obtain ⟨f, hf, hid, hheight⟩ := h e he
  obtain ⟨f', hf', hid', hheight'⟩ := h₁ f hf
  exact ⟨f', hf', hid'.trans hid, fun n hn => hheight' n (hheight n hn)⟩

theorem retains_of_events_eq (h : s'.events = s.events) : Retains s s' := fun e he =>
  ⟨e, by rwa [h], rfl, fun _ hn => hn⟩

theorem retains_update {c : EventRow → Bool} {f : EventRow → EventRow}
    (hrows : s'.events.rows = s.events.rows.map fun e => if c e then f e else e)
    (hid : ∀ e, (f e).id = e.id)
    (hheight : ∀ e n, e.childHeight = some n → (f e).childHeight = some n) : Retains s s' := by
  intro e he
  rw [hrows]
  refine ⟨if c e then f e else e, mem_map_of_mem he, ?_⟩
  split
  · exact ⟨hid e, hheight e⟩
  · exact ⟨rfl, fun _ hn => hn⟩

/-- What a write does to the events: it keeps them, and leaves the event of the payload with the
payload's hash and height, which is a new one or was one of the payload's block. -/
structure EventWritten (s s' : SourceRows) (p : MergeMiningEventPayload) (id : ℕ) : Prop where
  retains : Retains s s'
  written : ∃ e ∈ s'.events.rows, e.id = id ∧ e.childBlockHash = p.childBlockHash ∧
    e.childHeight = p.childHeight
  origin : id = s.events.next ∨ ∃ e ∈ s.events.rows, e.id = id ∧ isOfChildBlock p e = true

theorem insertEvent_eventWritten
    (hheight : p.childHeight ≠ none) (h : insertEvent s p .exactHash obs = .ok (out, s')) :
    EventWritten s s' p out.eventId := by
  obtain ⟨⟨i, s₁⟩, hobs, h⟩ := bind_eq_ok.mp h
  obtain ⟨⟨row, events⟩, hupsert, h⟩ := bind_eq_ok.mp h
  obtain ⟨rfl, rfl⟩ := Prod.mk.inj (Except.ok.inj h)
  have hevents := writeEventObservation_events hobs
  rcases Serial.upsert_eq_some (required_eq_ok.mp hupsert) with
    ⟨rfl, rfl⟩ | ⟨r, hr, hguard, rfl, rfl⟩
  · refine ⟨fun e he => ⟨e, ?_, rfl, fun _ hn => hn⟩,
      ⟨newEvent p i s₁.events.next, ?_, rfl, rfl, rfl⟩, .inl ?_⟩
    · simp [hevents, he]
    · simp
    · simp [hevents]
  · have hmem : r ∈ s₁.events.rows := mem_of_find?_eq_some hr
    have hconflict := find?_some hr
    simp only [eventConflict, identityConflict, Bool.and_eq_true, decide_eq_true_iff] at hconflict
    simp only [eventGuard, Bool.and_eq_true, decide_eq_true_iff] at hguard
    have hfilled : r.childHeight.or p.childHeight = p.childHeight := by
      have hagree := hguard.1.2
      cases hr' : r.childHeight with
      | none => rfl
      | some n =>
        cases hp : p.childHeight with
        | none => exact absurd hp hheight
        | some m =>
          rw [hr', hp] at hagree
          simpa [Agree] using hagree
    refine ⟨retains_update (c := eventConflict .exactHash p) (f := eventSet p i)
        (by simp [hevents]) (fun _ => rfl) fun e n hn => by simp [eventSet, hn],
      ⟨eventSet p i r, mem_map.mpr ⟨r, hmem, if_pos (find?_some hr)⟩, rfl, hconflict.2,
        hfilled⟩,
      .inr ⟨r, hevents ▸ hmem, rfl, ?_⟩⟩
    rw [isOfChildBlock, hconflict.1, decide_eq_true hconflict.2]
    rfl

/-- Folding an observation changes at most which observation the event is linked to. -/
theorem exists_mem_foldHashlessObservation {id : ℕ} (h : foldHashlessObservation s id = .ok s')
    (he : e ∈ s.events.rows) :
    ∃ e' ∈ s'.events.rows, e'.id = e.id ∧ e'.childBlockHash = e.childBlockHash ∧
      e'.childHeight = e.childHeight := by
  obtain ⟨_, -, h⟩ := bind_eq_ok.mp h
  dsimp only at h
  split at h
  · obtain rfl := Except.ok.inj h
    exact ⟨e, he, rfl, rfl, rfl⟩
  · obtain ⟨⟨row, observations⟩, -, h⟩ := bind_eq_ok.mp h
    obtain rfl := Except.ok.inj h
    refine ⟨_, mem_map_of_mem he, ?_⟩
    split
    · exact ⟨rfl, rfl, rfl⟩
    · exact ⟨rfl, rfl, rfl⟩
  · obtain rfl := Except.ok.inj h
    exact ⟨e, he, rfl, rfl, rfl⟩

theorem promotePartialEvent_eq_ok {id eventId : ℕ}
    (h : promotePartialEvent s id p = .ok (eventId, s')) :
    Retains s s' ∧ eventId = id ∧ ∃ r ∈ s.events.rows, r.id = id ∧
      ∃ r' ∈ s'.events.rows, r'.id = id ∧ r'.childBlockHash = p.childBlockHash ∧
        r'.childHeight = r.childHeight := by
  obtain ⟨⟨row, events⟩, hupdate, h⟩ := bind_eq_ok.mp h
  obtain ⟨rfl, rfl⟩ := Prod.mk.inj (Except.ok.inj h)
  obtain ⟨r, hr, hrow⟩ := map_eq_some_iff.mp (required_eq_ok.mp hupdate)
  obtain ⟨rfl, rfl⟩ := Prod.mk.inj hrow
  have hmem : r ∈ s.events.rows := mem_of_find?_eq_some hr
  have hcond := find?_some hr
  have hid : r.id = id := by
    simp only [Bool.and_eq_true, decide_eq_true_iff] at hcond
    exact hcond.1.1.1
  refine ⟨?_, hid, r, hmem, hid, _, mem_map.mpr ⟨r, hmem, if_pos hcond⟩, hid, rfl, rfl⟩
  intro e he
  refine ⟨_, mem_map_of_mem he, ?_⟩
  split
  · exact ⟨rfl, fun _ hn => hn⟩
  · exact ⟨rfl, fun _ hn => hn⟩

theorem exists_mem_of_matchingPartialEventId {n : Int} {id : ℕ}
    (h : matchingPartialEventId s n p = some id) :
    ∃ e ∈ s.events.rows, e.id = id ∧ e.childHeight = some n ∧
      e.btcParentHeaderHash = p.btcParentHeaderHash ∧ e.childBlockHash = none := by
  obtain ⟨e, he, hid⟩ := map_eq_some_iff.mp h
  have hmatch := find?_some he
  simp only [Bool.and_eq_true, decide_eq_true_iff, isNone_iff_eq_none] at hmatch
  exact ⟨e, mem_of_find?_eq_some he, hid, hmatch.1.1, hmatch.1.2, hmatch.2⟩

theorem refinePartialEvent_eventWritten {id : ℕ} {n : Int} (hheight : p.childHeight = some n)
    (hid : matchingPartialEventId s n p = some id)
    (h : refinePartialEvent s p id obs = .ok (out, s')) : EventWritten s s' p out.eventId := by
  obtain ⟨⟨eventId, s₁⟩, hpromote, h⟩ := bind_eq_ok.mp h
  obtain ⟨s₂, hfold, h⟩ := bind_eq_ok.mp h
  obtain ⟨⟨observationId, s₃⟩, hobs, h⟩ := bind_eq_ok.mp h
  obtain ⟨rfl, rfl⟩ := Prod.mk.inj (Except.ok.inj h)
  obtain ⟨hretains, rfl, r, hr, hrid, r', hr', hrid', hhash, hsame⟩ :=
    promotePartialEvent_eq_ok hpromote
  -- The row that is promoted is the one that was found.
  obtain ⟨e, he, heid, hn, hparent, hnone⟩ := exists_mem_of_matchingPartialEventId hid
  obtain rfl : e = r := Table.eq_of_key_eq he hr (heid.trans hrid.symm)
  have hevents := writeEventObservation_events hobs
  refine ⟨(hretains.trans ?_).trans (retains_of_events_eq hevents), ?_, .inr ⟨e, he, hrid, ?_⟩⟩
  · intro f hf
    obtain ⟨f', hf', hid', -, hheight'⟩ := exists_mem_foldHashlessObservation hfold hf
    exact ⟨f', hf', hid', fun m hm => hheight'.trans hm⟩
  · obtain ⟨f, hf, hid', hhash', hheight'⟩ := exists_mem_foldHashlessObservation hfold hr'
    exact ⟨f, by rwa [hevents], hid'.trans hrid', hhash'.trans hhash,
      (hheight'.trans hsame).trans (hn.trans hheight.symm)⟩
  · simp [isOfChildBlock, hnone, hheight, hn, hparent]

/-- **A write takes no event away.**  It leaves the event of the payload with the payload's hash and
height. -/
theorem upsert_eventWritten (hhash : p.childBlockHash ≠ none)
    (hheight : p.childHeight ≠ none) (h : upsertMergeMiningEvent s p = .ok (out, s')) :
    EventWritten s s' p out.eventId := by
  obtain ⟨childHash, hsome⟩ := ne_none_iff_exists'.mp hhash
  obtain ⟨n, hn⟩ := ne_none_iff_exists'.mp hheight
  have hkind : p.btcParentKind ≠ .near := fun hkind => by
    rw [upsert_of_near hkind] at h
    cases h
  cases hexact : exactEvent s childHash with
  | some e =>
    rw [upsert_of_exactEvent hkind hsome hexact] at h
    exact insertEvent_eventWritten hheight h
  | none =>
    cases hid : matchingPartialEventId s n p with
    | some id =>
      rw [upsert_of_partialEvent hkind hsome hexact hn hid] at h
      exact refinePartialEvent_eventWritten hn hid h
    | none =>
      rw [upsert_of_no_partialEvent hkind hsome] at h
      · exact insertEvent_eventWritten hheight h
      · intro m hm
        obtain rfl := some.inj (hn.symm.trans hm)
        exact hid

end MergeMiningMonitor.Store
