import MergeMiningMonitor.Store.Identity

/-!
# Store — Evidence

What is stored of one child block does not depend on the order in which its payloads arrive.  When
every payload states the child height, a payload with a hash finds the row of a payload without one
and the block is never split; each write absorbs what the payload states, and a column that collects
what was written is determined by the payloads alone (`evidence_is_order_independent`).

The fields on which payloads may contradict one another are more than the fields they state: a
payload with a child header says by it which block precedes, and that is compared with a predecessor
that another payload states (`header_contradicts_stated_predecessor`).
-/

namespace MergeMiningMonitor.Store

open Relational Coalesce Fallible List
open AuxPow (Hash32)

variable {s : SourceRows} {e : EventRow} {o : ObservationRow} {p q : MergeMiningEventPayload}
  {ps qs : List MergeMiningEventPayload}

/-! ### What is stored -/

/-- The columns of an event that say what is known of the child block and its parent. -/
structure EventColumns where
  childHeight : Option Int
  childBlockHash : Option Hash32
  btcParentHeaderHash : Hash32
  btcParentHeaderBytes : AuxPow.Header
  evidence : Record ParentColumn.Value

def EventRow.columns (e : EventRow) : EventColumns where
  childHeight := e.childHeight
  childBlockHash := e.childBlockHash
  btcParentHeaderHash := e.btcParentHeaderHash
  btcParentHeaderBytes := e.btcParentHeaderBytes
  evidence := e.evidence

/-- Every column holds the one value that any of the payloads states, and is null where none states
one; the parent is the parent they share. -/
structure StatedBy (ps : List MergeMiningEventPayload) (event : EventColumns)
    (observation : ChildBlockObservation) : Prop where
  hash : Collects (·.childBlockHash) ps event.childBlockHash
  height : Collects (·.childHeight) ps event.childHeight
  evidence : ∀ c, Collects (·.evidence c) ps (event.evidence c)
  parentHash : ∀ p ∈ ps, event.btcParentHeaderHash = p.btcParentHeaderHash
  parentBytes : ∀ p ∈ ps, event.btcParentHeaderBytes = p.btcParentHeaderBytes
  observedHash : observation.childBlockHash = event.childBlockHash
  child : ∀ c, Collects (·.tells c) ps (observation.child c)
  observedParent : observation.btcParentHeaderHash = some event.btcParentHeaderHash
  kind : observation.kind = .evidence
  near : observation.nearParent = none

theorem StatedBy.perm {event : EventColumns} {observation : ChildBlockObservation}
    (h : StatedBy ps event observation) (hperm : ps.Perm qs) : StatedBy qs event observation :=
  { h with
    hash := h.hash.perm hperm
    height := h.height.perm hperm
    evidence := fun c => (h.evidence c).perm hperm
    parentHash := fun p hp => h.parentHash p (hperm.mem_iff.mpr hp)
    parentBytes := fun p hp => h.parentBytes p (hperm.mem_iff.mpr hp)
    child := fun c => (h.child c).perm hperm }

theorem StatedBy.unique {event event' : EventColumns} {observation observation' : ChildBlockObservation}
    (hne : ps ≠ []) (h : StatedBy ps event observation) (h' : StatedBy ps event' observation') :
    event = event' ∧ observation = observation' := by
  obtain ⟨p, hp⟩ := exists_mem_of_ne_nil ps hne
  have hhash := h.hash.unique h'.hash
  have hheight := h.height.unique h'.height
  have hevidence : event.evidence = event'.evidence :=
    funext fun c => (h.evidence c).unique (h'.evidence c)
  have hchild : observation.child = observation'.child :=
    funext fun c => (h.child c).unique (h'.child c)
  have hparent := (h.parentHash p hp).trans (h'.parentHash p hp).symm
  have hbytes := (h.parentBytes p hp).trans (h'.parentBytes p hp).symm
  obtain ⟨-, -, -, -, -, hobs, -, hobsParent, hkind, hnear⟩ := h
  obtain ⟨-, -, -, -, -, hobs', -, hobsParent', hkind', hnear'⟩ := h'
  obtain ⟨height, hash, parent, bytes, evidence⟩ := event
  obtain ⟨height', hash', parent', bytes', evidence'⟩ := event'
  obtain ⟨kind, observedHash, child, observedParent, near⟩ := observation
  obtain ⟨kind', observedHash', child', observedParent', near'⟩ := observation'
  simp only at *
  subst hheight hhash hparent hbytes hevidence hchild hobs hobs' hobsParent hobsParent' hkind hkind'
    hnear hnear'
  exact ⟨rfl, rfl⟩

theorem Described.statedBy (h : Described ps e o) (hpair : Paired e o) :
    StatedBy ps e.columns o.toChildBlockObservation where
  hash := h.hash
  height := h.height
  evidence := h.evidence
  parentHash := h.parentHash
  parentBytes := h.parentBytes
  observedHash := hpair.hash
  child c := by simpa only [fromEventPayload_child] using h.child c
  observedParent := hpair.parent
  kind := hpair.kind
  near := hpair.near

/-! ### Contradictions -/

/-- The payload contradicts a checked value: the parent header, the child height, a checked column
of the event, or a checked column of the observation. -/
def Contradicts (e : EventRow) (o : ObservationRow) (q : MergeMiningEventPayload) : Prop :=
  e.btcParentHeaderHash ≠ q.btcParentHeaderHash ∨ e.btcParentHeaderBytes ≠ q.btcParentHeaderBytes ∨
    ¬ Agree e.childHeight q.childHeight ∨
    (∃ c ∈ checkedParentEvidence, ¬ Agree (e.evidence c) (q.evidence c)) ∨
    ∃ c ∈ checkedChildEvidence, ¬ Agree (o.child c) (q.tells c)

theorem Contradicts.not_accepts (h : Contradicts e o q) : ¬ Accepts e o q := by
  intro ha
  rcases h with h | h | h | ⟨c, hc, h⟩ | ⟨c, hc, h⟩
  · exact h ha.parentHash
  · exact h ha.parentBytes
  · exact h ha.height
  · exact h (ha.parentEvidence c hc)
  · exact h (fromEventPayload_child q ▸ ha.childEvidence c hc)

/-- The source after a payload was written in a transaction, which is rolled back on an error. -/
def afterWrite (s : SourceRows) (payload : MergeMiningEventPayload) : SourceRows :=
  match upsertMergeMiningEvent s payload with
  | .ok (_, s') => s'
  | .error _ => s

/-- A payload that contradicts what is stored of its block is refused, and nothing is written. -/
theorem refused_of_contradicts (hs : Holds s e o) (hm : Matches e q) (hc : Contradicts e o q) :
    (∃ err, upsertMergeMiningEvent s q = .error err) ∧ afterWrite s q = s := by
  obtain ⟨err, herr⟩ : ∃ err, upsertMergeMiningEvent s q = .error err := by
    by_cases hkind : q.btcParentKind = .near
    · exact ⟨_, upsert_of_near hkind⟩
    · exact (upsert_absorbs hs hm hkind).eq_error hc.not_accepts
  exact ⟨⟨err, herr⟩, by rw [afterWrite, herr]⟩

/-! ### Order -/

theorem unsplit_of_heights (h : ∀ p ∈ ps, p.childHeight ≠ none) : Unsplit ps := by
  refine .inl fun p hp => ?_
  have hnot : ¬ p.StatesBoth := by simpa using mem_takeWhile_imp hp
  exact not_not.mp fun hhash =>
    hnot ⟨hhash, h p ((takeWhile_sublist _).subset hp)⟩

/-- **What is stored of a block does not depend on the order.**  For payloads of one child block
that all state its height, at least one of them its hash, that are not nears and whose predecessors,
stated or named by a header, agree: written in any order they all succeed and end with the same
columns, each of them with the value that any payload states; and a further payload of the block
that contradicts a checked value is refused and changes nothing. -/
theorem evidence_is_order_independent (hblock : OneChildBlock ps)
    (hheights : ∀ p ∈ ps, p.childHeight ≠ none) (hhash : ∃ p ∈ ps, p.childBlockHash ≠ none)
    (hkinds : ∀ p ∈ ps, p.btcParentKind ≠ .near) (hpred : PredecessorsAgree ps) :
    ∃ event observation, StatedBy ps event observation ∧
      ∀ qs, qs.Perm ps → ∃ s e o, writeEvents .empty qs = .ok s ∧
        s.events.rows = [e] ∧ s.observations.rows = [o] ∧
        e.columns = event ∧ o.toChildBlockObservation = observation ∧
        ∀ q, Matches e q → Contradicts e o q →
          (∃ err, upsertMergeMiningEvent s q = .error err) ∧ afterWrite s q = s := by
  have hne : ps ≠ [] := by
    rintro rfl
    simp at hhash
  have hany : ∀ qs, qs.Perm ps → ∃ s e o, writeEvents .empty qs = .ok s ∧ Holds s e o ∧
      Described qs e o := by
    intro qs hperm
    have hsub : qs ⊆ ps := hperm.subset
    have hunsplit : Unsplit qs := unsplit_of_heights fun p hp => hheights p (hsub hp)
    obtain ⟨s, hrun⟩ := exists_run (hblock.subset hsub) (fun p hp => hkinds p (hsub hp))
      (fun p hp q hq => hpred p (hsub hp) q (hsub hq)) hunsplit
    obtain ⟨e, o, hs, hd⟩ := (written_of_run (hblock.subset hsub) hrun).single hunsplit
      fun hnil => hne (hperm.symm.trans (by rw [hnil])).eq_nil
    exact ⟨s, e, o, hrun, hs, hd⟩
  obtain ⟨s₀, e₀, o₀, -, hs₀, hd₀⟩ := hany ps (Perm.refl _)
  refine ⟨_, _, hd₀.statedBy hs₀.toPaired, fun qs hperm => ?_⟩
  obtain ⟨s, e, o, hrun, hs, hd⟩ := hany qs hperm
  obtain ⟨hevent, hobservation⟩ := StatedBy.unique hne ((hd.statedBy hs.toPaired).perm hperm)
    (hd₀.statedBy hs₀.toPaired)
  exact ⟨s, e, o, hrun, hs.events, hs.observations, hevent, hobservation,
    fun q hm hc => refused_of_contradicts hs hm hc⟩

theorem order_of_height_and_complete :
    OneChildBlock [Sample.heightOnly, Sample.complete] ∧
      ∃ event observation, StatedBy [Sample.heightOnly, Sample.complete] event observation ∧
        ∀ qs, qs.Perm [Sample.heightOnly, Sample.complete] →
          ∃ s e o, writeEvents .empty qs = .ok s ∧ s.events.rows = [e] ∧ s.observations.rows = [o] ∧
            e.columns = event ∧ o.toChildBlockObservation = observation ∧
            ∀ q, Matches e q → Contradicts e o q →
              (∃ err, upsertMergeMiningEvent s q = .error err) ∧ afterWrite s q = s := by
  have hblock : OneChildBlock [Sample.heightOnly, Sample.complete] :=
    Sample.oneChildBlock.subset (subset_cons_self _ _)
  refine ⟨hblock, evidence_is_order_independent hblock ?_ ?_ ?_ ?_⟩
  · decide +kernel
  · exact ⟨Sample.complete, by simp, by decide +kernel⟩
  · decide +kernel
  · intro p hp q hq
    simp only [mem_cons, not_mem_nil, or_false] at hp
    rcases hp with rfl | rfl <;> exact agree_none_left

/-! ### A predecessor in two places -/

namespace Sample

/-- A capture that reports the predecessor, and one that has the header. -/
def statesPredecessor : MergeMiningEventPayload :=
  { complete with child := Function.update complete.child .childPrevBlockHash (some (hash 2)) }

def statesHeader : MergeMiningEventPayload :=
  { complete with child := Function.update complete.child .childHeaderBytes (some (header 3)) }

theorem predecessor_oneChildBlock : OneChildBlock [statesPredecessor, statesHeader] where
  identified := by decide +kernel
  parentHash := by decide +kernel
  parentBytes := by decide +kernel
  hash := by decide +kernel
  child := by
    have hagree : ∀ c, ∀ p ∈ [statesPredecessor, statesHeader],
        ∀ q ∈ [statesPredecessor, statesHeader], Agree (p.child c) (q.child c) := by
      intro c
      cases c <;> decide +kernel
    exact fun p hp q hq c => hagree c p hp q hq
  evidence := by
    intro p hp q hq c
    simp only [mem_cons, not_mem_nil, or_false] at hp hq
    rcases hp with rfl | rfl <;> rcases hq with rfl | rfl <;> exact agree_self

end Sample

/-- Two payloads that agree in every field both state, and of which the second is refused: its
header names another predecessor than the first states. -/
theorem header_contradicts_stated_predecessor :
    OneChildBlock [Sample.statesPredecessor, Sample.statesHeader] ∧
      (∀ p ∈ [Sample.statesPredecessor, Sample.statesHeader],
        p.childHeight ≠ none ∧ p.childBlockHash ≠ none ∧ p.btcParentKind ≠ .near) ∧
      ¬ ∃ s, writeEvents .empty [Sample.statesPredecessor, Sample.statesHeader] = .ok s := by
  refine ⟨Sample.predecessor_oneChildBlock, by decide +kernel, ?_⟩
  rintro ⟨s, hrun⟩
  have herror : (writeEvents .empty
      [Sample.statesPredecessor, Sample.statesHeader]).toOption.isSome = false := by
    decide +kernel
  rw [hrun] at herror
  cases herror

end MergeMiningMonitor.Store
