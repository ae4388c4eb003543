import Mathlib.Data.List.TakeWhile
import MergeMiningMonitor.Store.Absorb

/-!
# Store — Identity

One child block is to end up as one event, in whatever order the payloads that describe it are
written.  A payload states the child hash, the child height, or both, and it finds the row of its
block by what it states.  A hash alone and a height alone have nothing in common by which one could
find the row of the other: when both are written before any payload that states the two, the source
holds two events of the block, and no later write joins them (`Split`).

While this does not happen (`Unsplit`), the source holds one event with its observation, which
collect what the payloads state (`Described`).  `one_block_is_one_event_iff` is the exact condition.
-/

namespace MergeMiningMonitor.Store

open Relational Coalesce Fallible List Option
open AuxPow (Hash32)

variable {s s' : SourceRows} {e : EventRow} {o : ObservationRow} {p q : MergeMiningEventPayload}
  {ps : List MergeMiningEventPayload}

/-! ### Payloads of one block -/

/-- The payload states the child hash and the child height. -/
def MergeMiningEventPayload.StatesBoth (p : MergeMiningEventPayload) : Prop :=
  p.childBlockHash ≠ none ∧ p.childHeight ≠ none

instance : DecidablePred MergeMiningEventPayload.StatesBoth := fun p =>
  inferInstanceAs (Decidable (p.childBlockHash ≠ none ∧ p.childHeight ≠ none))

/-- The payloads describe one child block: each states its hash or its height, they share the
parent header, and what any two of them state agrees. -/
structure OneChildBlock (ps : List MergeMiningEventPayload) : Prop where
  identified : ∀ p ∈ ps, p.childBlockHash ≠ none ∨ p.childHeight ≠ none
  parentHash : ∀ p ∈ ps, ∀ q ∈ ps, p.btcParentHeaderHash = q.btcParentHeaderHash
  parentBytes : ∀ p ∈ ps, ∀ q ∈ ps, p.btcParentHeaderBytes = q.btcParentHeaderBytes
  hash : ∀ p ∈ ps, ∀ q ∈ ps, Agree p.childBlockHash q.childBlockHash
  child : ∀ p ∈ ps, ∀ q ∈ ps, ∀ c, Agree (p.child c) (q.child c)
  evidence : ∀ p ∈ ps, ∀ q ∈ ps, ∀ c, Agree (p.evidence c) (q.evidence c)

/-- What a payload tells of the child: what it states, and the predecessor that its header names if it
states none. -/
def MergeMiningEventPayload.tells (p : MergeMiningEventPayload) : Record ChildColumn.Value
  | .childPrevBlockHash => (p.child .childPrevBlockHash).or
      ((p.child .childHeaderBytes).map headerPrevBlockHash)
  | c => p.child c

theorem fromEventPayload_child (p : MergeMiningEventPayload) : (fromEventPayload p).child = p.tells := by
  funext c
  cases c <;> rfl

/-- The predecessor of the block is one, be it stated or named by a header. -/
def PredecessorsAgree (ps : List MergeMiningEventPayload) : Prop :=
  ∀ p ∈ ps, ∀ q ∈ ps, Agree (p.tells .childPrevBlockHash) (q.tells .childPrevBlockHash)

/-- The payloads before the first that states both hash and height. -/
def leading (ps : List MergeMiningEventPayload) : List MergeMiningEventPayload :=
  ps.takeWhile fun p => !decide p.StatesBoth

/-- The payloads before the first that states both are all hashless, or all without a height. -/
def Unsplit (ps : List MergeMiningEventPayload) : Prop :=
  (∀ p ∈ leading ps, p.childBlockHash = none) ∨ (∀ p ∈ leading ps, p.childHeight = none)

variable {qs : List MergeMiningEventPayload} {out : EventWriteOutcome}

theorem OneChildBlock.subset (h : OneChildBlock qs) (hsub : ps ⊆ qs) : OneChildBlock ps where
  identified := fun p hp => h.identified p (hsub hp)
  parentHash := fun p hp q hq => h.parentHash p (hsub hp) q (hsub hq)
  parentBytes := fun p hp q hq => h.parentBytes p (hsub hp) q (hsub hq)
  hash := fun p hp q hq => h.hash p (hsub hp) q (hsub hq)
  child := fun p hp q hq => h.child p (hsub hp) q (hsub hq)
  evidence := fun p hp q hq => h.evidence p (hsub hp) q (hsub hq)

theorem leading_snoc_of_mem (hq : q ∈ ps) (hboth : q.StatesBoth) :
    leading (ps ++ [p]) = leading ps := by
  rw [leading, takeWhile_append, if_neg]
  · rfl
  · intro hlen
    have hall := takeWhile_eq_self_iff.mp
      (takeWhile_sublist (l := ps) (p := fun p => !decide p.StatesBoth) |>.eq_of_length hlen)
    simpa [hboth] using hall q hq

theorem leading_of_forall (h : ∀ q ∈ ps, ¬ q.StatesBoth) : leading ps = ps :=
  takeWhile_eq_self_iff.mpr fun q hq => by simpa using h q hq

theorem leading_snoc_of_forall (h : ∀ q ∈ ps, ¬ q.StatesBoth) :
    leading (ps ++ [p]) = if p.StatesBoth then ps else ps ++ [p] := by
  have hlead := leading_of_forall h
  rw [leading] at hlead ⊢
  rw [takeWhile_append, if_pos (by rw [hlead])]
  by_cases hp : p.StatesBoth <;> simp [List.takeWhile, hp]

theorem leading_subset_snoc : leading ps ⊆ leading (ps ++ [p]) := by
  by_cases h : ∃ q ∈ ps, q.StatesBoth
  · obtain ⟨q, hq, hboth⟩ := h
    rw [leading_snoc_of_mem hq hboth]
    exact List.Subset.refl _
  · have hnot : ∀ q ∈ ps, ¬ q.StatesBoth := fun q hq hboth => h ⟨q, hq, hboth⟩
    rw [leading_of_forall hnot, leading_snoc_of_forall hnot]
    split
    · exact List.Subset.refl _
    · exact subset_append_left _ _

theorem Unsplit.of_snoc (h : Unsplit (ps ++ [p])) : Unsplit ps :=
  h.imp (fun h q hq => h q (leading_subset_snoc hq)) fun h q hq => h q (leading_subset_snoc hq)

/-- How the payloads come to be split: by a hash without height after heights without a hash, or
by a height without hash after hashes without a height. -/
theorem split_step (hps : Unsplit ps) (hsplit : ¬ Unsplit (ps ++ [p])) :
    (∀ q ∈ ps, q.childBlockHash = none) ∧ p.childBlockHash ≠ none ∧ p.childHeight = none ∨
      (∀ q ∈ ps, q.childHeight = none) ∧ p.childBlockHash = none ∧ p.childHeight ≠ none := by
  have hnot : ∀ q ∈ ps, ¬ q.StatesBoth := by
    intro q hq hboth
    rw [Unsplit, leading_snoc_of_mem hq hboth] at hsplit
    exact hsplit hps
  rw [Unsplit, leading_of_forall hnot] at hps
  have hp : ¬ p.StatesBoth := by
    intro hp
    rw [Unsplit, leading_snoc_of_forall hnot, if_pos hp] at hsplit
    exact hsplit hps
  rw [Unsplit, leading_snoc_of_forall hnot, if_neg hp, not_or] at hsplit
  simp only [forall_mem_append, forall_mem_singleton, not_and] at hsplit
  rcases hps with hps | hps
  · have hhash := hsplit.1 hps
    exact .inl ⟨hps, hhash, not_not.mp fun hheight => hp ⟨hhash, hheight⟩⟩
  · have hheight := hsplit.2 hps
    exact .inr ⟨hps, not_not.mp fun hhash => hp ⟨hhash, hheight⟩, hheight⟩

/-! ### One event -/

/-- An event and its observation hold what the payloads state. -/
structure Described (ps : List MergeMiningEventPayload) (e : EventRow) (o : ObservationRow) :
    Prop where
  parentHash : ∀ p ∈ ps, e.btcParentHeaderHash = p.btcParentHeaderHash
  parentBytes : ∀ p ∈ ps, e.btcParentHeaderBytes = p.btcParentHeaderBytes
  hash : Collects (·.childBlockHash) ps e.childBlockHash
  height : Collects (·.childHeight) ps e.childHeight
  evidence : ∀ c, Collects (·.evidence c) ps (e.evidence c)
  child : ∀ c, Collects (fun p => (fromEventPayload p).child c) ps (o.child c)

theorem fromEventPayload_child_of_ne {c : ChildColumn} (hc : c ≠ .childPrevBlockHash) :
    (fromEventPayload p).child c = p.child c :=
  Function.update_of_ne hc _ _

/-- A payload of the block that is accepted is absorbed into what the rows hold. -/
theorem Described.absorb (h : Described ps e o) (hblock : OneChildBlock (ps ++ [p]))
    (ha : Accepts e o p) : Described (ps ++ [p]) (e.absorb p) (o.absorb p) := by
  have hp : p ∈ ps ++ [p] := by simp
  have hmem : ∀ q ∈ ps, q ∈ ps ++ [p] := fun q hq => mem_append_left _ hq
  refine ⟨?_, ?_, ?_, ?_, fun c => ?_, fun c => ?_⟩
  · intro q hq
    rcases mem_append.mp hq with hq | hq
    · exact h.parentHash q hq
    · rw [mem_singleton.mp hq]
      exact ha.parentHash
  · intro q hq
    rcases mem_append.mp hq with hq | hq
    · exact h.parentBytes q hq
    · rw [mem_singleton.mp hq]
      exact ha.parentBytes
  · exact h.hash.snoc (h.hash.agree_iff.mpr fun q hq => hblock.hash q (hmem q hq) p hp)
  · exact h.height.snoc ha.height
  · exact (h.evidence c).snoc ((h.evidence c).agree_iff.mpr fun q hq =>
      hblock.evidence q (hmem q hq) p hp c)
  · refine (h.child c).snoc ?_
    by_cases hc : c = .childPrevBlockHash
    · subst hc
      exact ha.childEvidence _ (by decide)
    · refine (h.child c).agree_iff.mpr fun q hq => ?_
      rw [fromEventPayload_child_of_ne hc, fromEventPayload_child_of_ne hc]
      exact hblock.child q (hmem q hq) p hp c

theorem Described.accepts (h : Described ps e o) (hne : ps ≠ []) (hblock : OneChildBlock (ps ++ [p]))
    (hpred : PredecessorsAgree (ps ++ [p])) : Accepts e o p := by
  have hp : p ∈ ps ++ [p] := by simp
  have hmem : ∀ q ∈ ps, q ∈ ps ++ [p] := fun q hq => mem_append_left _ hq
  obtain ⟨q, hq⟩ := exists_mem_of_ne_nil ps hne
  refine ⟨?_, ?_, ?_, fun c _ => ?_, fun c _ => ?_⟩
  · exact (h.parentHash q hq).trans (hblock.parentHash q (hmem q hq) p hp)
  · exact (h.parentBytes q hq).trans (hblock.parentBytes q (hmem q hq) p hp)
  · exact h.height.agree_iff.mpr fun q hq => hblock.child q (hmem q hq) p hp .childHeight
  · exact (h.evidence c).agree_iff.mpr fun q hq => hblock.evidence q (hmem q hq) p hp c
  · refine (h.child c).agree_iff.mpr fun q hq => ?_
    by_cases hc : c = .childPrevBlockHash
    · subst hc
      exact hpred q (hmem q hq) p hp
    · rw [fromEventPayload_child_of_ne hc, fromEventPayload_child_of_ne hc]
      exact hblock.child q (hmem q hq) p hp c

theorem Unsplit.of_forall (h : Unsplit ps) (hnot : ∀ q ∈ ps, ¬ q.StatesBoth) :
    (∀ q ∈ ps, q.childBlockHash = none) ∨ (∀ q ∈ ps, q.childHeight = none) := by
  rwa [Unsplit, leading_of_forall hnot] at h

theorem Described.matches (h : Described ps e o) (hne : ps ≠ []) (hblock : OneChildBlock (ps ++ [p]))
    (hunsplit : Unsplit (ps ++ [p])) : Matches e p := by
  have hp : p ∈ ps ++ [p] := by simp
  have hmem : ∀ q ∈ ps, q ∈ ps ++ [p] := fun q hq => mem_append_left _ hq
  obtain ⟨q, hq⟩ := exists_mem_of_ne_nil ps hne
  have hparent := (h.parentHash q hq).trans (hblock.parentHash q (hmem q hq) p hp)
  have hhash : Agree e.childBlockHash p.childBlockHash :=
    h.hash.agree_iff.mpr fun q hq => hblock.hash q (hmem q hq) p hp
  have hheight : Agree e.childHeight p.childHeight :=
    h.height.agree_iff.mpr fun q hq => hblock.child q (hmem q hq) p hp .childHeight
  cases hph : p.childBlockHash with
  | none =>
    obtain ⟨n, hn⟩ := ne_none_iff_exists'.mp
      ((hblock.identified p hp).resolve_left (not_not.mpr hph))
    refine .inr ⟨.inr hph, n, hn, ?_, hparent⟩
    cases hen : e.childHeight with
    | some m => rw [agree_iff.mp hheight m n hen hn]
    | none =>
      -- hashes without a height before it, so that its height splits the block
      have hnone := h.height.eq_none_iff.mp hen
      rcases hunsplit.of_forall (fun r hr => by
        rcases mem_append.mp hr with hr | hr
        · exact fun hboth => hboth.2 (hnone r hr)
        · exact fun hboth => hboth.1 (mem_singleton.mp hr ▸ hph)) with hall | hall
      · exact absurd (hnone q hq)
          ((hblock.identified q (hmem q hq)).resolve_left (not_not.mpr (hall q (hmem q hq))))
      · rw [hall p hp] at hn
        cases hn
  | some k =>
    cases heh : e.childBlockHash with
    | some k' =>
      exact .inl ⟨k, hph, by rw [heh, agree_iff.mp hhash k' k heh hph]⟩
    | none =>
      -- heights without a hash before it, so that its hash splits the block without a height
      have hnone := h.hash.eq_none_iff.mp heh
      have hq' : q.childHeight ≠ none :=
        (hblock.identified q (hmem q hq)).resolve_left (not_not.mpr (hnone q hq))
      obtain ⟨m, hm⟩ := ne_none_iff_exists'.mp hq'
      have hen : e.childHeight = some m := h.height.eq_some hq hm
      cases hpn : p.childHeight with
      | some n =>
        exact .inr ⟨.inl heh, n, hpn, by rw [hen, agree_iff.mp hheight m n hen hpn], hparent⟩
      | none =>
        rcases hunsplit.of_forall (fun r hr => by
          rcases mem_append.mp hr with hr | hr
          · exact fun hboth => hboth.1 (hnone r hr)
          · exact fun hboth => hboth.2 (mem_singleton.mp hr ▸ hpn)) with hall | hall
        · rw [hall p hp] at hph
          cases hph
        · exact absurd (hall q (hmem q hq)) hq'

theorem insertEvent_empty (x : Exactness) :
    ∃ out s', insertEvent .empty p x (fromEventPayload p) = .ok (out, s') ∧
      s'.events.rows = [newEvent p 0 0] ∧
      s'.observations.rows = [newObservation (fromEventPayload p) 0] :=
  ⟨_, _, rfl, rfl, rfl⟩

theorem succeeds_first (hp : p.childBlockHash ≠ none ∨ p.childHeight ≠ none) :
    Succeeds (upsertMergeMiningEvent .empty p) (p.btcParentKind ≠ .near)
      fun (_, s') => ∃ e o, Holds s' e o ∧ Described [p] e o := by
  by_cases hkind : p.btcParentKind = .near
  · refine ⟨fun h => absurd hkind h, fun a ha => ?_⟩
    rw [upsert_of_near hkind] at ha
    cases ha
  · obtain ⟨x, hx⟩ : ∃ x, upsertMergeMiningEvent .empty p =
        insertEvent .empty p x (fromEventPayload p) := by
      cases hph : p.childBlockHash with
      | some k => exact ⟨.exactHash, upsert_of_no_partialEvent hkind hph fun _ _ => rfl⟩
      | none =>
        obtain ⟨n, hn⟩ := ne_none_iff_exists'.mp (hp.resolve_left (not_not.mpr hph))
        exact ⟨.partialIdentity, upsert_of_hashless hkind hph hn⟩
    obtain ⟨out, s', hs', hevents, hobservations⟩ := insertEvent_empty (p := p) x
    rw [hx, hs']
    refine ⟨fun _ => ⟨_, rfl⟩, fun a ha => ⟨hkind, ?_⟩⟩
    obtain rfl := Except.ok.inj ha
    refine ⟨_, _, ⟨⟨rfl, rfl, rfl, rfl, rfl, rfl⟩, hevents, hobservations⟩, ?_⟩
    exact ⟨by simp [newEvent], by simp [newEvent], collects_singleton, collects_singleton,
      fun c => collects_singleton, fun c => collects_singleton⟩

/-! ### Two events -/

/-- The source holds an event of the child hash and an event without one. -/
structure Split (h : Hash32) (s : SourceRows) : Prop where
  hashed : ∃ e ∈ s.events.rows, e.childBlockHash = some h
  hashless : ∃ e ∈ s.events.rows, e.childBlockHash = none

/-- A write keeps the events there are, with their hashes or their lack of one. -/
def Keeps (s s' : SourceRows) : Prop :=
  ∀ e ∈ s.events.rows, ∃ e' ∈ s'.events.rows, e'.childBlockHash = e.childBlockHash

theorem Keeps.split {h : Hash32} (hk : Keeps s s') (hs : Split h s) : Split h s' := by
  obtain ⟨⟨e, he, hhash⟩, f, hf, hnone⟩ := hs
  obtain ⟨e', he', hsame⟩ := hk e he
  obtain ⟨f', hf', hsame'⟩ := hk f hf
  exact ⟨⟨e', he', hsame.trans hhash⟩, f', hf', hsame'.trans hnone⟩

theorem keeps_update {c : EventRow → Bool} {f : EventRow → EventRow}
    (hrows : s'.events.rows = s.events.rows.map fun e => if c e then f e else e)
    (hhash : ∀ e, (f e).childBlockHash = e.childBlockHash) : Keeps s s' := by
  intro e he
  rw [hrows]
  refine ⟨if c e then f e else e, mem_map_of_mem he, ?_⟩
  split
  · exact hhash e
  · rfl

theorem writeEventObservation_events {obs : ChildBlockObservation} {i : ℕ}
    (h : writeEventObservation s obs = .ok (i, s')) : s'.events = s.events := by
  obtain ⟨a, -, ha⟩ := map_eq_some_iff.mp (required_eq_ok.mp h)
  obtain ⟨-, rfl⟩ := Prod.mk.inj ha
  rfl

/-- An upsert keeps the events there are, and leaves one with the hash of the payload. -/
theorem insertEvent_keeps {x : Exactness} {obs : ChildBlockObservation}
    (h : insertEvent s p x obs = .ok (out, s')) :
    Keeps s s' ∧ ∃ e ∈ s'.events.rows, e.childBlockHash = p.childBlockHash := by
  obtain ⟨⟨i, s₁⟩, hobs, h⟩ := bind_eq_ok.mp h
  obtain ⟨⟨row, events⟩, hupsert, h⟩ := bind_eq_ok.mp h
  obtain ⟨-, rfl⟩ := Prod.mk.inj (Except.ok.inj h)
  have hevents := writeEventObservation_events hobs
  rcases Serial.upsert_eq_some (required_eq_ok.mp hupsert) with ⟨-, rfl⟩ | ⟨r, hr, -, -, rfl⟩
  · refine ⟨fun e he => ⟨e, ?_, rfl⟩, newEvent p i s₁.events.next, ?_, rfl⟩
    · simp [hevents, he]
    · simp
  · refine ⟨keeps_update (c := eventConflict x p) (f := eventSet p i) (by simp [hevents])
      fun _ => rfl, eventSet p i r, ?_, ?_⟩
    · refine mem_map.mpr ⟨r, mem_of_find?_eq_some hr, ?_⟩
      rw [if_pos (find?_some hr)]
    · have hconflict := find?_some hr
      cases x with
      | exactHash =>
        simp only [eventConflict, identityConflict, Bool.and_eq_true, decide_eq_true_iff]
          at hconflict
        exact hconflict.2
      | partialIdentity =>
        simp only [eventConflict, identityConflict, Bool.and_eq_true, isNone_iff_eq_none]
          at hconflict
        obtain ⟨⟨⟨⟨⟨hnone, hnone'⟩, -⟩, -⟩, -⟩, -⟩ := hconflict
        exact hnone.trans hnone'.symm

theorem fillExistingEvent_keeps {id : ℕ} {row : EventRow}
    (h : fillExistingEvent s id p = .ok (row, s')) : Keeps s s' := by
  obtain ⟨⟨row', events⟩, hupdate, h⟩ := bind_eq_ok.mp h
  obtain ⟨-, rfl⟩ := Prod.mk.inj (Except.ok.inj h)
  obtain ⟨a, -, ha⟩ := map_eq_some_iff.mp (required_eq_ok.mp hupdate)
  obtain ⟨-, rfl⟩ := Prod.mk.inj ha
  exact keeps_update Serial.rows_update fun _ => rfl

/-- Two events stay two: a payload with the hash updates the one, and a payload without a hash
leaves the other without one. -/
theorem Split.upsert {h : Hash32} (hs : Split h s)
    (hp : Agree (some h) p.childBlockHash) (hok : upsertMergeMiningEvent s p = .ok (out, s')) :
    Split h s' := by
  have hkind : p.btcParentKind ≠ .near := fun hkind => by
    rw [upsert_of_near hkind] at hok
    cases hok
  cases hph : p.childBlockHash with
  | some k =>
    obtain rfl : h = k := agree_iff.mp hp h k rfl hph
    obtain ⟨e, he, hhash⟩ := hs.hashed
    obtain ⟨r, hr⟩ : ∃ r, exactEvent s h = some r := by
      refine isSome_iff_exists.mp (find?_isSome.mpr ⟨e, he, ?_⟩)
      simpa using hhash
    rw [upsert_of_exactEvent hkind hph hr] at hok
    exact (insertEvent_keeps hok).1.split hs
  | none =>
    cases hpn : p.childHeight with
    | none =>
      rw [upsert_of_unidentified hkind hph hpn] at hok
      cases hok
    | some n =>
      rw [upsert_of_hashless hkind hph hpn, upsertHashlessEvent] at hok
      split at hok
      · exact (insertEvent_keeps hok).1.split hs
      · obtain ⟨⟨row, s₁⟩, hfill, hok⟩ := bind_eq_ok.mp hok
        obtain ⟨⟨i, s₂⟩, hobs, hok⟩ := bind_eq_ok.mp hok
        obtain ⟨-, rfl⟩ := Prod.mk.inj (Except.ok.inj hok)
        refine Keeps.split (fun e he => ?_) hs
        rw [writeEventObservation_events hobs]
        exact fillExistingEvent_keeps hfill e he
      · cases hok

theorem split_of_step (hs : Holds s e o) (hd : Described ps e o)
    (hne : ps ≠ []) (hblock : OneChildBlock (ps ++ [p])) (hps : Unsplit ps)
    (hsplit : ¬ Unsplit (ps ++ [p])) (hok : upsertMergeMiningEvent s p = .ok (out, s')) :
    ∃ h, Split h s' ∧ ∃ q ∈ ps ++ [p], q.childBlockHash = some h := by
  have hp : p ∈ ps ++ [p] := by simp
  have hmem : ∀ q ∈ ps, q ∈ ps ++ [p] := fun q hq => mem_append_left _ hq
  have hkind : p.btcParentKind ≠ .near := fun hkind => by
    rw [upsert_of_near hkind] at hok
    cases hok
  obtain ⟨q, hq⟩ := exists_mem_of_ne_nil ps hne
  have he : e ∈ s.events.rows := by simp [hs.events]
  rcases split_step hps hsplit with ⟨hnone, hhash, hheight⟩ | ⟨hnone, hhash, hheight⟩
  · obtain ⟨h, hh⟩ := ne_none_iff_exists'.mp hhash
    rw [upsert_of_no_partialEvent hkind hh (by simp [hheight])] at hok
    obtain ⟨hkeeps, e', he', hhash'⟩ := insertEvent_keeps hok
    obtain ⟨f, hf, hf'⟩ := hkeeps e he
    exact ⟨h, ⟨⟨e', he', hhash'.trans hh⟩, f, hf, hf'.trans (hd.hash.eq_none_iff.mpr hnone)⟩,
      p, hp, hh⟩
  · obtain ⟨n, hn⟩ := ne_none_iff_exists'.mp hheight
    obtain ⟨h, hh⟩ := ne_none_iff_exists'.mp
      ((hblock.identified q (hmem q hq)).resolve_right (not_not.mpr (hnone q hq)))
    have hids : matchingExactEventIds s n p = [] := by
      simp [matchingExactEventIds, hs.events, hd.height.eq_none_iff.mpr hnone]
    rw [upsert_of_hashless hkind hhash hn, upsertHashlessEvent, hids] at hok
    obtain ⟨hkeeps, e', he', hhash'⟩ := insertEvent_keeps hok
    obtain ⟨f, hf, hf'⟩ := hkeeps e he
    exact ⟨h, ⟨⟨f, hf, hf'.trans (hd.hash.eq_some hq hh)⟩, e', he', hhash'.trans hhash⟩,
      q, hmem q hq, hh⟩

/-! ### Runs -/

theorem writeEvents_snoc :
    writeEvents s (ps ++ [p]) = .ok s' ↔
      ∃ s₁ out, writeEvents s ps = .ok s₁ ∧ upsertMergeMiningEvent s₁ p = .ok (out, s') := by
  rw [writeEvents, foldlM_append, bind_eq_ok]
  refine exists_congr fun s₁ => ?_
  rw [exists_and_left]
  refine and_congr_right fun _ => ?_
  simp only [foldlM_cons, foldlM_nil, bind_pure, map_eq_ok]
  constructor
  · rintro ⟨⟨out, s₂⟩, hok, rfl⟩
    exact ⟨out, hok⟩
  · rintro ⟨out, hok⟩
    exact ⟨_, hok, rfl⟩

/-- What a source holds after payloads of one block: one event with its observation, or two
events. -/
structure Written (ps : List MergeMiningEventPayload) (s : SourceRows) : Prop where
  kinds : ∀ p ∈ ps, p.btcParentKind ≠ .near
  empty : ps = [] → s = .empty
  single : Unsplit ps → ps ≠ [] → ∃ e o, Holds s e o ∧ Described ps e o
  split : ¬ Unsplit ps → ∃ h, Split h s ∧ ∃ q ∈ ps, q.childBlockHash = some h

theorem unsplit_singleton : Unsplit [p] := by
  rw [Unsplit, show [p] = [] ++ [p] from rfl, leading_snoc_of_forall (by simp)]
  by_cases hp : p.StatesBoth
  · simp [hp]
  · rw [if_neg hp]
    by_cases hhash : p.childBlockHash = none
    · exact .inl (by simpa using hhash)
    · exact .inr (by simpa using not_not.mp fun hheight => hp ⟨hhash, hheight⟩)

/-- **One write.**  A payload of the block keeps what the source holds of the block. -/
theorem Written.snoc (h : Written ps s)
    (hblock : OneChildBlock (ps ++ [p])) (hok : upsertMergeMiningEvent s p = .ok (out, s')) :
    Written (ps ++ [p]) s' := by
  have hp : p ∈ ps ++ [p] := by simp
  have hkind : p.btcParentKind ≠ .near := fun hkind => by
    rw [upsert_of_near hkind] at hok
    cases hok
  refine ⟨fun q hq => ?_, fun hnil => by simp at hnil, fun hunsplit _ => ?_, fun hsplit => ?_⟩
  · rcases mem_append.mp hq with hq | hq
    · exact h.kinds q hq
    · rwa [mem_singleton.mp hq]
  · by_cases hne : ps = []
    · subst hne
      rw [h.empty rfl] at hok
      exact ((succeeds_first (hblock.identified p hp)).sound _ hok).2
    · obtain ⟨e, o, hs, hd⟩ := h.single hunsplit.of_snoc hne
      obtain ⟨ha, hs'⟩ := (upsert_absorbs hs (hd.matches hne hblock hunsplit) hkind).sound _ hok
      exact ⟨_, _, hs', hd.absorb hblock ha⟩
  · by_cases hps : Unsplit ps
    · have hne : ps ≠ [] := by
        rintro rfl
        exact hsplit unsplit_singleton
      obtain ⟨e, o, hs, hd⟩ := h.single hps hne
      exact split_of_step hs hd hne hblock hps hsplit hok
    · obtain ⟨k, hs, q, hq, hhash⟩ := h.split hps
      have hq' : q ∈ ps ++ [p] := mem_append_left _ hq
      exact ⟨k, hs.upsert (hhash ▸ hblock.hash q hq' p hp) hok, q, hq', hhash⟩

/-- **Every run.**  Payloads of one block, written onto an empty source. -/
theorem written_of_run (hblock : OneChildBlock ps) (hrun : writeEvents .empty ps = .ok s) :
    Written ps s := by
  induction ps using List.reverseRecOn generalizing s with
  | nil =>
    obtain rfl := Except.ok.inj hrun
    refine ⟨by simp, fun _ => rfl, fun _ h => absurd rfl h, fun h => absurd ?_ h⟩
    exact .inl (by simp [leading])
  | append_singleton ps p ih =>
    obtain ⟨s₁, out, hrun, hok⟩ := writeEvents_snoc.mp hrun
    exact (ih (hblock.subset (subset_append_left _ _)) hrun).snoc hblock hok

theorem exists_run (hblock : OneChildBlock ps) (hkinds : ∀ p ∈ ps, p.btcParentKind ≠ .near)
    (hpred : PredecessorsAgree ps) (hunsplit : Unsplit ps) : ∃ s, writeEvents .empty ps = .ok s := by
  induction ps using List.reverseRecOn with
  | nil => exact ⟨_, rfl⟩
  | append_singleton ps p ih =>
    have hsub : ps ⊆ ps ++ [p] := subset_append_left _ _
    have hp : p ∈ ps ++ [p] := by simp
    obtain ⟨s, hrun⟩ := ih (hblock.subset hsub) (fun q hq => hkinds q (hsub hq))
      (fun q hq r hr => hpred q (hsub hq) r (hsub hr)) hunsplit.of_snoc
    have hw := written_of_run (hblock.subset hsub) hrun
    obtain ⟨⟨out, s'⟩, hok⟩ : ∃ a, upsertMergeMiningEvent s p = .ok a := by
      by_cases hne : ps = []
      · subst hne
        rw [hw.empty rfl]
        exact (succeeds_first (hblock.identified p hp)).complete (hkinds p hp)
      · obtain ⟨e, o, hs, hd⟩ := hw.single hunsplit.of_snoc hne
        exact (upsert_absorbs hs (hd.matches hne hblock hunsplit) (hkinds p hp)).complete
          (hd.accepts hne hblock hpred)
    exact ⟨s', writeEvents_snoc.mpr ⟨s, out, hrun, hok⟩⟩

/-! ### One block, one event -/

/-- A hashless and an exact event of one height and parent. -/
def Coexist (s : SourceRows) : Prop :=
  ∃ e ∈ s.events.rows, ∃ e' ∈ s.events.rows, e.childBlockHash = none ∧ e'.childBlockHash ≠ none ∧
    e.childHeight = e'.childHeight ∧ e.btcParentHeaderHash = e'.btcParentHeaderHash

/-- The payloads, written in this order onto an empty source, all succeed and end as one event with
one observation, and after a payload that states both hash and height no two events of the block
coexist. -/
def EndsAsOneEvent (ps : List MergeMiningEventPayload) : Prop :=
  (∃ s, writeEvents .empty ps = .ok s ∧ s.events.rows.length = 1 ∧ s.observations.rows.length = 1) ∧
    ∀ pre post s, ps = pre ++ post → (∃ p ∈ pre, p.StatesBoth) → writeEvents .empty pre = .ok s →
      ¬ Coexist s

theorem Holds.not_coexist (hs : Holds s e o) : ¬ Coexist s := by
  rintro ⟨f, hf, f', hf', hnone, hsome, -⟩
  rw [hs.events, mem_singleton] at hf hf'
  rw [hf, ← hf'] at hnone
  exact hsome hnone

theorem Split.length_ne_one {h : Hash32} (hs : Split h s) : s.events.rows.length ≠ 1 := by
  intro hlen
  obtain ⟨e, he⟩ := length_eq_one_iff.mp hlen
  obtain ⟨⟨f, hf, hhash⟩, g, hg, hnone⟩ := hs
  rw [he, mem_singleton] at hf hg
  rw [hf, ← hg, hnone] at hhash
  cases hhash

theorem Unsplit.of_append (h : Unsplit (ps ++ qs)) : Unsplit ps := by
  induction qs using List.reverseRecOn with
  | nil => simpa using h
  | append_singleton qs q ih =>
    rw [← append_assoc] at h
    exact ih h.of_snoc

/-- **When one child block is one event.**  For payloads that describe one child block, one of them
stating both hash and height: they end as one event with one observation exactly when none of them
is a near, the predecessors they state or name in a header agree, and those before the first that
states both are all hashless or all without a height. -/
theorem one_block_is_one_event_iff (hblock : OneChildBlock ps) (hboth : ∃ p ∈ ps, p.StatesBoth) :
    EndsAsOneEvent ps ↔
      (∀ p ∈ ps, p.btcParentKind ≠ .near) ∧ PredecessorsAgree ps ∧ Unsplit ps := by
  have hne : ps ≠ [] := by
    rintro rfl
    simp at hboth
  constructor
  · rintro ⟨⟨s, hrun, hevents, -⟩, -⟩
    have hw := written_of_run hblock hrun
    have hunsplit : Unsplit ps := by
      by_contra hsplit
      obtain ⟨h, hs, -⟩ := hw.split hsplit
      exact hs.length_ne_one hevents
    obtain ⟨e, o, -, hd⟩ := hw.single hunsplit hne
    exact ⟨hw.kinds, fun p hp q hq => (hd.child .childPrevBlockHash).agree hp hq, hunsplit⟩
  · rintro ⟨hkinds, hpred, hunsplit⟩
    obtain ⟨s, hrun⟩ := exists_run hblock hkinds hpred hunsplit
    obtain ⟨e, o, hs, -⟩ := (written_of_run hblock hrun).single hunsplit hne
    refine ⟨⟨s, hrun, by rw [hs.events]; rfl, by rw [hs.observations]; rfl⟩, ?_⟩
    rintro pre post s' rfl ⟨p, hp, -⟩ hpre
    have hw := written_of_run (hblock.subset (subset_append_left _ _)) hpre
    obtain ⟨e', o', hs', -⟩ := hw.single hunsplit.of_append (ne_nil_of_mem hp)
    exact hs'.not_coexist

/-! ### A block that is two events -/

namespace Sample

def hash (k : UInt8) : Hash32 := AuxPow.Sample.hash k

def header (k : UInt8) : AuxPow.Header := ⟨List.replicate 80 k, length_replicate⟩

def payload (childHash : Option Hash32) (child : Record ChildColumn.Value)
    (evidence : Record ParentColumn.Value) : MergeMiningEventPayload where
  childBlockHash := childHash
  child := child
  btcParentHeaderHash := hash 9
  btcParentHeaderBytes := header 8
  btcParentKind := .canonical
  evidence := evidence

/-- A historical row with the child hash, one with the child height, and a live capture. -/
def hashOnly : MergeMiningEventPayload := payload (some (hash 1)) (fun _ => none) fun _ => none

def heightOnly : MergeMiningEventPayload :=
  payload none
    (fun | .childHeight => some 7 | .childNbits => some 9 | _ => none)
    fun | .btcParentCoinbaseTxid => some (hash 5) | _ => none

def complete : MergeMiningEventPayload :=
  payload (some (hash 1))
    (fun | .childHeight => some 7 | .childBlockTime => some 1700000000 | _ => none)
    fun | .btcParentCoinbaseScript => some [1] | _ => none

theorem oneChildBlock : OneChildBlock [hashOnly, heightOnly, complete] where
  identified := by decide +kernel
  parentHash := by decide +kernel
  parentBytes := by decide +kernel
  hash := by decide +kernel
  child := by
    have hagree : ∀ c, ∀ p ∈ [hashOnly, heightOnly, complete],
        ∀ q ∈ [hashOnly, heightOnly, complete], Agree (p.child c) (q.child c) := by
      intro c
      cases c <;> decide +kernel
    exact fun p hp q hq c => hagree c p hp q hq
  evidence := by
    have hagree : ∀ c, ∀ p ∈ [hashOnly, heightOnly, complete],
        ∀ q ∈ [hashOnly, heightOnly, complete], Agree (p.evidence c) (q.evidence c) := by
      intro c
      cases c <;> decide +kernel
    exact fun p hp q hq c => hagree c p hp q hq

end Sample

instance : DecidablePred Coexist := fun s =>
  inferInstanceAs (Decidable (∃ e ∈ s.events.rows, ∃ e' ∈ s.events.rows, e.childBlockHash = none ∧
    e'.childBlockHash ≠ none ∧ e.childHeight = e'.childHeight ∧
    e.btcParentHeaderHash = e'.btcParentHeaderHash))

/-- A hash, then a height, then both: every write succeeds, and the block is two events with two
observations. -/
theorem hash_then_height_makes_two_events :
    OneChildBlock [Sample.hashOnly, Sample.heightOnly, Sample.complete] ∧
      Sample.complete.StatesBoth ∧
      (∃ s, writeEvents .empty [Sample.hashOnly, Sample.heightOnly, Sample.complete] = .ok s ∧
        s.events.rows.length = 2 ∧ s.observations.rows.length = 2 ∧ Coexist s) ∧
      ¬ EndsAsOneEvent [Sample.hashOnly, Sample.heightOnly, Sample.complete] := by
  obtain ⟨s, hok, hevents, hobservations, hcoexist⟩ := exists_of_any_toOption
    (x := writeEvents .empty [Sample.hashOnly, Sample.heightOnly, Sample.complete])
    (P := fun s => s.events.rows.length = 2 ∧ s.observations.rows.length = 2 ∧ Coexist s)
    (by decide +kernel)
  refine ⟨Sample.oneChildBlock, by decide +kernel,
    ⟨s, hok, hevents, hobservations, hcoexist⟩, ?_⟩
  rintro ⟨⟨s', hok', hone, -⟩, -⟩
  obtain rfl := Except.ok.inj (hok.symm.trans hok')
  rw [hevents] at hone
  cases hone

/-- The height first and then both: one event. -/
theorem height_then_both_is_one_event :
    OneChildBlock [Sample.heightOnly, Sample.complete] ∧
      EndsAsOneEvent [Sample.heightOnly, Sample.complete] := by
  have hblock : OneChildBlock [Sample.heightOnly, Sample.complete] :=
    Sample.oneChildBlock.subset (subset_cons_self _ _)
  refine ⟨hblock, (one_block_is_one_event_iff hblock ?_).mpr ⟨?_, ?_, .inl ?_⟩⟩
  · exact ⟨Sample.complete, by simp, by decide +kernel⟩
  · decide +kernel
  · intro p hp q hq
    simp only [mem_cons, not_mem_nil, or_false] at hp
    rcases hp with rfl | rfl <;> exact agree_none_left
  · decide +kernel

end MergeMiningMonitor.Store
