import Mathlib.Data.List.DropRight
import MergeMiningMonitor.Support.Runs
import MergeMiningMonitor.Store.ChildChain
import MergeMiningMonitor.Store.Identity

/-!
# Store — Displacement

Displacement marks over whole histories of a child chain.  A source is written by records and
re-observations of the chain's blocks, by observations that are inserted or rewritten, by any change
of its events, and by promotions of a hashless observation to the hash of its block.

What a record or a re-observation finds of a row is a `Finding`; the mark of a row is the first
finding that it is not current since it was last found current (`firstSinceCurrent`).  A promotion
carries the mark of a hashless row over to the hash.  That the mark does not name this very hash
rests on the parents: a block that displaced the row has another parent, and the hash has the parent
of the row (`DisplacedByOther`).  `displacement_marks_tell_current_block` has it all.
-/

namespace MergeMiningMonitor.Store

open Relational Fallible Transition List Option
open AuxPow (Hash32)

/-! ### Steps -/

/-- What a record or a re-observation says of the chain. -/
structure Sighting where
  childHeight : Int
  blockHash : Hash32
  parent : CurrentBlockParent
  observedAt : Int

/-- The steps of a source. -/
inductive ChainStep
  /-- The chain's block at a height is recorded as its head. -/
  | record (childHeight : Int) (record : ChildChainHeadRecord)
  /-- The recorded block is seen again. -/
  | reobserve (sighting : Sighting)
  /-- An observation is inserted, undisplaced, or rewrites the row of its identity. -/
  | write (observation : ChildBlockObservation)
  /-- The events of the source change. -/
  | setEvents (events : Serial EventRow.id)
  /-- The hashless observation of an event takes the event's hash. -/
  | promote (eventId : ℕ)

/-- One step; none when it is refused and rolled back. -/
def chainStep (c : ChildChain) : ChainStep → Option ChildChain
  | .record childHeight record => some (recordChildChainBlock c childHeight record).2
  | .reobserve v =>
    (reobserveChildChainBlock c v.childHeight v.blockHash v.parent v.observedAt).map (·.2)
  | .write observation =>
    (writeObservation c.toSourceRows observation).map fun (_, rows) => { rows with heads := c.heads }
  | .setEvents events => some { c with events }
  | .promote eventId =>
    (foldHashlessObservation c.toSourceRows eventId).toOption.map fun rows =>
      { rows with heads := c.heads }

/-- What the step says of the chain, if it is a record or a re-observation. -/
def ChainStep.sighting : ChainStep → Option Sighting
  | .record childHeight r => some ⟨childHeight, r.blockHash, r.parent, r.observedAt⟩
  | .reobserve v => some v
  | _ => none

/-- The status of a block whose parent is `parent`, or that carries no AuxPoW. -/
def ownStatus : Option Hash32 → CurrentBlockParent
  | some parent => .known parent
  | none => .noAuxpow

/-- Where the step promotes a hashless observation to a hash, the two are related by `R`. -/
def Promotes (R : Hash32 → ObservationRow → Prop) (c : ChildChain) (a : ChainStep) : Prop :=
  ∀ eventId, a = .promote eventId → ∀ e ∈ c.events.rows, e.id = eventId →
    ∀ o ∈ c.observations.rows, o.id = e.observationId → o.childBlockHash = none →
      ∀ h, e.childBlockHash = some h → R h o

section Lawful

variable (parentOf : Hash32 → Option Hash32)

/-- The parent of the block is the parent of the row. -/
def SharesParent (h : Hash32) (o : ObservationRow) : Prop :=
  ∃ parent, parentOf h = some parent ∧ o.btcParentHeaderHash = some parent

/-- Every child hash has one parent, or none: a sighting states the parent of its block or nothing,
and a hashless observation is promoted to a hash with its own parent. -/
def Lawful (c : ChildChain) (a : ChainStep) : Prop :=
  (∀ v, a.sighting = some v → v.parent = .unknown ∨ v.parent = ownStatus (parentOf v.blockHash)) ∧
    Promotes (SharesParent parentOf) c a

/-- The block that displaced a row is not the row's: it has another hash, or, where the row has no
hash, another parent. -/
def DisplacedByOther (o : ObservationRow) : Prop :=
  ∀ b, o.childDisplacedBy = some b →
    match o.childBlockHash with
    | some h => b ≠ h
    | none => ∀ parent, o.btcParentHeaderHash = some parent → parentOf b ≠ some parent

end Lawful

/-! ### Findings -/

/-- What a sighting found of a row. -/
inductive Finding
  | current
  | notCurrent (mark : Int × Hash32)

/-- The time and the block, where the row was found not to be current. -/
def Finding.mark : Finding → Option (Int × Hash32)
  | .current => none
  | .notCurrent mark => some mark

/-- What the step finds of the row `id`. -/
def finding (id : ℕ) (c : ChildChain) (a : ChainStep) : Option Finding :=
  a.sighting.bind fun v => (c.observations.find? id).bind fun o =>
    (found v.childHeight v.blockHash v.parent o).map fun isCurrent =>
      if isCurrent then .current else .notCurrent (v.observedAt, v.blockHash)

/-- The first finding that the row is not current since it was last found current. -/
def firstSinceCurrent (findings : List Finding) : Option (Int × Hash32) :=
  (findings.rtakeWhile (·.mark.isSome)).head?.bind Finding.mark

theorem firstSinceCurrent_current (fs : List Finding) :
    firstSinceCurrent (fs ++ [.current]) = none := by
  rw [firstSinceCurrent, rtakeWhile_concat_neg _ _ _ (by simp [Finding.mark])]
  rfl

theorem firstSinceCurrent_notCurrent (fs : List Finding) (mark : Int × Hash32) :
    firstSinceCurrent (fs ++ [.notCurrent mark]) = (firstSinceCurrent fs).or (some mark) := by
  rw [firstSinceCurrent, rtakeWhile_concat_pos _ _ _ (by simp [Finding.mark]), firstSinceCurrent]
  cases hfs : fs.rtakeWhile (·.mark.isSome) with
  | nil => rfl
  | cons f fs' =>
    have hf : f.mark.isSome := mem_rtakeWhile_imp (p := (·.mark.isSome)) (l := fs) (by simp [hfs])
    obtain ⟨m, hm⟩ := isSome_iff_exists.mp hf
    simp [hm]

/-! ### What a step does to the rows -/

section Steps

variable {R : Hash32 → ObservationRow → Prop} {c c' : ChildChain} {a : ChainStep} {v : Sighting}

/-- A row after a sighting. -/
abbrev Sighting.displace (v : Sighting) (o : ObservationRow) : ObservationRow :=
  displaceRow v.childHeight v.blockHash v.parent v.observedAt o

theorem rows_of_sighting (h : chainStep c a = some c') (hv : a.sighting = some v) :
    c'.observations.rows = c.observations.rows.map v.displace ∧
      c'.observations.next = c.observations.next := by
  cases a with
  | record n r =>
    obtain rfl := some.inj hv
    obtain rfl := some.inj h
    exact ⟨rfl, rfl⟩
  | reobserve w =>
    obtain rfl := some.inj hv
    obtain ⟨⟨outcome, c₁⟩, hre, rfl⟩ := map_eq_some_iff.mp h
    rw [reobserveChildChainBlock] at hre
    split at hre
    · cases hre
    · split at hre
      · obtain ⟨-, rfl⟩ := Prod.mk.inj (some.inj hre)
        exact ⟨rfl, rfl⟩
      · cases hre
  | write => cases hv
  | setEvents => cases hv
  | promote => cases hv

/-- How a row lives on through a step that is no sighting: with its marks, and with its identity or
promoted to a hash. -/
structure Carries (R : Hash32 → ObservationRow → Prop) (o o' : ObservationRow) : Prop where
  id : o'.id = o.id
  displacedAt : o'.childDisplacedAt = o.childDisplacedAt
  displacedBy : o'.childDisplacedBy = o.childDisplacedBy
  identity : (o'.childBlockHash = o.childBlockHash ∧
      (o.childBlockHash = none → o'.btcParentHeaderHash = o.btcParentHeaderHash)) ∨
    o.childBlockHash = none ∧ ∃ h, o'.childBlockHash = some h ∧ R h o

theorem Carries.refl (o : ObservationRow) : Carries R o o :=
  ⟨rfl, rfl, rfl, .inl ⟨rfl, fun _ => rfl⟩⟩

/-- What the rows after a step are: rows from before, and new ones without a mark. -/
def RowsCarried (R : Hash32 → ObservationRow → Prop) (t t' : Serial ObservationRow.id) : Prop :=
  t.next ≤ t'.next ∧ ∀ o' ∈ t'.rows, (∃ o ∈ t.rows, Carries R o o') ∨
    t.next ≤ o'.id ∧ HasMark none o'

theorem rowsCarried_update {t : Serial ObservationRow.id} {p : ObservationRow → Bool}
    {f : ObservationRow → ObservationRow} {hf : ∀ o, (f o).id = o.id}
    (hcarry : ∀ o ∈ t.rows, p o = true → Carries R o (f o)) :
    RowsCarried R t (t.update p f hf) := by
  refine ⟨Nat.le_refl _, fun o' ho' => .inl ?_⟩
  obtain ⟨o, ho, rfl⟩ := mem_map.mp ho'
  refine ⟨o, ho, ?_⟩
  split
  · next hp => exact hcarry o ho hp
  · exact Carries.refl o

theorem RowsCarried.delete {t t' : Serial ObservationRow.id} {p : ObservationRow → Bool}
    (h : RowsCarried R t t') : RowsCarried R t (t'.delete p) :=
  ⟨h.1, fun o' ho' => h.2 o' (mem_of_mem_filter ho')⟩

theorem carries_observationSet {obs : ChildBlockObservation} {o : ObservationRow}
    (hconflict : observationConflict obs o = true) :
    Carries R o (observationSet obs o) := by
  refine ⟨rfl, rfl, rfl, .inl ⟨rfl, fun hnone => ?_⟩⟩
  cases hhash : obs.childBlockHash with
  | some h => simp [observationConflict, identityConflict, hhash, hnone] at hconflict
  | none =>
    simp only [observationConflict, identityConflict, hhash, isSome_none,
      Bool.false_eq_true, if_false, Bool.and_eq_true, decide_eq_true_iff] at hconflict
    exact hconflict.2.symm

theorem rowsCarried_writeObservation {s s' : SourceRows} {obs : ChildBlockObservation} {i : ℕ}
    (h : writeObservation s obs = some (i, s')) :
    RowsCarried R s.observations s'.observations := by
  obtain ⟨⟨row, observations⟩, hupsert, heq⟩ := map_eq_some_iff.mp h
  obtain ⟨-, rfl⟩ := Prod.mk.inj heq
  rcases Serial.upsert_eq_some hupsert with ⟨-, rfl⟩ | ⟨r, hr, -, -, rfl⟩
  · refine ⟨Nat.le_succ _, fun o' ho' => ?_⟩
    rcases mem_append.mp ho' with ho' | ho'
    · exact .inl ⟨o', ho', Carries.refl o'⟩
    · rw [mem_singleton.mp ho']
      exact .inr ⟨Nat.le_refl _, rfl, rfl⟩
  · exact rowsCarried_update fun o _ hconflict => carries_observationSet hconflict

theorem rowsCarried_fold {s s' : SourceRows} {eventId : ℕ}
    (hR : ∀ e ∈ s.events.rows, e.id = eventId → ∀ o ∈ s.observations.rows,
      o.id = e.observationId → o.childBlockHash = none → ∀ h, e.childBlockHash = some h → R h o)
    (h : foldHashlessObservation s eventId = .ok s') :
    RowsCarried R s.observations s'.observations := by
  obtain ⟨e, he, h⟩ := bind_eq_ok.mp h
  have hfind := required_eq_ok.mp he
  have hmem := Table.mem_of_find? hfind
  have hid := Table.key_of_find? hfind
  dsimp only at h
  split at h
  · next o ho _ =>
      -- the hashless observation takes the hash
      obtain rfl := Except.ok.inj h
      have hmem_o := mem_of_find?_eq_some ho
      obtain ⟨hlink, hnone⟩ : o.id = e.observationId ∧ o.childBlockHash = none := by
        simpa using find?_some ho
      refine rowsCarried_update fun r hr hrid => ?_
      obtain rfl : r = o := Table.eq_of_key_eq hr hmem_o (by simpa using hrid)
      refine ⟨rfl, rfl, rfl, ?_⟩
      cases hhash : e.childBlockHash with
      | none => exact .inl ⟨hnone.symm, fun _ => rfl⟩
      | some k => exact .inr ⟨hnone, k, rfl, hR e hmem hid r hr hlink hnone k hhash⟩
  · next o x _ _ =>
      -- the hashless observation is folded into the exact one
      obtain ⟨⟨row, observations⟩, hupdate, h⟩ := bind_eq_ok.mp h
      obtain rfl := Except.ok.inj h
      obtain ⟨r, -, hr⟩ := map_eq_some_iff.mp (required_eq_ok.mp hupdate)
      obtain ⟨-, rfl⟩ := Prod.mk.inj hr
      refine RowsCarried.delete ?_
      exact rowsCarried_update fun o _ _ => ⟨rfl, rfl, rfl, .inl ⟨rfl, fun _ => rfl⟩⟩
  · obtain rfl := Except.ok.inj h
    exact ⟨Nat.le_refl _, fun o' ho' => .inl ⟨o', ho', Carries.refl o'⟩⟩

theorem rows_of_no_sighting (h : chainStep c a = some c') (hv : a.sighting = none)
    (hR : Promotes R c a) : RowsCarried R c.observations c'.observations := by
  cases a with
  | record => cases hv
  | reobserve => cases hv
  | write obs =>
    obtain ⟨⟨i, s'⟩, hwrite, rfl⟩ := map_eq_some_iff.mp h
    exact rowsCarried_writeObservation hwrite
  | setEvents events =>
    obtain rfl := some.inj h
    exact ⟨Nat.le_refl _, fun o' ho' => .inl ⟨o', ho', Carries.refl o'⟩⟩
  | promote eventId =>
    obtain ⟨s', hfold, rfl⟩ := map_eq_some_iff.mp h
    exact rowsCarried_fold (hR eventId rfl) (toOption_eq_some hfold)

end Steps

/-! ### Histories -/

section Histories

variable {parentOf : Hash32 → Option Hash32} {c₀ c c' : ChildChain} {as : List ChainStep}
  {a : ChainStep} {v : Sighting} {o o' : ObservationRow} {i : ℕ}

/-- What the steps from `c₀` found of the row `id`. -/
abbrev findings (c₀ : ChildChain) (as : List ChainStep) (id : ℕ) : List Finding :=
  seen chainStep (finding id) c₀ as

theorem findings_snoc (hrun : exec chainStep c₀ as = some c) :
    findings c₀ (as ++ [a]) i = findings c₀ as i ++ (finding i c a).toList :=
  seen_snoc hrun

theorem finding_of_no_sighting (hv : a.sighting = none) : finding i c a = none := by
  rw [finding, hv]
  rfl

theorem finding_of_row (hv : a.sighting = some v) (ho : o ∈ c.observations.rows) :
    finding o.id c a = (found v.childHeight v.blockHash v.parent o).map fun isCurrent =>
      if isCurrent then .current else .notCurrent (v.observedAt, v.blockHash) := by
  have hfind : c.observations.find? o.id = some o := Table.find?_key ho
  rw [finding, hv, bind_some, hfind, bind_some]

theorem finding_of_next_le (hi : c.observations.next ≤ i) : finding i c a = none := by
  have hnone : c.observations.find? i = none :=
    Table.find?_eq_none_iff.mpr fun o ho hid =>
      absurd (c.observations.ids_lt o ho) (Nat.not_lt.mpr (hid ▸ hi))
  rw [finding, hnone]
  cases a.sighting <;> rfl

/-- What is known of the rows after the steps `as` from `c₀`. -/
structure Told (parentOf : Hash32 → Option Hash32) (c₀ : ChildChain) (as : List ChainStep)
    (c : ChildChain) : Prop where
  marked : ∀ o ∈ c.observations.rows, HasMark (firstSinceCurrent (findings c₀ as o.id)) o
  unseen : ∀ i, c.observations.next ≤ i → findings c₀ as i = []
  other : ∀ o ∈ c.observations.rows, DisplacedByOther parentOf o

theorem hasMark_displace (hrun : exec chainStep c₀ as = some c) (hv : a.sighting = some v)
    (ho : o ∈ c.observations.rows) (hmark : HasMark (firstSinceCurrent (findings c₀ as o.id)) o) :
    HasMark (firstSinceCurrent (findings c₀ (as ++ [a]) o.id)) (v.displace o) := by
  have h := hmark.displaceRow v.childHeight v.blockHash v.parent v.observedAt
  rw [findings_snoc hrun, finding_of_row hv ho]
  cases hf : found v.childHeight v.blockHash v.parent o with
  | none => simpa [hf] using h
  | some isCurrent =>
    cases isCurrent with
    | true => simpa [hf, firstSinceCurrent_current] using h
    | false => simpa [hf, firstSinceCurrent_notCurrent] using h

theorem not_own_of_found
    (hstatus : v.parent = .unknown ∨ v.parent = ownStatus (parentOf v.blockHash))
    (hf : found v.childHeight v.blockHash v.parent o = some false) :
    match o.childBlockHash with
    | some h => v.blockHash ≠ h
    | none => ∀ parent, o.btcParentHeaderHash = some parent → parentOf v.blockHash ≠ some parent := by
  obtain ⟨hcandidate, hcurrent⟩ :
      isCandidate v.childHeight v.parent o = true ∧ isCurrent v.blockHash v.parent o = false := by
    simpa [found] using hf
  cases hhash : o.childBlockHash with
  | some k =>
    rintro rfl
    simp [isCurrent, hhash] at hcurrent
  | none =>
    intro parent hparent hown
    have hknown : v.parent = .known parent := by
      refine (hstatus.resolve_left fun hunknown => ?_).trans (by rw [hown]; rfl)
      simp [isCandidate, hhash, hunknown] at hcandidate
    simp [isCurrent, hhash, hknown, CurrentBlockParent.parentHash, hparent] at hcurrent

variable {mark : Option (Int × Hash32)}

theorem displacedByOther_displace
    (hstatus : v.parent = .unknown ∨ v.parent = ownStatus (parentOf v.blockHash))
    (hmark : HasMark mark o) (h : DisplacedByOther parentOf o) :
    DisplacedByOther parentOf (v.displace o) := by
  intro b hb
  have hobs : (v.displace o).toChildBlockObservation = o.toChildBlockObservation :=
    displaceRow_toChildBlockObservation
  have hdisplaced := (hmark.displaceRow v.childHeight v.blockHash v.parent v.observedAt).displacedBy
  rw [hb] at hdisplaced
  rw [hobs]
  cases hf : found v.childHeight v.blockHash v.parent o with
  | none =>
    rw [hf, ← hmark.displacedBy] at hdisplaced
    exact h b hdisplaced.symm
  | some isCurrent =>
    cases isCurrent with
    | true =>
      rw [hf] at hdisplaced
      cases hdisplaced
    | false =>
      rw [hf] at hdisplaced
      cases mark with
      | none =>
        obtain rfl : b = v.blockHash := by simpa using hdisplaced
        exact not_own_of_found hstatus hf
      | some m =>
        refine h b (hmark.displacedBy.trans ?_)
        simpa using hdisplaced.symm

/-- A mark stays another block's when the row is rewritten or promoted. -/
theorem Carries.displacedByOther (hc : Carries (SharesParent parentOf) o o')
    (h : DisplacedByOther parentOf o) :
    DisplacedByOther parentOf o' := by
  intro b hb
  have hold := h b (hc.displacedBy ▸ hb)
  rcases hc.identity with ⟨hhash, hparent⟩ | ⟨hnone, k, hhash, parent, hk, hparent⟩
  · rw [hhash]
    cases hoh : o.childBlockHash with
    | some k => simpa [hoh] using hold
    | none => simpa [hoh, hparent hoh] using hold
  · simp only [hnone] at hold
    simp only [hhash]
    rintro rfl
    exact hold parent hparent hk

/-- **One step.** -/
theorem Told.step (h : Told parentOf c₀ as c) (hrun : exec chainStep c₀ as = some c)
    (hlaw : Lawful parentOf c a) (hstep : chainStep c a = some c') :
    Told parentOf c₀ (as ++ [a]) c' := by
  cases hv : a.sighting with
  | some v =>
    obtain ⟨hrows, hnext⟩ := rows_of_sighting hstep hv
    refine ⟨fun o' ho' => ?_, fun i hi => ?_, fun o' ho' => ?_⟩
    · rw [hrows] at ho'
      obtain ⟨o, ho, rfl⟩ := mem_map.mp ho'
      rw [displaceRow_id]
      exact hasMark_displace hrun hv ho (h.marked o ho)
    · rw [hnext] at hi
      rw [findings_snoc hrun, h.unseen i hi, finding_of_next_le hi]
      rfl
    · rw [hrows] at ho'
      obtain ⟨o, ho, rfl⟩ := mem_map.mp ho'
      exact displacedByOther_displace (hlaw.1 v hv) (h.marked o ho) (h.other o ho)
  | none =>
    obtain ⟨hnext, hrows⟩ := rows_of_no_sighting hstep hv hlaw.2
    have hsame : ∀ i, findings c₀ (as ++ [a]) i = findings c₀ as i := fun i => by
      rw [findings_snoc hrun, finding_of_no_sighting hv]
      exact append_nil _
    refine ⟨fun o' ho' => ?_, fun i hi => ?_, fun o' ho' => ?_⟩
    · rw [hsame]
      rcases hrows o' ho' with ⟨o, ho, hc⟩ | ⟨hnew, hmark⟩
      · obtain ⟨hat, hby⟩ := h.marked o ho
        rw [hc.id]
        exact ⟨hc.displacedAt.trans hat, hc.displacedBy.trans hby⟩
      · rw [h.unseen o'.id hnew]
        exact hmark
    · rw [hsame]
      exact h.unseen i (Nat.le_trans hnext hi)
    · rcases hrows o' ho' with ⟨o, ho, hc⟩ | ⟨-, hmark⟩
      · exact hc.displacedByOther (h.other o ho)
      · intro b hb
        rw [hmark.displacedBy] at hb
        cases hb

/-- **Every run.**  From a source without marks. -/
theorem told_of_run (h₀ : ∀ o ∈ c₀.observations.rows, HasMark none o)
    (hrun : exec chainStep c₀ as = some c) (hlaw : Along chainStep (Lawful parentOf) c₀ as) :
    Told parentOf c₀ as c := by
  refine exec_history (G := Lawful parentOf) (J := fun as c => Told parentOf c₀ as c) ?_
    (fun as c a c' hrun h hG hstep => h.step hrun hG hstep) hrun hlaw
  refine ⟨h₀, fun _ _ => rfl, fun o ho b hb => ?_⟩
  rw [(h₀ o ho).displacedBy] at hb
  cases hb

/-! ### The marks -/

/-- The row, after the sighting `v` in the state `c`, tells whether its block is current: by its
hash, or by the parent that the sighting states; where it states none, a hashless row is as it was. -/
def TellsCurrent (c : ChildChain) (v : Sighting) (o : ObservationRow) : Prop :=
  match o.childBlockHash with
  | some h => o.childDisplacedAt = none ↔ h = v.blockHash
  | none =>
    if v.parent = .unknown then o ∈ c.observations.rows
    else o.childDisplacedAt = none ↔
      ∃ parent, v.parent.parentHash = some parent ∧ o.btcParentHeaderHash = some parent

/-- A row of which something is found is undisplaced exactly when it is found current. -/
theorem displacedAt_displace {isCurrent : Bool} (hmark : HasMark mark o)
    (hf : found v.childHeight v.blockHash v.parent o = some isCurrent) :
    (v.displace o).childDisplacedAt = none ↔ isCurrent = true := by
  have h := (hmark.displaceRow v.childHeight v.blockHash v.parent v.observedAt).displacedAt
  rw [hf] at h
  rw [h]
  cases isCurrent with
  | true => simp
  | false => simp

theorem tellsCurrent_displace (ho : o ∈ c.observations.rows)
    (hmark : HasMark mark o) (hheight : o.childHeight = some v.childHeight) :
    TellsCurrent c v (v.displace o) := by
  have hobs : (v.displace o).toChildBlockObservation = o.toChildBlockObservation :=
    displaceRow_toChildBlockObservation
  rw [TellsCurrent, hobs]
  cases hhash : o.childBlockHash with
  | some h =>
    have hf : found v.childHeight v.blockHash v.parent o = some (decide (h = v.blockHash)) := by
      simp [found, isCandidate, isCurrent, hheight, hhash]
    simpa using displacedAt_displace hmark hf
  | none =>
    by_cases hunknown : v.parent = .unknown
    · have hf : found v.childHeight v.blockHash v.parent o = none := by
        simp [found, isCandidate, hhash, hunknown]
      rw [if_pos hunknown, Sighting.displace, displaceRow_of_not_found hf]
      exact ho
    · have hf : found v.childHeight v.blockHash v.parent o =
          some (v.parent.parentHash.isSome && o.btcParentHeaderHash = v.parent.parentHash) := by
        simp [found, isCandidate, isCurrent, hheight, hhash, hunknown]
      rw [if_neg hunknown, displacedAt_displace hmark hf]
      cases hparent : v.parent.parentHash <;> simp

theorem rows_of_repeated_sighting {c₁ c₂ : ChildChain} (h₁ : chainStep c₁ a = some c)
    (h₂ : chainStep c a = some c₂) (hv : a.sighting = some v) :
    c₂.observations.rows = c.observations.rows := by
  rw [(rows_of_sighting h₂ hv).1, (rows_of_sighting h₁ hv).1, List.map_map]
  exact List.map_congr_left fun o _ => displaceRow_displaceRow

theorem marks_of_repeated {c₁ c₂ : ChildChain} (h₁ : chainStep c₁ a = some c)
    (h₂ : chainStep c a = some c₂) (ho : o ∈ c.observations.rows) (ho' : o' ∈ c₂.observations.rows)
    (hid : o'.id = o.id) :
    o'.childDisplacedAt = o.childDisplacedAt ∧ o'.childDisplacedBy = o.childDisplacedBy := by
  cases hv : a.sighting with
  | some v =>
    rw [rows_of_repeated_sighting h₁ h₂ hv] at ho'
    rw [Table.eq_of_key_eq ho' ho hid]
    exact ⟨rfl, rfl⟩
  | none =>
    obtain ⟨-, hrows⟩ := rows_of_no_sighting (R := fun _ _ => True) h₂ hv
      fun _ _ _ _ _ _ _ _ _ _ _ => trivial
    rcases hrows o' ho' with ⟨r, hr, hc⟩ | ⟨hnew, -⟩
    · obtain rfl : r = o := Table.eq_of_key_eq hr ho (hc.id.symm.trans hid)
      exact ⟨hc.displacedAt, hc.displacedBy⟩
    · exact absurd (c.observations.ids_lt o ho) (Nat.not_lt.mpr (hid ▸ hnew))

/-- **Displacement marks tell which block is current.**  In every run from a source without marks,
in which every child hash has one parent or none:

* the displaced time and the displacing hash of a row are those of the first sighting that found it
  not to be current since it was inserted or last found current, and there are none where there is
  no such sighting; so they are both set or both empty;
* no row is displaced by its own hash;
* after a sighting, every row of its height tells whether its block is current;
* the last step, repeated, changes no mark. -/
theorem displacement_marks_tell_current_block
    (h₀ : ∀ o ∈ c₀.observations.rows, HasMark none o)
    (hrun : exec chainStep c₀ as = some c) (hlaw : Along chainStep (Lawful parentOf) c₀ as) :
    (∀ o ∈ c.observations.rows, HasMark (firstSinceCurrent (findings c₀ as o.id)) o ∧
      o.childDisplacedAt.isSome = o.childDisplacedBy.isSome ∧
      ∀ h, o.childBlockHash = some h → o.childDisplacedBy ≠ some h) ∧
    ∀ pre a c₁, as = pre ++ [a] → exec chainStep c₀ pre = some c₁ →
      (∀ v, a.sighting = some v → ∀ o ∈ c.observations.rows, o.childHeight = some v.childHeight →
        TellsCurrent c₁ v o) ∧
      ∀ c₂, chainStep c a = some c₂ → ∀ o ∈ c.observations.rows, ∀ o' ∈ c₂.observations.rows,
        o'.id = o.id →
          o'.childDisplacedAt = o.childDisplacedAt ∧ o'.childDisplacedBy = o.childDisplacedBy := by
  have htold := told_of_run h₀ hrun hlaw
  refine ⟨fun o ho => ⟨htold.marked o ho, ?_, fun h hhash hby => ?_⟩, ?_⟩
  · rw [(htold.marked o ho).displacedAt, (htold.marked o ho).displacedBy, isSome_map,
      isSome_map]
  · have hother := htold.other o ho h hby
    rw [hhash] at hother
    exact hother rfl
  · rintro pre a c₁ rfl hpre
    obtain ⟨c₁', hpre', hstep⟩ := exec_snoc.mp hrun
    obtain rfl := some.inj (hpre.symm.trans hpre')
    refine ⟨fun v hv o ho hheight => ?_, fun c₂ hrepeat o ho o' ho' hid =>
      marks_of_repeated hstep hrepeat ho ho' hid⟩
    rw [(rows_of_sighting hstep hv).1] at ho
    obtain ⟨r, hr, rfl⟩ := mem_map.mp ho
    have hmark := (told_of_run h₀ hpre (along_append hlaw hpre).1).marked r hr
    exact tellsCurrent_displace hr hmark (by simpa using hheight)

end Histories

/-! ### A displaced height is promoted -/

namespace Sample

/-- Block 1 has the parent 9, and block 2 the parent 5. -/
def parentOf (h : Hash32) : Option Hash32 :=
  if h = hash 1 then some (hash 9) else if h = hash 2 then some (hash 5) else none

/-- A source without rows. -/
def noRows : ChildChain := { SourceRows.empty with heads := fun _ => none }

/-- The event of block 1, linked to the first observation. -/
def event : EventRow where
  id := 0
  childHeight := some 7
  childBlockHash := some (hash 1)
  btcParentHeaderHash := hash 9
  btcParentHeaderBytes := header 8
  evidence := fun _ => none
  observationId := 0

/-- A height is observed under the parent 9, and the chain is seen to carry block 2 there. -/
def displaced : List ChainStep :=
  [.write (fromEventPayload heightOnly),
    .setEvents (Serial.empty.insert (fun n => { event with id := n }) fun _ => rfl),
    .record 7 ⟨hash 2, .known (hash 5), .captured, 100⟩]

end Sample

/-- The height turns out to be block 1: the promoted row is displaced by block 2 and keeps the time. -/
theorem promoted_height_keeps_mark :
    ∃ c, exec chainStep Sample.noRows (Sample.displaced ++ [.promote 0]) = some c ∧
      ∃ o ∈ c.observations.rows, o.childBlockHash = some (Sample.hash 1) ∧
        firstSinceCurrent (findings Sample.noRows (Sample.displaced ++ [.promote 0]) o.id) =
          some (100, Sample.hash 2) ∧
        HasMark (some (100, Sample.hash 2)) o := by
  obtain ⟨c₁, hdisplaced, hevent, hparent⟩ : ∃ c₁, exec chainStep Sample.noRows Sample.displaced = some c₁ ∧
      (∀ e ∈ c₁.events.rows, e.childBlockHash = some (Sample.hash 1)) ∧
      ∀ o ∈ c₁.observations.rows, o.btcParentHeaderHash = some (Sample.hash 9) :=
    exists_of_any (by decide +kernel)
  obtain ⟨c, hrun, o, ho, hhash, hfirst⟩ : ∃ c,
      exec chainStep Sample.noRows (Sample.displaced ++ [.promote 0]) = some c ∧
      ∃ o ∈ c.observations.rows, o.childBlockHash = some (Sample.hash 1) ∧
        firstSinceCurrent (findings Sample.noRows (Sample.displaced ++ [.promote 0]) o.id) =
          some (100, Sample.hash 2) :=
    exists_of_any (by decide +kernel)
  have hlaw : Along chainStep (Lawful Sample.parentOf) Sample.noRows
      (Sample.displaced ++ [.promote 0]) := by
    refine along_snoc hdisplaced ?_ ⟨by simp [ChainStep.sighting], ?_⟩
    · refine along_of_forall _ fun s a ha => ⟨fun v hv => ?_, fun i hi => ?_⟩
      · simp only [Sample.displaced, mem_cons, not_mem_nil, or_false] at ha
        rcases ha with rfl | rfl | rfl
        · cases hv
        · cases hv
        · obtain rfl := some.inj hv
          exact .inr (by decide +kernel)
      · simp [Sample.displaced, hi] at ha
    · intro i _ e he _ o ho _ _ h hh
      obtain rfl := some.inj ((hevent e he).symm.trans hh)
      exact ⟨Sample.hash 9, by decide +kernel, hparent o ho⟩
  have hmarks := displacement_marks_tell_current_block (by simp [Sample.noRows, SourceRows.empty])
    hrun hlaw
  refine ⟨c, hrun, o, ho, hhash, hfirst, ?_⟩
  rw [← hfirst]
  exact (hmarks.1 o ho).1

end MergeMiningMonitor.Store
