import Mathlib.Tactic.Linarith
import Mathlib.Tactic.Ring
import MergeMiningMonitor.Support.Runs
import MergeMiningMonitor.Hathor.WorkFloor

/-!
# Hathor — Ratchet

A source that answers for a height again and again must not bring the work of the recorded head down
step by step.  Each head that is recorded clears the floor of every sidecar that is stored
(`le_of_mayRecordCurrentBlock`), so the weight of the head is bounded below as long as no stored weight
gets lower (`Covers`).

Events stay while nothing is retracted, but a sidecar is overwritten when its block is captured again.
One header can commit to two blocks: the marker is looked for at the end of the coinbase head only, and
where the head ends is up to the aux blob (`one_header_two_blocks`).  The two have one hash, so the
second overwrites the sidecar of the first, and its weight with it (`recapture_lowers_the_floor`).
`head_clears_every_captured_weight` is the bound for runs in which this does not happen.
-/

namespace MergeMiningMonitor.Hathor

open Relational Fallible Coalesce Store Transition List Option
open AuxPow (Bytes Hash32 Header)

variable {K Text : Type} {rules : CaptureRules K Text} {height : ℤ} {s s' : HathorRows}
  {work captured : DeclaredWork K} {c : Sidecar}

/-! ### Rows with the same evidence -/

/-- The events and the sidecars are the same. -/
structure SameEvidence (s s' : HathorRows) : Prop where
  events : s'.events.rows = s.events.rows
  sidecars : s'.sidecars.rows = s.sidecars.rows

theorem SameEvidence.refl (s : HathorRows) : SameEvidence s s := ⟨rfl, rfl⟩

theorem SameEvidence.trans {s₁ : HathorRows} (h : SameEvidence s s₁) (h₁ : SameEvidence s₁ s') :
    SameEvidence s s' :=
  ⟨h₁.events.trans h.events, h₁.sidecars.trans h.sidecars⟩

theorem SameEvidence.sidecarsAt (h : SameEvidence s s') : s'.sidecarsAt height = s.sidecarsAt height := by
  rw [HathorRows.sidecarsAt, HathorRows.sidecarsAt, h.events, h.sidecars]

theorem SameEvidence.eventAt (h : SameEvidence s s') :
    hathorEvidenceEventAtHeight s' height = hathorEvidenceEventAtHeight s height := by
  rw [hathorEvidenceEventAtHeight, hathorEvidenceEventAtHeight, h.events]

theorem sameEvidence_record (s : HathorRows) (height : ℤ) (record : ChildChainHeadRecord) :
    SameEvidence s (s.record height record) :=
  ⟨rfl, rfl⟩

theorem sameEvidence_observe {observation : ChildBlockObservation}
    (h : s.observe observation = .ok s') : SameEvidence s s' := by
  obtain ⟨rows, hrows, h⟩ := bind_eq_ok.mp h
  obtain rfl := Except.ok.inj h
  exact ⟨congrArg (·.rows) (upsertChildOnlyObservation_events hrows), rfl⟩

theorem mem_sidecarsAt : c ∈ s.sidecarsAt height ↔ c ∈ s.sidecars.rows ∧
    ∃ e ∈ s.events.rows, e.id = c.eventId ∧ e.childHeight = some height := by
  simp [HathorRows.sidecarsAt]

/-! ### What the gate lets through -/

section Gate

variable [Field K] [LinearOrder K] {observation : ChainObservation} {f : ℕ}

/-- What a sidecar declares, as the gate reads it. -/
def Sidecar.declared (rules : CaptureRules K Text) (c : Sidecar) : Option (DeclaredWork K) :=
  DeclaredWork.read rules c.graphHead 0

theorem SameEvidence.mayRecordCurrentBlock (h : SameEvidence s s') :
    mayRecordCurrentBlock rules observation s' height work =
      mayRecordCurrentBlock rules observation s height work := by
  have hheads : hathorSidecarGraphHeadsAtHeight s' height = hathorSidecarGraphHeadsAtHeight s height := by
    rw [hathorSidecarGraphHeadsAtHeight, hathorSidecarGraphHeadsAtHeight, h.sidecarsAt]
  cases observation with
  | archiveReplay => rfl
  | live f => simp only [Hathor.mayRecordCurrentBlock, hheads, h.eventAt]

theorem le_of_mayRecordCurrentBlock (h : mayRecordCurrentBlock rules (.live f) s height work = true)
    (hc : c ∈ s.sidecarsAt height) (hread : c.declared rules = some captured) :
    captured.weight - slack f work captured ≤ work.weight := by
  have hmem : captured.weight - slack f work captured ∈
      (hathorSidecarGraphHeadsAtHeight s height).filterMap fun head =>
        (DeclaredWork.read rules head 0).map fun captured =>
          captured.weight - slack f work captured := by
    refine mem_filterMap.mpr ⟨c.graphHead, mem_map_of_mem hc, ?_⟩
    exact map_eq_some_iff.mpr ⟨captured, hread, rfl⟩
  rw [mayRecordCurrentBlock] at h
  split at h
  · next hnone =>
      rw [max?_eq_none_iff.mp hnone] at hmem
      cases hmem
  · next floor hfloor =>
      exact ((max?_eq_some_iff.mp hfloor).2 _ hmem).trans (of_decide_eq_true h)

theorem not_mayRecordCurrentBlock (hnone : s.sidecarsAt height = [])
    (hevent : hathorEvidenceEventAtHeight s height = true) :
    mayRecordCurrentBlock rules observation s height work = false := by
  cases observation with
  | archiveReplay => rfl
  | live f => simp [mayRecordCurrentBlock, hathorSidecarGraphHeadsAtHeight, hnone, hevent]

variable [IsStrictOrderedRing K]

theorem slack_eq : slack f work captured =
    if work.parentBlock ≠ none ∧ work.parentBlock = captured.parentBlock then 1 / 2
    else (f : K) / 2 := by
  have hshared : (work.parentBlock.isSome && work.parentBlock = captured.parentBlock) = true ↔
      work.parentBlock ≠ none ∧ work.parentBlock = captured.parentBlock := by
    simp [isSome_iff_ne_none]
  rw [slack, hathorMaxWeightStep]
  by_cases h : work.parentBlock ≠ none ∧ work.parentBlock = captured.parentBlock
  · rw [if_pos h, if_pos (hshared.mpr h)]
    norm_num
  · rw [if_neg h, if_neg (mt hshared.mp h)]
    ring

theorem slack_le (hf : 1 ≤ f) : slack f work captured ≤ (f : K) / 2 := by
  have hcast : (1 : K) ≤ f := by exact_mod_cast hf
  rw [slack_eq]
  split
  · linarith
  · exact le_rfl

end Gate

/-! ### What a look does -/

section Look

variable [DecidableEq Text] {a : Answer K Text} {b : BuiltCapture}

/-- The capture that an answer describes. -/
def builtFrom (rules : CaptureRules K Text) (height : ℤ) (a : Answer K Text) : Option BuiltCapture :=
  match fetchHathorBlockMeta a with
  | .error _ => none
  | .ok block =>
    match classifyHathorBlock rules height a block with
    | .ok (.auxpow _ tx) => (reconstructOrSkip rules tx).bind (buildHathorCapture rules tx height)
    | _ => none

/-- The answer takes an event away: its parent is not Bitcoin's, and an event of its block is stored. -/
def Retracts (rules : CaptureRules K Text) (height : ℤ) (s : HathorRows) (a : Answer K Text) : Prop :=
  ∃ b, builtFrom rules height a = some b ∧ a.verdict = .notBitcoin ∧
    ∃ e ∈ s.events.rows, isOfChildBlock b.payload e = true

/-- The answer is captured with an event and a sidecar. -/
structure Captures (rules : CaptureRules K Text) (height : ℤ) (a : Answer K Text) (b : BuiltCapture)
    (kind : ParentKind) : Prop where
  built : builtFrom rules height a = some b
  verdict : ∃ provisional, a.verdict = .bitcoin kind provisional
  kind_ne : kind ≠ .near

/-- What a look does to events and sidecars. -/
inductive Effect (rules : CaptureRules K Text) (height : ℤ) (s : HathorRows) (a : Answer K Text) :
    HathorRows → Option CaptureWrite → Prop
  | same {s' w} (h : SameEvidence s s') : Effect rules height s a s' w
  | captured {s' b kind out rows} (hb : Captures rules height a b kind)
      (hevent : upsertMergeMiningEvent s.toSourceRows (b.classified kind) = .ok (out, rows))
      (hevents : s'.events.rows = rows.events.rows)
      (hsidecars : s'.sidecars = s.sidecars.upsert (b.sidecar out.eventId)
        (fun c => ⟨c.eventId, b.fundsGraph, b.fundsGraphSplit⟩) fun _ => rfl) :
      Effect rules height s a s' (some (.event out))
  | retracted {s' w} (h : Retracts rules height s a) : Effect rules height s a s' w

omit [DecidableEq Text] in
theorem buildHathorCapture_payload {tx : HathorTransaction Text} {parent : HathorReconstructedParent K}
    (h : buildHathorCapture rules tx height parent = some b) :
    b.payload.childBlockHash ≠ none ∧ b.payload.childHeight = some height := by
  obtain ⟨coinbase, -, h⟩ := bind_eq_some_iff.mp h
  obtain rfl := some.inj h
  exact ⟨some_ne_none _, rfl⟩

theorem builtFrom_payload (h : builtFrom rules height a = some b) :
    b.payload.childBlockHash ≠ none ∧ b.payload.childHeight = some height := by
  rw [builtFrom] at h
  split at h
  · cases h
  · split at h
    · obtain ⟨parent, -, h⟩ := bind_eq_some_iff.mp h
      exact buildHathorCapture_payload h
    · cases h

variable [Field K] [LinearOrder K] {observation : ChainObservation} {r : Look K}

/-- What is recorded has been let through, against the rows that are left. -/
def LetThrough (rules : CaptureRules K Text) (observation : ChainObservation) (height : ℤ)
    (r : Look K) : Prop :=
  ∀ work, r.recorded = some work →
    mayRecordCurrentBlock rules observation r.rows height work = true

variable {currentHash : Hash32}

omit [DecidableEq Text] in
theorem recordChildOnlyBlock_spec {block : HathorBlockMeta K Text}
    {kind : ObservationKind} {reconstructed : Option (DeclaredWork K)}
    (h : recordChildOnlyBlock rules observation s height a currentHash block kind reconstructed =
      .ok r) :
    SameEvidence s r.rows ∧ LetThrough rules observation height r := by
  rw [recordChildOnlyBlock] at h
  dsimp only at h
  split at h
  · obtain rfl := Except.ok.inj h
    exact ⟨.refl s, fun w hw => by cases hw⟩
  · split at h
    · obtain rfl := Except.ok.inj h
      exact ⟨.refl s, fun w hw => by cases hw⟩
    · next work? _ =>
        obtain ⟨rows, hobserve, h⟩ := bind_eq_ok.mp h
        obtain rfl := Except.ok.inj h
        have hsame : SameEvidence s rows := by
          refine SameEvidence.trans ?_ (sameEvidence_observe (mapError_eq_ok.mp hobserve))
          split
          · exact sameEvidence_record ..
          · exact .refl s
        refine ⟨hsame, fun w hw => ?_⟩
        rw [hsame.mayRecordCurrentBlock]
        exact (filter_eq_some_iff.mp hw).2

theorem writeCapture_spec {kind : ParentKind} {provisional : Bool}
    (hb : builtFrom rules height a = some b) (hv : a.verdict = .bitcoin kind provisional)
    (h : writeCapture rules observation s height a currentHash work b kind provisional = .ok r) :
    Effect rules height s a r.rows r.write ∧ LetThrough rules observation height r := by
  obtain ⟨⟨write, s₁⟩, hwrite, h⟩ := bind_eq_ok.mp h
  have heffect : ∀ {s₂}, SameEvidence s₁ s₂ → s₂.sidecars = s₁.sidecars →
      Effect rules height s a s₂ (some write) := by
    intro s₂ hsame hsidecars
    have hwrite := mapError_eq_ok.mp hwrite
    rw [writeHathorCaptureInTxn] at hwrite
    split at hwrite
    · obtain ⟨⟨id, rows⟩, hobs, hwrite⟩ := bind_eq_ok.mp hwrite
      obtain ⟨rfl, rfl⟩ := Prod.mk.inj (Except.ok.inj hwrite)
      have hrows : rows.events.rows = s.events.rows :=
        congrArg (·.rows) (writeEventObservation_events hobs)
      exact .same ⟨hsame.events.trans hrows, hsame.sidecars⟩
    · next hkind =>
        obtain ⟨⟨out, rows⟩, hevent, hwrite⟩ := bind_eq_ok.mp hwrite
        obtain ⟨rfl, rfl⟩ := Prod.mk.inj (Except.ok.inj hwrite)
        exact .captured ⟨hb, ⟨provisional, hv⟩, hkind⟩ hevent hsame.events hsidecars
  dsimp only at h
  split at h
  · next hmay =>
      obtain rfl := Except.ok.inj h
      refine ⟨heffect (sameEvidence_record ..) rfl, fun w hw => ?_⟩
      obtain rfl := some.inj hw
      rwa [(sameEvidence_record ..).mayRecordCurrentBlock]
  · obtain rfl := Except.ok.inj h
    exact ⟨heffect (.refl s₁) rfl, fun w hw => by cases hw⟩

omit [DecidableEq Text] in
theorem recordRefused_spec {outcome : HathorHeightOutcome} {headOutcome : ChildChainHeadOutcome} :
    SameEvidence s (recordRefused rules observation s height a currentHash work outcome headOutcome).rows ∧
      LetThrough rules observation height
        (recordRefused rules observation s height a currentHash work outcome headOutcome) := by
  rw [recordRefused]
  split
  · next h =>
      refine ⟨sameEvidence_record .., fun w hw => ?_⟩
      obtain rfl := some.inj hw
      rwa [(sameEvidence_record ..).mayRecordCurrentBlock]
  · exact ⟨.refl s, fun w hw => by cases hw⟩

omit [Field K] [LinearOrder K] in
theorem retractChildBlock_spec (hb : builtFrom rules height a = some b) (hv : a.verdict = .notBitcoin)
    (h : retractChildBlock s b.payload = .ok s') :
    SameEvidence s s' ∨ Retracts rules height s a := by
  by_cases hevent : ∃ e ∈ s.events.rows, isOfChildBlock b.payload e = true
  · exact .inr ⟨b, hb, hv, hevent⟩
  · left
    rw [retractChildBlock] at h
    split at h
    · obtain rfl := Except.ok.inj h
      exact .refl s
    · split at h
      · refine SameEvidence.trans ⟨?_, ?_⟩ (sameEvidence_observe h)
        · refine List.filter_eq_self.mpr fun e he => ?_
          simpa using fun he' => hevent ⟨e, he, he'⟩
        · refine List.filter_eq_self.mpr fun c _ => ?_
          simp only [Bool.not_eq_true', List.any_eq_false, Bool.and_eq_true, not_and]
          exact fun e he he' => absurd ⟨e, he, he'⟩ hevent
      · exact sameEvidence_observe h

theorem processHathorHeight_spec (h : processHathorHeight rules observation s height a = .ok r) :
    Effect rules height s a r.rows r.write ∧ LetThrough rules observation height r := by
  have hskip : ∀ {outcome w}, (.ok ⟨outcome, s, w, none⟩ : Except CaptureError (Look K)) = .ok r →
      Effect rules height s a r.rows r.write ∧ LetThrough rules observation height r := by
    intro outcome w h
    obtain rfl := Except.ok.inj h
    exact ⟨.same (.refl s), fun w hw => by cases hw⟩
  have hobserved : SameEvidence s r.rows ∧ LetThrough rules observation height r →
      Effect rules height s a r.rows r.write ∧ LetThrough rules observation height r :=
    fun h => ⟨.same h.1, h.2⟩
  rw [processHathorHeight] at h
  split at h
  · exact hskip h
  · next block hblock =>
      rw [processLockedBlock] at h
      split at h
      · exact hskip h
      · exact hskip h
      · exact hobserved (recordChildOnlyBlock_spec h)
      · next currentHash tx hclass =>
          split at h
          · exact hobserved (recordChildOnlyBlock_spec h)
          · next parent hparent =>
              split at h
              · exact hobserved (recordChildOnlyBlock_spec h)
              · next b hbuild =>
                  have hb : builtFrom rules height a = some b := by
                    simp only [builtFrom, hblock, hclass, hparent, hbuild, bind_some]
                  split at h
                  · next hv => exact writeCapture_spec hb hv h
                  · next hv =>
                      obtain ⟨s₁, hretract, h⟩ := bind_eq_ok.mp h
                      obtain rfl := Except.ok.inj h
                      refine ⟨?_, recordRefused_spec.2⟩
                      rcases retractChildBlock_spec hb hv (mapError_eq_ok.mp hretract) with hsame | hgone
                      · exact .same (hsame.trans recordRefused_spec.1)
                      · exact .retracted hgone
                  · obtain rfl := Except.ok.inj h
                    exact ⟨.same recordRefused_spec.1, recordRefused_spec.2⟩

/-! ### Runs of looks -/

/-- A look at the height.  One that fails leaves the rows as they were. -/
def look (rules : CaptureRules K Text) (f : ℕ) (height : ℤ) (s : HathorRows) (a : Answer K Text) :
    Option HathorRows :=
  match processHathorHeight rules (.live f) s height a with
  | .ok r => some r.rows
  | .error _ => some s

/-- The weight that a sidecar declares. -/
def Sidecar.weight (rules : CaptureRules K Text) (c : Sidecar) : WithBot K :=
  (c.declared rules).elim ⊥ fun captured => captured.weight

/-- A block that is captured again declares no less than the sidecar that it replaces. -/
def KeepsWeight (rules : CaptureRules K Text) (height : ℤ) (s : HathorRows) (a : Answer K Text) :
    Prop :=
  ∀ b kind, Captures rules height a b kind → ∀ e ∈ s.events.rows, isOfChildBlock b.payload e = true →
    ∀ c ∈ s.sidecars.rows, c.eventId = e.id → c.weight rules ≤ (b.sidecar e.id).weight rules

/-- Every sidecar of the height is still there, or one that declares as much. -/
def Covers (rules : CaptureRules K Text) (height : ℤ) (s s' : HathorRows) : Prop :=
  ∀ c ∈ s.sidecarsAt height, ∃ c' ∈ s'.sidecarsAt height, c.weight rules ≤ c'.weight rules

omit [DecidableEq Text] [Field K] in
theorem Covers.trans {s₁ : HathorRows} (h : Covers rules height s s₁) (h₁ : Covers rules height s₁ s') :
    Covers rules height s s' := by
  intro c hc
  obtain ⟨c₁, hc₁, hle₁⟩ := h c hc
  obtain ⟨c₂, hc₂, hle₂⟩ := h₁ c₁ hc₁
  exact ⟨c₂, hc₂, hle₁.trans hle₂⟩

omit [DecidableEq Text] [Field K] in
theorem SameEvidence.covers (h : SameEvidence s s') : Covers rules height s s' := fun c hc =>
  ⟨c, by rwa [h.sidecarsAt], le_rfl⟩

omit [Field K] [LinearOrder K] in
theorem mem_sidecarsAt_of_captured {kind : ParentKind} {out : EventWriteOutcome} {rows : SourceRows}
    (hb : Captures rules height a b kind)
    (hevent : upsertMergeMiningEvent s.toSourceRows (b.classified kind) = .ok (out, rows))
    (hevents : s'.events.rows = rows.events.rows)
    (hsidecars : s'.sidecars = s.sidecars.upsert (b.sidecar out.eventId)
      (fun c => ⟨c.eventId, b.fundsGraph, b.fundsGraphSplit⟩) fun _ => rfl) :
    b.sidecar out.eventId ∈ s'.sidecarsAt height := by
  obtain ⟨hhash, hheight⟩ := builtFrom_payload hb.built
  have hwritten := upsert_eventWritten (p := b.classified kind) hhash
    (hheight ▸ some_ne_none height) hevent
  obtain ⟨e, he, hid, -, hat⟩ := hwritten.written
  refine mem_sidecarsAt.mpr ⟨?_, e, by rwa [hevents], hid, hat.trans hheight⟩
  refine Table.mem_of_find? (k := out.eventId) ?_
  have hkey : (b.sidecar out.eventId).eventId = out.eventId := rfl
  rw [hsidecars, Table.find?_upsert, hkey, if_pos rfl]
  cases hfind : s.sidecars.find? out.eventId with
  | none => rfl
  | some c =>
    have hid : c.eventId = out.eventId := Table.key_of_find? hfind
    rw [elim_some, hid]
    rfl

omit [Field K] in
/-- While nothing is retracted and no weight is lowered, the weights of the height stay. -/
theorem Effect.covers {w : Option CaptureWrite} (h : Effect rules height s a s' w)
    (hquiet : ¬ Retracts rules height s a) (hkeeps : KeepsWeight rules height s a) :
    Covers rules height s s' := by
  cases h with
  | same h => exact h.covers
  | retracted h => exact absurd h hquiet
  | @captured b kind out rows hb hevent hevents hsidecars =>
    intro c hc
    obtain ⟨hc, e, he, hid, hat⟩ := mem_sidecarsAt.mp hc
    obtain ⟨hhash, hheight⟩ := builtFrom_payload hb.built
    have hwritten := upsert_eventWritten (p := b.classified kind) hhash
      (hheight ▸ some_ne_none height) hevent
    by_cases hown : c.eventId = out.eventId
    · -- The sidecar is overwritten: its event is the one of the block.
      have hof : isOfChildBlock b.payload e = true := by
        rcases hwritten.origin with hnext | ⟨e₁, he₁, hid₁, hof⟩
        · have hlt := s.events.ids_lt e he
          omega
        · rwa [Table.eq_of_key_eq he he₁ ((hid.trans hown).trans hid₁.symm)]
      refine ⟨_, mem_sidecarsAt_of_captured hb hevent hevents hsidecars, ?_⟩
      rw [← hown, ← hid]
      exact hkeeps b kind hb e he hof c hc hid.symm
    · obtain ⟨e', he', hid', hat'⟩ := hwritten.retains e he
      have hfind : s'.sidecars.find? c.eventId = some c := by
        have hne : c.eventId ≠ (b.sidecar out.eventId).eventId := hown
        rw [hsidecars, Table.find?_upsert, if_neg hne, Table.find?_key hc]
      exact ⟨c, mem_sidecarsAt.mpr ⟨Table.mem_of_find? hfind, e', by rwa [hevents],
        hid'.trans hid, hat' height hat⟩, le_rfl⟩

variable {f : ℕ}

theorem look_eq_some (h : look rules f height s a = some s') :
    SameEvidence s s' ∨ ∃ w, Effect rules height s a s' w := by
  rw [look] at h
  split at h
  · next r hr =>
      obtain rfl := some.inj h
      exact .inr ⟨r.write, (processHathorHeight_spec hr).1⟩
  · obtain rfl := some.inj h
    exact .inl (.refl s)

theorem covers_of_look (h : look rules f height s a = some s')
    (hquiet : ¬ Retracts rules height s a) (hkeeps : KeepsWeight rules height s a) :
    Covers rules height s s' := by
  rcases look_eq_some h with hsame | ⟨w, heffect⟩
  · exact hsame.covers
  · exact heffect.covers hquiet hkeeps

theorem covers_of_exec {as : List (Answer K Text)} (hrun : exec (look rules f height) s as = some s')
    (hquiet : Along (look rules f height) (fun s a => ¬ Retracts rules height s a) s as)
    (hkeeps : Along (look rules f height) (KeepsWeight rules height) s as) :
    Covers rules height s s' := by
  induction as generalizing s with
  | nil =>
    obtain rfl : s = s' := by simpa [exec] using hrun
    exact (SameEvidence.refl s).covers
  | cons a as ih =>
    obtain ⟨s₁, hlook, hrun⟩ := exec_cons.mp hrun
    exact (covers_of_look hlook hquiet.1 hkeeps.1).trans
      (ih hrun (hquiet.2 s₁ hlook) (hkeeps.2 s₁ hlook))

variable [IsStrictOrderedRing K]

/-- **A head clears every captured weight.**  Whenever an answer is recorded as the head, its weight is
at least that of every stored sidecar less a half, for a sidecar that names the same parent block, or
less half the fork window.  Where an event but no sidecar is stored, the answer has written its own
event and sidecar.  When no block is captured again with less weight than its sidecar had, the head is
within half the fork window of every weight that was ever captured. -/
theorem head_clears_every_captured_weight (hf : 1 ≤ f) {s₀ : HathorRows} {as : List (Answer K Text)}
    (hrun : exec (look rules f height) s₀ as = some s)
    (hquiet : Along (look rules f height) (fun s a => ¬ Retracts rules height s a) s₀ (as ++ [a]))
    (hlook : processHathorHeight rules (.live f) s height a = .ok r)
    (hrecorded : r.recorded = some work) :
    (∀ c ∈ r.rows.sidecarsAt height, ∀ captured, c.declared rules = some captured →
      captured.weight - (if work.parentBlock ≠ none ∧ work.parentBlock = captured.parentBlock
        then 1 / 2 else (f : K) / 2) ≤ work.weight) ∧
    (hathorEvidenceEventAtHeight s height = true → s.sidecarsAt height = [] →
      ∃ out, r.write = some (.event out) ∧
        ∃ c ∈ r.rows.sidecarsAt height, c.eventId = out.eventId) ∧
    (Along (look rules f height) (KeepsWeight rules height) s₀ (as ++ [a]) →
      ∀ pre post, as ++ [a] = pre ++ post → ∀ s₁, exec (look rules f height) s₀ pre = some s₁ →
        ∀ c ∈ s₁.sidecarsAt height, ∀ captured, c.declared rules = some captured →
          captured.weight - (f : K) / 2 ≤ work.weight) := by
  obtain ⟨heffect, hthrough⟩ := processHathorHeight_spec hlook
  have hmay := hthrough work hrecorded
  have hnext : look rules f height s a = some r.rows := by rw [look, hlook]
  refine ⟨?_, ?_, ?_⟩
  · intro c hc captured hread
    rw [← slack_eq]
    exact le_of_mayRecordCurrentBlock hmay hc hread
  · intro hevent hnone
    generalize r.write = w at heffect ⊢
    cases heffect with
    | same h =>
      rw [h.mayRecordCurrentBlock, not_mayRecordCurrentBlock hnone hevent] at hmay
      cases hmay
    | retracted h => exact absurd h ((along_append hquiet hrun).2).1
    | @captured b kind out rows hb hwrite hevents hsidecars =>
      exact ⟨out, rfl, _, mem_sidecarsAt_of_captured hb hwrite hevents hsidecars, rfl⟩
  · intro hkeeps pre post hsplit s₁ hpre c hc captured hread
    have hall : exec (look rules f height) s₀ (pre ++ post) = some r.rows := by
      rw [← hsplit, exec_snoc]
      exact ⟨s, hrun, hnext⟩
    obtain ⟨s₂, hpre', hpost⟩ := exec_append.mp hall
    obtain rfl : s₁ = s₂ := some.inj (hpre.symm.trans hpre')
    rw [hsplit] at hquiet hkeeps
    have hcovers := covers_of_exec hpost (along_append hquiet hpre).2 (along_append hkeeps hpre).2
    obtain ⟨c', hc', hle⟩ := hcovers c hc
    rw [Sidecar.weight, Sidecar.weight, hread, elim_some] at hle
    cases hread' : c'.declared rules with
    | none =>
      rw [hread', elim_none] at hle
      exact absurd hle (WithBot.not_coe_le_bot _)
    | some captured' =>
      rw [hread', elim_some, WithBot.coe_le_coe] at hle
      have hfloor := le_of_mayRecordCurrentBlock hmay hc' hread'
      have hslack : slack f work captured' ≤ (f : K) / 2 := slack_le hf
      linarith

end Look

/-! ### One header, two blocks -/

section TwoBlocks

variable {sha : Bytes → Hash32} (aux : HathorAuxPow) {funds graph funds' graph' : Bytes}

/-- The aux blob for the first of two commitments in one coinbase. -/
def auxOfFirst (second : Hash32) : HathorAuxPow :=
  { aux with cbTail := hathMagic ++ (second.reverse.bytes ++ aux.cbTail) }

/-- The aux blob for the second. -/
def auxOfSecond (first : Hash32) : HathorAuxPow :=
  { aux with cbHead := aux.cbHead ++ (first.reverse.bytes ++ hathMagic) }

/-- **One header can commit to two blocks.**  Whatever the two blocks are, a coinbase with both
commitments reconstructs to the same header for either. -/
theorem one_header_two_blocks :
    parentCoinbase sha (auxOfFirst aux (auxBlockHash sha funds' graph')) funds graph =
      parentCoinbase sha (auxOfSecond aux (auxBlockHash sha funds graph)) funds' graph' ∧
    parentHeader sha (auxOfFirst aux (auxBlockHash sha funds' graph')) funds graph =
      parentHeader sha (auxOfSecond aux (auxBlockHash sha funds graph)) funds' graph' := by
  have hcoinbase : parentCoinbase sha (auxOfFirst aux (auxBlockHash sha funds' graph')) funds graph =
      parentCoinbase sha (auxOfSecond aux (auxBlockHash sha funds graph)) funds' graph' := by
    simp [parentCoinbase, auxOfFirst, auxOfSecond]
  refine ⟨hcoinbase, Header.ext ?_⟩
  change aux.head36.1 ++ (_ ++ aux.tail12.1) = aux.head36.1 ++ (_ ++ aux.tail12.1)
  rw [parentMerkleRoot, parentMerkleRoot, hcoinbase]
  rfl

end TwoBlocks

namespace Sample

open AuxPow.Sample

/-- Hashes and bytes are their own texts, and a weight is the first of its bytes. -/
def captureRules : CaptureRules ℚ Bytes where
  sha := sha256
  parseHash text := if h : text.length = 32 then some ⟨text, h⟩ else none
  decodeHex := some
  weightOf bytes := ((bytes.headD 0).toNat : ℚ)
  meetsHathorTarget _ _ := true
  decodeCoinbase bytes := some ⟨sha256d bytes, (bytes.drop 42).take 72, (bytes.drop 118).take 11⟩

/-- A graph with a weight, whose parent block is the same. -/
def graphOf (weight : UInt8) : Bytes :=
  weight :: List.replicate 11 0 ++ 1 :: List.replicate 32 5

/-- A coinbase script with room for two commitments. -/
def auxOfTwo : HathorAuxPow := { aux with cbHead := coinbaseHead 72 ++ hathMagic }

def heavyAux : HathorAuxPow := auxOfFirst auxOfTwo (auxBlockHash sha256 funds (graphOf 1))

def lightAux : HathorAuxPow := auxOfSecond auxOfTwo (auxBlockHash sha256 funds (graphOf 100))

/-- The hash of the header that commits to both. -/
def blockHash : Hash32 := dsha sha256 (parentHeader sha256 heavyAux funds (graphOf 100)).bytes

/-- The answer with the block of a weight. -/
def answer (aux : HathorAuxPow) (weight : UInt8) : Answer ℚ Bytes where
  block := .found ⟨blockHash.bytes, 3, 7, false, none, none, []⟩
  transaction _ := .found
    ⟨funds ++ graphOf weight ++ blob aux, some (blob aux), blockHash.bytes, 0⟩
  verdict := .bitcoin .canonical false
  observedAt := 0

def noRows : HathorRows :=
  { SourceRows.empty with heads := fun _ => none, sidecars := Table.empty }

/-- Neither block is taken for one that is not Bitcoin's. -/
theorem not_retracts (s : HathorRows) (aux : HathorAuxPow) (weight : UInt8) :
    ¬ Retracts captureRules 7 s (answer aux weight) := by
  rintro ⟨b, -, hv, -⟩
  cases hv

theorem quiet (first second : HathorAuxPow) (weight weight' : UInt8) :
    Along (look captureRules 20 7) (fun s a => ¬ Retracts captureRules 7 s a) noRows
      ([answer first weight] ++ [answer second weight']) :=
  ⟨not_retracts _ first weight, fun s _ => ⟨not_retracts s second weight', fun _ _ => trivial⟩⟩

end Sample

/-- The block of weight 100 is captured, and then the block of weight 1 under the same hash. -/
theorem recapture_lowers_the_floor :
    ∃ s r work c captured,
      exec (look Sample.captureRules 20 7) Sample.noRows [Sample.answer Sample.heavyAux 100] = some s ∧
      Along (look Sample.captureRules 20 7) (fun s a => ¬ Retracts Sample.captureRules 7 s a)
        Sample.noRows ([Sample.answer Sample.heavyAux 100] ++ [Sample.answer Sample.lightAux 1]) ∧
      processHathorHeight Sample.captureRules (.live 20) s 7 (Sample.answer Sample.lightAux 1) = .ok r ∧
      r.recorded = some work ∧ c ∈ s.sidecarsAt 7 ∧
      c.declared Sample.captureRules = some captured ∧ work.weight < captured.weight - 20 / 2 := by
  obtain ⟨s, hrun, hs⟩ : ∃ s, exec (look Sample.captureRules 20 7) Sample.noRows
      [Sample.answer Sample.heavyAux 100] = some s ∧
      ((processHathorHeight Sample.captureRules (.live 20) s 7
        (Sample.answer Sample.lightAux 1)).toOption.any fun r => r.recorded.any fun work =>
          (s.sidecarsAt 7).any fun c => (c.declared Sample.captureRules).any fun captured =>
            work.weight < captured.weight - 20 / 2) = true :=
    exists_of_any (by decide +kernel)
  simp only [Option.any_eq_true, List.any_eq_true, decide_eq_true_iff] at hs
  obtain ⟨r, hr, work, hwork, c, hc, captured, hcaptured, hlt⟩ := hs
  exact ⟨s, r, work, c, captured, hrun, Sample.quiet _ _ _ _, toOption_eq_some hr, hwork, hc,
    hcaptured, hlt⟩

/-- The block of weight 1 is captured, and then the block of weight 100 under the same hash. -/
theorem recapture_raises_the_floor :
    ∃ s r work,
      exec (look Sample.captureRules 20 7) Sample.noRows [Sample.answer Sample.lightAux 1] = some s ∧
      processHathorHeight Sample.captureRules (.live 20) s 7 (Sample.answer Sample.heavyAux 100) =
        .ok r ∧
      r.recorded = some work ∧
      ∀ c ∈ s.sidecarsAt 7, ∀ captured, c.declared Sample.captureRules = some captured →
        captured.weight - (20 : ℕ) / 2 ≤ work.weight := by
  obtain ⟨s, hrun, hs, hweights⟩ : ∃ s, exec (look Sample.captureRules 20 7) Sample.noRows
      [Sample.answer Sample.lightAux 1] = some s ∧
      ((processHathorHeight Sample.captureRules (.live 20) s 7
        (Sample.answer Sample.heavyAux 100)).toOption.any fun r => r.recorded.isSome) = true ∧
      ∀ c ∈ s.sidecars.rows, c.weight Sample.captureRules ≤ 100 :=
    exists_of_any (by decide +kernel)
  obtain ⟨b, hb, hgraph⟩ : ∃ b,
      builtFrom Sample.captureRules 7 (Sample.answer Sample.heavyAux 100) = some b ∧
        100 ≤ (b.sidecar 0).weight Sample.captureRules :=
    exists_of_any (by decide +kernel)
  simp only [Option.any_eq_true, Option.isSome_iff_exists] at hs
  obtain ⟨r, hr, work, hwork⟩ := hs
  have hkeeps : Along (look Sample.captureRules 20 7) (KeepsWeight Sample.captureRules 7)
      Sample.noRows ([Sample.answer Sample.lightAux 1] ++ [Sample.answer Sample.heavyAux 100]) := by
    refine ⟨fun _ _ _ e he => absurd he List.not_mem_nil, fun s' hs' => ⟨?_, fun _ _ => trivial⟩⟩
    obtain rfl : s = s' := by simpa [exec, hs'] using hrun.symm
    intro b' kind hcaptures e _ _ c hc _
    obtain rfl : b = b' := Option.some.inj (hb.symm.trans hcaptures.built)
    exact (hweights c hc).trans hgraph
  refine ⟨s, r, work, hrun, toOption_eq_some hr, hwork, ?_⟩
  exact (head_clears_every_captured_weight (by decide) hrun (Sample.quiet _ _ _ _)
    (toOption_eq_some hr) hwork).2.2 hkeeps _ _ rfl s hrun

end MergeMiningMonitor.Hathor
