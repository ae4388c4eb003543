import MergeMiningMonitor.Support.Runs
import MergeMiningMonitor.CoreSuffix.Machine

/-!
# Core suffix — Expansion

When does the cascade lose an expansion?  A parent calls for expansion when it is enqueued for it,
when it is enqueued as a primary with `expand_unchanged`, and when a reconcile reports that it
changed.  Its queue row then has to stay until a drainer has enqueued its dependents.

A row that owes its expansion, because it is in the second phase or carries `expand_unchanged`,
owes it until it is expanded: a re-enqueue hands the obligation on to the flag, and a settle turns
the flag into the second phase (`step_owes`).  So an obligation that reached the row is never lost
(`carried_change_is_expanded`).

A reported change reaches the row only if the settle finds it.  The settle of a drainer whose row
was re-enqueued after its load matches nothing and the transaction commits all the same; if the
row owes nothing by itself, the change is forgotten, and the next drainer, whose reconcile finds
nothing left to change, retires the row (`superseded_settle_forgets_the_change`).
-/

namespace MergeMiningMonitor.System

open Relational CoreReconcileRow Transition Option

variable {Hash Drainer : Type} [LinearOrder Hash] [ToString Hash] [DecidableEq Drainer]

/-- A committed reconcile of `h`, loaded as `w`, reports that `h` changed. -/
def ReportsChange (s : System Hash Drainer) (a : Act Hash Drainer) (w : CoreReconcileWork Hash) :
    Prop :=
  ∃ d now changedHashes readModel, a = .reconcile d now changedHashes readModel ∧
    s.hand d = some w ∧ w.hash ∈ changedHashes

/-- From this step on `h` has to be expanded. -/
def CallsForExpansion (s : System Hash Drainer) (a : Act Hash Drainer) (h : Hash) : Prop :=
  s.EnqueuesExpansion a h ∨
    (∃ now hashes, a = .enqueuePrimaries now hashes true ∧ h ∈ hashes) ∨
    (∃ now pending affected readModel, a = .replaceSuffix now pending affected readModel ∧
      h ∈ affected) ∨
    ∃ w, w.hash = h ∧ s.ReportsChange a w

/-- In every continuation `post`, an expansion of `h` that enqueues all its current dependents
commits before `h` is absent from the queue. -/
def ExpandedBeforeAbsent (s : System Hash Drainer) (h : Hash) : Prop :=
  ∀ post s', exec step s post = some s' → s'.row h = none →
    Happens step (fun _ s a => ∃ s₁, s.step a = some s₁ ∧ s.Expands a h s₁) s post

/-- Whatever change the step reports for `h` finds a row to be remembered in: the one the drainer
loaded, or one that owes its expansion anyway. -/
def ChangeReachesRow (s : System Hash Drainer) (a : Act Hash Drainer) (h : Hash) : Prop :=
  ∀ w, w.hash = h → s.ReportsChange a w →
    ∃ r, s.row h = some r ∧ (r.Carries w ∨ r.OwesExpansion)

/-- The queue row of `h` is there and owes its expansion. -/
def Owes (s : System Hash Drainer) (h : Hash) : Prop :=
  ∃ r, s.row h = some r ∧ r.OwesExpansion

omit [LinearOrder Hash] [ToString Hash] [DecidableEq Drainer] in
theorem owesExpansion_primary (now : Int) (flag : Bool) (h : Hash) {r : CoreReconcileRow Hash}
    (hr : r.OwesExpansion) : (primary now flag h (some r)).OwesExpansion := by
  refine .inr ?_
  rcases hr with hr | hr <;> simp [primary, hr]

/-- An obligation in the row survives every step but the expansion that meets it. -/
theorem step_owes {s s' : System Hash Drainer} {a : Act Hash Drainer} {h : Hash}
    (hs : s.step a = some s') (howes : s.Owes h) : s'.Owes h ∨ s.Expands a h s' := by
  obtain ⟨r, hr, ho⟩ := howes
  cases step_row hs h with
  | keep hrow => exact .inl ⟨r, hrow.trans hr, ho⟩
  | primary now flag he hrow =>
    exact .inl ⟨_, hrow, hr ▸ owesExpansion_primary now flag h ho⟩
  | expansion now he hrow =>
    exact .inl ⟨_, hrow, .inr (by simp [hr, CoreReconcileRow.expansion])⟩
  | settle d now changedHashes readModel w ha hd hw hp hrow =>
    rw [hr, bind_some, CoreReconcileQueue.settledRow] at hrow
    split at hrow
    · next hmatch =>
        -- the row was in its first phase, so it is the flag that owes
        have heu : r.expandUnchanged = true := by
          rcases ho with hpp | heu
          · simp [hpp] at hmatch
          · exact heu
        exact .inl ⟨_, by simpa [heu] using hrow, .inl rfl⟩
    · exact .inl ⟨r, hrow, ho⟩
  | complete he hrow => exact .inr he

/-- What calls for an expansion leaves it owed, provided a reported change reaches the row. -/
theorem owes_of_callsForExpansion {s s' : System Hash Drainer} {a : Act Hash Drainer} {h : Hash}
    (hs : s.step a = some s') (hcall : s.CallsForExpansion a h) (hreach : s.ChangeReachesRow a h) :
    s'.Owes h := by
  rcases hcall with he | ⟨now, hashes, rfl, hm⟩ | ⟨now, pending, affected, readModel, rfl, hm⟩ |
    ⟨w, rfl, hrep⟩
  · cases a with
    | enqueueExpansions now hashes =>
      refine ⟨_, (row_enqueueExpansions hs h).trans (if_pos he), ?_⟩
      cases s.row h <;> simp [OwesExpansion, CoreReconcileRow.expansion]
    | reconcile d now changedHashes readModel =>
      obtain ⟨w, hw, hne, hm⟩ := he
      obtain ⟨w', hw', -, hrow⟩ := row_reconcile hs
      obtain rfl : w = w' := some.inj (hw.symm.trans hw')
      refine ⟨_, ((hrow h).trans (if_neg hne)).trans (if_pos hm), ?_⟩
      cases s.row h <;> simp [OwesExpansion, CoreReconcileRow.expansion]
    | _ => exact he.elim
  · refine ⟨_, (row_enqueuePrimaries hs h).trans (if_pos hm), .inr ?_⟩
    cases s.row h <;> simp [CoreReconcileRow.primary]
  · refine ⟨_, (row_replaceSuffix hs h).trans (if_pos hm), .inr ?_⟩
    cases s.row h <;> simp [CoreReconcileRow.primary]
  · obtain ⟨r, hr, hc | ho⟩ := hreach w rfl hrep
    · obtain ⟨d, now, changedHashes, readModel, rfl, hw, hm⟩ := hrep
      obtain ⟨w', hw', hp, hrow⟩ := row_reconcile hs
      obtain rfl : w = w' := some.inj (hw.symm.trans hw')
      refine ⟨{ r with primaryPending := false, generation := r.generation + 1 }, ?_, .inl rfl⟩
      simp [hrow, hr, CoreReconcileQueue.settledRow, hc.1, hc.2, hp, hm]
    · rcases step_owes hs ⟨r, hr, ho⟩ with howes | ⟨_, _, _, ha, _⟩
      · exact howes
      · obtain ⟨_, _, _, _, ha', _⟩ := hrep
        exact absurd (ha'.symm.trans ha) (by simp)

/-- **An obligation that reached the row is met before the row is gone.**  Any number of drainers
and enqueuers, any interleaving: once `h` calls for expansion, and provided a reported change finds
the row it was loaded from or one that owes its expansion anyway, `h` is not absent from the queue
before an expansion that enqueues all its current dependents has committed. -/
theorem carried_change_is_expanded {s s₁ : System Hash Drainer} {a : Act Hash Drainer} {h : Hash}
    (hs : s.step a = some s₁) (hcall : s.CallsForExpansion a h) (hreach : s.ChangeReachesRow a h) :
    s₁.ExpandedBeforeAbsent h := by
  intro post s' hrun habsent
  have hkept := exec_until (G := fun _ _ => True) (J := fun _ s => s.Owes h)
    (D := fun _ s a => ∃ s₁, s.step a = some s₁ ∧ s.Expands a h s₁)
    (owes_of_callsForExpansion hs hcall hreach)
    (fun _ s a s' _ howes _ hstep => (step_owes hstep howes).imp_right fun he => ⟨s', hstep, he⟩)
    hrun (along_of_forall _ fun _ _ _ => trivial)
  rcases hkept with ⟨r, hr, -⟩ | hexpanded
  · rw [habsent] at hr
    cases hr
  · exact hexpanded

/-- Block `2`, which extends block `1`. -/
def blockTwo : Block Nat where
  hash := 2
  prevHash := 1
  height := some 2
  heightSource := some .bitcoinCore
  kind := .canonical
  coinbaseTxid := none
  coinbaseScript := none
  coinbaseOutputs := none
  coinbaseStatus := .notAttempted
  invalidBlockReason := none
  competitor := none
  liveObserved := true
  coreAttested := true
  powValidated := true
  difficultyEpochOk := some true

/-- A read model in which `2` depends on `1`. -/
def childOfOne : ReadModel Nat := ⟨Table.empty, ⟨[blockTwo], List.nodup_singleton _⟩⟩

/-- A drainer that still holds the current row: the change it reports turns the row into an
expansion. -/
theorem loaded_change_is_expanded :
    ∃ s s₁ : System Nat Nat,
      exec step init [.write childOfOne, .enqueuePrimaries 0 [1] false, .load 0] = some s ∧
      s.step (.reconcile 0 1 [1] childOfOne) = some s₁ ∧ s₁.ExpandedBeforeAbsent 1 := by
  obtain ⟨s, s₁, hs, hs₁, hhand, hrow⟩ : ∃ s s₁ : System Nat Nat,
      exec step init [.write childOfOne, .enqueuePrimaries 0 [1] false, .load 0] = some s ∧
      s.step (.reconcile 0 1 [1] childOfOne) = some s₁ ∧ s.hand 0 = some ⟨1, true, 1⟩ ∧
      s.row 1 = some ⟨1, true, false, 1, 0⟩ := ⟨_, _, rfl, rfl, rfl, rfl⟩
  refine ⟨s, s₁, hs, hs₁, carried_change_is_expanded hs₁ ?_ ?_⟩
  · exact .inr (.inr (.inr ⟨⟨1, true, 1⟩, rfl, 0, 1, [1], childOfOne, rfl, hhand, by decide⟩))
  · rintro w - ⟨d, now, changedHashes, readModel, ha, hw, -⟩
    cases ha
    obtain rfl : (⟨1, true, 1⟩ : CoreReconcileWork Nat) = w := some.inj (hhand.symm.trans hw)
    exact ⟨⟨1, true, false, 1, 0⟩, hrow, .inl ⟨rfl, rfl⟩⟩

/-- Parent `1` is loaded by drainer `0` and enqueued again before the drainer settles. -/
def reenqueuedUnderLoad : List (Act Nat Nat) :=
  [.write childOfOne, .enqueuePrimaries 0 [1] false, .load 0, .enqueuePrimaries 1 [1] false]

/-- **A superseded settle forgets the change it reports.**  Drainer `0` reconciles `1` and reports
it changed, but the row was enqueued again since its load, so the settle writes nothing.  Drainer
`1` finds nothing left to change and retires the row: `1` is gone from the queue and its dependent
`2` was never enqueued. -/
theorem superseded_settle_forgets_the_change :
    ∃ s s₁ s₂ : System Nat Nat, exec step init reenqueuedUnderLoad = some s ∧
      s.step (.reconcile 0 2 [1] childOfOne) = some s₁ ∧
      s.CallsForExpansion (.reconcile 0 2 [1] childOfOne) 1 ∧
      exec step s₁ [.load 1, .reconcile 1 3 [] childOfOne] = some s₂ ∧
      s₂.row 1 = none ∧ s₂.db.readModel.dependentHashes 1 = [2] ∧ s₂.row 2 = none ∧
      ¬ s₁.ExpandedBeforeAbsent 1 := by
  refine ⟨_, _, _, rfl, rfl, ?_, rfl, rfl, rfl, rfl, ?_⟩
  · exact .inr (.inr (.inr ⟨⟨1, true, 1⟩, rfl, 0, 2, [1], childOfOne, rfl, rfl, by decide⟩))
  · intro hexp
    obtain ⟨pre, a, rest, sₐ, hpost, -, s₁, -, d, now, w, rfl, -⟩ :=
      hexp [.load 1, .reconcile 1 3 [] childOfOne] _ rfl rfl
    have hmem : Act.expand d now ∈ pre ++ Act.expand d now :: rest := by simp
    rw [← hpost] at hmem
    simp at hmem
end MergeMiningMonitor.System
