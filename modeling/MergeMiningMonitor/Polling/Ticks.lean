import MergeMiningMonitor.Support.FixedWidth
import MergeMiningMonitor.Support.Consecutive

/-!
# Polling — Ticks

The driver of the live pollers (`poller/mod.rs`).  A poller holds a cursor, the highest height it has
processed.  A tick first rescans the heights that a reorganization may have replaced, then processes
new heights in order until one of them does not advance.

Heights are `i32`s, and the window of a tick is computed with saturating arithmetic; the cursor's range
and its lower bound are part of a `Poller`.  A tick is given the tip that the node reports, or none if
it fails before it has one, and the result of each height; what it did is in its `TickReport`.
`pollTick_spec` says all of what a tick does.
-/

namespace MergeMiningMonitor.Polling

open FixedWidth Consecutive

/-! ### Configuration and seed -/

/-- `PollerConfig`, as `from_lookup` accepts it. -/
structure PollerConfig where
  startHeightOverride : Option ℤ
  batchSize : ℤ
  reorgDepth : ℤ
  batchSize_pos : 0 < batchSize
  reorgDepth_nonneg : 0 ≤ reorgDepth

def effectiveStart (startHeightOverride : Option ℤ) (activationFloor : ℤ) : ℤ :=
  max (startHeightOverride.getD activationFloor) activationFloor

def effectiveSeedCursor (seeded effectiveStart : ℤ) : ℤ :=
  max seeded (wrapI32 (effectiveStart - 1))

/-- `Poller`, over a chain of which only the activation floor is read. -/
structure Poller where
  activationFloor : ℤ
  cursor : ℤ
  config : PollerConfig
  cursor_range : InI32 cursor
  start_le : effectiveStart config.startHeightOverride activationFloor ≤ cursor + 1

theorem le_effectiveSeedCursor {seeded start : ℤ} (hseeded : InI32 seeded) (hstart : InI32 start) :
    InI32 (effectiveSeedCursor seeded start) ∧ start ≤ effectiveSeedCursor seeded start + 1 := by
  have hwrap := inI32_wrapI32 (start - 1)
  by_cases hmin : InI32 (start - 1)
  · rw [effectiveSeedCursor, wrapI32_eq_self hmin]
    rw [InI32] at *
    omega
  · -- only the lowest start wraps around
    obtain rfl : start = -2147483648 := by
      rw [InI32] at *
      omega
    rw [effectiveSeedCursor]
    rw [InI32] at *
    omega

/-- What the cursor is seeded from: the start height, the persisted cursor or the tip, in this order. -/
def seeded (config : PollerConfig) (persisted : Option ℤ) (tip : ℤ) : ℤ :=
  match config.startHeightOverride, persisted with
  | some start, _ => wrapI32 (start - 1)
  | none, some cursor => cursor
  | none, none => wrapI32 (tip - config.reorgDepth)

theorem inI32_seeded {config : PollerConfig} {persisted : Option ℤ} {tip : ℤ}
    (hpersisted : ∀ cursor ∈ persisted, InI32 cursor) : InI32 (seeded config persisted tip) := by
  unfold seeded
  split
  · exact inI32_wrapI32 _
  · exact hpersisted _ rfl
  · exact inI32_wrapI32 _

def Poller.new (activationFloor : ℤ) (config : PollerConfig) (persisted : Option ℤ) (tip : ℤ)
    (hstart : InI32 (effectiveStart config.startHeightOverride activationFloor))
    (hpersisted : ∀ cursor ∈ persisted, InI32 cursor) : Poller where
  activationFloor := activationFloor
  cursor := effectiveSeedCursor (seeded config persisted tip)
    (effectiveStart config.startHeightOverride activationFloor)
  config := config
  cursor_range := (le_effectiveSeedCursor (inI32_seeded hpersisted) hstart).1
  start_le := (le_effectiveSeedCursor (inI32_seeded hpersisted) hstart).2

/-! ### The window of a tick -/

/-- `TickWindow`: the heights that a tick may touch. -/
structure TickWindow where
  rescanStart : ℤ
  windowEnd : ℤ
  windowEnd_le : windowEnd ≤ 2147483647

def rescanFloor (cursor reorgDepth : ℤ) : ℤ := saturatingSub (saturatingAdd cursor 1) reorgDepth

def computeTickWindow (effectiveStart cursor tip reorgDepth batchSize : ℤ) : Option TickWindow :=
  let rescanStart := max effectiveStart (rescanFloor cursor reorgDepth)
  let windowEnd := min tip (saturatingAdd cursor batchSize)
  if windowEnd < rescanStart then none
  else some ⟨rescanStart, windowEnd, by simp only [windowEnd, saturatingAdd]; omega⟩

/-! ### One tick -/

inductive HeightProgress
  | advance
  | hold
deriving DecidableEq

/-- The two sorts of errors that a tick tells apart: those that `must_propagate`, and the others. -/
inductive ProcessError
  | propagating
  | ordinary
deriving DecidableEq

inductive TickHeight
  | rescan
  | new
deriving DecidableEq

/-- What processing a height returns. -/
abbrev HeightResult := Except ProcessError HeightProgress

/-- A height that a tick has processed. -/
structure Touched where
  height : ℤ
  kind : TickHeight
  result : HeightResult
deriving DecidableEq

structure TickProgress where
  processed : ℕ
  held : Bool

/-- The progress after a rescanned height. -/
def TickProgress.rescanned (p : TickProgress) : HeightResult → TickProgress
  | .ok .hold => ⟨p.processed + 1, true⟩
  | .ok .advance => ⟨p.processed + 1, p.held⟩
  | .error _ => ⟨p.processed, true⟩

/-- What the loops of a tick carry along, with the heights they have processed. -/
structure TickState where
  cursor : ℤ
  progress : TickProgress
  touched : List Touched

section Loops

variable (process : ℤ → TickHeight → HeightResult)

/-- The loop over heights up to the cursor: only a propagating error ends it. -/
def rescanHeights : List ℤ → TickState → TickState × Except ProcessError Unit
  | [], s => (s, .ok ())
  | h :: hs, s =>
    let result := process h .rescan
    let touched := s.touched ++ [⟨h, .rescan, result⟩]
    if result = .error .propagating then
      (⟨s.cursor, s.progress, touched⟩, .error .propagating)
    else rescanHeights hs ⟨s.cursor, s.progress.rescanned result, touched⟩

/-- The loop over heights above the cursor: a hold or any error ends it. -/
def newHeights : List ℤ → TickState → TickState × Except ProcessError Unit
  | [], s => (s, .ok ())
  | h :: hs, s =>
    let result := process h .new
    let touched := s.touched ++ [⟨h, .new, result⟩]
    match result with
    | .ok .advance => newHeights hs
        ⟨max s.cursor h, ⟨s.progress.processed + 1, s.progress.held⟩, touched⟩
    | .ok .hold => (⟨s.cursor, ⟨s.progress.processed, true⟩, touched⟩, .ok ())
    | .error e => (⟨s.cursor, s.progress, touched⟩, .error e)

def runTickPolicyCounting (window : TickWindow) (s : TickState) :
    TickState × Except ProcessError Unit :=
  let replayEnd := min s.cursor window.windowEnd
  match rescanHeights process (Int.range window.rescanStart (replayEnd + 1)) s with
  | (s, .error e) => (s, .error e)
  | (s, .ok ()) =>
    if window.windowEnd > s.cursor then
      newHeights process (Int.range (s.cursor + 1) (window.windowEnd + 1)) s
    else (s, .ok ())

end Loops

structure TickSummary where
  tip : Option ℤ
  processed : ℕ
  rescanned : ℕ
  new : ℤ
  held : Bool

/-- What a tick meets: the tip, or the error that ends it before it has one, and the result of each
height. -/
structure Tick where
  tip : Except ProcessError ℤ
  process : ℤ → TickHeight → HeightResult

/-- What a tick did: the heights it processed, its summary and result, and the floor below which it
prunes chain heads. -/
structure TickReport where
  touched : List Touched
  summary : TickSummary
  result : Except ProcessError Unit
  prunedBelow : Option ℤ

section LoopLemmas

variable (process : ℤ → TickHeight → HeightResult)

/-- The rescan processes its heights in order, all of them or up to a propagating error, and leaves the
cursor alone. -/
theorem rescanHeights_spec (hs : List ℤ) (s : TickState) :
    (rescanHeights process hs s).1.cursor = s.cursor ∧
    ∃ taken, taken <+: hs ∧ (rescanHeights process hs s).1.touched =
      s.touched ++ taken.map fun h => ⟨h, .rescan, process h .rescan⟩ := by
  induction hs generalizing s with
  | nil => exact ⟨rfl, [], List.prefix_rfl, by simp [rescanHeights]⟩
  | cons h hs ih =>
    rw [rescanHeights]
    split
    · exact ⟨rfl, [h], by simp, by simp⟩
    · obtain ⟨hcursor, taken, hinitial, htouched⟩ := ih ⟨s.cursor,
        s.progress.rescanned (process h .rescan), s.touched ++ [⟨h, .rescan, process h .rescan⟩]⟩
      exact ⟨hcursor, h :: taken, List.cons_prefix_cons.mpr ⟨rfl, hinitial⟩, by simp [htouched]⟩

/-- Heights that were processed as new and advanced. -/
def advanced (hs : List ℤ) : List Touched := hs.map fun h => ⟨h, .new, .ok .advance⟩

/-- New heights advance in order up to the new cursor; at most one more is processed, and does not
advance. -/
theorem newHeights_spec {s : TickState} {windowEnd : ℤ} (hle : s.cursor ≤ windowEnd) :
    let s' := (newHeights process (Int.range (s.cursor + 1) (windowEnd + 1)) s).1
    s.cursor ≤ s'.cursor ∧ s'.cursor ≤ windowEnd ∧
    ∃ last : List Touched, s'.touched =
        s.touched ++ advanced (Int.range (s.cursor + 1) (s'.cursor + 1)) ++ last ∧
      (last = [] ∨ ∃ result ≠ .ok .advance, last = [⟨s'.cursor + 1, .new, result⟩] ∧
        s'.cursor < windowEnd) := by
  obtain ⟨n, hn⟩ : ∃ n : ℕ, windowEnd = s.cursor + n := ⟨(windowEnd - s.cursor).toNat, by omega⟩
  induction n generalizing s with
  | zero =>
    rw [range_eq_nil (by omega)]
    exact ⟨le_rfl, hle, [], by simp [newHeights, advanced, range_eq_nil], .inl rfl⟩
  | succ n ih =>
    rw [range_cons (by omega), newHeights]
    dsimp only
    have hself : advanced (Int.range (s.cursor + 1) (s.cursor + 1)) = [] := by
      rw [range_eq_nil le_rfl]
      rfl
    split
    · next hresult =>
        have hmax : max s.cursor (s.cursor + 1) = s.cursor + 1 := by omega
        rw [hmax]
        obtain ⟨hfrom, hto, last, htouched, hlast⟩ := ih (s := ⟨s.cursor + 1,
          ⟨s.progress.processed + 1, s.progress.held⟩,
          s.touched ++ [⟨s.cursor + 1, .new, process (s.cursor + 1) .new⟩]⟩)
          (by dsimp only; omega) (by dsimp only; omega)
        dsimp only at hfrom hto htouched hlast
        refine ⟨by omega, hto, last, ?_, hlast⟩
        rw [htouched, range_cons (by omega : s.cursor + 1 < _)]
        simp [advanced, hresult]
    · next hresult =>
        refine ⟨le_rfl, hle, [⟨s.cursor + 1, .new, .ok .hold⟩], ?_,
          .inr ⟨_, by simp, rfl, (by omega : s.cursor < windowEnd)⟩⟩
        rw [hself, List.append_nil, hresult]
    · next e hresult =>
        refine ⟨le_rfl, hle, [⟨s.cursor + 1, .new, .error e⟩], ?_,
          .inr ⟨_, by simp, rfl, (by omega : s.cursor < windowEnd)⟩⟩
        rw [hself, List.append_nil, hresult]

/-- What the loops of a tick do: they rescan heights in order, and then process new ones. -/
theorem runTickPolicyCounting_spec (window : TickWindow) (s : TickState) :
    let s' := (runTickPolicyCounting process window s).1
    (s.cursor ≤ s'.cursor ∧ s'.cursor ≤ max s.cursor window.windowEnd) ∧
    ∃ taken last,
      taken <+: Int.range window.rescanStart (min s.cursor window.windowEnd + 1) ∧
      s'.touched = s.touched ++ (taken.map fun h => ⟨h, .rescan, process h .rescan⟩) ++
        advanced (Int.range (s.cursor + 1) (s'.cursor + 1)) ++ last ∧
      (last = [] ∨ ∃ result ≠ .ok .advance, last = [⟨s'.cursor + 1, .new, result⟩] ∧
        s'.cursor < window.windowEnd) := by
  obtain ⟨hcursor, taken, hinitial, htouched⟩ := rescanHeights_spec process
    (Int.range window.rescanStart (min s.cursor window.windowEnd + 1)) s
  have hself : advanced (Int.range (s.cursor + 1) (s.cursor + 1)) = [] := by
    rw [range_eq_nil le_rfl]
    rfl
  rw [runTickPolicyCounting]
  split
  · next s₁ e hrescan =>
      rw [hrescan] at hcursor htouched
      dsimp only at hcursor htouched
      refine ⟨⟨hcursor.ge, ?_⟩, taken, [], hinitial, ?_, .inl rfl⟩
      · exact hcursor.le.trans (le_max_left _ _)
      · simp only [htouched, hcursor, hself, List.append_nil]
  · next s₁ hrescan =>
      rw [hrescan] at hcursor htouched
      dsimp only at hcursor htouched
      split
      · next hnew =>
          have hle : s₁.cursor ≤ window.windowEnd := by omega
          obtain ⟨hfrom, hto, last, hnewTouched, hlast⟩ := newHeights_spec process hle
          rw [← hcursor] at hinitial ⊢
          rw [htouched] at hnewTouched
          exact ⟨⟨hfrom, hto.trans (le_max_right _ _)⟩, taken, last, hinitial, hnewTouched, hlast⟩
      · refine ⟨⟨hcursor.ge, hcursor.le.trans (le_max_left _ _)⟩, taken, [], hinitial, ?_, .inl rfl⟩
        simp only [htouched, hcursor, hself, List.append_nil]

end LoopLemmas

/-! ### The poller -/

namespace Poller

/-- The lowest height that the poller may process. -/
def start (p : Poller) : ℤ := effectiveStart p.config.startHeightOverride p.activationFloor

def tickWindow (p : Poller) (tip : ℤ) : Option TickWindow :=
  computeTickWindow p.start p.cursor tip p.config.reorgDepth p.config.batchSize

/-- `persist_progress_if_advanced`, of which the in-memory cursor stays whatever the database says. -/
def persistProgressIfAdvanced (p : Poller) (newCursor : ℤ) (hmax : newCursor ≤ 2147483647) :
    Poller :=
  if hle : newCursor ≤ p.cursor then p
  else
    { p with
      cursor := newCursor
      cursor_range := ⟨by have := p.cursor_range.1; omega, hmax⟩
      start_le := by have := p.start_le; omega }

/-- The floor of `prune_chain_heads_best_effort`. -/
def pruneFloor (p : Poller) : ℤ :=
  let rescanFloor := rescanFloor p.cursor p.config.reorgDepth
  match p.config.startHeightOverride with
  | some start => min rescanFloor start
  | none => rescanFloor

theorem cursor_runTickPolicyCounting_le (p : Poller) (process : ℤ → TickHeight → HeightResult)
    (window : TickWindow) :
    (runTickPolicyCounting process window ⟨p.cursor, ⟨0, false⟩, []⟩).1.cursor ≤ 2147483647 := by
  have hle := (runTickPolicyCounting_spec process window ⟨p.cursor, ⟨0, false⟩, []⟩).1.2
  have hcursor := p.cursor_range.2
  have hend := window.windowEnd_le
  dsimp only at hle
  omega

def runWindowAndPersistProgress (p : Poller) (window : TickWindow) (tip : ℤ)
    (process : ℤ → TickHeight → HeightResult) : Poller × TickReport :=
  let ran := runTickPolicyCounting process window ⟨p.cursor, ⟨0, false⟩, []⟩
  let q := p.persistProgressIfAdvanced ran.1.cursor (p.cursor_runTickPolicyCounting_le process window)
  let new := ran.1.cursor - p.cursor
  (q,
    { touched := ran.1.touched
      summary :=
        { tip := some tip
          processed := ran.1.progress.processed
          rescanned := ran.1.progress.processed - new.toNat
          new := new
          held := ran.1.progress.held }
      result := ran.2
      prunedBelow := some q.pruneFloor })

def pollTick (p : Poller) (t : Tick) : Poller × TickReport :=
  match t.tip with
  | .error e => (p, ⟨[], ⟨none, 0, 0, 0, false⟩, .error e, none⟩)
  | .ok tip =>
    match p.tickWindow tip with
    | some window => p.runWindowAndPersistProgress window tip t.process
    | none => (p, ⟨[], ⟨some tip, 0, 0, 0, false⟩, .ok (), some p.pruneFloor⟩)

/-- The poller after some ticks. -/
def after (p : Poller) (ts : List Tick) : Poller := ts.foldl (fun p t => (p.pollTick t).1) p

/-- The heights that are processed in some ticks. -/
def touched (p : Poller) : List Tick → List Touched
  | [] => []
  | t :: ts => (p.pollTick t).2.touched ++ (p.pollTick t).1.touched ts

end Poller

/-! ### What a tick does -/

/-- What a tick that starts from `p` and leaves `q` does: it rescans heights in order, and then
processes new ones, all of which advance but perhaps the last. -/
structure TickSpec (p q : Poller) (r : TickReport) : Prop where
  config : q.config = p.config
  floor : q.activationFloor = p.activationFloor
  cursor_le : p.cursor ≤ q.cursor
  pruned : ∀ floor ∈ r.prunedBelow, floor ≤ rescanFloor q.cursor p.config.reorgDepth
  touched : ∃ rescanned last,
    rescanned <+: Int.range (max p.start (rescanFloor p.cursor p.config.reorgDepth)) (p.cursor + 1) ∧
    (∃ results : ℤ → HeightResult, r.touched = (rescanned.map fun h => ⟨h, .rescan, results h⟩) ++
      advanced (Int.range (p.cursor + 1) (q.cursor + 1)) ++ last) ∧
    q.cursor + last.length ≤ saturatingAdd p.cursor p.config.batchSize ∧
    (last = [] ∨ ∃ result ≠ .ok .advance, last = [⟨q.cursor + 1, .new, result⟩])

theorem pruneFloor_le (p : Poller) : p.pruneFloor ≤ rescanFloor p.cursor p.config.reorgDepth := by
  unfold Poller.pruneFloor
  dsimp only
  split
  · exact min_le_left _ _
  · exact le_rfl

theorem cursor_le_saturatingAdd (p : Poller) :
    p.cursor ≤ saturatingAdd p.cursor p.config.batchSize := by
  have hrange := p.cursor_range
  have hbatch := p.config.batchSize_pos
  rw [InI32] at hrange
  rw [saturatingAdd]
  omega

theorem tickSpec_of_nil {p : Poller} {r : TickReport} (htouched : r.touched = [])
    (hpruned : ∀ floor ∈ r.prunedBelow, floor = p.pruneFloor) : TickSpec p p r where
  config := rfl
  floor := rfl
  cursor_le := le_rfl
  pruned floor hfloor := by
    rw [hpruned floor hfloor]
    exact pruneFloor_le p
  touched := by
    refine ⟨[], [], List.nil_prefix, ⟨fun _ => .ok .advance, ?_⟩, ?_, .inl rfl⟩
    · simp [htouched, range_eq_nil, advanced]
    · simpa using cursor_le_saturatingAdd p

theorem computeTickWindow_eq_some {start cursor tip reorgDepth batchSize : ℤ} {window : TickWindow}
    (h : computeTickWindow start cursor tip reorgDepth batchSize = some window) :
    window.rescanStart = max start (rescanFloor cursor reorgDepth) ∧
      window.windowEnd ≤ saturatingAdd cursor batchSize := by
  rw [computeTickWindow] at h
  split at h
  · cases h
  · obtain rfl := Option.some.inj h
    exact ⟨rfl, min_le_right _ _⟩

theorem tickSpec_of_window {p : Poller} {window : TickWindow} {tip : ℤ}
    (process : ℤ → TickHeight → HeightResult) (hwindow : p.tickWindow tip = some window) :
    TickSpec p (p.runWindowAndPersistProgress window tip process).1
      (p.runWindowAndPersistProgress window tip process).2 := by
  obtain ⟨hstart, hend⟩ := computeTickWindow_eq_some hwindow
  obtain ⟨⟨hfrom, hto⟩, taken, last, hinitial, htouched, hlast⟩ :=
    runTickPolicyCounting_spec process window ⟨p.cursor, ⟨0, false⟩, []⟩
  have hsat := cursor_le_saturatingAdd p
  set q := (p.runWindowAndPersistProgress window tip process).1 with hq
  have hcursor : q.cursor =
      (runTickPolicyCounting process window ⟨p.cursor, ⟨0, false⟩, []⟩).1.cursor := by
    rw [hq, Poller.runWindowAndPersistProgress]
    dsimp only
    rw [Poller.persistProgressIfAdvanced]
    split
    · dsimp only at hfrom
      omega
    · rfl
  have hconfig : q.config = p.config ∧ q.activationFloor = p.activationFloor := by
    rw [hq, Poller.runWindowAndPersistProgress]
    dsimp only
    rw [Poller.persistProgressIfAdvanced]
    split <;> exact ⟨rfl, rfl⟩
  rw [← hcursor] at hfrom hto htouched hlast
  dsimp only at hfrom hto hinitial htouched hlast
  refine ⟨hconfig.1, hconfig.2, hfrom, ?_, taken, last, ?_, ⟨fun h => process h .rescan, ?_⟩, ?_, ?_⟩
  · intro floor hfloor
    obtain rfl : q.pruneFloor = floor := Option.some.inj hfloor
    rw [← hconfig.1]
    exact pruneFloor_le q
  · rw [← hstart]
    exact hinitial.trans (prefix_range _ (by omega))
  · rw [List.nil_append] at htouched
    exact htouched
  · rcases hlast with rfl | ⟨result, -, rfl, hlt⟩
    · simp only [List.length_nil]
      omega
    · simp only [List.length_singleton]
      omega
  · rcases hlast with hnil | ⟨result, hresult, hlast, -⟩
    · exact .inl hnil
    · exact .inr ⟨result, hresult, hlast⟩

theorem pollTick_spec (p : Poller) (t : Tick) : TickSpec p (p.pollTick t).1 (p.pollTick t).2 := by
  unfold Poller.pollTick
  split
  · exact tickSpec_of_nil rfl (by simp)
  · split
    · next window hwindow => exact tickSpec_of_window t.process hwindow
    · refine tickSpec_of_nil rfl fun floor hfloor => ?_
      exact (Option.some.inj hfloor).symm

end MergeMiningMonitor.Polling
