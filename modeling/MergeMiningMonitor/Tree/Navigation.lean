import MergeMiningMonitor.Tree.DefaultTip
import MergeMiningMonitor.Tree.Reduction

/-!
# Tree — Navigation

The tree window that the navigator offers for a span of heights (`stale_navigation.rs`).  Coverage and
off-spine rows are loaded for all spans of a page, over their merged windows, and each span is answered
by a search in them.  However the windows touch, a height of one is loaded once
(`timesLoaded_of_padded`), so that the answers are those of the database (`navigationForSpan_spec`).
-/

namespace MergeMiningMonitor.Tree

open Ordered Fallible ReadModel List

variable {Hash : Type}

/-! ### Readiness -/

structure NavigationSpan where
  targetHeight : ℤ
  spanMin : ℤ
  spanMax : ℤ
  requiredNodes : ℕ

structure NavigationWindowBudget where
  offSpineHeights : List ℤ

structure NavigationReadiness (Hash : Type) where
  coverage : BackboneWindowCoverage Hash
  budget : NavigationWindowBudget

def navigationPadding : ℤ := 16

def heightCount (fromHeight toHeight : ℤ) : ℕ :=
  if toHeight < fromHeight then 0 else (toHeight - fromHeight + 1).toNat

def navigationSpanExceedsTreeContract (s : NavigationSpan) : Bool :=
  heightCount s.spanMin s.spanMax + s.requiredNodes > nodeLimit

namespace NavigationWindowBudget

variable (b : NavigationWindowBudget) (fromHeight toHeight : ℤ)

/-- `partition_point` of ordered heights counts those under the bound. -/
def offSpineCount : ℕ :=
  if toHeight < fromHeight then 0
  else b.offSpineHeights.countP (· ≤ toHeight) - b.offSpineHeights.countP (· < fromHeight)

def visibleNodeBudget : ℕ := heightCount fromHeight toHeight + b.offSpineCount fromHeight toHeight

def windowFitsTreeContract : Bool := b.visibleNodeBudget fromHeight toHeight ≤ nodeLimit

end NavigationWindowBudget

/-- `min_from` and `max_to`.  Under `max` and `min`, the saturating operations are exact. -/
def paddedWindow (s : NavigationSpan) (tip : ℤ) : HeightWindow :=
  (max (s.spanMin - navigationPadding) 0, min (s.spanMax + navigationPadding) tip)

/-- The loop of `merge_navigation_windows`, from the last merged window on. -/
def mergeOnto (last : HeightWindow) : List HeightWindow → List HeightWindow
  | [] => [last]
  | w :: ws =>
    if w.1 ≤ last.2 + 1 then mergeOnto (last.1, max last.2 w.2) ws else last :: mergeOnto w ws

def mergeNavigationWindows (windows : List HeightWindow) : List HeightWindow :=
  match orderByKey id windows with
  | [] => []
  | w :: ws => mergeOnto w ws

def navigationCoverageWindows (tip : ℤ) (spans : List NavigationSpan) : List HeightWindow :=
  mergeNavigationWindows ((spans.filter fun s => s.targetHeight ≤ tip ∧ s.spanMax ≤ tip ∧
    ¬navigationSpanExceedsTreeContract s).map (paddedWindow · tip))

def loads (n : ℤ) (w : HeightWindow) : Bool := w.1 ≤ n ∧ n ≤ w.2

section Load

variable (m : ReadModel Hash) (sources : Block Hash → ℕ)

/-- The heights of the stale and the sourced invalid blocks. -/
def offSpineHeights : List ℤ :=
  (m.blocks.rows.filter fun b =>
    b.kind = .stale ∨ b.kind = .invalidBlock ∧ 1 ≤ sources b).filterMap (·.height)

/-- `load_navigation_budget`.  A row is joined to every window that it is in. -/
def loadNavigationBudget (windows : List HeightWindow) : NavigationWindowBudget :=
  ⟨((offSpineHeights m sources).flatMap fun n =>
    (windows.filter (loads n)).map fun _ => n).insertionSort (· ≤ ·)⟩

def loadNavigationReadiness [LinearOrder Hash] (maxCompleteHeight : Option ℤ)
    (spans : List NavigationSpan) : Option (NavigationReadiness Hash) := do
  let windows := navigationCoverageWindows (← maxCompleteHeight) spans
  if windows.isEmpty then none
  else some ⟨loadBackboneWindowCoverageForWindows m windows, loadNavigationBudget m sources windows⟩

end Load

/-! ### Answers -/

structure TreeNavigation where
  mode : String
  targetHeight : ℤ
  treeFrom : ℤ
  treeTo : ℤ
  selectHash : String
  centerHash : String

structure NavigationError where
  code : String
  targetHeight : ℤ
  message : String
  action : String

def targetBackboneUnsyncedError (targetHeight : ℤ) : NavigationError :=
  ⟨"target_backbone_unsynced", targetHeight,
    "Bitcoin Core backbone is not synced for this navigation target", "run sync-bitcoin-core"⟩

def targetWindowTooLargeError (targetHeight : ℤ) : NavigationError :=
  ⟨"target_window_too_large", targetHeight,
    "Navigation target is too large to render as one tree window", "open a narrower navigation target"⟩

variable [LinearOrder Hash]

def renderableNavigationWindow (s : NavigationSpan) (tip : ℤ) (r : NavigationReadiness Hash) :
    Option HeightWindow :=
  ((Int.range (paddedWindow s tip).1 (s.spanMin + 1)).flatMap fun treeFrom =>
    (Int.range s.spanMax ((paddedWindow s tip).2 + 1)).reverse.map fun treeTo =>
      (treeFrom, treeTo)).find? fun w =>
        r.budget.windowFitsTreeContract w.1 w.2 && r.coverage.windowIsComplete w.1 w.2

/-- `navigation_for_span`, which answers with either a navigation or an error. -/
def navigationForSpan (s : NavigationSpan) (selectHash centerHash : String) (maxCompleteHeight : Option ℤ)
    (readiness : Option (NavigationReadiness Hash)) : Except NavigationError TreeNavigation := do
  let unsynced := targetBackboneUnsyncedError s.targetHeight
  let tooLarge := targetWindowTooLargeError s.targetHeight
  let tip ← required maxCompleteHeight unsynced
  ensure (¬(s.targetHeight > tip ∨ s.spanMax > tip)) unsynced
  ensure (¬navigationSpanExceedsTreeContract s) tooLarge
  let r ← required readiness unsynced
  ensure (r.budget.windowFitsTreeContract s.spanMin s.spanMax) tooLarge
  let w ← required (renderableNavigationWindow s tip r) unsynced
  .ok ⟨"tree_window", s.targetHeight, w.1, w.2, selectHash, centerHash⟩

/-! ### What is loaded -/

/-- A height in some of the windows is in one window after the merge. -/
theorem countP_mergeOnto {last : HeightWindow} {ws : List HeightWindow} (n : ℤ)
    (hsorted : (last :: ws).Pairwise fun v w => v.1 ≤ w.1) :
    (mergeOnto last ws).countP (loads n) = ((last :: ws).any (loads n)).toNat := by
  induction ws generalizing last with
  | nil => cases h : loads n last <;> simp [mergeOnto, h]
  | cons w ws ih =>
    obtain ⟨hlast, hws⟩ := pairwise_cons.mp hsorted
    obtain ⟨hlw, hlast⟩ := forall_mem_cons.mp hlast
    rw [mergeOnto]
    split
    · next htouch =>
        have hmax : loads n (last.1, max last.2 w.2) = (loads n last || loads n w) := by
          simp only [loads, ← Bool.decide_or, decide_eq_decide]
          omega
        rw [@ih (last.1, max last.2 w.2) (pairwise_cons.mpr ⟨hlast, hws.tail⟩), any_cons, hmax,
          Bool.or_assoc, any_cons, any_cons]
    · next hgap =>
        rw [countP_cons, ih hws, any_cons (l := w :: ws)]
        cases hn : loads n last with
        | false => simp
        | true =>
          have hn := of_decide_eq_true hn
          have hnone : (w :: ws).any (loads n) = false := by
            refine any_eq_false.mpr fun v hv h => ?_
            have h := of_decide_eq_true h
            rcases mem_cons.mp hv with rfl | hv
            · omega
            · have := (pairwise_cons.mp hws).1 v hv
              omega
          simp [hnone]

variable {m : ReadModel Hash} {sources : Block Hash → ℕ} {tip lo hi : ℤ} {spans : List NavigationSpan}
  {s : NavigationSpan} {windows : List HeightWindow}

/-- The span passes the checks that do not ask the loaded rows. -/
def Eligible (tip : ℤ) (s : NavigationSpan) : Prop :=
  s.targetHeight ≤ tip ∧ s.spanMax ≤ tip ∧ heightCount s.spanMin s.spanMax + s.requiredNodes ≤ nodeLimit

theorem timesLoaded_of_padded (hs : s ∈ spans) (he : Eligible tip s) {n : ℤ}
    (hlo : (paddedWindow s tip).1 ≤ n) (hhi : n ≤ (paddedWindow s tip).2) :
    timesLoaded (navigationCoverageWindows tip spans) n = 1 := by
  rw [navigationCoverageWindows, mergeNavigationWindows]
  generalize hwindows : List.map _ _ = windows
  have hmem : paddedWindow s tip ∈ orderByKey id windows := by
    rw [mem_orderByKey, ← hwindows]
    refine mem_map_of_mem (mem_filter.mpr ⟨hs, ?_⟩)
    simpa [navigationSpanExceedsTreeContract, Eligible] using he
  have hsorted := pairwise_orderByKey id windows
  split
  · next hnil => exact absurd hmem (hnil ▸ not_mem_nil)
  · next hcons =>
      rw [hcons] at hmem hsorted
      refine (countP_mergeOnto n (hsorted.imp fun h => h.fst_le)).trans ?_
      rw [any_eq_true.mpr ⟨_, hmem, decide_eq_true ⟨hlo, hhi⟩⟩]
      rfl

/-- A tree over the window has at most as many nodes as it may. -/
def Fits (m : ReadModel Hash) (sources : Block Hash → ℕ) (lo hi : ℤ) : Prop :=
  heightCount lo hi + (offSpineHeights m sources).countP (loads · (lo, hi)) ≤ nodeLimit

open NavigationWindowBudget in
omit [LinearOrder Hash] in
theorem windowFitsTreeContract_iff (h : ∀ n, lo ≤ n → n ≤ hi → timesLoaded windows n = 1) :
    (loadNavigationBudget m sources windows).windowFitsTreeContract lo hi = true ↔
      Fits m sources lo hi := by
  have hloaded : ∀ all : List ℤ, (all.flatMap fun n => (windows.filter (loads n)).map
      fun _ => n).countP (loads · (lo, hi)) = all.countP (loads · (lo, hi)) := by
    intro all
    induction all with
    | nil => rfl
    | cons n all ih =>
      rw [flatMap_cons, countP_append, ih, countP_cons, Nat.add_comm, map_const', ← countP_eq_length_filter,
        countP_replicate]
      congr 1
      split
      · next hn => exact h n (of_decide_eq_true hn).1 (of_decide_eq_true hn).2
      · rfl
  have hsplit : ∀ l : List ℤ, lo ≤ hi →
      l.countP (· ≤ hi) = l.countP (loads · (lo, hi)) + l.countP (· < lo) := by
    intro l hle
    induction l with
    | nil => rfl
    | cons a l ih =>
      simp only [countP_cons, ih, loads, decide_eq_true_eq]
      split_ifs <;> omega
  have hcount := ((perm_insertionSort (· ≤ ·) _).countP_eq (loads · (lo, hi))).trans
    (hloaded (offSpineHeights m sources))
  rw [windowFitsTreeContract, decide_eq_true_eq, visibleNodeBudget, Fits, offSpineCount, ← hcount]
  split
  · next hlt =>
      rw [countP_eq_zero.mpr]
      intro n _ hn
      have := of_decide_eq_true hn
      omega
  · next hle =>
      rw [hsplit _ (not_lt.mp hle), Nat.add_sub_cancel]
      rfl

/-! ### The answer -/

theorem navigationForSpan_eq_ok {select center : String} {nav : TreeNavigation}
    {readiness : Option (NavigationReadiness Hash)} :
    navigationForSpan s select center (some tip) readiness = .ok nav ↔ Eligible tip s ∧ ∃ r w,
      readiness = some r ∧ r.budget.windowFitsTreeContract s.spanMin s.spanMax = true ∧
      renderableNavigationWindow s tip r = some w ∧
      ⟨"tree_window", s.targetHeight, w.1, w.2, select, center⟩ = nav := by
  have hexceeds : (¬navigationSpanExceedsTreeContract s) ↔
      heightCount s.spanMin s.spanMax + s.requiredNodes ≤ nodeLimit := by
    simp [navigationSpanExceedsTreeContract]
  simp only [navigationForSpan, bind_eq_ok, ensure_eq_ok, required_eq_ok, Eligible, hexceeds]
  grind

/-- **A window is offered exactly if the span itself can be rendered**, and the tree takes what is
offered. -/
theorem navigationForSpan_spec (hs : s ∈ spans) (hmin : 0 ≤ s.spanMin) (hle : s.spanMin ≤ s.spanMax)
    (select center : String) :
    Succeeds (navigationForSpan s select center (some tip)
      (loadNavigationReadiness m sources (some tip) spans))
      (Eligible tip s ∧ Fits m sources s.spanMin s.spanMax ∧ m.Covered s.spanMin s.spanMax)
      fun nav => nav.treeFrom ≤ s.spanMin ∧ s.spanMax ≤ nav.treeTo ∧
        max (s.spanMin - 16) 0 ≤ nav.treeFrom ∧ nav.treeTo ≤ min (s.spanMax + 16) tip ∧
        Fits m sources nav.treeFrom nav.treeTo ∧
        ensureBackboneWindowCoverage m nav.treeFrom nav.treeTo = .ok () := by
  by_cases he : Eligible tip s
  swap
  · exact ⟨fun h => absurd h.1 he, fun nav h => absurd (navigationForSpan_eq_ok.mp h).1 he⟩
  let windows := navigationCoverageWindows tip spans
  let r : NavigationReadiness Hash :=
    ⟨loadBackboneWindowCoverageForWindows m windows, loadNavigationBudget m sources windows⟩
  have hlo : (paddedWindow s tip).1 ≤ s.spanMin := max_le (by rw [navigationPadding]; omega) hmin
  have hhi : s.spanMax ≤ (paddedWindow s tip).2 := le_min (by rw [navigationPadding]; omega) he.2.1
  have hready : loadNavigationReadiness m sources (some tip) spans = some r := by
    have hone := timesLoaded_of_padded hs he hlo (hle.trans hhi)
    refine if_neg fun hempty => ?_
    rw [isEmpty_iff.mp hempty] at hone
    cases hone
  -- Within the padded window, both readers answer as the database would.
  have hasked : ∀ {lo hi}, (paddedWindow s tip).1 ≤ lo → hi ≤ (paddedWindow s tip).2 →
      (r.budget.windowFitsTreeContract lo hi = true ↔ Fits m sources lo hi) ∧
      (r.coverage.windowIsComplete lo hi = true ↔ m.Covered lo hi) := by
    intro lo hi hlo hhi
    have hloaded : ∀ n, lo ≤ n → n ≤ hi → timesLoaded windows n = 1 := fun n h₁ h₂ =>
      timesLoaded_of_padded hs he (hlo.trans h₁) (h₂.trans hhi)
    exact ⟨windowFitsTreeContract_iff hloaded, windowIsComplete_iff hloaded⟩
  obtain ⟨hbudget, hcoverage⟩ := hasked hlo hhi
  constructor
  · rintro ⟨-, hfits, hcovered⟩
    obtain ⟨w, hw⟩ : ∃ w, renderableNavigationWindow s tip r = some w := by
      refine Option.isSome_iff_exists.mp (find?_isSome.mpr ⟨(s.spanMin, s.spanMax), ?_, ?_⟩)
      · simp only [mem_flatMap, mem_map, mem_reverse, Int.mem_range_iff, Int.lt_add_one_iff]
        exact ⟨_, ⟨hlo, le_rfl⟩, _, ⟨le_rfl, hhi⟩, rfl⟩
      · exact Bool.and_eq_true_iff.mpr ⟨hbudget.mpr hfits, hcoverage.mpr hcovered⟩
    exact ⟨_, navigationForSpan_eq_ok.mpr ⟨he, r, w, hready, hbudget.mpr hfits, hw, rfl⟩⟩
  · intro nav hnav
    obtain ⟨-, r', w, hr, hfits, hw, rfl⟩ := navigationForSpan_eq_ok.mp hnav
    obtain rfl := Option.some.inj (hready.symm.trans hr)
    have hmem := mem_of_find?_eq_some hw
    have hfound := find?_some hw
    simp only [mem_flatMap, mem_map, mem_reverse, Int.mem_range_iff, Int.lt_add_one_iff] at hmem
    obtain ⟨treeFrom, ⟨hfrom, hmin'⟩, treeTo, ⟨hmax, hto⟩, rfl⟩ := hmem
    obtain ⟨hfits', hcomplete⟩ := Bool.and_eq_true_iff.mp hfound
    have hcovered := (hasked hfrom hto).2.mp hcomplete
    exact ⟨⟨he, hbudget.mp hfits, hcovered.mono hmin' hmax⟩, hmin', hmax, hfrom, hto,
      (hasked hfrom hto).1.mp hfits', ensureBackboneWindowCoverage_eq_ok.mpr hcovered⟩

theorem navigation_of_gap :
    ∃ nav, navigationForSpan ⟨1, 1, 1, 1⟩ "" "" (some 3) (loadNavigationReadiness Sample.gap (fun _ => 0)
      (some 3) [⟨3, 3, 3, 1⟩, ⟨1, 1, 1, 1⟩]) = .ok nav :=
  (navigationForSpan_spec (by simp) (by decide) le_rfl "" "").complete
    ⟨by unfold Eligible; decide, by unfold Fits; decide,
      ensureBackboneWindowCoverage_eq_ok.mp (by decide +kernel)⟩

end MergeMiningMonitor.Tree
