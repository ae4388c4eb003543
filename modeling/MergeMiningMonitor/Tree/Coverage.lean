import MergeMiningMonitor.Support.Consecutive
import MergeMiningMonitor.Support.Fallible
import MergeMiningMonitor.ReadModel.Canonical

/-!
# Tree — Coverage

Whether the canonical blocks of a height window can carry a tree (`shared/backbone.rs`): every height
has one canonical block, its coinbase is complete, and it is linked to the block below (`Covered`).

The rows are loaded for a list of windows at once, and then asked in two ways.  `windowIsComplete` only
answers; `ensureWindow` goes on to the last height to count what is missing, and fails with the counts
or with the first conflict.  Both agree with `Covered` on every window that the loaded ones contain, as
long as no height is loaded twice (`windowIsComplete_iff`, `ensureWindow_eq_ok`).
-/

namespace MergeMiningMonitor

open Relational Ordered Consecutive Fallible List

variable {Hash : Type} [LinearOrder Hash]

namespace ReadModel

/-- Height `n` has a single canonical block, with a complete coinbase. -/
def CompleteAt (m : ReadModel Hash) (n : ℤ) : Prop :=
  ∃ b, m.CanonicalAt n b ∧ (∀ b', m.CanonicalAt n b' → b' = b) ∧ b.coinbaseStatus = .complete

/-- The canonical blocks at height `n` extend those below. -/
def LinkedAt (m : ReadModel Hash) (n : ℤ) : Prop :=
  ∀ b b', m.CanonicalAt n b → m.CanonicalAt (n - 1) b' → b.prevHash = b'.hash

/-- The canonical blocks from height `lo` to `hi` are a linked chain of complete blocks. -/
structure Covered (m : ReadModel Hash) (lo hi : ℤ) : Prop where
  complete : ∀ n, lo ≤ n → n ≤ hi → m.CompleteAt n
  linked : ∀ n, lo < n → n ≤ hi → m.LinkedAt n

theorem Covered.mono {m : ReadModel Hash} {lo hi lo' hi' : ℤ} (h : m.Covered lo hi) (hlo : lo ≤ lo')
    (hhi : hi' ≤ hi) : m.Covered lo' hi' :=
  ⟨fun n h₁ h₂ => h.complete n (hlo.trans h₁) (h₂.trans hhi),
    fun n h₁ h₂ => h.linked n (hlo.trans_lt h₁) (h₂.trans hhi)⟩

theorem canonicalBetween_eq_singleton {m : ReadModel Hash} {n : ℤ} {b : Block Hash} :
    m.canonicalBetween n n = [(n, b)] ↔
      m.CanonicalAt n b ∧ ∀ b', m.CanonicalAt n b' → b' = b := by
  have hmem : ∀ b', (n, b') ∈ m.canonicalBetween n n ↔ m.CanonicalAt n b' := fun b' => by
    rw [mem_canonicalBetween, and_iff_left ⟨le_rfl, le_rfl⟩]
  constructor
  · intro h
    refine ⟨(hmem b).mp (h ▸ mem_cons_self), fun b' hb' => ?_⟩
    have := (hmem b').mpr hb'
    rw [h, mem_singleton] at this
    exact congrArg Prod.snd this
  · rintro ⟨hb, honly⟩
    refine perm_singleton.mp ((perm_ext_iff_of_nodup (nodup_canonicalBetween m n n)
      (nodup_singleton _)).mpr ?_)
    rintro ⟨n', b'⟩
    rw [mem_singleton]
    constructor
    · intro h
      obtain ⟨hb', hn⟩ := mem_canonicalBetween.mp h
      obtain rfl : n' = n := by omega
      rw [honly b' hb']
    · rintro h
      rw [h]
      exact (hmem b).mpr hb

theorem canonicalBetween_filter_height (m : ReadModel Hash) {lo hi n : ℤ} (hlo : lo ≤ n) (hhi : n ≤ hi) :
    ((m.canonicalBetween lo hi).filter fun r => r.1 = n) = m.canonicalBetween n n := by
  rw [← canonicalBetween_filter m hlo hhi]
  exact filter_congr fun r _ => by rw [decide_eq_decide]; omega

theorem completeAt_iff {m : ReadModel Hash} {n : ℤ} :
    m.CompleteAt n ↔ ∃ b, m.canonicalBetween n n = [(n, b)] ∧ b.coinbaseStatus = .complete := by
  simp only [CompleteAt, canonicalBetween_eq_singleton, and_assoc]

end ReadModel

namespace Tree

open ReadModel

/-! ### Loading -/

structure BackboneCoverageRow (Hash : Type) where
  hash : Hash
  prevHash : Hash
  coinbaseStatus : CoreCoinbaseStatus
deriving DecidableEq

/-- `BackboneWindowCoverage`.  A height without an entry has no rows. -/
structure BackboneWindowCoverage (Hash : Type) where
  byHeight : ℤ → List (BackboneCoverageRow Hash)

/-- A height window, with both ends in it. -/
abbrev HeightWindow := ℤ × ℤ

/-- The columns of `BACKBONE_WINDOW_COVERAGE_SQL`. -/
def coverageRow (b : Block Hash) : BackboneCoverageRow Hash := ⟨b.hash, b.prevHash, b.coinbaseStatus⟩

/-- `load_backbone_window_coverage_for_windows`.  A block in two of the windows is loaded twice. -/
def loadBackboneWindowCoverageForWindows (m : ReadModel Hash) (windows : List HeightWindow) :
    BackboneWindowCoverage Hash :=
  let rows := orderByKey (fun r => (r.1, r.2.hash))
    (windows.flatMap fun w => m.canonicalBetween w.1 w.2)
  ⟨fun n => (rows.filter fun r => r.1 = n).map fun r => coverageRow r.2⟩

def loadBackboneWindowCoverage (m : ReadModel Hash) (fromHeight toHeight : ℤ) :
    BackboneWindowCoverage Hash :=
  loadBackboneWindowCoverageForWindows m [(fromHeight, toHeight)]

/-! ### Checks -/

/-- Why two rows, or a row and the one below, do not fit. -/
inductive ConflictReason
  | duplicateCanonicalHeight
  | linkMismatch
deriving DecidableEq

/-- `ApiError::BackboneUnsynced` and `ApiError::BackboneConflict`, with their details. -/
inductive CoverageError (Hash : Type)
  | backboneUnsynced (fromHeight toHeight : ℤ) (firstMissingHeight : Option ℤ)
      (missingCount partialCount : ℕ)
  | backboneConflict (fromHeight toHeight conflictHeight : ℤ) (reason : ConflictReason)
      (hashes : List Hash)
deriving DecidableEq

/-- What is missing so far. -/
structure Shortfall where
  firstMissingHeight : Option ℤ
  missingCount : ℕ
  partialCount : ℕ

namespace BackboneWindowCoverage

variable (c : BackboneWindowCoverage Hash)

def windowIsComplete (fromHeight toHeight : ℤ) : Bool :=
  ((Int.range fromHeight (toHeight + 1)).all fun n =>
    match c.byHeight n with
    | [row] => row.coinbaseStatus = .complete
    | _ => false) &&
  (Int.range (fromHeight + 1) (toHeight + 1)).all fun n =>
    match (c.byHeight (n - 1)).head?, (c.byHeight n).head? with
    | some previous, some current => current.prevHash = previous.hash
    | _, _ => false

/-- One height of the first loop of `ensure_window`. -/
def countHeight (fromHeight toHeight : ℤ) (s : Shortfall) (n : ℤ) :
    Except (CoverageError Hash) Shortfall :=
  match c.byHeight n with
  | [] => .ok ⟨s.firstMissingHeight.or (some n), s.missingCount + 1, s.partialCount⟩
  | [row] =>
    if row.coinbaseStatus ≠ .complete then
      .ok ⟨s.firstMissingHeight.or (some n), s.missingCount, s.partialCount + 1⟩
    else .ok s
  | rows => .error (.backboneConflict fromHeight toHeight n .duplicateCanonicalHeight (rows.map (·.hash)))

/-- One height of the second loop of `ensure_window`. -/
def checkLink (fromHeight toHeight n : ℤ) : Except (CoverageError Hash) Unit :=
  match (c.byHeight (n - 1)).head?, (c.byHeight n).head? with
  | some previous, some current => ensure (current.prevHash = previous.hash)
      (.backboneConflict fromHeight toHeight n .linkMismatch [current.hash])
  | _, _ => .ok ()

def ensureWindow (fromHeight toHeight : ℤ) : Except (CoverageError Hash) Unit := do
  let s ← (Int.range fromHeight (toHeight + 1)).foldlM (c.countHeight fromHeight toHeight) ⟨none, 0, 0⟩
  ensure (¬ (s.missingCount > 0 ∨ s.partialCount > 0))
    (.backboneUnsynced fromHeight toHeight s.firstMissingHeight s.missingCount s.partialCount)
  (Int.range (fromHeight + 1) (toHeight + 1)).forM (c.checkLink fromHeight toHeight)

end BackboneWindowCoverage

def ensureBackboneWindowCoverage (m : ReadModel Hash) (fromHeight toHeight : ℤ) :
    Except (CoverageError Hash) Unit :=
  (loadBackboneWindowCoverage m fromHeight toHeight).ensureWindow fromHeight toHeight

/-! ### Both checks -/

namespace BackboneWindowCoverage

variable {c : BackboneWindowCoverage Hash} {lo hi : ℤ}

/-- The loaded rows are a linked chain of complete blocks. -/
structure RowsCovered (c : BackboneWindowCoverage Hash) (lo hi : ℤ) : Prop where
  complete : ∀ n, lo ≤ n → n ≤ hi → ∃ row, c.byHeight n = [row] ∧ row.coinbaseStatus = .complete
  linked : ∀ n, lo < n → n ≤ hi → ∀ previous ∈ (c.byHeight (n - 1)).head?,
    ∀ current ∈ (c.byHeight n).head?, current.prevHash = previous.hash

theorem windowIsComplete_iff_rowsCovered : c.windowIsComplete lo hi = true ↔ c.RowsCovered lo hi := by
  have hcomplete : ∀ n, (match c.byHeight n with
      | [row] => decide (row.coinbaseStatus = .complete)
      | _ => false) = true ↔ ∃ row, c.byHeight n = [row] ∧ row.coinbaseStatus = .complete := by
    intro n
    split
    · next row hrow => simp [hrow]
    · next hrows => exact ⟨(fun h => nomatch h), fun ⟨row, hrow, _⟩ => (hrows row hrow).elim⟩
  rw [windowIsComplete, Bool.and_eq_true, all_eq_true, all_eq_true]
  simp only [hcomplete, Int.mem_range_iff, Int.lt_add_one_iff, Int.add_one_le_iff]
  constructor
  · rintro ⟨hrows, hlinks⟩
    refine ⟨fun n h₁ h₂ => hrows n ⟨h₁, h₂⟩, fun n h₁ h₂ previous hprevious current hcurrent => ?_⟩
    have hlink := hlinks n ⟨h₁, h₂⟩
    rw [hprevious, hcurrent] at hlink
    simpa using hlink
  · intro h
    refine ⟨fun n hn => h.complete n hn.1 hn.2, fun n hn => ?_⟩
    obtain ⟨previous, hprevious, -⟩ := h.complete (n - 1) (by omega) (by omega)
    obtain ⟨current, hcurrent, -⟩ := h.complete n (by omega) hn.2
    rw [hprevious, hcurrent]
    simpa using h.linked n hn.1 hn.2 previous (by rw [hprevious]; rfl) current (by rw [hcurrent]; rfl)

omit [LinearOrder Hash] in
theorem foldlM_countHeight (heights : List ℤ) (s s' : Shortfall)
    (h : heights.foldlM (c.countHeight lo hi) s = .ok s') :
    s'.missingCount = 0 ∧ s'.partialCount = 0 ↔ (s.missingCount = 0 ∧ s.partialCount = 0) ∧
      ∀ n ∈ heights, ∃ row, c.byHeight n = [row] ∧ row.coinbaseStatus = .complete := by
  induction heights generalizing s with
  | nil =>
    obtain rfl := Except.ok.inj h
    simp
  | cons n heights ih =>
    rw [foldlM_cons] at h
    obtain ⟨t, ht, hrest⟩ := bind_eq_ok.mp h
    rw [ih t hrest, forall_mem_cons]
    rw [countHeight] at ht
    split at ht
    · next hnone =>
        obtain rfl := Except.ok.inj ht
        simp [hnone]
    · next row hrow =>
        split at ht
        · next hpartial =>
            obtain rfl := Except.ok.inj ht
            simp [hrow, hpartial]
        · next hpartial =>
            obtain rfl := Except.ok.inj ht
            simp [hrow, not_not.mp hpartial]
    · cases ht

omit [LinearOrder Hash] in
theorem foldlM_countHeight_of_complete (heights : List ℤ) (s : Shortfall)
    (h : ∀ n ∈ heights, ∃ row, c.byHeight n = [row] ∧ row.coinbaseStatus = .complete) :
    heights.foldlM (c.countHeight lo hi) s = .ok s := by
  induction heights with
  | nil => rfl
  | cons n heights ih =>
    rw [forall_mem_cons] at h
    obtain ⟨⟨row, hrow, hcomplete⟩, hrest⟩ := h
    rw [foldlM_cons]
    refine bind_eq_ok.mpr ⟨s, ?_, ih hrest⟩
    rw [countHeight, hrow]
    simp [hcomplete]

theorem ensureWindow_iff_rowsCovered : c.ensureWindow lo hi = .ok () ↔ c.RowsCovered lo hi := by
  have hlink : ∀ n, c.checkLink lo hi n = .ok () ↔ ∀ previous ∈ (c.byHeight (n - 1)).head?,
      ∀ current ∈ (c.byHeight n).head?, current.prevHash = previous.hash := by
    intro n
    rw [checkLink]
    split
    · next previous current hprevious hcurrent => simp [hprevious, hcurrent]
    · next hnone =>
        refine ⟨fun _ previous hprevious current hcurrent => ?_, fun _ => rfl⟩
        exact absurd hcurrent (hnone previous current hprevious)
  rw [ensureWindow]
  constructor
  · intro h
    obtain ⟨s, hs, h⟩ := bind_eq_ok.mp h
    obtain ⟨_, hnone, hlinks⟩ := bind_eq_ok.mp h
    have hzero := ensure_eq_ok.mp hnone
    obtain ⟨-, hrows⟩ := (foldlM_countHeight _ _ _ hs).mp (by omega)
    rw [forM_eq_ok] at hlinks
    refine ⟨fun n h₁ h₂ => hrows n (Int.mem_range_iff.mpr ⟨h₁, by omega⟩), fun n h₁ h₂ => ?_⟩
    exact (hlink n).mp (hlinks n (Int.mem_range_iff.mpr ⟨h₁, by omega⟩))
  · intro h
    have hrows : ∀ n ∈ Int.range lo (hi + 1), ∃ row, c.byHeight n = [row] ∧
        row.coinbaseStatus = .complete := by
      intro n hn
      rw [Int.mem_range_iff] at hn
      exact h.complete n hn.1 (by omega)
    refine bind_eq_ok.mpr ⟨_, foldlM_countHeight_of_complete _ _ hrows, ?_⟩
    refine bind_eq_ok.mpr ⟨(), ensure_eq_ok.mpr (by simp), forM_eq_ok.mpr fun n hn => ?_⟩
    rw [Int.mem_range_iff] at hn
    exact (hlink n).mpr (h.linked n (by omega) (by omega))

end BackboneWindowCoverage

/-! ### What is loaded -/

variable {m : ReadModel Hash} {windows : List HeightWindow} {lo hi : ℤ}

/-- How many of the windows contain a height. -/
def timesLoaded (windows : List HeightWindow) (n : ℤ) : ℕ := windows.countP fun w => w.1 ≤ n ∧ n ≤ w.2

theorem byHeight_perm {n : ℤ} (h : timesLoaded windows n = 1) :
    ((loadBackboneWindowCoverageForWindows m windows).byHeight n).Perm
      ((m.canonicalBetween n n).map fun r => coverageRow r.2) := by
  have hwindow : ∀ w : HeightWindow, ((m.canonicalBetween w.1 w.2).filter fun r => r.1 = n) =
      if w.1 ≤ n ∧ n ≤ w.2 then m.canonicalBetween n n else [] := by
    intro w
    split
    · next hn => exact canonicalBetween_filter_height m hn.1 hn.2
    · next hn =>
        refine filter_eq_nil_iff.mpr fun r hr => ?_
        have := (mem_canonicalBetween.mp hr).2
        simp only [decide_eq_true_eq]
        omega
  have hflat : ((windows.flatMap fun w => m.canonicalBetween w.1 w.2).filter fun r => r.1 = n) =
      m.canonicalBetween n n := by
    rw [filter_flatMap]
    simp only [hwindow]
    clear hwindow
    induction windows with
    | nil => cases h
    | cons w windows ih =>
      rw [timesLoaded, countP_cons] at h
      rw [flatMap_cons]
      split
      · next hw =>
          have hnone : timesLoaded windows n = 0 := by
            rw [timesLoaded]
            simp only [hw, and_self, decide_true, if_true] at h
            omega
          have hrest : (windows.flatMap fun w =>
              if w.1 ≤ n ∧ n ≤ w.2 then m.canonicalBetween n n else []) = [] := by
            refine flatMap_eq_nil_iff.mpr fun w' hw' => if_neg fun hn => ?_
            exact countP_eq_zero.mp hnone w' hw' (by simpa using hn)
          rw [hrest, append_nil]
      · next hw =>
          simp only [hw, decide_false, Bool.false_eq_true, if_false, Nat.add_zero] at h
          rw [nil_append, ih h]
  refine Perm.map _ ?_
  rw [← hflat]
  exact (perm_orderByKey _ _).filter _

theorem byHeight_eq_singleton {n : ℤ} {row : BackboneCoverageRow Hash} (h : timesLoaded windows n = 1) :
    (loadBackboneWindowCoverageForWindows m windows).byHeight n = [row] ↔
      ∃ b, (m.CanonicalAt n b ∧ ∀ b', m.CanonicalAt n b' → b' = b) ∧ coverageRow b = row := by
  have hperm := byHeight_perm (m := m) h
  have hsame : (loadBackboneWindowCoverageForWindows m windows).byHeight n = [row] ↔
      (m.canonicalBetween n n).map (fun r => coverageRow r.2) = [row] :=
    ⟨fun heq => perm_singleton.mp (heq ▸ hperm.symm),
      fun heq => perm_singleton.mp (heq ▸ hperm)⟩
  rw [hsame, map_eq_singleton_iff]
  constructor
  · rintro ⟨⟨n', b⟩, hrows, rfl⟩
    have hn : (n', b) ∈ m.canonicalBetween n n := hrows ▸ mem_cons_self
    obtain rfl : n' = n := by
      have := (mem_canonicalBetween.mp hn).2
      omega
    exact ⟨b, canonicalBetween_eq_singleton.mp hrows, rfl⟩
  · rintro ⟨b, hb, rfl⟩
    exact ⟨(n, b), canonicalBetween_eq_singleton.mpr hb, rfl⟩

/-- **The loaded rows are covered exactly if the blocks are.** -/
theorem rowsCovered_iff (h : ∀ n, lo ≤ n → n ≤ hi → timesLoaded windows n = 1) :
    (loadBackboneWindowCoverageForWindows m windows).RowsCovered lo hi ↔ m.Covered lo hi := by
  have hcomplete : ∀ n, lo ≤ n → n ≤ hi →
      ((∃ row, (loadBackboneWindowCoverageForWindows m windows).byHeight n = [row] ∧
        row.coinbaseStatus = .complete) ↔ m.CompleteAt n) := by
    intro n h₁ h₂
    simp only [byHeight_eq_singleton (h n h₁ h₂), CompleteAt]
    constructor
    · rintro ⟨row, ⟨b, ⟨hb, honly⟩, rfl⟩, hstatus⟩
      exact ⟨b, hb, honly, hstatus⟩
    · rintro ⟨b, hb, honly, hstatus⟩
      exact ⟨coverageRow b, ⟨b, ⟨hb, honly⟩, rfl⟩, hstatus⟩
  constructor
  · intro hrows
    refine ⟨fun n h₁ h₂ => (hcomplete n h₁ h₂).mp (hrows.complete n h₁ h₂), ?_⟩
    intro n h₁ h₂ b b' hb hb'
    have hrow : ∀ {n b}, lo ≤ n → n ≤ hi → m.CanonicalAt n b →
        (loadBackboneWindowCoverageForWindows m windows).byHeight n = [coverageRow b] := by
      intro n b h₁ h₂ hb
      obtain ⟨b₀, hb₀, honly, -⟩ := (hcomplete n h₁ h₂).mp (hrows.complete n h₁ h₂)
      exact (byHeight_eq_singleton (h n h₁ h₂)).mpr ⟨b, ⟨hb, fun b' hb' => by
        rw [honly b' hb', honly b hb]⟩, rfl⟩
    exact hrows.linked n h₁ h₂ (coverageRow b') (by rw [hrow (by omega) (by omega) hb']; rfl)
      (coverageRow b) (by rw [hrow (by omega) h₂ hb]; rfl)
  · intro hcovered
    refine ⟨fun n h₁ h₂ => (hcomplete n h₁ h₂).mpr (hcovered.complete n h₁ h₂), ?_⟩
    intro n h₁ h₂ previous hprevious current hcurrent
    have hblock : ∀ {n row}, lo ≤ n → n ≤ hi →
        row ∈ ((loadBackboneWindowCoverageForWindows m windows).byHeight n).head? →
        ∃ b, m.CanonicalAt n b ∧ coverageRow b = row := by
      intro n row h₁ h₂ hrow
      obtain ⟨b, hb, honly, -⟩ := hcovered.complete n h₁ h₂
      have hrows := (byHeight_eq_singleton (h n h₁ h₂)).mpr ⟨b, ⟨hb, honly⟩, rfl⟩
      rw [hrows] at hrow
      exact ⟨b, hb, Option.some.inj hrow⟩
    obtain ⟨b', hb', rfl⟩ := hblock (by omega) (by omega) hprevious
    obtain ⟨b, hb, rfl⟩ := hblock (by omega) h₂ hcurrent
    exact hcovered.linked n h₁ h₂ b b' hb hb'

theorem windowIsComplete_iff (h : ∀ n, lo ≤ n → n ≤ hi → timesLoaded windows n = 1) :
    (loadBackboneWindowCoverageForWindows m windows).windowIsComplete lo hi = true ↔
      m.Covered lo hi := by
  rw [BackboneWindowCoverage.windowIsComplete_iff_rowsCovered, rowsCovered_iff h]

theorem ensureBackboneWindowCoverage_eq_ok :
    ensureBackboneWindowCoverage m lo hi = .ok () ↔ m.Covered lo hi := by
  rw [ensureBackboneWindowCoverage, BackboneWindowCoverage.ensureWindow_iff_rowsCovered,
    loadBackboneWindowCoverage, rowsCovered_iff fun n h₁ h₂ => by simp [timesLoaded, h₁, h₂]]

end Tree

end MergeMiningMonitor
