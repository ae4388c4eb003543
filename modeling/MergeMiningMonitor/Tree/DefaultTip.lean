import MergeMiningMonitor.Support.Islands
import MergeMiningMonitor.Tree.Coverage

/-!
# Tree — Default tip

Which height the tree shows when a request names none (`load_default_tree_tip_height`).  First the
contiguous height of the backbone sync, if nothing complete is above it; then the greatest height of a
scan below the greatest complete one; then the contiguous height again.

Each choice is an SQL statement of its own.  The contiguous one counts rows, groups and broken links.
The scan numbers the runs of linked heights with window functions and asks for a run that is long
enough (`loadSparseCompleteTreeTipHeight`).  The row-by-row check of the coverage agrees with both
(`contiguousClean_iff`, `mem_sparse_iff`), and so `default_tip_renders`.

Heights are integers here; the one subtraction that could leave the range of a column is cut off at
zero.
-/

namespace MergeMiningMonitor.Tree

open Relational Ordered ReadModel Islands

variable {Hash : Type} [LinearOrder Hash]

/-! ### Statements -/

def defaultTreeWindowHeights : ℤ := 16

def defaultTreeSparseScanHeights : ℤ := 2048

/-- The bounds of `ResolvedTreeWindow::for_tip`. -/
def windowForTip (tip : ℤ) : HeightWindow := (max (tip - (defaultTreeWindowHeights - 1)) 0, tip)

variable (m : ReadModel Hash)

/-- `WHERE kind = 'canonical'`, with the heights. -/
def canonicalRows : List (ℤ × Block Hash) :=
  m.blocks.rows.filterMap fun b =>
    match b.kind, b.height with
    | .canonical, some n => some (n, b)
    | _, _ => none

def loadMaxCompleteCanonicalHeight : Option ℤ :=
  (((canonicalRows m).filter fun r => r.2.coinbaseStatus = .complete).map (·.1)).max?

/-- `count(*) = 1 AND bool_and(btc_coinbase_status = 'complete')`, of the rows of one height. -/
def cleanGroup (group : List (ℤ × Block Hash)) : Bool :=
  group.length = 1 && group.all fun r => r.2.coinbaseStatus = .complete

/-- The three conditions of the contiguous statement on its window. -/
def contiguousClean (fromHeight tipHeight : ℤ) : Bool :=
  let rows := m.canonicalBetween fromHeight tipHeight
  -- count(*) = tip_height - from_height + 1
  decide ((rows.length : ℤ) = tipHeight - fromHeight + 1) &&
  -- NOT EXISTS … GROUP BY btc_height HAVING the group is not clean
  (rows.all fun r => cleanGroup (rows.filter fun q => q.1 = r.1)) &&
  -- NOT EXISTS a child whose parent has another hash
  rows.all fun child => child.1 < fromHeight + 1 || (canonicalRows m).all fun parent =>
    parent.1 ≠ child.1 - 1 || child.2.prevHash = parent.2.hash

/-- `load_contiguous_complete_tree_tip_height`, with `contiguous_complete_height` of the sync state. -/
def loadContiguousCompleteTreeTipHeight (contiguousCompleteHeight : Option ℤ)
    (requireNoHigherComplete : Bool) : Option ℤ := do
  let tipHeight ← contiguousCompleteHeight
  guard (tipHeight ≥ 0)
  guard (!requireNoHigherComplete || (loadMaxCompleteCanonicalHeight m).getD (-1) ≤ tipHeight)
  let fromHeight := max (tipHeight - (defaultTreeWindowHeights - 1)) 0
  guard (contiguousClean m fromHeight tipHeight)
  return tipHeight

/-- A row of `clean_blocks`. -/
structure CleanBlock (Hash : Type) where
  height : ℤ
  hash : Hash
  prevHash : Hash
deriving DecidableEq

/-- The least height of the scan. -/
def scanStart (maxHeight : ℤ) : ℤ := max (maxHeight - (defaultTreeSparseScanHeights - 1)) 0

/-- `clean_blocks`, in the order of the window functions. -/
def cleanBlocks : List (CleanBlock Hash) :=
  match loadMaxCompleteCanonicalHeight m with
  | none => []
  | some maxHeight =>
    let rows := (canonicalRows m).filter fun r => r.1 ≥ scanStart maxHeight
    let heights := (rows.map (·.1)).dedup.insertionSort (· ≤ ·)
    heights.filterMap fun n =>
      let group := rows.filter fun r => r.1 = n
      if cleanGroup group then group.head?.map fun r => ⟨n, r.2.hash, r.2.prevHash⟩ else none

/-- A row of `ordered`. -/
structure OrderedBlock (Hash : Type) where
  block : CleanBlock Hash
  prev : Option (CleanBlock Hash)

/-- The `CASE` of `islands`. -/
def islandMark (r : OrderedBlock Hash) : ℕ :=
  if r.block.height = 0 ∧ r.prev.isNone then 0
  else if r.prev.any fun prev => prev.height = r.block.height - 1 && r.block.prevHash = prev.hash then 0
  else 1

/-- A row of `ranked`. -/
structure RankedBlock where
  height : ℤ
  islandId : ℕ
  rn : ℕ

/-- A row of `windowed`. -/
structure WindowedBlock where
  tipHeight : ℤ
  rn : ℕ
  startHeight : Option ℤ
  startRn : Option ℕ

/-- `ordered`, `islands`, `ranked` and `windowed` -/
def windowedBlocks (clean : List (CleanBlock Hash)) : List WindowedBlock :=
  let ordered : List (OrderedBlock Hash) := scan (fun before b => ⟨b, lag 1 before⟩) clean
  let islands : List (ℤ × ℕ) :=
    scan (fun before r => (r.block.height, ((before ++ [r]).map islandMark).sum)) ordered
  let ranked : List RankedBlock :=
    scan (fun before r => ⟨r.1, r.2, (before.countP fun q => q.2 = r.2) + 1⟩) islands
  scan (fun before r =>
    let start := lag (defaultTreeWindowHeights - 1).toNat (before.filter fun q => q.islandId = r.islandId)
    ⟨r.height, r.rn, start.map (·.height), start.map (·.rn)⟩) ranked

/-- The last `WHERE` of the scan. -/
def WindowedBlock.qualifies (r : WindowedBlock) : Bool :=
  (r.tipHeight ≥ defaultTreeWindowHeights - 1 &&
    (r.startHeight = some (r.tipHeight - (defaultTreeWindowHeights - 1)) &&
      r.startRn.any fun startRn : ℕ => (r.rn : ℤ) - startRn = defaultTreeWindowHeights - 1)) ||
  (r.tipHeight < defaultTreeWindowHeights - 1 && (r.rn : ℤ) = r.tipHeight + 1)

def loadSparseCompleteTreeTipHeight : Option ℤ :=
  (((windowedBlocks (cleanBlocks m)).filter (·.qualifies)).map (·.tipHeight)).max?

def loadDefaultTreeTipHeight (contiguousCompleteHeight : Option ℤ) : Option ℤ :=
  match loadContiguousCompleteTreeTipHeight m contiguousCompleteHeight true with
  | some tipHeight => some tipHeight
  | none =>
    match loadSparseCompleteTreeTipHeight m with
    | some tipHeight => some tipHeight
    | none => loadContiguousCompleteTreeTipHeight m contiguousCompleteHeight false

variable {m} {lo hi : ℤ}

theorem mem_canonicalRows {n : ℤ} {b : Block Hash} : (n, b) ∈ canonicalRows m ↔ m.CanonicalAt n b := by
  rw [canonicalRows, List.mem_filterMap]
  constructor
  · rintro ⟨b', hb', h⟩
    split at h
    · next n' hkind hheight =>
        cases h
        exact ⟨Table.find?_key hb', hkind, hheight⟩
    · cases h
  · rintro ⟨hb, hkind, hheight⟩
    exact ⟨b, Table.mem_of_find? hb, by simp [hkind, hheight]⟩

/-! ### The contiguous choice -/

theorem mem_heights {n : ℤ} : n ∈ (m.canonicalBetween lo hi).map (·.1) ↔
    (∃ b, m.CanonicalAt n b) ∧ lo ≤ n ∧ n ≤ hi := by
  rw [List.mem_map]
  constructor
  · rintro ⟨⟨n', b⟩, hb, rfl⟩
    obtain ⟨hb, hn⟩ := mem_canonicalBetween.mp hb
    exact ⟨⟨b, hb⟩, hn⟩
  · rintro ⟨⟨b, hb⟩, hn⟩
    exact ⟨(n, b), mem_canonicalBetween.mpr ⟨hb, hn⟩, rfl⟩

theorem cleanGroup_iff {n : ℤ} : cleanGroup (m.canonicalBetween n n) = true ↔ m.CompleteAt n := by
  rw [cleanGroup, completeAt_iff, Bool.and_eq_true, decide_eq_true_eq, List.all_eq_true]
  constructor
  · rintro ⟨hone, hcomplete⟩
    obtain ⟨⟨n', b⟩, hq⟩ := List.length_eq_one_iff.mp hone
    have hb : (n', b) ∈ m.canonicalBetween n n := hq ▸ List.mem_cons_self
    obtain rfl : n' = n := by
      have := (mem_canonicalBetween.mp hb).2
      omega
    exact ⟨b, hq, of_decide_eq_true (hcomplete _ hb)⟩
  · rintro ⟨b, hq, hcomplete⟩
    rw [hq]
    exact ⟨rfl, fun q hq => List.mem_singleton.mp hq ▸ decide_eq_true hcomplete⟩

theorem group_iff {r : ℤ × Block Hash} (hr : r ∈ m.canonicalBetween lo hi) :
    cleanGroup ((m.canonicalBetween lo hi).filter fun q => q.1 = r.1) = true ↔ m.CompleteAt r.1 := by
  obtain ⟨hlo, hhi⟩ := (mem_canonicalBetween.mp hr).2
  rw [canonicalBetween_filter_height m hlo hhi, cleanGroup_iff]

theorem nodup_heights (h : ∀ r ∈ m.canonicalBetween lo hi, m.CompleteAt r.1) :
    ((m.canonicalBetween lo hi).map (·.1)).Nodup := by
  refine (nodup_canonicalBetween m lo hi).map_on ?_
  rintro ⟨n, b⟩ hb ⟨n', b'⟩ hb' hn
  obtain rfl : n = n' := hn
  obtain ⟨b₀, -, honly, -⟩ := h _ hb
  rw [honly b (mem_canonicalBetween.mp hb).1, honly b' (mem_canonicalBetween.mp hb').1]

/-- As many rows as heights, and one for every height that has some, leave no height without one. -/
theorem completeAt_of_length (h : lo ≤ hi)
    (hlength : ((m.canonicalBetween lo hi).length : ℤ) = hi - lo + 1)
    (hgroups : ∀ r ∈ m.canonicalBetween lo hi, m.CompleteAt r.1) {n : ℤ} (hlo : lo ≤ n) (hhi : n ≤ hi) :
    m.CompleteAt n := by
  have hsubset : (m.canonicalBetween lo hi).map (·.1) ⊆ Int.range lo (hi + 1) := by
    intro n hn
    have := (mem_heights.mp hn).2
    exact Int.mem_range_iff.mpr (by omega)
  have hperm := (List.subperm_of_subset (nodup_heights hgroups) hsubset).perm_of_length_le (by
    rw [List.length_map, Consecutive.length_range]
    omega)
  have hmem := hperm.mem_iff.mpr (Int.mem_range_iff.mpr ⟨hlo, Int.lt_add_one_iff.mpr hhi⟩)
  obtain ⟨r, hr, rfl⟩ := List.mem_map.mp hmem
  exact hgroups r hr

theorem length_of_completeAt (h : lo ≤ hi) (hcomplete : ∀ n, lo ≤ n → n ≤ hi → m.CompleteAt n) :
    ((m.canonicalBetween lo hi).length : ℤ) = hi - lo + 1 := by
  have hgroups : ∀ r ∈ m.canonicalBetween lo hi, m.CompleteAt r.1 := fun r hr =>
    hcomplete r.1 (mem_canonicalBetween.mp hr).2.1 (mem_canonicalBetween.mp hr).2.2
  have hperm : ((m.canonicalBetween lo hi).map (·.1)).Perm (Int.range lo (hi + 1)) := by
    refine (List.perm_ext_iff_of_nodup (nodup_heights hgroups) (Consecutive.nodup_range _ _)).mpr
      fun n => ?_
    rw [mem_heights, Int.mem_range_iff, Int.lt_add_one_iff]
    refine ⟨fun hn => hn.2, fun hn => ⟨?_, hn⟩⟩
    obtain ⟨b, hb, -⟩ := hcomplete n hn.1 hn.2
    exact ⟨b, hb⟩
  have := hperm.length_eq
  rw [List.length_map, Consecutive.length_range] at this
  omega

/-- **The contiguous statement checks the coverage.** -/
theorem contiguousClean_iff (h : lo ≤ hi) : contiguousClean m lo hi = true ↔ m.Covered lo hi := by
  have hlink : ∀ child ∈ m.canonicalBetween lo hi, ((child.1 < lo + 1 ||
      (canonicalRows m).all fun parent => parent.1 ≠ child.1 - 1 || child.2.prevHash = parent.2.hash) =
      true ↔ (lo < child.1 → ∀ b', m.CanonicalAt (child.1 - 1) b' → child.2.prevHash = b'.hash)) := by
    rintro ⟨n, b⟩ hb
    simp only [Bool.or_eq_true, decide_eq_true_eq, List.all_eq_true, Int.lt_add_one_iff]
    constructor
    · rintro (hle | hall) hlt b' hb'
      · omega
      · simpa using hall (n - 1, b') (mem_canonicalRows.mpr hb')
    · intro hlinked
      by_cases hlt : lo < n
      · refine .inr ?_
        rintro ⟨n', b'⟩ hb'
        by_cases hn : n' = n - 1
        · subst hn
          exact .inr (hlinked hlt b' (mem_canonicalRows.mp hb'))
        · exact .inl hn
      · exact .inl (not_lt.mp hlt)
  rw [contiguousClean, Bool.and_eq_true, Bool.and_eq_true, decide_eq_true_eq, List.all_eq_true,
    List.all_eq_true]
  constructor
  · rintro ⟨⟨hlength, hgroups⟩, hlinks⟩
    have hgroups : ∀ r ∈ m.canonicalBetween lo hi, m.CompleteAt r.1 := fun r hr =>
      (group_iff hr).mp (hgroups r hr)
    refine ⟨fun n hlo hhi => completeAt_of_length h hlength hgroups hlo hhi, ?_⟩
    intro n hlo hhi b b' hb hb'
    have hmem : (n, b) ∈ m.canonicalBetween lo hi := mem_canonicalBetween.mpr ⟨hb, hlo.le, hhi⟩
    exact (hlink _ hmem).mp (hlinks _ hmem) hlo b' hb'
  · intro hcovered
    refine ⟨⟨length_of_completeAt h hcovered.complete, fun r hr => ?_⟩, ?_⟩
    · obtain ⟨hlo, hhi⟩ := (mem_canonicalBetween.mp hr).2
      exact (group_iff hr).mpr (hcovered.complete r.1 hlo hhi)
    · rintro ⟨n, b⟩ hmem
      obtain ⟨hb, -, hhi⟩ := mem_canonicalBetween.mp hmem
      exact (hlink _ hmem).mpr fun hlo b' hb' => hcovered.linked n hlo hhi b b' hb hb'

/-! ### Clean blocks -/

theorem canonicalRows_filter_perm (m : ReadModel Hash) (n : ℤ) :
    ((canonicalRows m).filter fun r => r.1 = n).Perm (m.canonicalBetween n n) := by
  refine List.Perm.trans (List.Perm.of_eq ?_) (perm_orderByKey _ _).symm
  rw [canonicalRows, List.filter_filterMap]
  congr 1
  funext b
  cases b.kind with
  | canonical =>
    cases b.height with
    | none => rfl
    | some n' =>
      have hsame : n' = n ↔ n ≤ n' ∧ n' ≤ n := by omega
      simp only [Option.filter_some, decide_eq_true_eq, hsame]
  | stale => rfl
  | invalidBlock => rfl
  | unknown => rfl

omit [LinearOrder Hash] in
theorem cleanGroup_of_perm {group group' : List (ℤ × Block Hash)} (h : group.Perm group') :
    cleanGroup group = cleanGroup group' := by
  rw [cleanGroup, cleanGroup, h.length_eq, h.all_eq]

variable {c : CleanBlock Hash} {before : List (CleanBlock Hash)} {tip : ℤ}

/-- **A clean block is the single complete block of its height.** -/
theorem mem_cleanBlocks : c ∈ cleanBlocks m ↔
    ∃ maxHeight, loadMaxCompleteCanonicalHeight m = some maxHeight ∧ scanStart maxHeight ≤ c.height ∧
      ∃ b, m.canonicalBetween c.height c.height = [(c.height, b)] ∧ b.coinbaseStatus = .complete ∧
        c.hash = b.hash ∧ c.prevHash = b.prevHash := by
  rw [cleanBlocks]
  cases loadMaxCompleteCanonicalHeight m with
  | none => simp
  | some maxHeight =>
    have hgroup : ∀ n, scanStart maxHeight ≤ n → ((canonicalRows m).filter fun r =>
        r.1 ≥ scanStart maxHeight).filter (fun r => r.1 = n) =
      (canonicalRows m).filter fun r => r.1 = n := by
      intro n hn
      rw [List.filter_filter]
      refine List.filter_congr fun r _ => ?_
      by_cases hr : r.1 = n
      · simp [hr, hn]
      · simp [hr]
    simp only [List.mem_filterMap, List.mem_insertionSort, List.mem_dedup, List.mem_map,
      List.mem_filter, Option.some.injEq, exists_eq_left']
    constructor
    · rintro ⟨n, ⟨r, ⟨-, hr⟩, rfl⟩, hc⟩
      have hstart : scanStart maxHeight ≤ r.1 := of_decide_eq_true hr
      rw [hgroup r.1 hstart] at hc
      split at hc
      · next hclean =>
          rw [cleanGroup_of_perm (canonicalRows_filter_perm m r.1), cleanGroup_iff,
            completeAt_iff] at hclean
          obtain ⟨b, hb, hcomplete⟩ := hclean
          have hone := canonicalRows_filter_perm m r.1
          rw [hb, List.perm_singleton] at hone
          rw [hone] at hc
          obtain rfl := Option.some.inj hc
          exact ⟨hstart, b, hb, hcomplete, rfl, rfl⟩
      · cases hc
    · rintro ⟨hstart, b, hb, hcomplete, hhash, hprev⟩
      have hone := canonicalRows_filter_perm m c.height
      have hclean : cleanGroup ((canonicalRows m).filter fun r => r.1 = c.height) = true := by
        rw [cleanGroup_of_perm hone, cleanGroup_iff, completeAt_iff]
        exact ⟨b, hb, hcomplete⟩
      rw [hb, List.perm_singleton] at hone
      have hmem : (c.height, b) ∈ (canonicalRows m).filter fun r => r.1 = c.height :=
        hone ▸ List.mem_cons_self
      refine ⟨c.height, ⟨(c.height, b), ⟨(List.mem_filter.mp hmem).1, decide_eq_true hstart⟩, rfl⟩, ?_⟩
      rw [hgroup c.height hstart, if_pos hclean, hone]
      rw [List.head?_cons, Option.map_some, ← hhash, ← hprev]

omit [LinearOrder Hash] in
theorem pairwise_cleanBlocks (m : ReadModel Hash) :
    (cleanBlocks m).Pairwise fun a b => a.height < b.height := by
  rw [cleanBlocks]
  split
  · exact List.Pairwise.nil
  · next maxHeight _ =>
      dsimp only
      have hsorted : ((((canonicalRows m).filter fun r => r.1 ≥ scanStart maxHeight).map
          (·.1)).dedup.insertionSort (· ≤ ·)).Pairwise (· < ·) := by
        have hle := List.pairwise_insertionSort (· ≤ ·)
          (((canonicalRows m).filter fun r => r.1 ≥ scanStart maxHeight).map (·.1)).dedup
        have hne := (List.perm_insertionSort (· ≤ ·) _).nodup_iff.mpr
          (List.nodup_dedup (((canonicalRows m).filter fun r => r.1 ≥ scanStart maxHeight).map (·.1)))
        exact (hle.and hne).imp fun h => lt_of_le_of_ne h.1 h.2
      have hheight : ∀ (n : ℤ) (c : CleanBlock Hash), (c ∈
          let group := ((canonicalRows m).filter fun r => r.1 ≥ scanStart maxHeight).filter fun r => r.1 = n
          if cleanGroup group then group.head?.map fun r => ⟨n, r.2.hash, r.2.prevHash⟩ else none) →
          c.height = n := by
        intro n c hc
        dsimp only at hc
        split at hc
        · obtain ⟨r, -, rfl⟩ := Option.map_eq_some_iff.mp hc
          rfl
        · cases hc
      refine List.Pairwise.filterMap _ (fun n n' hn c hc c' hc' => ?_) hsorted
      rw [hheight n c hc, hheight n' c' hc']
      exact hn

/-! ### The scan -/

/-- A block on top of another one. -/
def chained (y x : CleanBlock Hash) : Bool := y.height = x.height - 1 && x.prevHash = y.hash

/-- The mark of the first block. -/
def firstMark (x : CleanBlock Hash) : ℕ := if x.height = 0 then 0 else 1

theorem islandMark_eq (before : List (CleanBlock Hash)) (x : CleanBlock Hash) :
    islandMark ⟨x, lag 1 before⟩ = mark chained firstMark before x := by
  have hlag : lag 1 before = before.getLast? := by
    rw [lag, Nat.sub_self, ← List.head?_eq_getElem?, List.head?_reverse]
  rw [hlag, islandMark, mark]
  cases before.getLast? with
  | none => simp [firstMark]
  | some y => simp [chained]

theorem islands_eq (clean : List (CleanBlock Hash)) :
    scan (fun before (r : OrderedBlock Hash) =>
        (r.block.height, ((before ++ [r]).map islandMark).sum))
      (scan (fun before b => ⟨b, lag 1 before⟩) clean) =
      scan (fun before x => (x.height, island chained firstMark (before ++ [x]))) clean := by
  rw [scan_scan]
  congr 1
  funext before x
  rw [← scan_concat, map_scan, island]
  simp only [islandMark_eq]

theorem ranked_eq (clean : List (CleanBlock Hash)) :
    scan (fun before (r : ℤ × ℕ) =>
        (⟨r.1, r.2, (before.countP fun q => q.2 = r.2) + 1⟩ : RankedBlock))
      (scan (fun before x => (x.height, island chained firstMark (before ++ [x]))) clean) =
      scan (fun before x =>
        ⟨x.height, island chained firstMark (before ++ [x]), run chained (before ++ [x])⟩) clean := by
  rw [scan_scan]
  congr 1
  funext before x
  have hnumbers : (scan (fun before x => (x.height, island chained firstMark (before ++ [x])))
      before).map (fun r : ℤ × ℕ => r.2) =
      scan (fun before x => island chained firstMark (before ++ [x])) before := map_scan _
  exact congrArg (RankedBlock.mk _ _) (countP_island hnumbers)

/-- The rows of `windowed` in terms of runs. -/
def windowedRow (before : List (CleanBlock Hash)) (x : CleanBlock Hash) : WindowedBlock :=
  let rn := run chained (before ++ [x])
  let start := if 15 < rn then before[before.length - 15]? else none
  ⟨x.height, rn, start.map (·.height), start.map fun _ => rn - 15⟩

theorem windowedBlocks_eq (clean : List (CleanBlock Hash)) :
    windowedBlocks clean = scan windowedRow clean := by
  rw [windowedBlocks, islands_eq, ranked_eq, scan_scan]
  congr 1
  funext before x
  have hnumbers : (scan (fun before x =>
        (⟨x.height, island chained firstMark (before ++ [x]), run chained (before ++ [x])⟩ : RankedBlock))
      before).map (·.islandId) =
      scan (fun before x => island chained firstMark (before ++ [x])) before := map_scan _
  dsimp only
  rw [show (defaultTreeWindowHeights - 1).toNat = 15 from rfl,
    lag_filter_island (by decide) hnumbers, windowedRow]
  split
  · next hrun =>
      rw [getElem?_scan]
      cases hstart : before[before.length - 15]? with
      | none => rfl
      | some y =>
        -- the row fifteen places back ends a run that is fifteen rows shorter
        have hle := run_le_length (before ++ [x]) chained
        rw [List.length_append, List.length_singleton] at hle
        have htake : before.take (before.length - 15) ++ [y] =
            (before ++ [x]).take ((before ++ [x]).length - 15) := by
          have hindex : (before ++ [x]).length - 15 = before.length - 15 + 1 := by
            rw [List.length_append, List.length_singleton]
            omega
          rw [hindex, List.take_append_of_le_length (by omega), List.take_add_one, hstart]
          rfl
        simp only [Option.map_some]
        rw [htake, run_take hrun]
  · rfl

theorem exists_back {x : CleanBlock Hash} {k : ℕ} (hk : k < run chained (before ++ [x])) :
    ∃ y, (before ++ [x])[before.length - k]? = some y ∧ y.height = x.height - k := by
  induction k generalizing before x with
  | zero => exact ⟨x, by simp, by simp⟩
  | succ k ih =>
    obtain ⟨ys, y, rfl, hlink, hrun⟩ := (lt_run_concat_iff (Nat.succ_pos k)).mp hk
    have hheight : y.height = x.height - 1 := by
      rw [chained, Bool.and_eq_true, decide_eq_true_eq] at hlink
      exact hlink.1
    obtain ⟨z, hz, hzheight⟩ := ih (by simpa using hrun)
    have hlt := (List.getElem?_eq_some_iff.mp hz).1
    refine ⟨z, ?_, by rw [hzheight, hheight]; push_cast; omega⟩
    rw [List.length_append, List.length_singleton, Nat.add_sub_add_right,
      List.getElem?_append_left hlt, hz]

theorem qualifies_iff (r : WindowedBlock) : r.qualifies = true ↔
    (15 ≤ r.tipHeight ∧ r.startHeight = some (r.tipHeight - 15) ∧
      ∃ startRn ∈ r.startRn, (r.rn : ℤ) - (startRn : ℕ) = 15) ∨
    (r.tipHeight < 15 ∧ (r.rn : ℤ) = r.tipHeight + 1) := by
  simp [WindowedBlock.qualifies, show defaultTreeWindowHeights - 1 = 15 from rfl, Option.any_eq_true]

/-- **The last condition asks for a long run**, or for one from height zero. -/
theorem qualifies_windowedRow (before : List (CleanBlock Hash)) (x : CleanBlock Hash) :
    (windowedRow before x).qualifies = true ↔
      (15 ≤ x.height ∧ 15 < run chained (before ++ [x])) ∨
      (x.height < 15 ∧ (run chained (before ++ [x]) : ℤ) = x.height + 1) := by
  rw [qualifies_iff]
  simp only [windowedRow]
  refine or_congr (and_congr_right fun _ => ?_) Iff.rfl
  constructor
  · rintro ⟨hstart, -⟩
    by_contra hrun
    rw [if_neg hrun] at hstart
    cases hstart
  · intro hrun
    obtain ⟨y, hy, hheight⟩ := exists_back hrun
    have hle := run_le_length (before ++ [x]) chained
    rw [List.length_append, List.length_singleton] at hle
    rw [List.getElem?_append_left (by omega)] at hy
    rw [if_pos hrun, hy]
    refine ⟨congrArg some hheight, run chained (before ++ [x]) - 15, rfl, ?_⟩
    omega

omit [LinearOrder Hash] in
theorem eq_concat_of_height {x y : CleanBlock Hash}
    (hinitial : before ++ [x] <+: cleanBlocks m) (hy : y ∈ cleanBlocks m)
    (hheight : y.height = x.height - 1) : ∃ ys, before = ys ++ [y] := by
  obtain ⟨rest, hrest⟩ := hinitial
  have hsorted := pairwise_cleanBlocks m
  rw [← hrest, List.append_assoc, List.pairwise_append] at hsorted
  obtain ⟨hbefore, hafter, -⟩ := hsorted
  have hmem : y ∈ before := by
    rw [← hrest, List.append_assoc, List.mem_append] at hy
    refine hy.resolve_right fun hy => ?_
    rcases List.mem_cons.mp hy with rfl | hy
    · omega
    · have := (List.pairwise_cons.mp hafter).1 y hy
      omega
  obtain ⟨ys, zs, rfl⟩ := List.append_of_mem hmem
  cases zs with
  | nil => exact ⟨ys, rfl⟩
  | cons z zs =>
    -- a block between the two would have a height between theirs
    have hzx : z.height < x.height := by
      have hsorted := pairwise_cleanBlocks m
      rw [← hrest, List.append_assoc, List.pairwise_append] at hsorted
      exact hsorted.2.2 z (by simp) x (by simp)
    have hyz : y.height < z.height :=
      (List.pairwise_cons.mp (List.pairwise_append.mp hbefore).2.1).1 z List.mem_cons_self
    omega

theorem eq_of_canonicalAt {b : Block Hash} (hc : c ∈ cleanBlocks m)
    (hb : m.CanonicalAt c.height b) : c.hash = b.hash ∧ c.prevHash = b.prevHash := by
  obtain ⟨-, -, -, b', hb', -, hhash, hprev⟩ := mem_cleanBlocks.mp hc
  rw [(canonicalBetween_eq_singleton.mp hb').2 b hb]
  exact ⟨hhash, hprev⟩

theorem mem_cleanBlocks_of_completeAt {maxHeight n : ℤ}
    (hmax : loadMaxCompleteCanonicalHeight m = some maxHeight) (hstart : scanStart maxHeight ≤ n)
    (hcomplete : m.CompleteAt n) : ∃ c ∈ cleanBlocks m, c.height = n := by
  obtain ⟨b, hb, hstatus⟩ := completeAt_iff.mp hcomplete
  exact ⟨⟨n, b.hash, b.prevHash⟩,
    mem_cleanBlocks.mpr ⟨maxHeight, hmax, hstart, b, hb, hstatus, rfl, rfl⟩, rfl⟩

theorem completeAt_of_mem (hc : c ∈ cleanBlocks m) : m.CompleteAt c.height := by
  obtain ⟨-, -, -, b, hb, hstatus, -⟩ := mem_cleanBlocks.mp hc
  exact completeAt_iff.mpr ⟨b, hb, hstatus⟩

theorem chained_iff {x y : CleanBlock Hash} (hx : x ∈ cleanBlocks m) (hy : y ∈ cleanBlocks m)
    (hheight : y.height = x.height - 1) : chained y x = true ↔ m.LinkedAt x.height := by
  simp only [chained, hheight, decide_true, Bool.true_and, decide_eq_true_eq]
  constructor
  · intro hlink b b' hb hb'
    rw [← (eq_of_canonicalAt hx hb).2, hlink, (eq_of_canonicalAt hy (hheight ▸ hb')).1]
  · intro hlinked
    obtain ⟨b, hb, -⟩ := completeAt_of_mem hx
    obtain ⟨b', hb', -⟩ := completeAt_of_mem hy
    rw [(eq_of_canonicalAt hx hb).2, (eq_of_canonicalAt hy hb').1]
    exact hlinked b b' hb (hheight ▸ hb')

/-- **A run of clean blocks is a covered window in the range of the scan.** -/
theorem lt_run_iff {x : CleanBlock Hash} {maxHeight : ℤ}
    (hmax : loadMaxCompleteCanonicalHeight m = some maxHeight)
    (hinitial : before ++ [x] <+: cleanBlocks m) (k : ℕ) :
    k < run chained (before ++ [x]) ↔
      scanStart maxHeight ≤ x.height - k ∧ m.Covered (x.height - k) x.height := by
  induction k generalizing before x with
  | zero =>
    have hx : x ∈ cleanBlocks m := hinitial.subset (by simp)
    obtain ⟨maxHeight', hmax', hstart, -⟩ := mem_cleanBlocks.mp hx
    obtain rfl := Option.some.inj (hmax.symm.trans hmax')
    refine ⟨fun _ => ⟨by simpa using hstart, ⟨fun n h₁ h₂ => ?_, fun n h₁ h₂ => ?_⟩⟩,
      fun _ => run_pos chained (by simp)⟩
    · obtain rfl : n = x.height := by simp at h₁; omega
      exact completeAt_of_mem hx
    · simp at h₁
      omega
  | succ k ih =>
    have hx : x ∈ cleanBlocks m := hinitial.subset (by simp)
    rw [lt_run_concat_iff (Nat.succ_pos k), Nat.succ_sub_one]
    push_cast
    constructor
    · rintro ⟨ys, y, rfl, hlink, hrun⟩
      have hy : y ∈ cleanBlocks m := hinitial.subset (by simp)
      have hheight : y.height = x.height - 1 := by
        rw [chained, Bool.and_eq_true, decide_eq_true_eq] at hlink
        exact hlink.1
      obtain ⟨hstart, hcovered⟩ :=
        (ih ((List.prefix_append _ _).trans hinitial)).mp hrun
      have hlinked := (chained_iff hx hy hheight).mp hlink
      rw [hheight] at hstart hcovered
      refine ⟨by omega, ⟨fun n h₁ h₂ => ?_, fun n h₁ h₂ => ?_⟩⟩
      · rcases eq_or_lt_of_le h₂ with rfl | h₂
        · exact completeAt_of_mem hx
        · exact hcovered.complete n (by omega) (by omega)
      · rcases eq_or_lt_of_le h₂ with rfl | h₂
        · exact hlinked
        · exact hcovered.linked n (by omega) (by omega)
    · rintro ⟨hstart, hcovered⟩
      obtain ⟨y, hy, hheight⟩ := mem_cleanBlocks_of_completeAt hmax (n := x.height - 1) (by omega)
        (hcovered.complete _ (by omega) (by omega))
      obtain ⟨ys, rfl⟩ := eq_concat_of_height hinitial hy hheight
      refine ⟨ys, y, rfl, (chained_iff hx hy hheight).mpr
        (hcovered.linked _ (by omega) le_rfl), ?_⟩
      refine (ih ((List.prefix_append _ _).trans hinitial)).mpr ?_
      rw [hheight]
      exact ⟨by omega, hcovered.mono (by omega) (by omega)⟩

/-! ### The default tip -/

/-- A height that the scan may return: it and its whole default window are in the range of the scan, and
the window passes the coverage check. -/
def ScanTip (m : ReadModel Hash) (tip : ℤ) : Prop :=
  ∃ maxHeight, loadMaxCompleteCanonicalHeight m = some maxHeight ∧
    (scanStart maxHeight ≤ tip ∧ tip ≤ maxHeight) ∧ scanStart maxHeight ≤ (windowForTip tip).1 ∧
    ensureBackboneWindowCoverage m (windowForTip tip).1 (windowForTip tip).2 = .ok ()

theorem windowForTip_of_le (h : 15 ≤ tip) : windowForTip tip = (tip - 15, tip) := by
  have hwidth : defaultTreeWindowHeights - 1 = 15 := rfl
  rw [windowForTip, hwidth, max_eq_left (by omega)]

theorem windowForTip_of_lt (h : tip < 15) : windowForTip tip = (0, tip) := by
  have hwidth : defaultTreeWindowHeights - 1 = 15 := rfl
  rw [windowForTip, hwidth, max_eq_right (by omega)]

theorem le_max_of_completeAt {maxHeight n : ℤ} (hmax : loadMaxCompleteCanonicalHeight m = some maxHeight)
    (h : m.CompleteAt n) : n ≤ maxHeight := by
  obtain ⟨b, hb, -, hstatus⟩ := h
  refine (List.max?_eq_some_iff.mp hmax).2 n (List.mem_map.mpr ⟨(n, b), ?_, rfl⟩)
  exact List.mem_filter.mpr ⟨mem_canonicalRows.mpr hb, decide_eq_true hstatus⟩

/-- **The scan considers exactly these heights.** -/
theorem mem_sparse_iff :
    tip ∈ ((windowedBlocks (cleanBlocks m)).filter (·.qualifies)).map (·.tipHeight) ↔ ScanTip m tip := by
  have hscanStart : ∀ h, 0 ≤ scanStart h := fun h => le_max_right _ _
  rw [windowedBlocks_eq, List.mem_map]
  simp only [List.mem_filter, mem_scan, ScanTip, ensureBackboneWindowCoverage_eq_ok]
  constructor
  · rintro ⟨r, ⟨⟨before, x, hinitial, rfl⟩, hqualifies⟩, rfl⟩
    have hx : x ∈ cleanBlocks m := hinitial.subset (by simp)
    obtain ⟨maxHeight, hmax, hstart, -⟩ := mem_cleanBlocks.mp hx
    have hle := le_max_of_completeAt hmax (completeAt_of_mem hx)
    refine ⟨maxHeight, hmax, ⟨hstart, hle⟩, ?_⟩
    change scanStart maxHeight ≤ (windowForTip x.height).1 ∧
      m.Covered (windowForTip x.height).1 (windowForTip x.height).2
    rcases (qualifies_windowedRow before x).mp hqualifies with ⟨hheight, hrun⟩ | ⟨hheight, hrun⟩
    · rw [windowForTip_of_le hheight]
      exact (lt_run_iff hmax hinitial 15).mp hrun
    · have hnonneg : 0 ≤ x.height := (hscanStart _).trans hstart
      rw [windowForTip_of_lt hheight]
      have hzero : x.height - (x.height.toNat : ℤ) = 0 := by omega
      have hcovered := (lt_run_iff hmax hinitial x.height.toNat).mp (by omega)
      rwa [hzero] at hcovered
  · rintro ⟨maxHeight, hmax, ⟨hstart, -⟩, hwindow, hcovered⟩
    have hnonneg : 0 ≤ tip := (hscanStart _).trans hstart
    have hcomplete : m.CompleteAt tip := by
      refine hcovered.complete tip ?_ le_rfl
      rcases lt_or_ge tip 15 with h | h
      · rw [windowForTip_of_lt h]
        exact hnonneg
      · rw [windowForTip_of_le h]
        omega
    obtain ⟨x, hx, rfl⟩ := mem_cleanBlocks_of_completeAt hmax hstart hcomplete
    obtain ⟨before, rest, hclean⟩ := List.append_of_mem hx
    have hinitial : before ++ [x] <+: cleanBlocks m := ⟨rest, by rw [hclean]; simp⟩
    refine ⟨windowedRow before x, ⟨⟨before, x, hinitial, rfl⟩, ?_⟩, rfl⟩
    rw [qualifies_windowedRow]
    rcases lt_or_ge x.height 15 with h | h
    · rw [windowForTip_of_lt h] at hwindow hcovered
      have hzero : x.height - (x.height.toNat : ℤ) = 0 := by omega
      have hlong := (lt_run_iff hmax hinitial x.height.toNat).mpr (by rw [hzero]; exact ⟨hwindow, hcovered⟩)
      -- a longer run would start below height zero
      have hshort : ¬ x.height.toNat + 1 < run chained (before ++ [x]) := by
        intro hlonger
        have hbelow := ((lt_run_iff hmax hinitial (x.height.toNat + 1)).mp hlonger).1
        have := hscanStart maxHeight
        push_cast at hbelow
        omega
      exact .inr ⟨h, by omega⟩
    · rw [windowForTip_of_le h] at hwindow hcovered
      exact .inl ⟨h, (lt_run_iff hmax hinitial 15).mpr ⟨hwindow, hcovered⟩⟩

theorem loadSparse_eq_some :
    loadSparseCompleteTreeTipHeight m = some tip ↔ IsGreatest {t | ScanTip m t} tip := by
  rw [loadSparseCompleteTreeTipHeight, List.max?_eq_some_iff]
  simp only [mem_sparse_iff]
  rfl

theorem loadSparse_eq_none : loadSparseCompleteTreeTipHeight m = none ↔ ∀ tip, ¬ ScanTip m tip := by
  rw [loadSparseCompleteTreeTipHeight, List.max?_eq_none_iff, List.eq_nil_iff_forall_not_mem]
  simp only [mem_sparse_iff]

theorem covered_of_loadContiguous {contiguousCompleteHeight : Option ℤ} {requireNoHigherComplete : Bool}
    (h : loadContiguousCompleteTreeTipHeight m contiguousCompleteHeight requireNoHigherComplete =
      some tip) :
    m.Covered (windowForTip tip).1 (windowForTip tip).2 := by
  rw [loadContiguousCompleteTreeTipHeight] at h
  obtain ⟨tip', -, h⟩ := Option.bind_eq_some_iff.mp h
  obtain ⟨_, hnonneg, h⟩ := Option.bind_eq_some_iff.mp h
  obtain ⟨_, -, h⟩ := Option.bind_eq_some_iff.mp h
  obtain ⟨_, hclean, h⟩ := Option.bind_eq_some_iff.mp h
  obtain rfl : tip' = tip := Option.some.inj h
  have hnonneg : 0 ≤ tip' := by simpa using hnonneg
  have hclean : contiguousClean m (windowForTip tip').1 tip' = true := by
    simpa [windowForTip] using hclean
  refine (contiguousClean_iff ?_).mp hclean
  rw [windowForTip]
  have hwidth : defaultTreeWindowHeights - 1 = 15 := rfl
  omega

/-- **The default tip renders, and the scan finds the best one.** -/
theorem default_tip_renders (m : ReadModel Hash) (contiguousCompleteHeight : Option ℤ) :
    (∀ tip, loadDefaultTreeTipHeight m contiguousCompleteHeight = some tip →
      ensureBackboneWindowCoverage m (windowForTip tip).1 (windowForTip tip).2 = .ok () ∧
      m.Covered (windowForTip tip).1 (windowForTip tip).2) ∧
    (loadContiguousCompleteTreeTipHeight m contiguousCompleteHeight true = none →
      (∀ tip, loadSparseCompleteTreeTipHeight m = some tip ↔ IsGreatest {t | ScanTip m t} tip) ∧
      (loadSparseCompleteTreeTipHeight m = none ↔ ∀ tip, ¬ ScanTip m tip) ∧
      ∀ tip, loadSparseCompleteTreeTipHeight m = some tip →
        loadDefaultTreeTipHeight m contiguousCompleteHeight = some tip) := by
  constructor
  · intro tip htip
    have hcovered : m.Covered (windowForTip tip).1 (windowForTip tip).2 := by
      rw [loadDefaultTreeTipHeight] at htip
      split at htip
      · next hcontiguous =>
          obtain rfl := Option.some.inj htip
          exact covered_of_loadContiguous hcontiguous
      · split at htip
        · next hsparse =>
            obtain rfl := Option.some.inj htip
            obtain ⟨-, -, -, -, hok⟩ := (loadSparse_eq_some.mp hsparse).1
            exact ensureBackboneWindowCoverage_eq_ok.mp hok
        · exact covered_of_loadContiguous htip
    exact ⟨ensureBackboneWindowCoverage_eq_ok.mpr hcovered, hcovered⟩
  · intro hcontiguous
    refine ⟨fun tip => loadSparse_eq_some, loadSparse_eq_none, fun tip hsparse => ?_⟩
    rw [loadDefaultTreeTipHeight, hcontiguous, hsparse]

namespace Sample

/-- A complete canonical block. -/
def canonical (hash prevHash : ℕ) (height : ℤ) : Block ℕ :=
  ⟨hash, prevHash, some height, some .bitcoinCore, .canonical, none, some [], none, .complete, none, none,
    false, true, true, none⟩

/-- Blocks at heights zero and one, and one on a branch of its own above a gap. -/
def gap : ReadModel ℕ :=
  ⟨Table.empty, ⟨[canonical 10 9 0, canonical 11 10 1, canonical 13 12 3], by decide⟩⟩

end Sample

theorem default_tip_renders_below_gap :
    loadDefaultTreeTipHeight Sample.gap (some 3) = some 1 ∧
    ensureBackboneWindowCoverage Sample.gap (windowForTip 1).1 (windowForTip 1).2 = .ok () ∧
    IsGreatest {t | ScanTip Sample.gap t} 1 := by
  have hcontiguous : loadContiguousCompleteTreeTipHeight Sample.gap (some 3) true = none := by
    decide +kernel
  have hsparse : loadSparseCompleteTreeTipHeight Sample.gap = some 1 := by decide +kernel
  obtain ⟨hrenders, hscan⟩ := default_tip_renders Sample.gap (some 3)
  obtain ⟨hgreatest, -, hdefault⟩ := hscan hcontiguous
  exact ⟨hdefault 1 hsparse, (hrenders 1 (hdefault 1 hsparse)).1, (hgreatest 1).mp hsparse⟩

end MergeMiningMonitor.Tree
