import Mathlib.Data.Prod.Lex
import Mathlib.Algebra.BigOperators.Group.List.Lemmas
import MergeMiningMonitor.Support.Keyset
import MergeMiningMonitor.Navigator.Pages

/-!
# Navigator — Windows

Every page is a window of the target's listing, the eligible rows with the newest one first.

The two `ORDER BY` clauses of a keyset and its edge predicates are the two directions of one linear
order (`ScanOrder.Lawful`), and so are the sort of the branches and the comparison with a cursor.
Hence the rows older than a row are those after it in the listing, the rows newer than it are those
before it, and what is counted is a place (`Window`).
-/

namespace MergeMiningMonitor.Navigator

open Relational Ordered Lists Fallible List
open AuxPow (Hash32)

/-! ### Windows of a listing -/

/-- The rows of a page are the next ones from a place of the listing, and what is counted is that
place. -/
structure Window {Row : Type} (listing rows : List Row) (newerCount i limit : ℕ) : Prop where
  rows_eq : rows = (listing.drop i).take limit
  newerCount_eq : newerCount = if rows = [] then 0 else i

/-! ### One linear order -/

/-- Both orders and both edges are those of one linear order, newest first. -/
structure ScanOrder.Lawful {Row Pos κ : Type} [LinearOrder κ] (order : ScanOrder Row Pos) (key : Pos → κ) :
    Prop where
  newestFirst : ∀ a b, order.newestFirst a b = true ↔ key (order.position a) ≤ key (order.position b)
  oldestFirst : ∀ a b, order.oldestFirst a b = true ↔ key (order.position b) ≤ key (order.position a)
  older : ∀ pos row, order.edge true pos row = true ↔ key pos < key (order.position row)
  newer : ∀ pos row, order.edge false pos row = true ↔ key (order.position row) < key pos

open OrderDual Prod.Lex in
/-- The order of the height targets, newest first. -/
def heightKey (pos : ℤ × ℤ × Hash32) : ℤᵒᵈ ×ₗ (ℤᵒᵈ ×ₗ Hash32) :=
  toLex (toDual pos.1, toLex (toDual pos.2.1, pos.2.2))

/-- The order of the orphans, newest first. -/
def timeKey (pos : ℤ × Hash32) : ℤᵒᵈ ×ₗ Hash32ᵒᵈ :=
  toLex (OrderDual.toDual pos.1, OrderDual.toDual pos.2)

theorem heightKey_lt {p q : ℤ × ℤ × Hash32} : heightKey p < heightKey q ↔
    q.1 < p.1 ∨ p.1 = q.1 ∧ (q.2.1 < p.2.1 ∨ p.2.1 = q.2.1 ∧ p.2.2 < q.2.2) := by
  simp only [heightKey, Prod.Lex.toLex_lt_toLex, OrderDual.toDual_lt_toDual, OrderDual.toDual_inj]

theorem heightKey_le {p q : ℤ × ℤ × Hash32} : heightKey p ≤ heightKey q ↔
    q.1 < p.1 ∨ p.1 = q.1 ∧ (q.2.1 < p.2.1 ∨ p.2.1 = q.2.1 ∧ p.2.2 ≤ q.2.2) := by
  simp only [heightKey, Prod.Lex.toLex_le_toLex, OrderDual.toDual_lt_toDual, OrderDual.toDual_inj]

theorem timeKey_lt {p q : ℤ × Hash32} : timeKey p < timeKey q ↔
    q.1 < p.1 ∨ p.1 = q.1 ∧ q.2 < p.2 := by
  simp only [timeKey, Prod.Lex.toLex_lt_toLex, OrderDual.toDual_lt_toDual, OrderDual.toDual_inj]

theorem timeKey_le {p q : ℤ × Hash32} : timeKey p ≤ timeKey q ↔
    q.1 < p.1 ∨ p.1 = q.1 ∧ q.2 ≤ p.2 := by
  simp only [timeKey, Prod.Lex.toLex_le_toLex, OrderDual.toDual_lt_toDual, OrderDual.toDual_le_toDual,
    OrderDual.toDual_inj]

theorem heightKey_injective : Function.Injective heightKey := by
  intro p q h
  simp only [heightKey, EmbeddingLike.apply_eq_iff_eq, Prod.mk.injEq] at h
  exact Prod.ext h.1 (Prod.ext h.2.1 h.2.2)

theorem timeKey_injective : Function.Injective timeKey := by
  intro p q h
  simp only [timeKey, EmbeddingLike.apply_eq_iff_eq, Prod.mk.injEq] at h
  exact Prod.ext h.1 h.2

theorem heightOrder_lawful : heightOrder.Lawful heightKey where
  newestFirst a b := by
    rw [heightKey_le]
    simp [heightOrder]
  oldestFirst a b := by
    rw [heightKey_le]
    simp [heightOrder, eq_comm (a := b.height), eq_comm (a := b.tiebreak)]
  older pos row := by
    rw [heightKey_lt]
    simp [heightOrder, eq_comm (a := pos.1), eq_comm (a := pos.2.1)]
  newer pos row := by
    rw [heightKey_lt]
    simp [heightOrder]

theorem timeOrder_lawful : timeOrder.Lawful timeKey where
  newestFirst a b := by
    rw [timeKey_le]
    simp [timeOrder]
  oldestFirst a b := by
    rw [timeKey_le]
    simp [timeOrder, eq_comm (a := b.headerTime)]
  older pos row := by
    rw [timeKey_lt]
    simp [timeOrder, eq_comm (a := pos.1)]
  newer pos row := by
    rw [timeKey_lt]
    simp [timeOrder]

theorem nodup_heightKey {rows : List HeightRow} (h : (rows.map (·.hash)).Nodup) :
    (rows.map fun row => heightKey (heightOrder.position row)).Nodup :=
  pairwise_map.mpr ((pairwise_map.mp h).imp fun hne heq =>
    hne (congrArg (fun pos : ℤ × ℤ × Hash32 => pos.2.2) (heightKey_injective heq)))

theorem nodup_timeKey {rows : List TimeRow} (h : (rows.map (·.hash)).Nodup) :
    (rows.map fun row => timeKey (timeOrder.position row)).Nodup :=
  pairwise_map.mpr ((pairwise_map.mp h).imp fun hne heq =>
    hne (congrArg (fun pos : ℤ × Hash32 => pos.2) (timeKey_injective heq)))

/-! ### Keyset pages -/

section Keyset

variable {Row Pos κ : Type} [LinearOrder κ] {order : ScanOrder Row Pos} {key : Pos → κ}
  {eligible : List Row} {total limit : ℕ} {i : ℕ} {row : Row}

/-- The eligible rows, newest first. -/
def listing (order : ScanOrder Row Pos) (eligible : List Row) : List Row :=
  sortBy order.newestFirst eligible

variable (horder : order.Lawful key)
  (hkeys : (eligible.map fun row => key (order.position row)).Nodup)

include horder in
theorem listing_eq : listing order eligible =
    Keyset.orderBy (fun row => key (order.position row)) eligible :=
  Keyset.sortBy_eq_orderBy horder.newestFirst eligible

include horder in
theorem perm_listing : (listing order eligible).Perm eligible := by
  rw [listing_eq horder]
  exact Keyset.perm_orderBy _

include horder hkeys in
theorem pairwise_listing : (listing order eligible).Pairwise fun a b =>
    key (order.position a) < key (order.position b) := by
  rw [listing_eq horder]
  exact Keyset.pairwise_orderBy hkeys

include horder hkeys in
theorem limitedScan_newestFirst (p : Row → Bool) :
    (sortBy order.newestFirst (eligible.filter p)).take limit =
      ((listing order eligible).filter p).take limit := by
  rw [listing_eq horder, ← Keyset.orderBy_filter hkeys, Keyset.sortBy_eq_orderBy horder.newestFirst]

/-- The rows on the older side of a position. -/
def olderRows (key : Pos → κ) (order : ScanOrder Row Pos) (eligible : List Row) (pos : Pos) : ℕ :=
  (listing order eligible).countP fun row => key (order.position row) ≤ key pos

/-- The rows on the newer side of a position. -/
def newerRows (key : Pos → κ) (order : ScanOrder Row Pos) (eligible : List Row) (pos : Pos) : ℕ :=
  (listing order eligible).countP fun row => key (order.position row) < key pos

include horder hkeys in
/-- The older page of a position starts after the rows that are not older. -/
theorem rows_older (pos : Pos) : (keysetPage order eligible total limit (.page .older pos)).rows =
    ((listing order eligible).drop (olderRows key order eligible pos)).take limit := by
  have hrows : (keysetPage order eligible total limit (.page .older pos)).rows =
      (sortBy order.newestFirst (eligible.filter (order.edge true pos))).take limit := rfl
  rw [hrows, limitedScan_newestFirst horder hkeys, olderRows,
    ← Keyset.filter_gt_eq_drop (pairwise_listing horder hkeys) (key pos)]
  congr 2
  funext row
  rw [Bool.eq_iff_iff, horder.older, decide_eq_true_iff]

include horder hkeys in
/-- The newer page of a position ends before the rows that are not newer. -/
theorem rows_newer (pos : Pos) : (keysetPage order eligible total limit (.page .newer pos)).rows =
    ((listing order eligible).take (newerRows key order eligible pos)).drop
      (newerRows key order eligible pos - limit) := by
  have hrows : (keysetPage order eligible total limit (.page .newer pos)).rows =
      ((sortBy order.oldestFirst (eligible.filter (order.edge false pos))).take limit).reverse := rfl
  have hfilter : ((eligible.filter (order.edge false pos)).map
      fun row => key (order.position row)).Nodup := (filter_sublist.map _).nodup hkeys
  have hedge : order.edge false pos = fun row => decide (key (order.position row) < key pos) := by
    funext row
    rw [Bool.eq_iff_iff, horder.newer, decide_eq_true_iff]
  rw [hrows, Keyset.sortBy_eq_reverse horder.oldestFirst hfilter,
    Keyset.orderBy_filter hkeys, ← listing_eq horder, hedge,
    Keyset.filter_lt_eq_take (pairwise_listing horder hkeys), take_reverse, reverse_reverse,
    length_take, min_eq_left (countP_le_length)]
  rfl

include horder hkeys in
theorem rows_anchor (hlimit : 0 < limit) (hhash : (eligible.map order.hash).Nodup)
    (hi : (listing order eligible)[i]? = some row) :
    (keysetPage order eligible total limit (.anchor (order.hash row))).rows = [row] := by
  have hrows : (keysetPage order eligible total limit (.anchor (order.hash row))).rows =
      (sortBy order.newestFirst (eligible.filter fun q => order.hash q = order.hash row)).take limit := rfl
  have hnodup : ((listing order eligible).map order.hash).Nodup :=
    ((perm_listing horder).map _).nodup_iff.mpr hhash
  have hmem : row ∈ listing order eligible := mem_of_getElem? hi
  have honly : (listing order eligible).filter (fun q => order.hash q = order.hash row) = [row] :=
    Keyset.filter_eq_singleton (Nodup.of_map _ hnodup) hmem (by simp) fun q hq hsame =>
      inj_on_of_nodup_map hnodup hq hmem (by simpa using hsame)
  rw [hrows, limitedScan_newestFirst horder hkeys, honly]
  exact take_of_length_le (by simpa using Nat.succ_le_of_lt hlimit)

theorem rows_latest (horder : order.Lawful key)
    (hkeys : (eligible.map fun row => key (order.position row)).Nodup) :
    (keysetPage order eligible total limit .latest).rows = (listing order eligible).take limit := by
  have hrows : (keysetPage order eligible total limit .latest).rows =
      (sortBy order.newestFirst (eligible.filter fun _ => true)).take limit := rfl
  rw [hrows, limitedScan_newestFirst horder hkeys, filter_true]

include horder hkeys in
theorem newerCount_eq {scan : Scan Pos} (hscan : scan ≠ .latest) {len : ℕ}
    (hrows : (keysetPage order eligible total limit scan).rows =
      ((listing order eligible).drop i).take len) :
    (keysetPage order eligible total limit scan).newerCount =
      if (keysetPage order eligible total limit scan).rows = [] then 0 else i := by
  have hpairwise := pairwise_listing horder hkeys
  have hperm : (limitedScan order eligible limit scan).Perm
      (keysetPage order eligible total limit scan).rows := by
    cases scan with
    | latest => exact Perm.refl _
    | anchor hash => exact Perm.refl _
    | page direction pos =>
      cases direction with
      | older => exact Perm.refl _
      | newer => exact (reverse_perm _).symm
  have hsorted : (keysetPage order eligible total limit scan).rows.Pairwise fun a b =>
      key (order.position a) < key (order.position b) := by
    rw [hrows]
    exact (hpairwise.sublist (drop_sublist _ _)).sublist (take_sublist _ _)
  have hboundary : sortBy order.newestFirst (limitedScan order eligible limit scan) =
      (keysetPage order eligible total limit scan).rows := by
    rw [Keyset.sortBy_eq_orderBy horder.newestFirst]
    have hnodup : ((limitedScan order eligible limit scan).map
        fun row => key (order.position row)).Nodup :=
      (hperm.map _).nodup_iff.mpr (pairwise_map.mpr (hsorted.imp fun h => h.ne))
    exact Perm.eq_of_pairwise (fun a b _ _ hab hba => absurd hab hba.asymm)
      (Keyset.pairwise_orderBy hnodup) hsorted ((Keyset.perm_orderBy _).trans hperm)
  have hcount : (keysetPage order eligible total limit scan).newerCount =
      (sortBy order.newestFirst (limitedScan order eligible limit scan)).head?.elim 0
        fun b => eligible.countP (order.edge false (order.position b)) := by
    cases scan with
    | latest => exact absurd rfl hscan
    | anchor hash => rfl
    | page direction pos => rfl
  rw [hcount, hboundary]
  cases hlist : (keysetPage order eligible total limit scan).rows with
  | nil => rfl
  | cons b rows =>
    have hb : (listing order eligible)[i]? = some b := getElem?_of_window (hlist.symm.trans hrows)
    have hedge : order.edge false (order.position b) =
        fun row => decide (key (order.position row) < key (order.position b)) := by
      funext row
      rw [Bool.eq_iff_iff, horder.newer, decide_eq_true_iff]
    rw [if_neg (cons_ne_nil _ _), head?_cons, Option.elim_some, hedge,
      ← (perm_listing horder).countP_eq]
    exact (Keyset.countP_getElem hpairwise hb).1

theorem rows_absent {hash : Hash32} (horder : order.Lawful key)
    (h : ∀ row ∈ listing order eligible, order.hash row ≠ hash) :
    (keysetPage order eligible total limit (.anchor hash)).rows = [] := by
  have hnone : (eligible.filter fun q => order.hash q = hash) = [] :=
    filter_eq_nil_iff.mpr fun q hq => by
      simpa using h q ((perm_listing horder).mem_iff.mpr hq)
  have hrows : (keysetPage order eligible total limit (.anchor hash)).rows =
      (sortBy order.newestFirst (eligible.filter fun q => order.hash q = hash)).take limit := rfl
  rw [hrows, hnone]
  exact take_nil

include horder hkeys in
theorem window_of_rows {scan : Scan Pos} (hscan : scan ≠ .latest) {len : ℕ}
    (hrows : (keysetPage order eligible total limit scan).rows =
      ((listing order eligible).drop i).take len) :
    Window (listing order eligible) (keysetPage order eligible total limit scan).rows
      (keysetPage order eligible total limit scan).newerCount i len :=
  ⟨hrows, newerCount_eq horder hkeys hscan hrows⟩

include horder hkeys in
theorem window_latest : Window (listing order eligible)
    (keysetPage order eligible total limit .latest).rows
    (keysetPage order eligible total limit .latest).newerCount 0 limit := by
  refine ⟨rows_latest horder hkeys, ?_⟩
  split <;> rfl

include horder hkeys in
theorem window_older (pos : Pos) : Window (listing order eligible)
    (keysetPage order eligible total limit (.page .older pos)).rows
    (keysetPage order eligible total limit (.page .older pos)).newerCount
    (olderRows key order eligible pos) limit :=
  window_of_rows horder hkeys (by simp) (rows_older horder hkeys pos)

include horder hkeys in
theorem window_newer (pos : Pos) : Window (listing order eligible)
    (keysetPage order eligible total limit (.page .newer pos)).rows
    (keysetPage order eligible total limit (.page .newer pos)).newerCount
    (newerRows key order eligible pos - limit) (min limit (newerRows key order eligible pos)) :=
  window_of_rows horder hkeys (by simp) ((rows_newer horder hkeys pos).trans (drop_take_eq _ _ _))

include horder hkeys in
theorem window_anchor (hlimit : 0 < limit) (hhash : (eligible.map order.hash).Nodup)
    (hi : (listing order eligible)[i]? = some row) : Window (listing order eligible)
    (keysetPage order eligible total limit (.anchor (order.hash row))).rows
    (keysetPage order eligible total limit (.anchor (order.hash row))).newerCount i 1 := by
  refine window_of_rows horder hkeys (by simp) ?_
  rw [rows_anchor horder hkeys hlimit hhash hi, take_one_drop hi]

include horder hkeys in
/-- **A keyset page is a window of the listing.** -/
theorem exists_window_keysetPage (scan : Scan Pos) (hlimit : 0 < limit)
    (hhash : (eligible.map order.hash).Nodup) :
    ∃ i len, Window (listing order eligible) (keysetPage order eligible total limit scan).rows
      (keysetPage order eligible total limit scan).newerCount i len := by
  cases scan with
  | latest => exact ⟨_, _, window_latest horder hkeys⟩
  | page direction pos =>
    cases direction with
    | older => exact ⟨_, _, window_older horder hkeys pos⟩
    | newer => exact ⟨_, _, window_newer horder hkeys pos⟩
  | anchor hash =>
    by_cases hanchor : ∀ row ∈ listing order eligible, order.hash row ≠ hash
    · refine ⟨0, 0, window_of_rows horder hkeys (by simp) ?_⟩
      rw [rows_absent horder hanchor, take_zero]
    · push Not at hanchor
      obtain ⟨row, hrow, rfl⟩ := hanchor
      obtain ⟨i, hi⟩ := mem_iff_getElem?.mp hrow
      exact ⟨i, 1, window_anchor horder hkeys hlimit hhash hi⟩

include horder hkeys in
theorem olderRows_position (hi : (listing order eligible)[i]? = some row) :
    olderRows key order eligible (order.position row) = i + 1 :=
  (Keyset.countP_getElem (pairwise_listing horder hkeys) hi).2

include horder hkeys in
theorem newerRows_position (hi : (listing order eligible)[i]? = some row) :
    newerRows key order eligible (order.position row) = i :=
  (Keyset.countP_getElem (pairwise_listing horder hkeys) hi).1

end Keyset

/-- The groups that are asked for have as many orphans as are eligible. -/
theorem classTotal_eq (filter : ClassFilter) (orphans : List TimeRow) :
    classTotal filter orphans =
      (orphans.filter fun row => filter.accepts row.btcOrphanClass).length := by
  have hsum := sum_map_count_dedup_filter_eq_countP filter.accepts
    (orphans.map (·.btcOrphanClass))
  rw [countP_map, countP_eq_length_filter] at hsum
  refine Eq.trans (congrArg List.sum ?_) hsum
  rw [classCounts, filter_map, map_map]
  refine map_congr_left fun c _ => ?_
  unfold List.count
  rw [countP_map]
  exact countP_congr fun row _ => by simp

/-! ### Branch pages -/

section Branches

variable {summaries : List BranchComponent} {limit i : ℕ} {summary : BranchComponent}

/-- The order of the branches, newest first. -/
def branchKey (c : BranchComponent) : ℤᵒᵈ ×ₗ (ℤᵒᵈ ×ₗ Hash32) := heightKey (c.keyMax, c.keyMin, c.rootHash)

theorem sortBranchDesc_iff (a b : BranchComponent) :
    sortBranchDesc a b = true ↔ branchKey a ≤ branchKey b := by
  rw [branchKey, branchKey, heightKey_le]
  simp [sortBranchDesc, eq_comm (a := b.keyMax), eq_comm (a := b.keyMin)]

variable {cursor : NavigatorCursor} {rootHash : Hash32}

theorem branchMatchesCursor_older
    (h : storedHashFromDisplay cursor.hash = some rootHash) (c : BranchComponent) :
    branchMatchesCursor c cursor .older = true ↔
      heightKey (cursor.max, cursor.min, rootHash) < branchKey c := by
  rw [branchKey, heightKey_lt, branchMatchesCursor, h]
  simp [or_assoc, and_assoc, eq_comm (a := cursor.max), eq_comm (a := cursor.min), and_or_left]

theorem branchMatchesCursor_newer
    (h : storedHashFromDisplay cursor.hash = some rootHash) (c : BranchComponent) :
    branchMatchesCursor c cursor .newer = true ↔
      branchKey c < heightKey (cursor.max, cursor.min, rootHash) := by
  rw [branchKey, heightKey_lt, branchMatchesCursor, h]
  simp [or_assoc, and_assoc, and_or_left]

/-- The branches, newest first. -/
def branchListing (rows : BranchRows) : List BranchComponent :=
  sortBy sortBranchDesc (branchComponents rows)

theorem perm_branchListing (rows : BranchRows) : (branchListing rows).Perm (branchComponents rows) := by
  rw [branchListing, Keyset.sortBy_eq_orderBy sortBranchDesc_iff]
  exact Keyset.perm_orderBy _

theorem pairwise_branchListing (rows : BranchRows) :
    (branchListing rows).Pairwise fun a b => branchKey a < branchKey b := by
  rw [branchListing, Keyset.sortBy_eq_orderBy sortBranchDesc_iff]
  refine Keyset.pairwise_orderBy (pairwise_map.mpr ?_)
  exact (pairwise_map.mp (branchComponents_nodup rows)).imp fun hne heq =>
    hne (congrArg (fun pos : ℤ × ℤ × Hash32 => pos.2.2) (heightKey_injective heq))

variable {L : List BranchComponent} (hL : L.Pairwise fun a b => branchKey a < branchKey b)

theorem countP_zipIdx (p : BranchComponent → Bool) :
    (L.zipIdx.countP fun entry => p entry.1) = L.countP p := by
  conv_rhs => rw [← zipIdx_map_fst 0 L, countP_map]
  rfl

include hL in
theorem pairwise_zipIdx : L.zipIdx.Pairwise fun a b => branchKey a.1 < branchKey b.1 := by
  rw [← zipIdx_map_fst 0 L, pairwise_map] at hL
  exact hL

/-- The page of some entries. -/
def branchPageOf (L : List BranchComponent) (indexed : List (BranchComponent × ℕ)) : BranchPage :=
  let startOffset := (indexed.head?.map (·.2)).getD 0
  ⟨indexed.map (·.1), startOffset, startOffset + indexed.length < L.length, startOffset > 0⟩

/-- The page of the next entries from a place. -/
def branchWindow (L : List BranchComponent) (i len : ℕ) : BranchPage :=
  branchPageOf L ((L.zipIdx.drop i).take len)

theorem window_branchWindow (L : List BranchComponent) (i len : ℕ) :
    Window L (branchWindow L i len).rows (branchWindow L i len).startOffset i len := by
  rw [branchWindow]
  generalize h : (L.zipIdx.drop i).take len = indexed
  constructor
  · rw [branchPageOf, ← h, map_take, map_drop, zipIdx_map_fst]
  · cases indexed with
    | nil => rfl
    | cons entry rest =>
      have hentry := getElem?_of_window h.symm
      rw [getElem?_zipIdx, Option.map_eq_some_iff] at hentry
      obtain ⟨c, -, rfl⟩ := hentry
      simp [branchPageOf]

theorem branchWindow_existsOlder (L : List BranchComponent) (i len : ℕ) :
    (branchWindow L i len).existsOlder =
      decide (L.length > (branchWindow L i len).startOffset + (branchWindow L i len).rows.length) := by
  simp [branchWindow, branchPageOf]

theorem pageBranchSummaries_latest : pageBranchSummaries L limit .latest = .ok (branchWindow L 0 limit) :=
  rfl

/-- The branches that are not older than a position. -/
def branchesUpTo (L : List BranchComponent) (pos : ℤ × ℤ × Hash32) : ℕ :=
  L.countP fun c => branchKey c ≤ heightKey pos

/-- The branches that are newer than a position. -/
def branchesBefore (L : List BranchComponent) (pos : ℤ × ℤ × Hash32) : ℕ :=
  L.countP fun c => branchKey c < heightKey pos

include hL in
/-- The older page of a position starts after the branches that are not older. -/
theorem pageBranchSummaries_older (h : storedHashFromDisplay cursor.hash = some rootHash) :
    pageBranchSummaries L limit (.page .older cursor) =
      .ok (branchWindow L (branchesUpTo L (cursor.max, cursor.min, rootHash)) limit) := by
  have hfilter : (fun entry : BranchComponent × ℕ => branchMatchesCursor entry.1 cursor .older) =
      fun entry => decide (heightKey (cursor.max, cursor.min, rootHash) < branchKey entry.1) := by
    funext entry
    rw [Bool.eq_iff_iff, branchMatchesCursor_older h, decide_eq_true_iff]
  have hpage : pageBranchSummaries L limit (.page .older cursor) = .ok (branchPageOf L
      ((L.zipIdx.filter fun entry => branchMatchesCursor entry.1 cursor .older).take limit)) := rfl
  rw [hpage, hfilter, Keyset.filter_gt_eq_drop (pairwise_zipIdx hL), branchWindow, branchesUpTo,
    ← countP_zipIdx (L := L)]

include hL in
/-- The newer page of a position ends before the branches that are not newer. -/
theorem pageBranchSummaries_newer (h : storedHashFromDisplay cursor.hash = some rootHash) :
    pageBranchSummaries L limit (.page .newer cursor) =
      .ok (branchWindow L (branchesBefore L (cursor.max, cursor.min, rootHash) - limit)
        (min limit (branchesBefore L (cursor.max, cursor.min, rootHash)))) := by
  have hfilter : (fun entry : BranchComponent × ℕ => branchMatchesCursor entry.1 cursor .newer) =
      fun entry => decide (branchKey entry.1 < heightKey (cursor.max, cursor.min, rootHash)) := by
    funext entry
    rw [Bool.eq_iff_iff, branchMatchesCursor_newer h, decide_eq_true_iff]
  have hpage : pageBranchSummaries L limit (.page .newer cursor) = .ok (branchPageOf L
      ((L.zipIdx.filter fun entry => branchMatchesCursor entry.1 cursor .newer).reverse.take
        limit).reverse) := rfl
  have hle : (L.zipIdx.countP fun entry =>
      branchKey entry.1 < heightKey (cursor.max, cursor.min, rootHash)) ≤ L.zipIdx.length :=
    countP_le_length
  rw [hpage, hfilter, Keyset.filter_lt_eq_take (pairwise_zipIdx hL), take_reverse,
    reverse_reverse, length_take, min_eq_left hle, drop_take_eq, branchWindow, branchesBefore,
    ← countP_zipIdx (L := L)]

theorem pageBranchSummaries_anchor {raw : String} {hash : Hash32}
    (h : storedHashFromDisplay raw = some hash) :
    pageBranchSummaries L limit (.anchor raw) = .ok (branchPageOf L
      ((L.zipIdx.filter fun entry => entry.1.memberHashes.contains hash).take limit)) := by
  rw [pageBranchSummaries, parseHash, h]
  rfl

variable (hdisjoint : L.Pairwise fun c d => ∀ h ∈ c.memberHashes, h ∉ d.memberHashes)

include hL hdisjoint in
theorem pageBranchSummaries_member (hlimit : 0 < limit) {raw : String} {hash : Hash32}
    (hraw : storedHashFromDisplay raw = some hash) (hi : L[i]? = some summary)
    (hmem : hash ∈ summary.memberHashes) :
    pageBranchSummaries L limit (.anchor raw) = .ok (branchWindow L i 1) := by
  obtain ⟨hlt, hsummary⟩ := List.getElem?_eq_some_iff.mp hi
  have hentry : L.zipIdx[i]? = some (summary, i) := by
    rw [List.getElem?_zipIdx, hi]
    simp
  have honly : (L.zipIdx.filter fun entry => entry.1.memberHashes.contains hash) = [(summary, i)] := by
    have hnodup : L.zipIdx.Nodup :=
      (pairwise_zipIdx hL).imp fun h heq => absurd h (by rw [heq]; exact lt_irrefl _)
    refine Keyset.filter_eq_singleton hnodup (mem_of_getElem? hentry) (by simpa using hmem) ?_
    rintro ⟨c, j⟩ hj hcontains
    have hj : L[j]? = some c := mk_mem_zipIdx_iff_getElem?.mp hj
    obtain ⟨hjlt, rfl⟩ := List.getElem?_eq_some_iff.mp hj
    have hhash : hash ∈ L[j].memberHashes := by simpa using hcontains
    rw [List.pairwise_iff_getElem] at hdisjoint
    rcases lt_trichotomy i j with h | rfl | h
    · exact absurd hhash (hdisjoint i j hlt hjlt h hash (hsummary ▸ hmem))
    · rw [hsummary]
    · exact absurd (hsummary ▸ hmem) (hdisjoint j i hjlt hlt h hash hhash)
  rw [pageBranchSummaries_anchor hraw, honly, branchWindow, take_one_drop hentry,
    take_of_length_le (by simpa using Nat.succ_le_of_lt hlimit)]

include hL hdisjoint in
/-- **A page of branches is a window of the listing.** -/
theorem exists_branchWindow {mode : NavigatorMode} {page : BranchPage} (hlimit : 0 < limit)
    (h : pageBranchSummaries L limit mode = .ok page) : ∃ i len, page = branchWindow L i len := by
  cases mode with
  | latest => exact ⟨0, limit, (Except.ok.inj h).symm⟩
  | page direction cursor =>
    cases hhash : storedHashFromDisplay cursor.hash with
    | none =>
      have hnone : (L.zipIdx.filter fun entry => branchMatchesCursor entry.1 cursor direction) = [] :=
        filter_eq_nil_iff.mpr fun entry _ => by simp [branchMatchesCursor, hhash]
      have hempty : pageBranchSummaries L limit (.page direction cursor) =
          .ok (branchWindow L 0 0) := by
        cases direction <;>
          simp only [pageBranchSummaries, hnone, reverse_nil, pure_bind, take_nil] <;> rfl
      exact ⟨0, 0, Except.ok.inj (h.symm.trans hempty)⟩
    | some rootHash =>
      cases direction with
      | older => exact ⟨_, _, Except.ok.inj (h.symm.trans (pageBranchSummaries_older hL hhash))⟩
      | newer => exact ⟨_, _, Except.ok.inj (h.symm.trans (pageBranchSummaries_newer hL hhash))⟩
  | anchor raw =>
    cases hhash : storedHashFromDisplay raw with
    | none =>
      rw [pageBranchSummaries, parseHash, hhash] at h
      cases h
    | some hash =>
      by_cases hmem : ∀ c ∈ L, hash ∉ c.memberHashes
      · have hnone : (L.zipIdx.filter fun entry => entry.1.memberHashes.contains hash) = [] := by
          refine filter_eq_nil_iff.mpr ?_
          rintro ⟨c, j⟩ hj
          simpa using hmem c (mem_of_getElem? (mk_mem_zipIdx_iff_getElem?.mp hj))
        rw [pageBranchSummaries_anchor hhash, hnone] at h
        refine ⟨0, 0, (Except.ok.inj h).symm.trans ?_⟩
        rw [branchWindow, take_nil, take_zero]
      · push Not at hmem
        obtain ⟨c, hc, hmem⟩ := hmem
        obtain ⟨i, hi⟩ := mem_iff_getElem?.mp hc
        exact ⟨i, 1, Except.ok.inj
          (h.symm.trans (pageBranchSummaries_member hL hdisjoint hlimit hhash hi hmem))⟩

end Branches

end MergeMiningMonitor.Navigator
