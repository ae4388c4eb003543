import Mathlib.Data.List.Induction
import Mathlib.Algebra.BigOperators.Group.List.Basic
import Mathlib.Algebra.GroupWithZero.Nat
import Mathlib.Order.Nat

/-!
# Support — Islands

Window functions over ordered rows, and the runs that SQL finds with them.  A window function sees a row
and the rows before it (`scan`); one that reads the result of another can be fused with it
(`scan_scan`).

To number the runs of linked rows, each row that is not linked to the row before it is marked with a
one, and the marks up to a row are summed up (`island`).  Rows with one sum are one run: the sums of
ordered rows end with the sum of the last row, as often as its run is long, after smaller ones
(`exists_islands_eq`).  So the rows of an island that precede a row are those of its run
(`filter_island`), which is what `row_number` and `lag` in an island come down to (`countP_island`,
`lag_filter_island`).
-/

namespace Islands

open List

variable {α β γ : Type*}

/-! ### Window functions -/

/-- The values of a window function, with the rows before the first one. -/
def scanFrom (f : List α → α → β) : List α → List α → List β
  | _, [] => []
  | before, x :: xs => f before x :: scanFrom f (before ++ [x]) xs

/-- The values of a window function over ordered rows. -/
def scan (f : List α → α → β) (xs : List α) : List β := scanFrom f [] xs

variable {f : List α → α → β} {xs : List α} {x : α}

theorem scanFrom_concat (before : List α) :
    scanFrom f before (xs ++ [x]) = scanFrom f before xs ++ [f (before ++ xs) x] := by
  induction xs generalizing before with
  | nil => simp [scanFrom]
  | cons y ys ih => simp [scanFrom, ih]

@[simp] theorem scan_nil : scan f [] = [] := rfl

@[simp] theorem scan_concat : scan f (xs ++ [x]) = scan f xs ++ [f xs x] := scanFrom_concat []

@[simp] theorem length_scan : (scan f xs).length = xs.length := by
  induction xs using List.reverseRecOn with
  | nil => rfl
  | append_singleton xs x ih => simp [ih]

theorem map_scan (g : β → γ) : (scan f xs).map g = scan (fun before x => g (f before x)) xs := by
  induction xs using List.reverseRecOn with
  | nil => rfl
  | append_singleton xs x ih => simp [ih]

theorem getElem?_scan (i : ℕ) : (scan f xs)[i]? = xs[i]?.map (f (xs.take i)) := by
  induction xs using List.reverseRecOn with
  | nil => simp
  | append_singleton xs x ih =>
    rw [scan_concat]
    rcases Nat.lt_trichotomy i xs.length with h | rfl | h
    · rw [getElem?_append_left (by simpa using h), ih, getElem?_append_left h,
        take_append_of_le_length h.le]
    · simp
    · rw [getElem?_eq_none (by simp; omega), getElem?_eq_none (by simp; omega)]
      rfl

/-- A window function of a window function. -/
theorem scan_scan (g : List β → β → γ) :
    scan g (scan f xs) = scan (fun before x => g (scan f before) (f before x)) xs := by
  induction xs using List.reverseRecOn with
  | nil => rfl
  | append_singleton xs x ih => simp [ih]

/-- The values are those at the rows, after the rows before them. -/
theorem mem_scan {b : β} : b ∈ scan f xs ↔ ∃ before x, before ++ [x] <+: xs ∧ b = f before x := by
  induction xs using List.reverseRecOn with
  | nil => simp
  | append_singleton xs x ih =>
    rw [scan_concat, mem_append, mem_singleton, ih]
    constructor
    · rintro (⟨before, y, hinitial, rfl⟩ | rfl)
      · exact ⟨before, y, hinitial.trans (prefix_append _ _), rfl⟩
      · exact ⟨xs, x, prefix_rfl, rfl⟩
    · rintro ⟨before, y, hinitial, rfl⟩
      rcases prefix_concat_iff.mp hinitial with heq | hinitial
      · obtain ⟨rfl, hy⟩ := append_inj' heq rfl
        exact .inr (by rw [singleton_inj.mp hy])
      · exact .inl ⟨before, y, hinitial, rfl⟩

/-- `lag`: the row some places before. -/
def lag (places : ℕ) (before : List α) : Option α := before.reverse[places - 1]?

/-! ### Runs -/

variable (link : α → α → Bool)

/-- How many rows at the end are linked, newest first. -/
def runReverse : List α → ℕ
  | [] => 0
  | [_] => 1
  | x :: y :: rest => if link y x then runReverse (y :: rest) + 1 else 1

/-- How many rows at the end are linked. -/
def run (xs : List α) : ℕ := runReverse link xs.reverse

variable {link} {y : α}

@[simp] theorem run_singleton : run link [x] = 1 := rfl

theorem run_concat_concat : run link (xs ++ [y] ++ [x]) =
    if link y x then run link (xs ++ [y]) + 1 else 1 := by
  simp [run, runReverse]

variable (link) in
theorem run_pos (hxs : xs ≠ []) : 0 < run link xs := by
  rcases eq_nil_or_concat xs with rfl | ⟨ys, y, rfl⟩
  · exact absurd rfl hxs
  · rcases eq_nil_or_concat ys with rfl | ⟨zs, z, rfl⟩
    · simp
    · simp only [concat_eq_append, run_concat_concat]
      split <;> omega

variable (link) (xs) in
theorem run_le_length : run link xs ≤ xs.length := by
  induction xs using List.reverseRecOn with
  | nil => exact le_rfl
  | append_singleton xs x ih =>
    rcases eq_nil_or_concat xs with rfl | ⟨ys, y, rfl⟩
    · exact le_rfl
    · simp only [concat_eq_append] at ih ⊢
      rw [run_concat_concat, length_append]
      split
      · exact Nat.add_le_add_right ih 1
      · simp

/-- One row more in a run. -/
theorem lt_run_concat_iff {k : ℕ} (hk : 0 < k) : k < run link (xs ++ [x]) ↔
    ∃ ys y, xs = ys ++ [y] ∧ link y x = true ∧ k - 1 < run link xs := by
  rcases eq_nil_or_concat xs with rfl | ⟨ys, y, rfl⟩
  · simp
    omega
  · simp only [concat_eq_append]
    rw [run_concat_concat]
    constructor
    · intro h
      split at h
      · next hlink => exact ⟨ys, y, rfl, hlink, by omega⟩
      · omega
    · rintro ⟨ys', y', heq, hlink, hrun⟩
      obtain ⟨-, hy⟩ := append_inj' heq rfl
      rw [singleton_inj.mp hy, if_pos hlink]
      rw [singleton_inj.mp hy] at hrun
      omega

/-- The run that a row of the last run ends. -/
theorem run_take {k : ℕ} (hk : k < run link xs) :
    run link (xs.take (xs.length - k)) = run link xs - k := by
  induction k generalizing xs with
  | zero => simp
  | succ k ih =>
    rcases eq_nil_or_concat xs with rfl | ⟨ys, x, rfl⟩
    · exact absurd hk (Nat.not_lt_zero _)
    · simp only [concat_eq_append] at hk ⊢
      obtain ⟨zs, y, rfl, hlink, hrun⟩ := (lt_run_concat_iff (Nat.succ_pos k)).mp hk
      have hlength : (zs ++ [y] ++ [x]).length - (k + 1) = (zs ++ [y]).length - k := by simp
      rw [hlength, take_append_of_le_length (Nat.sub_le _ _), ih (by simpa using hrun),
        run_concat_concat, if_pos hlink]
      omega

/-! ### Numbers of runs -/

/-- The mark of a row after another one, or of the first row. -/
def mark (link : α → α → Bool) (first : α → ℕ) (before : List α) (x : α) : ℕ :=
  before.getLast?.elim (first x) fun y => if link y x then 0 else 1

/-- The sum of the marks. -/
def island (link : α → α → Bool) (first : α → ℕ) (xs : List α) : ℕ := (scan (mark link first) xs).sum

variable {first : α → ℕ}

theorem island_concat : island link first (xs ++ [x]) = island link first xs + mark link first xs x := by
  simp [island]

variable (link) (first) in
/-- The numbers of the rows end with the last one, as often as the last run is long. -/
theorem exists_islands_eq (hxs : xs ≠ []) :
    ∃ earlier, scan (fun before x => island link first (before ++ [x])) xs =
        earlier ++ List.replicate (run link xs) (island link first xs) ∧
      ∀ k ∈ earlier, k < island link first xs := by
  induction xs using List.reverseRecOn with
  | nil => exact absurd rfl hxs
  | append_singleton xs x ih =>
    rcases eq_nil_or_concat xs with rfl | ⟨ys, y, hys⟩
    · exact ⟨[], rfl, by simp⟩
    · rw [concat_eq_append] at hys
      obtain ⟨earlier, hislands, hearlier⟩ := ih (by rw [hys]; simp)
      have hlast : xs.getLast? = some y := by rw [hys]; simp
      rw [scan_concat, hislands, island_concat]
      by_cases hlink : link y x = true
      · refine ⟨earlier, ?_, fun k hk => ?_⟩
        · rw [hys, run_concat_concat, if_pos hlink, ← hys, mark, hlast, Option.elim_some, if_pos hlink,
            Nat.add_zero, replicate_succ', append_assoc]
        · exact (hearlier k hk).trans_le (Nat.le_add_right _ _)
      · have hmark : mark link first xs x = 1 := by
          rw [mark, hlast, Option.elim_some, if_neg hlink]
        refine ⟨earlier ++ List.replicate (run link xs) (island link first xs), ?_, fun k hk => ?_⟩
        · rw [hys, run_concat_concat, if_neg hlink, ← hys, replicate_one]
        · rw [hmark, Nat.lt_add_one_iff]
          rcases mem_append.mp hk with hk | hk
          · exact (hearlier k hk).le
          · exact (eq_of_mem_replicate hk).le

/-- **The rows before a row that are in its island are those of its run.** -/
theorem filter_island {rows : List β} {number : β → ℕ}
    (h : rows.map number = scan (fun before x => island link first (before ++ [x])) xs) :
    rows.filter (fun r => number r = island link first (xs ++ [x])) =
      rows.drop (xs.length + 1 - run link (xs ++ [x])) := by
  obtain ⟨earlier, hislands, hearlier⟩ :=
    exists_islands_eq link first (append_ne_nil_of_right_ne_nil xs
      (cons_ne_nil x []))
  obtain ⟨k, hk⟩ := Nat.exists_eq_add_one_of_ne_zero
    (run_pos link (append_ne_nil_of_right_ne_nil xs (cons_ne_nil x []))).ne'
  rw [scan_concat, ← h, hk, replicate_succ', ← append_assoc] at hislands
  have hrows : rows.map number = earlier ++ List.replicate k (island link first (xs ++ [x])) :=
    append_inj_left' hislands rfl
  have hlength : xs.length = earlier.length + k := by
    have hsize := congrArg List.length (h.symm.trans hrows)
    simpa using hsize
  obtain ⟨rows₁, rows₂, rfl, h₁, h₂⟩ := map_eq_append_iff.mp hrows
  have hdrop : xs.length + 1 - run link (xs ++ [x]) = rows₁.length := by
    rw [← length_map number, h₁, hk, hlength]
    omega
  have hnone : rows₁.filter (fun r => number r = island link first (xs ++ [x])) = [] := by
    refine filter_eq_nil_iff.mpr fun r hr => ?_
    have hnumber : number r ∈ earlier := h₁ ▸ mem_map_of_mem hr
    simpa using (hearlier _ hnumber).ne
  have hall : rows₂.filter (fun r => number r = island link first (xs ++ [x])) = rows₂ := by
    refine filter_eq_self.mpr fun r hr => ?_
    have hnumber : number r ∈ List.replicate k (island link first (xs ++ [x])) :=
      h₂ ▸ mem_map_of_mem hr
    simpa using eq_of_mem_replicate hnumber
  rw [hdrop, drop_left, filter_append, hnone, hall, nil_append]

/-- `row_number` in an island is the length of the run. -/
theorem countP_island {rows : List β} {number : β → ℕ}
    (h : rows.map number = scan (fun before x => island link first (before ++ [x])) xs) :
    rows.countP (fun r => number r = island link first (xs ++ [x])) + 1 = run link (xs ++ [x]) := by
  have hlength : rows.length = xs.length := by simpa using congrArg List.length h
  have hle := run_le_length (xs ++ [x]) link
  have hpos := run_pos link (append_ne_nil_of_right_ne_nil xs (cons_ne_nil x []))
  rw [length_append, length_singleton] at hle
  rw [countP_eq_length_filter, filter_island h, length_drop, hlength]
  omega

/-- `lag` in an island reaches back as far as the run does. -/
theorem lag_filter_island {rows : List β} {number : β → ℕ} {k : ℕ} (hk : 0 < k)
    (h : rows.map number = scan (fun before x => island link first (before ++ [x])) xs) :
    lag k (rows.filter fun r => number r = island link first (xs ++ [x])) =
      if k < run link (xs ++ [x]) then rows[xs.length - k]? else none := by
  have hlength : rows.length = xs.length := by simpa using congrArg List.length h
  have hle := run_le_length (xs ++ [x]) link
  rw [length_append, length_singleton] at hle
  rw [lag, filter_island h, reverse_drop, getElem?_take]
  split
  · next hrun =>
      have hlt : k < run link (xs ++ [x]) := by omega
      rw [if_pos hlt, getElem?_reverse (by omega), hlength]
      congr 1
      omega
  · next hrun => rw [if_neg (by omega)]

end Islands
