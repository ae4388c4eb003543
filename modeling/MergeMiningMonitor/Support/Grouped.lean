import Mathlib.Algebra.BigOperators.Group.Finset.Piecewise
import Mathlib.Data.List.MinMax
import Mathlib.Data.Finset.Lattice.Fold

/-!
# Support — Grouped

Aggregates over the rows of a table, taken group by group.  Over any finite set of keys that covers
the rows, a count of rows is the sum of the groups' counts (`length_eq_sum`), a count of distinct
keys is the number of groups with a row (`length_dedup_eq_sum`), and a maximum is the greatest of the
groups' maxima (`maximumOf_eq_sup`).  So an aggregate of a table of which some groups are replaced
follows from those groups alone (`sum_eq_add_sum_map`, `sup_eq_max_sup`).

`max` over no rows is `NULL`, and `GREATEST` skips it: a nullable number is a `WithBot`.
-/

namespace Relational

open List

/-- `max` over the rows' values. -/
def maximumOf {α : Type*} [LinearOrder α] (values : List α) : WithBot α := values.maximum

def greatest {α : Type*} [LinearOrder α] (x y : WithBot α) : WithBot α := max x y

section Groups

variable {R K : Type*} [DecidableEq K] (key : R → K)

/-- The rows of the group `k`. -/
def group (rows : List R) (k : K) : List R := rows.filter (key · = k)

variable {key} {rows : List R} {P : Finset K}

theorem mem_group {k : K} {r : R} : r ∈ group key rows k ↔ r ∈ rows ∧ key r = k := by
  simp [group]

theorem group_eq_nil_iff {k : K} : group key rows k = [] ↔ k ∉ rows.map key := by
  simp [group]

/-- The rows of two groups at once. -/
theorem group_group {K' : Type*} [DecidableEq K'] {key' : R → K'} (k : K) (k' : K') :
    group key (group key' rows k') k = group key' (group key rows k) k' := by
  simp only [group, filter_filter, Bool.and_comm]

/-- A condition on the key takes or leaves a whole group. -/
theorem group_filter_key (q : K → Bool) (k : K) :
    group key (rows.filter fun r => q (key r)) k = if q k then group key rows k else [] := by
  rw [group, filter_filter]
  have hkey : ∀ r ∈ rows, (decide (key r = k) && q (key r)) = (q k && decide (key r = k)) := by
    intro r _
    by_cases hr : key r = k
    · rw [hr, Bool.and_comm]
    · simp [hr]
  rw [filter_congr hkey]
  cases q k with
  | true => simp [group]
  | false => simp

theorem length_group (k : K) : (group key rows k).length = (rows.map key).count k := by
  rw [group, List.count, countP_map, countP_eq_length_filter]
  exact congrArg List.length (filter_congr fun r _ => (beq_eq_decide _ _).symm)

/-- `count(*)` -/
theorem length_eq_sum (hP : ∀ r ∈ rows, key r ∈ P) :
    rows.length = ∑ k ∈ P, (group key rows k).length := by
  have hcover : ∀ k ∈ (rows.map key : Multiset K), k ∈ P := by simpa using hP
  calc rows.length = Multiset.card (rows.map key : Multiset K) := by simp
    _ = ∑ k ∈ P, Multiset.count k (rows.map key : Multiset K) :=
        (Multiset.sum_count_eq_card hcover).symm
    _ = ∑ k ∈ P, (group key rows k).length :=
        Finset.sum_congr rfl fun k _ => by rw [length_group, Multiset.coe_count]

/-- `count(DISTINCT key)` -/
theorem length_dedup_eq_sum (hP : ∀ r ∈ rows, key r ∈ P) :
    (rows.map key).dedup.length = ∑ k ∈ P, if group key rows k = [] then 0 else 1 := by
  have hkeys : (rows.map key).toFinset = {k ∈ P | k ∈ rows.map key} := by
    ext k
    simp only [mem_toFinset, Finset.mem_filter, iff_and_self, mem_map]
    rintro ⟨r, hr, rfl⟩
    exact hP r hr
  rw [← card_toFinset, hkeys, Finset.card_filter]
  refine Finset.sum_congr rfl fun k _ => ?_
  by_cases hk : k ∈ rows.map key
  · rw [if_pos hk, if_neg (by simpa only [group_eq_nil_iff, not_not] using hk)]
  · rw [if_neg hk, if_pos (group_eq_nil_iff.mpr hk)]

/-- `max(f)` -/
theorem maximumOf_eq_sup {α : Type*} [LinearOrder α] {f : R → α} (hP : ∀ r ∈ rows, key r ∈ P) :
    maximumOf (rows.map f) = P.sup fun k => maximumOf ((group key rows k).map f) := by
  apply le_antisymm
  · refine maximum_le_of_forall_le fun a ha => ?_
    obtain ⟨r, hr, rfl⟩ := mem_map.mp ha
    have hgroup : f r ∈ (group key rows (key r)).map f :=
      mem_map_of_mem (mem_group.mpr ⟨hr, rfl⟩)
    exact (le_maximum_of_mem' hgroup).trans
      (Finset.le_sup (f := fun k => maximumOf ((group key rows k).map f)) (hP r hr))
  · refine Finset.sup_le fun k _ => maximum_le_of_forall_le fun a ha => ?_
    obtain ⟨r, hr, rfl⟩ := mem_map.mp ha
    exact le_maximum_of_mem' (mem_map_of_mem (mem_group.mp hr).1)

end Groups

/-- `(array_agg(f) FILTER (WHERE f IS NOT NULL))[1]`, when every row has the same `f`. -/
theorem head?_filterMap_of_forall_eq {R V : Type*} {rows : List R} {f : R → Option V} {v : Option V}
    (hrows : rows ≠ []) (hf : ∀ r ∈ rows, f r = v) : (rows.filterMap f).head? = v := by
  cases rows with
  | nil => exact absurd rfl hrows
  | cons r rs =>
    cases v with
    | some x => rw [filterMap_cons_some (hf r mem_cons_self), head?_cons]
    | none => rw [filterMap_eq_nil_iff.mpr hf, head?_nil]

/-- The maximum of a list that is not empty, as a number. -/
theorem coe_unbotD_maximumOf {α : Type*} [LinearOrder α] {l : List α} (d : α) (hl : l ≠ []) :
    (((maximumOf l).unbotD d : α) : WithBot α) = maximumOf l := by
  obtain ⟨a, ha⟩ := WithBot.ne_bot_iff_exists.mp (mt maximum_eq_bot.mp hl)
  rw [maximumOf, ← ha, WithBot.unbotD_coe]

section Replaced

variable {K : Type*} [DecidableEq K] {ks : List K} {P : Finset K}

/-- A sum, when only the terms of `ks` are replaced. -/
theorem sum_eq_add_sum_map {M : Type*} [AddCommGroup M] {f g : K → M} (hks : ks.Nodup)
    (hsub : ∀ k ∈ ks, k ∈ P) (hsame : ∀ k, k ∉ ks → g k = f k) :
    ∑ k ∈ P, g k = ∑ k ∈ P, f k + (ks.map fun k => g k - f k).sum := by
  have hdiff : ∑ k ∈ ks.toFinset, (g k - f k) = ∑ k ∈ P, (g k - f k) := by
    refine Finset.sum_subset (fun k hk => hsub k (mem_toFinset.mp hk)) fun k _ hk => ?_
    rw [hsame k (fun hmem => hk (mem_toFinset.mpr hmem)), sub_self]
  rw [← sum_toFinset _ hks, hdiff, Finset.sum_sub_distrib, add_sub_cancel]

/-- A greatest value, when the terms of `ks` are replaced by terms that are not less. -/
theorem sup_eq_max_sup {α : Type*} [LinearOrder α] [OrderBot α] {f g : K → α}
    (hsub : ∀ k ∈ ks, k ∈ P) (hsame : ∀ k, k ∉ ks → g k = f k) (hle : ∀ k ∈ ks, f k ≤ g k) :
    P.sup g = max (P.sup f) (ks.toFinset.sup g) := by
  apply le_antisymm
  · refine Finset.sup_le fun k hk => ?_
    by_cases hmem : k ∈ ks
    · exact le_max_of_le_right (Finset.le_sup (mem_toFinset.mpr hmem))
    · rw [hsame k hmem]
      exact le_max_of_le_left (Finset.le_sup hk)
  · refine max_le (Finset.sup_le fun k hk => ?_) (Finset.sup_mono fun k hk => ?_)
    · have hfg : f k ≤ g k := by
        by_cases hmem : k ∈ ks
        · exact hle k hmem
        · exact (hsame k hmem).ge
      exact hfg.trans (Finset.le_sup hk)
    · exact hsub k (mem_toFinset.mp hk)

end Replaced

end Relational
