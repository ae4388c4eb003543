import Mathlib.Data.List.Sort

/-!
# Support — Ordered

Rows ordered by a comparison (`sortBy`), and by a number and then a second key, as in `ORDER BY a, b`.
Ordering keeps the rows (`mem_orderByKey`), does nothing to ordered rows (`orderByKey_eq_self`) and
commutes with a filter (`filter_orderByKey`).  In ordered rows, the last one up to a bound is the
greatest of those within it (`getElem?_partitionPoint`).
-/

namespace Ordered

open List

variable {R : Type*}

/-- Rows in the order of a comparison. -/
def sortBy (le : R → R → Bool) (rs : List R) : List R := rs.insertionSort (le · ·)

theorem perm_sortBy (le : R → R → Bool) (rs : List R) : (sortBy le rs).Perm rs := perm_insertionSort _ _

@[simp] theorem mem_sortBy {le : R → R → Bool} {rs : List R} {r : R} : r ∈ sortBy le rs ↔ r ∈ rs :=
  mem_insertionSort _

theorem pairwise_sortBy {le : R → R → Bool} (htotal : ∀ a b, le a b ∨ le b a)
    (htrans : ∀ a b c, le a b → le b c → le a c) (rs : List R) : (sortBy le rs).Pairwise (le · ·) := by
  have : Std.Total fun a b => le a b = true := ⟨htotal⟩
  have : IsTrans R fun a b => le a b = true := ⟨htrans⟩
  exact pairwise_insertionSort _ _

variable {K : Type*} [LinearOrder K]

/-- First by number, then by key. -/
def LexLe (a b : Int × K) : Prop := a.1 < b.1 ∨ a.1 = b.1 ∧ a.2 ≤ b.2

instance : DecidableRel (@LexLe K _) :=
  fun _ _ => inferInstanceAs (Decidable (_ ∨ _ ∧ _))

namespace LexLe

theorem refl (a : Int × K) : LexLe a a := .inr ⟨rfl, le_rfl⟩

theorem total (a b : Int × K) : LexLe a b ∨ LexLe b a := by
  rcases lt_trichotomy a.1 b.1 with h | h | h
  · exact .inl (.inl h)
  · rcases le_total a.2 b.2 with h' | h'
    · exact .inl (.inr ⟨h, h'⟩)
    · exact .inr (.inr ⟨h.symm, h'⟩)
  · exact .inr (.inl h)

theorem trans {a b c : Int × K} (hab : LexLe a b) (hbc : LexLe b c) : LexLe a c := by
  rcases hab with hab | ⟨hab, hab'⟩ <;> rcases hbc with hbc | ⟨hbc, hbc'⟩
  · exact .inl (hab.trans hbc)
  · exact .inl (hbc ▸ hab)
  · exact .inl (hab ▸ hbc)
  · exact .inr ⟨hab.trans hbc, hab'.trans hbc'⟩

theorem antisymm {a b : Int × K} (hab : LexLe a b) (hba : LexLe b a) : a = b := by
  rcases hab with hab | ⟨hab, hab'⟩ <;> rcases hba with hba | ⟨hba, hba'⟩
  · omega
  · omega
  · omega
  · exact Prod.ext hab (le_antisymm hab' hba')

theorem fst_le {a b : Int × K} (h : LexLe a b) : a.1 ≤ b.1 := by
  rcases h with h | ⟨h, -⟩
  · exact h.le
  · exact h.le

end LexLe

/-- Rows in the order of their number and key. -/
def orderByKey (key : R → Int × K) (rs : List R) : List R := sortBy (fun a b => LexLe (key a) (key b)) rs

variable {key : R → Int × K} {rs : List R} {rows : List (Int × K)}

theorem mem_orderByKey {r : R} : r ∈ orderByKey key rs ↔ r ∈ rs := mem_sortBy

theorem perm_orderByKey (key : R → Int × K) (rs : List R) : (orderByKey key rs).Perm rs :=
  perm_sortBy _ _

theorem pairwise_orderByKey (key : R → Int × K) (rs : List R) :
    (orderByKey key rs).Pairwise fun a b => LexLe (key a) (key b) := by
  refine (pairwise_sortBy ?_ ?_ rs).imp of_decide_eq_true
  · simpa using fun a b => LexLe.total (key a) (key b)
  · simpa using fun a b c => LexLe.trans (a := key a) (b := key b) (c := key c)

/-- Among some rows, one has the least key. -/
theorem exists_least (key : R → Int × K) (hrs : rs ≠ []) :
    ∃ r ∈ rs, ∀ r' ∈ rs, LexLe (key r) (key r') := by
  have hpairwise := pairwise_orderByKey key rs
  have hmem : ∀ r, r ∈ orderByKey key rs ↔ r ∈ rs := fun _ => mem_orderByKey
  cases horder : orderByKey key rs with
  | nil =>
    obtain ⟨r, hr⟩ := exists_mem_of_ne_nil rs hrs
    exact absurd ((hmem r).mpr hr) (horder ▸ not_mem_nil)
  | cons r rest =>
    rw [horder] at hpairwise hmem
    refine ⟨r, (hmem r).mp mem_cons_self, fun r' hr' => ?_⟩
    rcases mem_cons.mp ((hmem r').mpr hr') with rfl | h
    · exact LexLe.refl _
    · exact (pairwise_cons.mp hpairwise).1 r' h

theorem orderByKey_eq_self
    (h : rs.Pairwise fun a b => LexLe (key a) (key b)) : orderByKey key rs = rs :=
  (h.imp decide_eq_true).insertionSort_eq

/-- Filtering commutes with ordering, when no two rows have one key. -/
theorem filter_orderByKey (p : R → Bool) (hinj : ∀ a ∈ rs, ∀ b ∈ rs, key a = key b → a = b) :
    (orderByKey key rs).filter p = orderByKey key (rs.filter p) := by
  refine Perm.eq_of_pairwise (fun a b ha hb hab hba => ?_)
    ((pairwise_orderByKey key rs).filter p) (pairwise_orderByKey key _) ?_
  · have ha := mem_orderByKey.mp (mem_filter.mp ha).1
    have hb := (mem_filter.mp (mem_orderByKey.mp hb)).1
    exact hinj a ha b hb (hab.antisymm hba)
  · exact ((perm_orderByKey key rs).filter p).trans (perm_orderByKey key _).symm

/-- `slice::partition_point` with the bound `a.1 ≤ bound`: how many rows come before the first one
over the bound. -/
def partitionPoint (rows : List (Int × K)) (bound : Int) : Nat :=
  (rows.takeWhile fun a => a.1 ≤ bound).length

omit [LinearOrder K] in
theorem partitionPoint_eq_zero_iff_head {bound : Int} :
    partitionPoint rows bound = 0 ↔ ∀ a ∈ rows.head?, bound < a.1 := by
  cases rows with
  | nil => simp [partitionPoint]
  | cons a rest => by_cases h : a.1 ≤ bound <;> simp [partitionPoint, h, not_lt.mpr, not_le.mp]

theorem partitionPoint_eq_zero (hrows : rows.Pairwise LexLe) {bound : Int} :
    partitionPoint rows bound = 0 ↔ ∀ a ∈ rows, bound < a.1 := by
  cases rows with
  | nil => simp [partitionPoint]
  | cons a rest =>
    constructor
    · intro h
      have ha : bound < a.1 := by
        by_contra hle
        simp [partitionPoint, not_lt.mp hle] at h
      intro b hb
      rcases mem_cons.mp hb with rfl | hb
      · exact ha
      · exact ha.trans_le ((pairwise_cons.mp hrows).1 b hb).fst_le
    · intro h
      simp [partitionPoint, h a]

/-- In ordered rows, the last one before the partition point is the greatest within the bound. -/
theorem getElem?_partitionPoint (hrows : rows.Pairwise LexLe) {bound : Int}
    {a : Int × K} (hpos : partitionPoint rows bound ≠ 0) :
    rows[partitionPoint rows bound - 1]? = some a ↔
      a ∈ rows ∧ a.1 ≤ bound ∧ ∀ b ∈ rows, b.1 ≤ bound → LexLe b a := by
  induction rows with
  | nil => exact absurd rfl hpos
  | cons c rest ih =>
    obtain ⟨hc, hrest⟩ := pairwise_cons.mp hrows
    have hle : c.1 ≤ bound := by
      by_contra hlt
      exact hpos (by simp [partitionPoint, not_le.mp hlt])
    have hlength : partitionPoint (c :: rest) bound = partitionPoint rest bound + 1 := by
      simp [partitionPoint, hle]
    rw [hlength, Nat.add_sub_cancel]
    by_cases hzero : partitionPoint rest bound = 0
    · -- the rows after `c` are over the bound
      have hover := (partitionPoint_eq_zero hrest).mp hzero
      rw [hzero, getElem?_cons_zero, Option.some_inj]
      constructor
      · rintro rfl
        refine ⟨mem_cons_self, hle, fun b hb hb' => ?_⟩
        rcases mem_cons.mp hb with rfl | hb
        · exact LexLe.refl b
        · exact absurd hb' (not_le.mpr (hover b hb))
      · rintro ⟨ha, ha', -⟩
        rcases mem_cons.mp ha with rfl | ha
        · rfl
        · exact absurd ha' (not_le.mpr (hover a ha))
    · obtain ⟨k, hk⟩ := Nat.exists_eq_succ_of_ne_zero hzero
      have ih := ih hrest hzero
      rw [hk, Nat.succ_sub_one] at ih
      rw [hk, getElem?_cons_succ, ih]
      constructor
      · rintro ⟨ha, ha', hmax⟩
        refine ⟨mem_cons_of_mem _ ha, ha', fun b hb hb' => ?_⟩
        rcases mem_cons.mp hb with rfl | hb
        · exact hc a ha
        · exact hmax b hb hb'
      · rintro ⟨ha, ha', hmax⟩
        refine ⟨?_, ha', fun b hb hb' => hmax b (mem_cons_of_mem _ hb) hb'⟩
        rcases mem_cons.mp ha with rfl | ha
        · -- `c` is greatest only if a row of the rest equals it
          obtain ⟨b, hb, hb'⟩ : ∃ b ∈ rest, b.1 ≤ bound := by
            by_contra hnone
            push Not at hnone
            exact hzero ((partitionPoint_eq_zero hrest).mpr hnone)
          rw [(hc b hb).antisymm (hmax b (mem_cons_of_mem _ hb) hb')]
          exact hb
        · exact ha

end Ordered
