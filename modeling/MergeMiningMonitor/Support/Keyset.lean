import Mathlib.Data.List.MinMax
import MergeMiningMonitor.Support.Ordered

/-!
# Support — Keyset

Rows read in pages: `WHERE key > cursor ORDER BY key LIMIT limit`, where the cursor of the next page is
the last key of this one.  When no two rows have one key, a page holds exactly the rows after its cursor
up to its last key (`mem_page`).

`scan` reads page after page until one is empty, and writes the rows of each page before it reads the
next.  Every eligible row is then written once, whatever the writes do to the eligibility of other rows
(`scan_eq_map`).

A page may also be read over groups of rows, each under its first row (`distinctOn`); a row after the
cursor is then in the page or after the last row of it (`mem_page_or_last_lt`).

A page may also be read from the other end, as the last rows before a cursor.  The rows before a cursor
are the first rows of the whole order, and the rows after it the last ones (`filter_lt_eq_take`,
`filter_gt_eq_drop`); the number of rows before a row is its place (`countP_getElem`).
-/

namespace Keyset

open List Ordered

variable {α κ : Type*} [LinearOrder κ] (key : α → κ)

/-- `ORDER BY key` -/
def orderBy (xs : List α) : List α := sortBy (fun a b => key a ≤ key b) xs

/-- `key > cursor`, for the rows after a cursor; without one, all rows. -/
def after (cursor : Option κ) (x : α) : Bool := cursor.all fun c => c < key x

/-- `WHERE key > cursor ORDER BY key LIMIT limit` -/
def page (limit : ℕ) (cursor : Option κ) (xs : List α) : List α :=
  (orderBy key (xs.filter (after key cursor))).take limit

variable {key} {limit : ℕ} {cursor : Option κ} {xs : List α} {x b : α}

/-! ### Order -/

@[simp] theorem mem_orderBy : x ∈ orderBy key xs ↔ x ∈ xs := mem_sortBy

theorem perm_orderBy (xs : List α) : (orderBy key xs).Perm xs := perm_sortBy _ _

/-- Distinct keys are in strict order. -/
theorem pairwise_orderBy (hkeys : (xs.map key).Nodup) :
    (orderBy key xs).Pairwise fun a b => key a < key b := by
  have hle : (orderBy key xs).Pairwise fun a b => key a ≤ key b := by
    refine (pairwise_sortBy ?_ ?_ xs).imp of_decide_eq_true
    · simpa using fun a b => le_total (key a) (key b)
    · simpa using fun a b c => le_trans (a := key a) (b := key b) (c := key c)
  have hne : (orderBy key xs).Pairwise fun a b => key a ≠ key b :=
    pairwise_map.mp (((perm_orderBy xs).map key).nodup_iff.mpr hkeys)
  exact (hle.and hne).imp fun h => lt_of_le_of_ne h.1 h.2

/-- The one row that a condition picks out. -/
theorem filter_eq_singleton {p : α → Bool} (hnodup : xs.Nodup) (hx : x ∈ xs) (hp : p x = true)
    (honly : ∀ y ∈ xs, p y = true → y = x) : xs.filter p = [x] := by
  have hall : ∀ y ∈ xs.filter p, y = x := fun y hy =>
    honly y (mem_of_mem_filter hy) (mem_filter.mp hy).2
  refine perm_singleton.mp ((perm_ext_iff_of_nodup (hnodup.filter _)
    (nodup_singleton x)).mpr fun y => ?_)
  rw [mem_singleton]
  exact ⟨hall y, fun h => h ▸ mem_filter.mpr ⟨hx, hp⟩⟩

/-- Ordering commutes with a filter. -/
theorem orderBy_filter (hkeys : (xs.map key).Nodup) (p : α → Bool) :
    orderBy key (xs.filter p) = (orderBy key xs).filter p := by
  have hfilter : ((xs.filter p).map key).Nodup := (filter_sublist.map key).nodup hkeys
  refine Perm.eq_of_pairwise (fun a b _ _ hab hba => absurd hab hba.asymm)
    (pairwise_orderBy hfilter) ((pairwise_orderBy hkeys).filter _) ?_
  exact (perm_orderBy _).trans ((perm_orderBy xs).filter p).symm

theorem sortBy_eq_orderBy {le : α → α → Bool} (h : ∀ a b, le a b = true ↔ key a ≤ key b)
    (xs : List α) : sortBy le xs = orderBy key xs := by
  have hle : le = fun a b => decide (key a ≤ key b) := by
    funext a b
    rw [Bool.eq_iff_iff, h, decide_eq_true_iff]
  rw [hle, orderBy]

/-- `ORDER BY key DESC` reads the rows from the other end. -/
theorem sortBy_eq_reverse {le : α → α → Bool} (h : ∀ a b, le a b = true ↔ key b ≤ key a)
    (hkeys : (xs.map key).Nodup) : sortBy le xs = (orderBy key xs).reverse := by
  have hsorted : (sortBy le xs).Pairwise (le · ·) := by
    refine pairwise_sortBy ?_ ?_ xs
    · simpa only [h] using fun a b => le_total (key b) (key a)
    · simpa only [h] using fun a b c hab hbc => le_trans hbc hab
  have hreverse : (orderBy key xs).reverse.Pairwise (le · ·) :=
    pairwise_reverse.mpr ((pairwise_orderBy hkeys).imp fun hlt => (h _ _).mpr hlt.le)
  refine Perm.eq_of_pairwise (fun a b ha hb hab hba => ?_) hsorted hreverse ?_
  · have ha : a ∈ xs := mem_sortBy.mp ha
    have hb : b ∈ xs := mem_orderBy.mp (mem_reverse.mp hb)
    exact inj_on_of_nodup_map hkeys ha hb (le_antisymm ((h _ _).mp hba) ((h _ _).mp hab))
  · exact (perm_sortBy _ xs).trans ((perm_orderBy xs).symm.trans (reverse_perm _).symm)

/-! ### Places -/

section Places

variable {l : List α}

/-- The rows before a cut are the first ones, and the others the last ones. -/
theorem filter_eq_take_drop {p : α → Bool} (hl : l.Pairwise fun a b => p b = true → p a = true) :
    l.filter p = l.take (l.countP p) ∧ (l.filter fun a => !p a) = l.drop (l.countP p) := by
  induction l with
  | nil => exact ⟨rfl, rfl⟩
  | cons a l ih =>
    obtain ⟨ha, hl⟩ := pairwise_cons.mp hl
    by_cases hp : p a = true
    · rw [filter_cons_of_pos hp, filter_cons_of_neg (by simp [hp]),
        countP_cons_of_pos hp, take_succ_cons, drop_succ_cons, (ih hl).1, (ih hl).2]
      exact ⟨rfl, rfl⟩
    · have hrest : ∀ b ∈ a :: l, p b = false :=
        forall_mem_cons.mpr ⟨by simpa using hp, fun b hb => by simpa using mt (ha b hb) hp⟩
      rw [filter_eq_nil_iff.mpr fun b hb => by simp [hrest b hb],
        countP_eq_zero.mpr fun b hb => by simp [hrest b hb],
        filter_eq_self.mpr fun b hb => by simp [hrest b hb]]
      exact ⟨rfl, rfl⟩

theorem filter_lt_eq_take (hl : l.Pairwise fun a b => key a < key b) (c : κ) :
    (l.filter fun a => key a < c) = l.take (l.countP fun a => key a < c) :=
  (filter_eq_take_drop (hl.imp fun hab hb => decide_eq_true (hab.trans (of_decide_eq_true hb)))).1

theorem filter_gt_eq_drop (hl : l.Pairwise fun a b => key a < key b) (c : κ) :
    (l.filter fun a => c < key a) = l.drop (l.countP fun a => key a ≤ c) := by
  rw [← (filter_eq_take_drop (hl.imp fun hab hb =>
    decide_eq_true (hab.le.trans (of_decide_eq_true hb)))).2]
  exact filter_congr fun a _ => by simp only [← not_le, decide_not]

/-- As many rows are before a row as its place says. -/
theorem countP_getElem (hl : l.Pairwise fun a b => key a < key b) {i : ℕ} (hi : l[i]? = some b) :
    (l.countP fun a => key a < key b) = i ∧ (l.countP fun a => key a ≤ key b) = i + 1 := by
  obtain ⟨hlt, hb⟩ := List.getElem?_eq_some_iff.mp hi
  obtain ⟨s, t, rfl, rfl⟩ : ∃ s t, l = s ++ b :: t ∧ s.length = i :=
    ⟨l.take i, l.drop (i + 1), by simp [← hb], List.length_take_of_le hlt.le⟩
  obtain ⟨-, hcons, hbefore⟩ := pairwise_append.mp hl
  have hbefore : ∀ a ∈ s, key a < key b := fun a ha => hbefore a ha b mem_cons_self
  have hafter : ∀ a ∈ t, key b < key a := (pairwise_cons.mp hcons).1
  constructor
  · rw [countP_append, countP_cons_of_neg (by simp),
      countP_eq_length.mpr fun a ha => by simpa using hbefore a ha,
      countP_eq_zero.mpr fun a ha => by simpa using (hafter a ha).le, Nat.add_zero]
  · rw [countP_append, countP_cons_of_pos (by simp),
      countP_eq_length.mpr fun a ha => by simpa using (hbefore a ha).le,
      countP_eq_zero.mpr fun a ha => by simpa using hafter a ha]

end Places

/-! ### Pages -/

@[simp] theorem after_some {c : κ} : after key (some c) x = true ↔ c < key x := by
  simp [after]

theorem page_eq_nil (hlimit : 0 < limit) :
    page key limit cursor xs = [] ↔ ∀ x ∈ xs, after key cursor x = false := by
  rw [page, take_eq_nil_iff, or_iff_right hlimit.ne']
  constructor
  · intro h x hx
    by_contra hafter
    have hmem : x ∈ orderBy key (xs.filter (after key cursor)) := by
      rw [mem_orderBy, mem_filter]
      exact ⟨hx, by simpa using hafter⟩
    rw [h] at hmem
    cases hmem
  · intro h
    have hnone : xs.filter (after key cursor) = [] :=
      filter_eq_nil_iff.mpr fun x hx => by simp [h x hx]
    rw [hnone]
    rfl

/-- A page holds the rows after its cursor, up to its last key. -/
theorem mem_page (hkeys : (xs.map key).Nodup) (hlast : (page key limit cursor xs).getLast? = some b)
    (hx : x ∈ xs) :
    x ∈ page key limit cursor xs ↔ after key cursor x = true ∧ key x ≤ key b := by
  have hfilter : ((xs.filter (after key cursor)).map key).Nodup :=
    (filter_sublist.map key).nodup hkeys
  have hsorted := pairwise_orderBy hfilter
  rw [← take_append_drop limit (orderBy key (xs.filter (after key cursor))),
    pairwise_append] at hsorted
  obtain ⟨hpage, -, hrest⟩ := hsorted
  have hb : b ∈ page key limit cursor xs := mem_of_getLast? hlast
  constructor
  · intro hmem
    have hafter : after key cursor x = true :=
      (mem_filter.mp (mem_orderBy.mp (mem_of_mem_take hmem))).2
    obtain ⟨rows, hrows⟩ := getLast?_eq_some_iff.mp hlast
    refine ⟨hafter, ?_⟩
    rw [hrows] at hmem
    rcases mem_append.mp hmem with hmem | hmem
    · have hpage' : (page key limit cursor xs).Pairwise fun a b => key a < key b := hpage
      rw [hrows, pairwise_append] at hpage'
      exact (hpage'.2.2 x hmem b mem_cons_self).le
    · rw [mem_singleton.mp hmem]
  · rintro ⟨hafter, hle⟩
    have hmem : x ∈ orderBy key (xs.filter (after key cursor)) :=
      mem_orderBy.mpr (mem_filter.mpr ⟨hx, hafter⟩)
    rw [← take_append_drop limit (orderBy key (xs.filter (after key cursor))),
      mem_append] at hmem
    rcases hmem with hmem | hmem
    · exact hmem
    · exact absurd (hrest b hb x hmem) (not_lt.mpr hle)

theorem mem_of_mem_page (hx : x ∈ page key limit cursor xs) :
    x ∈ xs ∧ after key cursor x = true :=
  mem_filter.mp (mem_orderBy.mp (mem_of_mem_take hx))

/-- What is distinct on the rows is distinct on a page of them. -/
theorem nodup_map_page {γ : Type*} {f : α → γ} (hf : (xs.map f).Nodup) :
    ((page key limit cursor xs).map f).Nodup := by
  have hfilter : ((xs.filter (after key cursor)).map f).Nodup :=
    (filter_sublist.map f).nodup hf
  exact ((take_sublist _ _).map f).nodup (((perm_orderBy _).map f).nodup_iff.mpr hfilter)

/-- A row after the cursor is on the page or after it. -/
theorem mem_page_or_last_lt (hlimit : 0 < limit) (hkeys : (xs.map key).Nodup) (hx : x ∈ xs)
    (hafter : after key cursor x = true) :
    ∃ b, (page key limit cursor xs).getLast? = some b ∧
      (x ∈ page key limit cursor xs ∨ key b < key x) := by
  cases hlast : (page key limit cursor xs).getLast? with
  | none =>
    have hnone := (page_eq_nil hlimit).mp (getLast?_eq_none_iff.mp hlast) x hx
    rw [hafter] at hnone
    cases hnone
  | some b =>
    refine ⟨b, rfl, ?_⟩
    rw [mem_page hkeys hlast hx, ← not_le]
    by_cases hle : key x ≤ key b
    · exact .inl ⟨hafter, hle⟩
    · exact .inr hle

/-! ### First rows -/

section DistinctOn

variable {γ : Type*} [DecidableEq γ] {group : α → γ}

variable (group key) in
/-- `DISTINCT ON (group) … ORDER BY group, key`: the first row of each group. -/
def distinctOn (xs : List α) : List α :=
  xs.filter fun x => xs.all fun y => group y = group x → key x ≤ key y

theorem mem_distinctOn :
    x ∈ distinctOn key group xs ↔ x ∈ xs ∧ ∀ y ∈ xs, group y = group x → key x ≤ key y := by
  rw [distinctOn, mem_filter]
  simp only [all_eq_true, decide_eq_true_eq]

/-- Every group has a first row. -/
theorem exists_mem_distinctOn (hx : x ∈ xs) : ∃ r ∈ distinctOn key group xs, group r = group x := by
  have hmem : x ∈ xs.filter fun y => group y = group x :=
    mem_filter.mpr ⟨hx, decide_eq_true rfl⟩
  cases hleast : (xs.filter fun y => group y = group x).argmin key with
  | none =>
    rw [argmin_eq_none.mp hleast] at hmem
    cases hmem
  | some r =>
    obtain ⟨hr, hgroup⟩ := mem_filter.mp (argmin_mem hleast)
    have hgroup : group r = group x := of_decide_eq_true hgroup
    refine ⟨r, mem_distinctOn.mpr ⟨hr, fun y hy hsame => ?_⟩, hgroup⟩
    refine le_of_mem_argmin (mem_filter.mpr ⟨hy, ?_⟩) hleast
    exact decide_eq_true (hsame.trans hgroup)

end DistinctOn

/-! ### Scans -/

section Scan

variable (key) (limit) (eligible : α → Bool) (write : List α → List α → List α)

/-- Pages of the eligible rows, each of them written before the next one is read. -/
def scan : ℕ → Option κ → List α → List α
  | 0, _, xs => xs
  | fuel + 1, cursor, xs =>
    let rows := page key limit cursor (xs.filter eligible)
    match rows.getLast? with
    | none => xs
    | some last => scan fuel (some (key last)) (write rows xs)

variable {key} {limit} {eligible} {write} {f : α → α}

/-- The rows up to the cursor are written. -/
def written (key : α → κ) (f : α → α) (cursor : Option κ) (x : α) : α :=
  if after key cursor x then x else f x

theorem key_written (hf : ∀ x, key (f x) = key x) : key (written key f cursor x) = key x := by
  rw [written]
  split
  · rfl
  · exact hf x

/-- After the cursor, the rows are as they were. -/
theorem filter_written (hf : ∀ x, key (f x) = key x) (xs : List α) :
    ((xs.map (written key f cursor)).filter eligible).filter (after key cursor) =
      (xs.filter eligible).filter (after key cursor) := by
  have hafter : ∀ x, after key cursor (written key f cursor x) = after key cursor x := by
    intro x
    rw [after, after, key_written hf]
  rw [filter_filter, filter_filter]
  induction xs with
  | nil => rfl
  | cons x xs ih =>
    rw [map_cons, filter_cons, filter_cons, hafter, ih]
    by_cases hx : after key cursor x = true
    · rw [written, if_pos hx]
    · simp only [hx, Bool.false_and, Bool.false_eq_true, if_false]

theorem after_of_after_key (hb : after key cursor b = true)
    (hx : after key (some (key b)) x = true) : after key cursor x = true := by
  cases cursor with
  | none => rfl
  | some c => exact after_some.mpr ((after_some.mp hb).trans (after_some.mp hx))

variable (hf : ∀ x, key (f x) = key x) (hid : ∀ x, eligible x = false → f x = x)
  (hkeys : ((xs.filter eligible).map key).Nodup)
include hf hid hkeys

/-- One page further. -/
theorem map_written_page (hlast : (page key limit cursor (xs.filter eligible)).getLast? = some b) :
    (xs.map (written key f cursor)).map (fun y =>
        if key y ∈ (page key limit cursor (xs.filter eligible)).map key then f y else y) =
      xs.map (written key f (some (key b))) := by
  rw [map_map]
  refine map_congr_left fun x hx => ?_
  rw [Function.comp_apply]
  by_cases hel : eligible x = true
  · have hxs : x ∈ xs.filter eligible := mem_filter.mpr ⟨hx, hel⟩
    have hkey : key x ∈ (page key limit cursor (xs.filter eligible)).map key ↔
        after key cursor x = true ∧ key x ≤ key b := by
      rw [← mem_page hkeys hlast hxs]
      refine ⟨fun h => ?_, fun h => mem_map_of_mem h⟩
      obtain ⟨r, hr, hrx⟩ := mem_map.mp h
      rwa [← inj_on_of_nodup_map hkeys (mem_of_mem_page hr).1 hxs hrx]
    have hnext : written key f (some (key b)) x = if key x ≤ key b then f x else x := by
      simp [written, after, ← not_le]
    have hb := (mem_of_mem_page (mem_of_getLast? hlast)).2
    rw [hnext]
    by_cases hafter : after key cursor x = true
    · simp only [written, hkey, hafter, true_and, if_true]
    · have hle : key x ≤ key b := by
        by_contra h
        exact hafter (after_of_after_key hb (after_some.mpr (not_le.mp h)))
      simp only [written, hf, hkey, hafter, hle, Bool.false_eq_true, false_and, if_false, if_true]
  · simp [written, hid x (by simpa using hel)]

/-- **A scan writes every eligible row once.**  A write of some rows is to change these rows only, each
of them as `f` does, which leaves the keys and the rows that are not eligible. -/
theorem scan_eq_map (hlimit : 0 < limit)
    (hwrite : ∀ rows ys, ys.map key = xs.map key → (∀ r ∈ rows, r ∈ ys ∧ eligible r = true) →
      (rows.map key).Nodup →
      write rows ys = ys.map fun y => if key y ∈ rows.map key then f y else y)
    {fuel : ℕ} (hfuel : xs.length < fuel) :
    scan key limit eligible write fuel none xs = xs.map f := by
  -- The number of rows that are still to be written falls with every page.
  suffices h : ∀ fuel cursor, ((xs.filter eligible).filter (after key cursor)).length < fuel →
      scan key limit eligible write fuel cursor (xs.map (written key f cursor)) = xs.map f by
    have hnone : xs.map (written key f none) = xs := map_id xs
    have hlength : ((xs.filter eligible).filter (after key none)).length ≤ xs.length :=
      (length_filter_le _ _).trans (length_filter_le _ _)
    have hscan := h fuel none (by omega)
    rwa [hnone] at hscan
  intro fuel
  induction fuel with
  | zero => exact fun cursor h => absurd h (Nat.not_lt_zero _)
  | succ fuel ih =>
    intro cursor hcount
    have hpage : page key limit cursor ((xs.map (written key f cursor)).filter eligible) =
        page key limit cursor (xs.filter eligible) := by
      rw [page, page, filter_written hf]
    rw [scan, hpage]
    cases hlast : (page key limit cursor (xs.filter eligible)).getLast? with
    | none =>
      have hnil := (page_eq_nil hlimit).mp (getLast?_eq_none_iff.mp hlast)
      refine map_congr_left fun x hx => ?_
      by_cases hel : eligible x = true
      · simp [written, hnil x (mem_filter.mpr ⟨hx, hel⟩)]
      · simp [written, hid x (by simpa using hel)]
    | some last =>
      have hb := mem_of_mem_page (mem_of_getLast? hlast)
      have hnext : write (page key limit cursor (xs.filter eligible)) (xs.map (written key f cursor)) =
          xs.map (written key f (some (key last))) := by
        rw [← map_written_page hf hid hkeys hlast]
        refine hwrite _ _ ?_ ?_ (nodup_map_page hkeys)
        · rw [map_map]
          exact map_congr_left fun x _ => key_written hf
        · intro r hr
          obtain ⟨hmem, hafter⟩ := mem_of_mem_page hr
          obtain ⟨hr, hel⟩ := mem_filter.mp hmem
          exact ⟨mem_map.mpr ⟨r, hr, by simp [written, hafter]⟩, hel⟩
      dsimp only
      rw [hnext]
      refine ih (some (key last)) (lt_of_lt_of_le ?_ (Nat.lt_succ_iff.mp hcount))
      have hless : (xs.filter eligible).filter (after key (some (key last))) =
          ((xs.filter eligible).filter (after key cursor)).filter
            (after key (some (key last))) := by
        conv_rhs => rw [filter_filter]
        refine filter_congr fun x _ => ?_
        by_cases hx : after key (some (key last)) x = true
        · rw [hx, after_of_after_key hb.2 hx]
          rfl
        · simp [hx]
      rw [hless, length_filter_lt_length_iff_exists]
      exact ⟨last, mem_filter.mpr hb, by simp [after]⟩

end Scan

end Keyset
