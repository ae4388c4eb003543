import Mathlib.Data.String.Basic
import Mathlib.Data.List.Nodup

/-!
# Support — Table

A relational table with a primary key, and the three statements that write one: `UPDATE … WHERE`
(`Table.update`), `DELETE … WHERE` (`Table.delete`) and `INSERT … ON CONFLICT DO UPDATE`
(`Table.upsert`, and `Table.upsertAll` for a batch).  A table carries the uniqueness of its keys,
so a lookup by key has at most one answer, and every write is characterised by what a lookup
returns after it (`find?_update`, `find?_delete`, `find?_upsert`, `find?_upsertAll`).  The order
of the rows means nothing: it is what a query without `ORDER BY` may return.
-/

namespace Relational

open List Option

/-- Membership among ordered values is decided by comparing. -/
scoped instance decidableMem {α : Type*} [LinearOrder α] (a : α) (as : List α) :
    Decidable (a ∈ as) := inferInstance

/-- A table: its rows, no two of them with the same primary key. -/
structure Table {R K : Type*} (key : R → K) where
  rows : List R
  keys_nodup : (rows.map key).Nodup

namespace Table

variable {R K : Type*} {key : R → K}

/-- The table without rows. -/
def empty : Table key := ⟨[], nodup_nil⟩

instance : Inhabited (Table key) := ⟨empty⟩

variable {t : Table key} {before : R → R → Bool}

/-- Two rows with one key are one row. -/
theorem eq_of_key_eq {q r : R} (hq : q ∈ t.rows) (hr : r ∈ t.rows) (h : key q = key r) : q = r :=
  inj_on_of_nodup_map t.keys_nodup hq hr h

/-- `UPDATE … SET f WHERE p`, for a `SET` list that leaves the primary key alone. -/
def update (t : Table key) (p : R → Bool) (f : R → R) (hf : ∀ r, key (f r) = key r) :
    Table key where
  rows := t.rows.map fun r => if p r then f r else r
  keys_nodup := by
    have hkey : key ∘ (fun r => if p r then f r else r) = key := by
      funext r
      by_cases h : p r <;> simp [h, hf]
    rw [List.map_map, hkey]
    exact t.keys_nodup

/-- `DELETE … WHERE p`. -/
def delete (t : Table key) (p : R → Bool) : Table key where
  rows := t.rows.filter fun r => !p r
  keys_nodup := (filter_sublist.map key).nodup t.keys_nodup

theorem mem_update {p : R → Bool} {f : R → R} {hf : ∀ r, key (f r) = key r}
    {q : R} : q ∈ (t.update p f hf).rows ↔ ∃ r ∈ t.rows, (if p r then f r else r) = q :=
  mem_map

theorem mem_delete {p : R → Bool} {q : R} : q ∈ (t.delete p).rows ↔ q ∈ t.rows ∧ p q = false := by
  simp [delete]

theorem ext_rows {t t' : Table key} (h : t.rows = t'.rows) : t = t' := by
  cases t
  cases t'
  cases h
  rfl

theorem delete_eq_self {p : R → Bool} (h : ∀ r ∈ t.rows, p r = false) : t.delete p = t :=
  ext_rows (filter_eq_self.mpr fun r hr => by simp [h r hr])

/-- The first of the rows in the order `before`. -/
def firstBy (before : R → R → Bool) : List R → Option R
  | [] => none
  | r :: rs =>
    match firstBy before rs with
    | none => some r
    | some q => if before q r then some q else some r

/-- `SELECT … ORDER BY … LIMIT 1`. -/
def first (t : Table key) (before : R → R → Bool) : Option R := firstBy before t.rows

theorem mem_of_firstBy {rs : List R} {r : R} (h : firstBy before rs = some r) : r ∈ rs := by
  induction rs generalizing r with
  | nil => cases h
  | cons q rs ih =>
    rw [firstBy] at h
    split at h
    · obtain rfl := some.inj h
      exact mem_cons_self
    · next q' hq' =>
        split at h
        · obtain rfl := some.inj h
          exact mem_cons_of_mem _ (ih hq')
        · obtain rfl := some.inj h
          exact mem_cons_self

theorem mem_of_first {r : R} (h : t.first before = some r) : r ∈ t.rows :=
  mem_of_firstBy h

theorem firstBy_eq_none {rs : List R} : firstBy before rs = none ↔ rs = [] := by
  cases rs with
  | nil => simp [firstBy]
  | cons r rs =>
    rw [firstBy]
    split
    · simp
    · split <;> simp

/-- `ORDER BY f DESC LIMIT 1` is a row with the greatest `f`. -/
theorem le_of_firstBy {f : R → Int} {rs : List R} {q r : R}
    (h : firstBy (fun a b => f b < f a) rs = some r) (hq : q ∈ rs) : f q ≤ f r := by
  induction rs generalizing r with
  | nil => cases hq
  | cons a rs ih =>
    rw [firstBy] at h
    split at h
    · next hnone =>
        rw [firstBy_eq_none.mp hnone, mem_singleton] at hq
        obtain rfl := some.inj h
        exact Int.le_of_eq (congrArg f hq)
    · next b hb =>
        split at h
        · next hlt =>
            obtain rfl := some.inj h
            rcases mem_cons.mp hq with rfl | hq
            · exact Int.le_of_lt (by simpa using hlt)
            · exact ih hb hq
        · next hge =>
            obtain rfl := some.inj h
            rcases mem_cons.mp hq with rfl | hq
            · exact Int.le_refl _
            · exact Int.le_trans (ih hb hq) (by simpa using hge)

section Lookup

variable [DecidableEq K]

/-- The row with primary key `k`. -/
def find? (t : Table key) (k : K) : Option R :=
  t.rows.find? fun r => decide (key r = k)

variable {t : Table key}

theorem find?_eq_none_iff {k : K} : t.find? k = none ↔ ∀ r ∈ t.rows, key r ≠ k := by
  simp [find?, find?_eq_none]

theorem mem_of_find? {k : K} {r : R} (h : t.find? k = some r) : r ∈ t.rows :=
  mem_of_find?_eq_some h

theorem key_of_find? {k : K} {r : R} (h : t.find? k = some r) : key r = k := by
  simpa using find?_some h

theorem find?_key {r : R} (h : r ∈ t.rows) : t.find? (key r) = some r := by
  cases hf : t.find? (key r) with
  | none => exact absurd rfl (find?_eq_none_iff.mp hf r h)
  | some q => rw [eq_of_key_eq (mem_of_find? hf) h (key_of_find? hf)]

theorem mem_rows_iff {r : R} : r ∈ t.rows ↔ t.find? (key r) = some r :=
  ⟨find?_key, mem_of_find?⟩

theorem find?_update (t : Table key) (p : R → Bool) (f : R → R) (hf : ∀ r, key (f r) = key r)
    (k : K) :
    (t.update p f hf).find? k = (t.find? k).map fun r => if p r then f r else r := by
  have hpred : (fun r => decide (key r = k)) ∘ (fun r => if p r then f r else r) =
      fun r => decide (key r = k) := by
    funext r
    by_cases h : p r <;> simp [h, hf]
  simp only [find?, update, List.find?_map, hpred]

theorem find?_delete (t : Table key) (p : R → Bool) (k : K) :
    (t.delete p).find? k = (t.find? k).filter fun r => !p r := by
  cases h : t.find? k with
  | none =>
    rw [find?_eq_none_iff] at h
    exact find?_eq_none_iff.mpr fun r hr => h r (mem_delete.mp hr).1
  | some r =>
    have hr : r ∈ t.rows := mem_of_find? h
    obtain rfl : key r = k := key_of_find? h
    cases hp : p r with
    | false => rw [find?_key (mem_delete.mpr ⟨hr, hp⟩), filter_some_pos (by simp [hp])]
    | true =>
      have hgone : ∀ q ∈ (t.delete p).rows, key q ≠ key r := by
        intro q hq hk
        obtain ⟨hq, hpq⟩ := mem_delete.mp hq
        rw [eq_of_key_eq hq hr hk, hp] at hpq
        cases hpq
      rw [find?_eq_none_iff.mpr hgone, filter_some_neg (by simp [hp])]

/-- A row by its key and another condition. -/
theorem rows_find?_and (t : Table key) (p : R → Bool) (k : K) :
    t.rows.find? (fun r => p r && decide (key r = k)) = (t.find? k).filter p := by
  have hdelete := find?_delete t (fun r => !p r) k
  simp only [Bool.not_not] at hdelete
  rw [← hdelete, find?, delete, find?_filter]
  simp only [Bool.not_not, Bool.decide_and, Bool.decide_eq_true]

/-- `INSERT r ON CONFLICT (key) DO UPDATE SET f`. -/
def upsert (t : Table key) (r : R) (f : R → R) (hf : ∀ r, key (f r) = key r) : Table key :=
  if h : t.find? (key r) = none then
    ⟨t.rows ++ [r], by
      rw [find?_eq_none_iff] at h
      rw [map_append, nodup_append']
      refine ⟨t.keys_nodup, nodup_singleton _, ?_⟩
      intro k hk hk'
      obtain ⟨q, hq, rfl⟩ := mem_map.mp hk
      exact h q hq (by simpa using hk')⟩
  else t.update (fun q => decide (key q = key r)) f hf

theorem find?_upsert (t : Table key) (r : R) (f : R → R) (hf : ∀ r, key (f r) = key r) (k : K) :
    (t.upsert r f hf).find? k =
      if k = key r then some ((t.find? k).elim r f) else t.find? k := by
  by_cases h : t.find? (key r) = none
  · have hrows : (t.upsert r f hf).find? k = (t.find? k).or ([r].find? fun q => key q = k) := by
      simp only [upsert, h, dite_true]
      exact find?_append
    rw [hrows]
    by_cases hk : k = key r
    · subst hk
      simp [h]
    · simp [Ne.symm hk, hk]
  · simp only [upsert, h, dite_false, find?_update]
    by_cases hk : k = key r
    · subst hk
      obtain ⟨q, hq⟩ := ne_none_iff_exists'.mp h
      simp [hq, key_of_find? hq]
    · cases hq : t.find? k with
      | none => simp [hk]
      | some q => simp [key_of_find? hq, hk]

/-- An upsert that sets the columns to what they are. -/
theorem upsert_eq_self {r q : R} {f : R → R} {hf : ∀ r, key (f r) = key r}
    (hq : t.find? (key r) = some q) (h : f q = q) : t.upsert r f hf = t := by
  rw [upsert, dif_neg (by simp [hq])]
  refine ext_rows ((map_congr_left fun x hx => ?_).trans (map_id _))
  split
  · next hkey =>
      rw [eq_of_key_eq hx (mem_of_find? hq) ((of_decide_eq_true hkey).trans (key_of_find? hq).symm),
        h]
      rfl
  · rfl

/-- The batch form `INSERT … SELECT unnest(rs) ON CONFLICT (key) DO UPDATE`, where `merge new old`
is the updated row.  PostgreSQL refuses a batch that names a key twice. -/
def upsertAll (t : Table key) (rs : List R) (merge : R → R → R)
    (hm : ∀ new old, key (merge new old) = key old) : Option (Table key) :=
  if (rs.map key).Nodup then
    some (rs.foldl (fun t r => t.upsert r (merge r) (hm r)) t)
  else none

/-- Rows with distinct keys, upserted one after another. -/
theorem find?_foldl_upsert (merge : R → R → R)
    (hm : ∀ new old, key (merge new old) = key old) (k : K) :
    ∀ (rs : List R) (t : Table key), (rs.map key).Nodup →
      (rs.foldl (fun t r => t.upsert r (merge r) (hm r)) t).find? k =
        match rs.find? (fun r => decide (key r = k)) with
        | none => t.find? k
        | some r => some ((t.find? k).elim r (merge r))
  | [], _, _ => rfl
  | r :: rs, t, hn => by
    rw [map_cons, nodup_cons] at hn
    rw [foldl_cons, find?_foldl_upsert merge hm k rs _ hn.2, find?_upsert]
    by_cases hk : key r = k
    · subst hk
      -- the later rows of the batch have other keys
      have hrest : rs.find? (fun q => decide (key q = key r)) = none :=
        find?_eq_none.mpr fun q hq => by
          simpa using fun h => hn.1 (mem_map.mpr ⟨q, hq, h⟩)
      simp [hrest]
    · simp [hk, Ne.symm hk]

theorem find?_upsertAll {t t' : Table key} {rs : List R} {merge : R → R → R}
    {hm : ∀ new old, key (merge new old) = key old} (h : t.upsertAll rs merge hm = some t')
    (k : K) :
    t'.find? k = match rs.find? (fun r => decide (key r = k)) with
      | none => t.find? k
      | some r => some ((t.find? k).elim r (merge r)) := by
  simp only [upsertAll] at h
  split at h
  · next hn =>
      cases h
      exact find?_foldl_upsert merge hm k rs t hn
  · cases h

end Lookup

end Table

end Relational
