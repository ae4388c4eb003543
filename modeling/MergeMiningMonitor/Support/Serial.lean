import MergeMiningMonitor.Support.Table
import MergeMiningMonitor.Support.Fallible

/-!
# Support — Serial

A table whose primary key is an identity column: a new row takes the next number, and a number is
never given twice.  Its writes are those of `Table` together with the two that the database answers
with the row they wrote: `UPDATE … RETURNING` (`updateReturning`) and
`INSERT … ON CONFLICT … DO UPDATE … WHERE … RETURNING` (`upsert`), where the conflict is on some
other key than the primary one.
-/

namespace Relational

open Fallible List Option

/-- A table with an identity column, and the number its next row takes. -/
structure Serial {R : Type*} (id : R → ℕ) extends Table id where
  next : ℕ
  ids_lt : ∀ r ∈ rows, id r < next

namespace Serial

variable {R : Type*} {id : R → ℕ}

/-- The table without rows. -/
def empty : Serial id := ⟨Table.empty, 0, by simp [Table.empty]⟩

instance : Inhabited (Serial id) := ⟨empty⟩

@[simp] theorem rows_empty : (empty : Serial id).rows = [] := rfl

/-- `UPDATE … SET f WHERE p` -/
def update (t : Serial id) (p : R → Bool) (f : R → R) (hf : ∀ r, id (f r) = id r) : Serial id where
  toTable := t.toTable.update p f hf
  next := t.next
  ids_lt := by
    intro q hq
    obtain ⟨r, hr, rfl⟩ := Table.mem_update.mp hq
    have hid : id (if p r then f r else r) = id r := by
      split
      · exact hf r
      · rfl
    rw [hid]
    exact t.ids_lt r hr

/-- `DELETE … WHERE p` -/
def delete (t : Serial id) (p : R → Bool) : Serial id where
  toTable := t.toTable.delete p
  next := t.next
  ids_lt := fun q hq => t.ids_lt q (Table.mem_delete.mp hq).1

/-- `INSERT`, of the row that `mk` makes of the next number. -/
def insert (t : Serial id) (mk : ℕ → R) (hmk : ∀ n, id (mk n) = n) : Serial id where
  rows := t.rows ++ [mk t.next]
  keys_nodup := by
    rw [map_append, map_singleton, hmk]
    refine nodup_append.mpr ⟨t.keys_nodup, nodup_singleton _, ?_⟩
    intro n hn m hm
    obtain ⟨r, hr, rfl⟩ := mem_map.mp hn
    rw [mem_singleton.mp hm]
    exact Nat.ne_of_lt (t.ids_lt r hr)
  next := t.next + 1
  ids_lt := by
    intro q hq
    rcases mem_append.mp hq with hq | hq
    · exact Nat.lt_succ_of_lt (t.ids_lt q hq)
    · rw [mem_singleton.mp hq, hmk]
      exact Nat.lt_succ_self _

/-- `INSERT … SELECT`, of one row for each item. -/
def insertAll {A : Type*} (t : Serial id) (mk : A → ℕ → R) (hmk : ∀ a n, id (mk a n) = n)
    (items : List A) : Serial id :=
  items.foldl (fun t a => t.insert (mk a) (hmk a)) t

/-- `UPDATE … SET f WHERE p RETURNING`, for a condition that at most one row meets. -/
def updateReturning (t : Serial id) (p : R → Bool) (f : R → R) (hf : ∀ r, id (f r) = id r) :
    Option (R × Serial id) :=
  (t.rows.find? p).map fun r => (f r, t.update p f hf)

/-- `INSERT … ON CONFLICT … DO UPDATE SET f WHERE guard RETURNING`.  The conflict arbiter finds at
most one row; a row it finds is left alone when the guard fails, and nothing is returned. -/
def upsert (t : Serial id) (conflict guard : R → Bool) (f : R → R) (hf : ∀ r, id (f r) = id r)
    (mk : ℕ → R) (hmk : ∀ n, id (mk n) = n) : Option (R × Serial id) :=
  match t.rows.find? conflict with
  | none => some (mk t.next, t.insert mk hmk)
  | some r => if guard r then some (f r, t.update conflict f hf) else none

variable {ε : Type*} {err : ε} {t : Serial id} {p conflict guard : R → Bool} {f : R → R}
  {hf : ∀ r, id (f r) = id r}
  {mk : ℕ → R} {hmk : ∀ n, id (mk n) = n} {r : R}

@[simp] theorem rows_update :
    (t.update p f hf).rows = t.rows.map fun r => if p r then f r else r := rfl

@[simp] theorem rows_delete : (t.delete p).rows = t.rows.filter fun r => !p r := rfl

@[simp] theorem rows_insert : (t.insert mk hmk).rows = t.rows ++ [mk t.next] := rfl

section InsertAll

variable {A : Type*} {make : A → ℕ → R} {hmake : ∀ a n, id (make a n) = n} {items : List A}

/-- Rows that are there stay. -/
theorem mem_insertAll_of_mem (hr : r ∈ t.rows) : r ∈ (t.insertAll make hmake items).rows := by
  induction items generalizing t with
  | nil => exact hr
  | cons a items ih => exact ih (mem_append_left _ hr)

/-- Every item has a new row. -/
theorem exists_mem_insertAll {a : A} (ha : a ∈ items) :
    ∃ n, t.next ≤ n ∧ make a n ∈ (t.insertAll make hmake items).rows := by
  induction items generalizing t with
  | nil => cases ha
  | cons b items ih =>
    rcases mem_cons.mp ha with rfl | ha
    · have hrow : make a t.next ∈ (t.insert (make a) (hmake a)).rows :=
        mem_append_right _ (mem_singleton_self _)
      exact ⟨t.next, Nat.le_refl _, mem_insertAll_of_mem (t := t.insert (make a) (hmake a)) hrow⟩
    · obtain ⟨n, hn, hrow⟩ := ih (t := t.insert (make b) (hmake b)) ha
      exact ⟨n, Nat.le_trans (Nat.le_succ _) hn, hrow⟩

/-- The rows are those that were there and new ones. -/
theorem mem_insertAll (hr : r ∈ (t.insertAll make hmake items).rows) :
    r ∈ t.rows ∨ t.next ≤ id r := by
  induction items generalizing t with
  | nil => exact .inl hr
  | cons b items ih =>
    rcases ih (t := t.insert (make b) (hmake b)) hr with hr | hr
    · rcases mem_append.mp hr with hr | hr
      · exact .inl hr
      · rw [mem_singleton.mp hr, hmake]
        exact .inr (Nat.le_refl _)
    · exact .inr (Nat.le_trans (Nat.le_succ _) hr)

theorem next_le_insertAll : t.next ≤ (t.insertAll make hmake items).next := by
  induction items generalizing t with
  | nil => exact Nat.le_refl _
  | cons b items ih => exact Nat.le_trans (Nat.le_succ _) (ih (t := t.insert (make b) (hmake b)))

end InsertAll

/-- What an upsert that writes has done. -/
theorem upsert_eq_some {q : R} {t' : Serial id}
    (h : t.upsert conflict guard f hf mk hmk = some (q, t')) :
    (q = mk t.next ∧ t' = t.insert mk hmk) ∨
      ∃ r, t.rows.find? conflict = some r ∧ guard r = true ∧ q = f r ∧
        t' = t.update conflict f hf := by
  rw [upsert] at h
  split at h
  · obtain ⟨rfl, rfl⟩ := Prod.mk.inj (some.inj h)
    exact .inl ⟨rfl, rfl⟩
  · next r hr =>
      split at h
      · next hg =>
          obtain ⟨rfl, rfl⟩ := Prod.mk.inj (some.inj h)
          exact .inr ⟨r, hr, hg, rfl, rfl⟩
      · cases h

/-! ### A table with one row -/

/-- An update writes the one row when it meets the condition. -/
theorem succeeds_updateReturning (hrows : t.rows = [r]) :
    Succeeds (required (t.updateReturning p f hf) err) (p r = true)
      fun (q, t') => q = f r ∧ t'.rows = [f r] := by
  have hupdate : t.updateReturning p f hf =
      if p r then some (f r, t.update p f hf) else none := by
    rw [updateReturning, hrows]
    cases hp : p r <;> simp [hp]
  rw [hupdate]
  refine Succeeds.required (fun hp => ⟨_, if_pos hp⟩) fun a ha => ?_
  split at ha
  · next hp =>
      obtain rfl := some.inj ha
      exact ⟨hp, rfl, by simp [hrows, hp]⟩
  · cases ha

/-- An upsert that conflicts with the one row writes it when the guard lets it. -/
theorem succeeds_upsert (hrows : t.rows = [r]) (hconflict : conflict r = true) :
    Succeeds (required (t.upsert conflict guard f hf mk hmk) err) (guard r = true)
      fun (q, t') => q = f r ∧ t'.rows = [f r] := by
  have hupsert : t.upsert conflict guard f hf mk hmk =
      if guard r then some (f r, t.update conflict f hf) else none := by
    rw [upsert, hrows, find?_cons_of_pos hconflict]
  rw [hupsert]
  refine Succeeds.required (fun hg => ⟨_, if_pos hg⟩) fun a ha => ?_
  split at ha
  · next hg =>
      obtain rfl := some.inj ha
      exact ⟨hg, rfl, by simp [hrows, hconflict]⟩
  · cases ha

end Serial

end Relational
