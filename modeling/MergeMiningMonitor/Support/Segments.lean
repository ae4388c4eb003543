import Mathlib.Data.List.Nodup
import Mathlib.Data.List.SplitBy

/-!
# Support — Segments

A list cut into maximal runs of linked neighbours (`List.splitBy`), and the elements inside the runs
that may be taken out.  `inner p run` are the elements of a run, its two ends apart, that meet `p`;
`inners` are these of every run that has any.

Taking out all that one run allows leaves the other runs as they are, and nothing more to take out of
this one, whatever the elements left in it are linked to (`inners_remove`).
-/

namespace Segments

open List

variable {α : Type*} (link : α → α → Bool) (p : α → Bool)

/-- `run` is a part of `xs` whose neighbours are linked, and that no neighbour of it can extend. -/
structure MaximalRun (xs run : List α) : Prop where
  ne_nil : run ≠ []
  chain : run.IsChain fun a b => link a b = true
  maximal : ∃ before after, xs = before ++ (run ++ after) ∧
    (∀ a ∈ before.getLast?, ∀ b ∈ run.head?, link a b = false) ∧
    ∀ a ∈ run.getLast?, ∀ b ∈ after.head?, link a b = false

variable {link} in
theorem mem_splitBy {xs run : List α} : run ∈ xs.splitBy link ↔ MaximalRun link xs run := by
  constructor
  · intro hrun
    obtain ⟨before, after, hsplit⟩ := append_of_mem hrun
    have hends := isChain_getLast_head_splitBy link xs
    have hnil := nil_notMem_splitBy link xs
    have hxs := flatten_splitBy link xs
    rw [hsplit] at hends hnil hxs
    refine ⟨ne_nil_of_mem_splitBy hrun, isChain_of_mem_splitBy hrun, before.flatten,
      after.flatten, by simpa using hxs.symm, fun a ha b hb => ?_, fun a ha b hb => ?_⟩
    · rcases eq_nil_or_concat before with rfl | ⟨before, last, rfl⟩
      · simp at ha
      · rw [concat_eq_append] at *
        obtain ⟨hlast, hrun', hunlinked⟩ : ∃ hl hr, link (last.getLast hl) (run.head hr) = false := by
          rw [append_assoc] at hends
          exact (isChain_cons_cons.mp (isChain_append.mp hends).2.1).1
        rw [flatten_append, flatten_singleton, getLast?_append_of_ne_nil _ hlast,
          getLast?_eq_some_getLast hlast] at ha
        rw [head?_eq_some_head hrun'] at hb
        cases ha
        cases hb
        exact hunlinked
    · cases after with
      | nil => simp at hb
      | cons next after =>
        obtain ⟨hrun', hnext, hunlinked⟩ : ∃ hr hn, link (run.getLast hr) (next.head hn) = false :=
          (isChain_cons_cons.mp (isChain_append.mp hends).2.1).1
        rw [flatten_cons, head?_append_of_ne_nil _ hnext, head?_eq_some_head hnext] at hb
        rw [getLast?_eq_some_getLast hrun'] at ha
        cases ha
        cases hb
        exact hunlinked
  · rintro ⟨hne, hchain, before, after, rfl, hbefore, hafter⟩
    rw [splitBy_append, splitBy_append hafter, splitBy_of_isChain hne hchain]
    · exact mem_append_right _ mem_cons_self
    · rw [head?_append_of_ne_nil _ hne]
      exact hbefore

variable {link} in
theorem MaximalRun.sublist {xs run : List α} (h : MaximalRun link xs run) : run.Sublist xs := by
  obtain ⟨before, after, rfl, -⟩ := h.maximal
  exact (sublist_append_left _ _).trans (sublist_append_right _ _)

variable {link} in
/-- Runs that share an element are one. -/
theorem MaximalRun.unique {xs run run' : List α} (hnodup : xs.Nodup) (h : MaximalRun link xs run)
    (h' : MaximalRun link xs run') {x : α} (hx : x ∈ run) (hx' : x ∈ run') : run = run' := by
  have hflatten : ((xs.splitBy link).flatten).Nodup := by rwa [flatten_splitBy]
  have hdisjoint := (nodup_flatten.mp hflatten).2
  by_contra hne
  have : Std.Symm (List.Disjoint (α := α)) := ⟨fun _ _ h _ hb ha => h ha hb⟩
  exact hdisjoint.forall (mem_splitBy.mpr h) (mem_splitBy.mpr h') hne hx hx'

/-! ### What may be taken out -/

/-- The elements strictly inside a run that meet `p`. -/
def inner (run : List α) : List α := run.tail.dropLast.filter p

/-- The inner elements of every maximal run that has any. -/
def inners (xs : List α) : List (List α) := ((xs.splitBy link).map (inner p)).filter (· ≠ [])

variable {link p}

theorem inner_sublist (run : List α) : (inner p run).Sublist run :=
  filter_sublist.trans ((dropLast_sublist _).trans (tail_sublist _))

theorem mem_inner {run : List α} {x : α} : x ∈ inner p run ↔ x ∈ run.tail.dropLast ∧ p x :=
  mem_filter

theorem exists_ends {run : List α} (h : run.tail.dropLast ≠ []) : ∃ a mid b, run = a :: (mid ++ [b]) := by
  cases run with
  | nil => exact absurd rfl h
  | cons a rest =>
    rcases eq_nil_or_concat rest with rfl | ⟨mid, b, rfl⟩
    · exact absurd rfl h
    · exact ⟨a, mid, b, by rw [concat_eq_append]⟩

/-- The ends of a run are not inside it. -/
theorem ends_not_inside {run : List α} (hnodup : run.Nodup) {x : α}
    (hx : x ∈ run.head? ∨ x ∈ run.getLast?) : x ∉ run.tail.dropLast := by
  intro hinside
  obtain ⟨a, mid, b, rfl⟩ := exists_ends (ne_nil_of_mem hinside)
  have hmid : x ∈ mid := by simpa using hinside
  obtain ⟨ha, hrest⟩ := nodup_cons.mp hnodup
  rcases hx with hx | hx
  · cases hx
    exact ha (mem_append_left _ hmid)
  · rw [← cons_append, getLast?_concat] at hx
    cases hx
    exact (nodup_append.mp hrest).2.2 _ hmid _ mem_cons_self rfl

theorem inner_eq_nil_of_length {run : List α} (h : run.length ≤ 2) : inner p run = [] := by
  rw [inner, eq_nil_of_length_eq_zero (by simp; omega : run.tail.dropLast.length = 0), filter_nil]

theorem mem_inners {xs s : List α} :
    s ∈ inners link p xs ↔ s ≠ [] ∧ ∃ run, MaximalRun link xs run ∧ inner p run = s := by
  simp [inners, mem_splitBy, and_comm]

/-- The inner elements of all runs are elements of the list, in its order. -/
theorem flatten_inners_sublist (xs : List α) : (inners link p xs).flatten.Sublist xs := by
  have hruns : ∀ runs : List (List α),
      ((runs.map (inner p)).filter (· ≠ [])).flatten.Sublist runs.flatten := by
    intro runs
    induction runs with
    | nil => exact Sublist.refl _
    | cons run runs ih =>
      rw [map_cons, filter_cons]
      split
      · exact (inner_sublist run).append ih
      · exact ih.trans (sublist_append_right _ _)
  have h := hruns (xs.splitBy link)
  rwa [flatten_splitBy] at h

theorem mem_flatten_inners {xs : List α} {x : α} :
    x ∈ (inners link p xs).flatten ↔
      p x ∧ ∃ run, MaximalRun link xs run ∧ x ∈ run.tail.dropLast := by
  rw [mem_flatten]
  constructor
  · rintro ⟨s, hs, hx⟩
    obtain ⟨-, run, hrun, rfl⟩ := mem_inners.mp hs
    exact ⟨(mem_inner.mp hx).2, run, hrun, (mem_inner.mp hx).1⟩
  · rintro ⟨hp, run, hrun, hx⟩
    have hx := mem_inner.mpr ⟨hx, hp⟩
    exact ⟨_, mem_inners.mpr ⟨ne_nil_of_mem hx, run, hrun, rfl⟩, hx⟩

theorem inners_append {xs ys : List α}
    (h : ∀ a ∈ xs.getLast?, ∀ b ∈ ys.head?, link a b = false) :
    inners link p (xs ++ ys) = inners link p xs ++ inners link p ys := by
  rw [inners, splitBy_append h, map_append, filter_append]
  rfl

/-- A list whose neighbours are all linked is one run. -/
theorem inners_of_isChain {xs : List α} (hchain : xs.IsChain fun a b => link a b = true)
    (hinner : inner p xs ≠ []) : inners link p xs = [inner p xs] := by
  have hne : xs ≠ [] := by
    rintro rfl
    exact hinner rfl
  rw [inners, splitBy_of_isChain hne hchain]
  simp [hinner]

/-! ### Taking it out -/

/-- What is strictly inside a part of a list is strictly inside the list. -/
theorem inside_of_part {part : List α} (before after : List α) {x : α} (hx : x ∈ part.tail.dropLast) :
    x ∈ (before ++ (part ++ after)).tail.dropLast := by
  obtain ⟨a, mid, b, rfl⟩ := exists_ends (ne_nil_of_mem hx)
  have hmid : x ∈ mid := by simpa using hx
  have hlast : ∀ ys : List α, x ∈ (ys ++ (mid ++ b :: after)).dropLast := by
    intro ys
    rw [← append_assoc, dropLast_append_of_ne_nil (cons_ne_nil b after)]
    exact mem_append_left _ (mem_append_right _ hmid)
  cases before with
  | nil => simpa using hlast []
  | cons c before => simpa using hlast (before ++ [a])

/-- Nothing is inside what is left of a run. -/
theorem inners_filter_not (a b : α) (mid : List α) :
    inners link p (a :: (mid.filter (fun x => !p x) ++ [b])) = [] := by
  rw [eq_nil_iff_forall_not_mem]
  intro s hs
  obtain ⟨hne, part, hpart, rfl⟩ := mem_inners.mp hs
  obtain ⟨x, hx⟩ := exists_mem_of_ne_nil _ hne
  obtain ⟨hinside, hpx⟩ := mem_inner.mp hx
  obtain ⟨before, after, hsplit, -, -⟩ := hpart.maximal
  have hmem := inside_of_part before after hinside
  rw [← hsplit] at hmem
  simp [hpx] at hmem

section Remove

variable [DecidableEq α]

/-- What is left of a run when its inner elements are gone. -/
theorem filter_inner {a b : α} {mid : List α} (hnodup : (a :: (mid ++ [b])).Nodup) :
    (a :: (mid ++ [b])).filter (· ∉ inner p (a :: (mid ++ [b]))) =
      a :: (mid.filter (fun x => !p x) ++ [b]) := by
  have hinner : ∀ x, x ∈ inner p (a :: (mid ++ [b])) ↔ x ∈ mid ∧ p x := by simp [mem_inner]
  obtain ⟨ha, hmid⟩ := nodup_cons.mp hnodup
  have ha : a ∉ mid := fun h => ha (mem_append_left _ h)
  have hb : b ∉ mid := fun h => (nodup_append.mp hmid).2.2 b h b mem_cons_self rfl
  have hrest : mid.filter (· ∉ inner p (a :: (mid ++ [b]))) = mid.filter fun x => !p x := by
    refine filter_congr fun x hx => ?_
    simp [hinner, hx]
  rw [filter_cons_of_pos (by simp [hinner, ha]), filter_append, hrest,
    filter_cons_of_pos (by simp [hinner, hb]), filter_nil]

/-- **Taking out what one run allows takes this run away and leaves the others.** -/
theorem inners_remove {xs s : List α} (hnodup : xs.Nodup) (hs : s ∈ inners link p xs) :
    inners link p (xs.filter (· ∉ s)) = (inners link p xs).erase s := by
  obtain ⟨hne, run, hrun, rfl⟩ := mem_inners.mp hs
  obtain ⟨before, after, rfl, hbefore, hafter⟩ := hrun.maximal
  have hinside : run.tail.dropLast ≠ [] := fun h => hne (by rw [inner, h, filter_nil])
  obtain ⟨a, mid, b, rfl⟩ := exists_ends hinside
  obtain ⟨-, hnrest, hdisjoint⟩ := nodup_append.mp hnodup
  obtain ⟨hnrun, -, hdisjoint'⟩ := nodup_append.mp hnrest
  have hsub := (inner_sublist (p := p) (a :: (mid ++ [b]))).subset
  have hkeep : ∀ ys : List α, (∀ y ∈ ys, y ∉ a :: (mid ++ [b])) →
      ys.filter (· ∉ inner p (a :: (mid ++ [b]))) = ys := by
    intro ys hys
    exact filter_eq_self.mpr fun y hy => decide_eq_true fun h => hys y hy (hsub h)
  -- the ends of the run stay, so it is cut off from the rest before and after
  have hcut : ∀ mid' : List α, inners link p (before ++ ((a :: (mid' ++ [b])) ++ after)) =
      inners link p before ++ (inners link p (a :: (mid' ++ [b])) ++ inners link p after) := by
    intro mid'
    rw [inners_append, inners_append]
    · intro c hc d hd
      rw [← cons_append, getLast?_concat] at hc hafter
      exact hafter c hc d hd
    · intro c hc d hd
      exact hbefore c hc d hd
  have hnotin : inner p (a :: (mid ++ [b])) ∉ inners link p before := by
    intro h
    obtain ⟨x, hx⟩ := exists_mem_of_ne_nil _ hne
    have hxbefore := (flatten_inners_sublist before).subset (mem_flatten_of_mem h hx)
    exact hdisjoint x hxbefore x (mem_append_left _ (hsub hx)) rfl
  rw [filter_append, filter_append, filter_inner hnrun,
    hkeep before fun y hy h => hdisjoint y hy y (mem_append_left _ h) rfl,
    hkeep after fun y hy h => hdisjoint' y h y hy rfl, hcut, inners_filter_not, hcut,
    inners_of_isChain hrun.chain hne, erase_append_right _ hnotin]
  simp

end Remove

end Segments
