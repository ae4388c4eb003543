import Mathlib.Algebra.Ring.Nat
import Mathlib.Data.List.Basic
import Mathlib.Data.List.Induction
import Mathlib.Order.MinMax

/-!
# Support — Lists

What several developments need of lists and the library does not have: the value that a fold selects
(`foldl_select`), the rows of a function as a table (`lookup_map_mk`), the items up to the first stop
(`untilStop`), the only result of a search (`findSome?_of_unique`) and windows of a list.
-/

namespace Lists

open List Option

variable {α β γ : Type*} {l : List α} {a b : α}

/-! ### Folds -/

/-- A fold that selects one of two keys gives the key of an item, which is related to all of them. -/
theorem foldl_select {f : β → β → β} {R : β → β → Prop} [IsTrans β R]
    (hf : ∀ x y, f x y = x ∨ f x y = y) (hleft : ∀ x y, R (f x y) x) (hright : ∀ x y, R (f x y) y)
    (key : α → β) (a : α) (l : List α) :
    ∃ r ∈ a :: l, key r = l.foldl (fun x b => f x (key b)) (key a) ∧ ∀ b ∈ a :: l, R (key r) (key b) := by
  induction l generalizing a with
  | nil =>
    refine ⟨a, mem_cons_self, rfl, fun b hb => ?_⟩
    obtain rfl := mem_singleton.mp hb
    have hself := hleft (key b) (key b)
    rwa [or_self_iff.mp (hf (key b) (key b))] at hself
  | cons c l ih =>
    obtain ⟨d, hd, heq⟩ : ∃ d ∈ [a, c], f (key a) (key c) = key d := by
      rcases hf (key a) (key c) with h | h
      · exact ⟨a, by simp, h⟩
      · exact ⟨c, by simp, h⟩
    obtain ⟨r, hr, hkey, hall⟩ := ih d
    have hfirst : R (key r) (f (key a) (key c)) := heq ▸ hall d mem_cons_self
    refine ⟨r, ?_, by rw [foldl_cons, heq, hkey], fun b hb => ?_⟩
    · rcases mem_cons.mp hr with rfl | hr
      · exact mem_append_left l hd
      · exact mem_append_right [a, c] hr
    · rcases mem_cons.mp hb with rfl | hb
      · exact IsTrans.trans _ _ _ hfirst (hleft _ _)
      · rcases mem_cons.mp hb with rfl | hb
        · exact IsTrans.trans _ _ _ hfirst (hright _ _)
        · exact hall b (mem_cons_of_mem _ hb)

/-- If every item is counted once, the counts add up to the number of items. -/
theorem sum_countP_eq_length (r : α → β → Bool) (as : List α) (bs : List β)
    (honce : ∀ b ∈ bs, as.countP (r · b) = 1) : (as.map fun a => bs.countP (r a)).sum = bs.length := by
  induction bs with
  | nil => simp
  | cons b bs ih =>
    have hsplit : ∀ as : List α, (as.map fun a => (b :: bs).countP (r a)).sum =
        (as.map fun a => bs.countP (r a)).sum + as.countP (r · b) := by
      intro as
      induction as with
      | nil => rfl
      | cons a as ih =>
        rw [map_cons, sum_cons, ih, map_cons, sum_cons, countP_cons, countP_cons]
        omega
    rw [hsplit, ih fun c hc => honce c (mem_cons_of_mem _ hc), honce b mem_cons_self, length_cons]

/-! ### Tables -/

theorem lookup_eq_none [DecidableEq α] {rows : List (α × β)} :
    rows.lookup a = none ↔ a ∉ rows.map (·.1) := by
  rw [lookup_eq_none_iff, List.mem_map]
  constructor
  · rintro hrows ⟨p, hp, rfl⟩
    simpa using hrows p hp
  · intro ha p hp
    simpa using fun heq : a = p.1 => ha ⟨p, hp, heq.symm⟩

theorem lookup_map_mk [DecidableEq α] (f : α → β) :
    (l.map fun a => (a, f a)).lookup a = if a ∈ l then some (f a) else none := by
  split
  · next ha => exact lookup_graph f ha
  · next ha =>
      exact lookup_eq_none.mpr (by simpa using ha)

theorem exists_mem_of_map_eq {f : α → γ} {g : β → γ} {bs : List β} (h : l.map f = bs.map g)
    (ha : a ∈ l) : ∃ b ∈ bs, g b = f a :=
  mem_map.mp (h ▸ mem_map_of_mem ha)

theorem exists_of_forall₂ {R : α → β → Prop} {bs : List β} (h : Forall₂ R l bs)
    (ha : a ∈ l) : ∃ b ∈ bs, R a b := by
  induction h with
  | nil => exact absurd ha not_mem_nil
  | cons hab _ ih =>
    rcases mem_cons.mp ha with rfl | ha
    · exact ⟨_, mem_cons_self, hab⟩
    · obtain ⟨b, hb, hr⟩ := ih ha
      exact ⟨b, mem_cons_of_mem _ hb, hr⟩

/-! ### Searches -/

theorem findSome?_of_unique {f : α → Option β} {r : β} (ha : a ∈ l) (hr : f a = some r)
    (honly : ∀ b ∈ l, (f b).isSome → b = a) : l.findSome? f = some r := by
  obtain ⟨r', hfound⟩ := isSome_iff_exists.mp
    (findSome?_isSome_iff.mpr ⟨a, ha, isSome_iff_exists.mpr ⟨r, hr⟩⟩)
  obtain ⟨b, hb, hfb⟩ := exists_of_findSome?_eq_some hfound
  obtain rfl := honly b hb (isSome_iff_exists.mpr ⟨r', hfb⟩)
  rw [hfound, ← hfb, hr]

section Search

variable {p : α → Bool} {pre post : List α}

theorem findIdx?_split {i : ℕ} (h : l.findIdx? p = some i) :
    ∃ pre c post, l = pre ++ c :: post ∧ pre.length = i ∧ p c = true ∧
      ∀ c' ∈ pre, p c' = false := by
  obtain ⟨hi, hp, hbefore⟩ := findIdx?_eq_some_iff_getElem.mp h
  refine ⟨l.take i, l[i], l.drop (i + 1), ?_, ?_, hp, fun c' hc' => ?_⟩
  · rw [getElem_cons_drop, take_append_drop]
  · rw [length_take, min_eq_left hi.le]
  · obtain ⟨j, hj, rfl⟩ := getElem_of_mem hc'
    rw [length_take] at hj
    rw [getElem_take]
    simpa using hbefore j (by omega)

theorem findIdx?_append_cons (hpre : ∀ b ∈ pre, p b = false) (ha : p a = true) :
    (pre ++ a :: post).findIdx? p = some pre.length := by
  rw [findIdx?_append, findIdx?_eq_none_iff.mpr hpre, findIdx?_cons, ha]
  simp

/-- Walking back over a prefix finds nothing when no item of it is a `p`. -/
theorem walkBack_eq_none :
    ((List.range pre.length).reverse.find? fun i => (pre ++ post)[i]?.any p) = none ↔
      ∀ c ∈ pre, p c = false := by
  rw [find?_eq_none]
  constructor
  · intro h c hc
    obtain ⟨j, hj, rfl⟩ := getElem_of_mem hc
    have := h j (by simpa using hj)
    rw [getElem?_append_left hj, getElem?_eq_getElem hj] at this
    simpa using this
  · intro h j hj
    have hj : j < pre.length := by simpa using hj
    rw [getElem?_append_left hj, getElem?_eq_getElem hj]
    simpa using h _ (getElem_mem hj)

theorem walkBack_eq_some {i : ℕ}
    (h : ((List.range pre.length).reverse.find? fun i => (pre ++ post)[i]?.any p) = some i) :
    ∃ pre₁ c pre₂, pre = pre₁ ++ c :: pre₂ ∧ pre₁.length = i ∧ p c = true := by
  have hi : i < pre.length := by simpa using mem_of_find?_eq_some h
  have hp := find?_some h
  rw [getElem?_append_left hi, getElem?_eq_getElem hi, any_some] at hp
  refine ⟨pre.take i, pre[i], pre.drop (i + 1), ?_, ?_, hp⟩
  · rw [getElem_cons_drop, take_append_drop]
  · rw [length_take, min_eq_left hi.le]

theorem walkBack_append_cons {mid : List α} {c : α} (hc : p c = true)
    (hmid : ∀ c' ∈ mid, p c' = false) :
    ((List.range (pre ++ c :: mid).length).reverse.find? fun i =>
      (pre ++ c :: mid ++ post)[i]?.any p) = some pre.length := by
  induction mid using List.reverseRecOn generalizing post with
  | nil => simp [range_succ, hc]
  | append_singleton mid x ih =>
    have hx : p x = false := hmid x (by simp)
    have hlist : pre ++ c :: (mid ++ [x]) ++ post = pre ++ c :: mid ++ x :: post := by simp
    have hlength : (pre ++ c :: (mid ++ [x])).length = (pre ++ c :: mid).length + 1 := by
      simp only [length_append, length_cons, length_nil]
      omega
    rw [hlist, hlength, range_succ, reverse_append, reverse_singleton,
      singleton_append, find?_cons_of_neg]
    · exact ih fun c' hc' => hmid c' (by simp [hc'])
    · rw [getElem?_append_right le_rfl, Nat.sub_self, getElem?_cons_zero,
        any_some, hx]
      decide

/-- The items up to the first that is a `p`, which is included. -/
def untilStop (p : α → Bool) : List α → List α
  | [] => []
  | a :: rest => if p a then [a] else a :: untilStop p rest

theorem untilStop_eq_self (h : ∀ a ∈ l, p a = false) : untilStop p l = l := by
  induction l with
  | nil => rfl
  | cons a rest ih =>
    rw [untilStop, if_neg (by simp [h a]), ih fun b hb => h b (mem_cons_of_mem _ hb)]

theorem untilStop_append_cons (hpre : ∀ b ∈ pre, p b = false) (ha : p a = true) :
    untilStop p (pre ++ a :: post) = pre ++ [a] := by
  induction pre with
  | nil => rw [nil_append, untilStop, if_pos ha, nil_append]
  | cons b pre ih =>
    rw [cons_append, untilStop, if_neg (by simp [hpre b]),
      ih fun c hc => hpre c (mem_cons_of_mem _ hc), cons_append]

theorem reverse_untilStop_reverse (hpost : ∀ b ∈ post, p b = false) (ha : p a = true) :
    (untilStop p (pre ++ a :: post).reverse).reverse = a :: post := by
  have hreverse : (pre ++ a :: post).reverse = post.reverse ++ a :: pre.reverse := by simp
  rw [hreverse, untilStop_append_cons (fun b hb => hpost b (mem_reverse.mp hb)) ha]
  simp

theorem none_or_last_stop (l : List α) :
    (∀ a ∈ l, p a = false) ∨ ∃ pre a post, l = pre ++ a :: post ∧ p a = true ∧
      ∀ b ∈ post, p b = false := by
  induction l with
  | nil => exact .inl (by simp)
  | cons a rest ih =>
    rcases ih with hnone | ⟨pre, b, post, rfl, hb, hpost⟩
    · rcases ha : p a with _ | _
      · exact .inl (by simpa [ha] using hnone)
      · exact .inr ⟨[], a, rest, rfl, ha, hnone⟩
    · exact .inr ⟨a :: pre, b, post, rfl, hb, hpost⟩

end Search

/-! ### Windows -/

theorem drop_length_succ {pre post : List α} (h : l = pre ++ a :: post) :
    l.drop (pre.length + 1) = post := by
  rw [h, drop_append]
  simp

theorem drop_take_eq (l : List α) (i limit : ℕ) :
    (l.take i).drop (i - limit) = (l.drop (i - limit)).take (min limit i) := by
  rw [drop_take]
  congr 1
  omega

theorem take_one_drop {i : ℕ} (hi : l[i]? = some a) : (l.drop i).take 1 = [a] := by
  obtain ⟨hlt, ha⟩ := List.getElem?_eq_some_iff.mp hi
  rw [drop_eq_getElem_cons hlt, ha]
  rfl

theorem getElem?_of_window {rest : List α} {i limit : ℕ} (h : a :: rest = (l.drop i).take limit) :
    l[i]? = some a := by
  have hhead := congrArg head? h
  rw [head?_take] at hhead
  split at hhead
  · cases hhead
  · rwa [head?_drop, eq_comm] at hhead

end Lists
