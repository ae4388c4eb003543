import Mathlib.Data.List.Chain
import Mathlib.Data.Int.Range
import Mathlib.Data.List.Nodup
import Mathlib.Tactic.Linarith

/-!
# Support — Consecutive

Lists whose items are numbered by consecutive integers.  Such a list is a function on the interval
it covers: an item is known by its number (`eq_of_key_eq`) and there is one for every number
between the first and the last (`exists_key_eq`).  The plainest of them are the ranges of integers
(`Int.range`), which are taken apart at the front (`range_cons`) and joined end to end
(`range_append`).
-/

namespace Consecutive

open List Option

variable {α : Type*} (key : α → ℤ)

/-- Each item is numbered one more than the item before it. -/
def Numbered (l : List α) : Prop := l.IsChain fun a b => key b = key a + 1

variable {key}

variable {l : List α}

theorem Numbered.of_cons {a : α} (h : Numbered key (a :: l)) : Numbered key l :=
  h.tail

theorem Numbered.suffix {l₁ l₂ : List α} (h : Numbered key (l₁ ++ l₂)) : Numbered key l₂ :=
  IsChain.right_of_append h

/-- In a chain each item but the first is related to the one before it. -/
theorem exists_rel_of_mem_tail {r : α → α → Prop} {a b : α}
    (h : (a :: l).IsChain r) (hb : b ∈ l) : ∃ c ∈ a :: l, r c b := by
  induction l generalizing a with
  | nil => cases hb
  | cons d l ih =>
    obtain ⟨had, hl⟩ := isChain_cons_cons.mp h
    rcases mem_cons.mp hb with rfl | hb
    · exact ⟨a, mem_cons_self, had⟩
    · obtain ⟨c, hc, hcb⟩ := ih hl hb
      exact ⟨c, mem_cons_of_mem _ hc, hcb⟩

theorem Numbered.pairwise (h : Numbered key l) : l.Pairwise fun a b => key a < key b := by
  have hmap : (l.map key).IsChain (· < ·) := (isChain_map key).mpr (h.imp fun _ _ _ => by omega)
  exact pairwise_map.mp hmap.pairwise

/-- The items after the first have larger numbers. -/
theorem Numbered.key_head_lt {a b : α} (h : Numbered key (a :: l)) (hb : b ∈ l) :
    key a < key b :=
  (pairwise_cons.mp h.pairwise).1 b hb

/-- The items before a given one have smaller numbers. -/
theorem Numbered.key_lt_of_append {a b : α} {l₁ l₂ : List α} (h : Numbered key (l₁ ++ a :: l₂))
    (hb : b ∈ l₁) : key b < key a :=
  (pairwise_append.mp h.pairwise).2.2 b hb a mem_cons_self

/-- The items after a given one are those with larger numbers. -/
theorem Numbered.mem_after_iff {a b : α} {l₁ l₂ : List α} (h : Numbered key (l₁ ++ a :: l₂)) :
    b ∈ l₂ ↔ b ∈ l₁ ++ a :: l₂ ∧ key a < key b := by
  refine ⟨fun hb => ⟨by simp [hb], h.suffix.key_head_lt hb⟩, fun ⟨hb, hlt⟩ => ?_⟩
  rcases mem_append.mp hb with hb | hb
  · exact absurd (h.key_lt_of_append hb) hlt.not_gt
  · exact (mem_cons.mp hb).resolve_left fun heq => absurd hlt (heq ▸ lt_irrefl _)

/-- Two items with one number are one item. -/
theorem Numbered.eq_of_key_eq {a b : α} (h : Numbered key l) (ha : a ∈ l)
    (hb : b ∈ l) (hab : key a = key b) : a = b := by
  have hnodup : (l.map key).Nodup := pairwise_map.mpr (h.pairwise.imp ne_of_lt)
  exact inj_on_of_nodup_map hnodup ha hb hab

/-- Looking up an item's number finds that item. -/
theorem Numbered.lookup_eq {β : Type*} {f : α → β} {a : α} (h : Numbered key l)
    (ha : a ∈ l) : (l.map fun a => (key a, f a)).lookup (key a) = some (f a) := by
  induction l with
  | nil => cases ha
  | cons c l ih =>
    rw [map_cons, lookup_cons]
    rcases mem_cons.mp ha with rfl | ha'
    · simp
    · have hne : (key a == key c) = false := by simpa using (h.key_head_lt ha').ne'
      rw [hne]
      exact ih h.of_cons ha'

/-- What a lookup finds is the value of an item with that number. -/
theorem exists_of_lookup_eq {β : Type*} {f : α → β} {n : ℤ} {b : β}
    (h : (l.map fun a => (key a, f a)).lookup n = some b) : ∃ a ∈ l, key a = n ∧ f a = b := by
  induction l with
  | nil => cases h
  | cons c l ih =>
    rw [map_cons, lookup_cons] at h
    by_cases hn : n = key c
    · refine ⟨c, mem_cons_self, hn.symm, ?_⟩
      simpa [hn] using h
    · rw [show (n == key c) = false by simpa using hn] at h
      obtain ⟨a, ha, hrest⟩ := ih h
      exact ⟨a, mem_cons_of_mem _ ha, hrest⟩

/-- Every number from the first item's to the last item's is an item's. -/
theorem Numbered.exists_key_eq {a z : α} {n : ℤ} (h : Numbered key l)
    (ha : l.head? = some a) (hz : l.getLast? = some z) (hn : key a ≤ n) (hn' : n ≤ key z) :
    ∃ b ∈ l, key b = n := by
  induction l generalizing a with
  | nil => cases ha
  | cons c l ih =>
    obtain rfl : c = a := some.inj ha
    rcases hn.eq_or_lt with rfl | hlt
    · exact ⟨c, mem_cons_self, rfl⟩
    · cases l with
      | nil =>
        obtain rfl : c = z := some.inj hz
        omega
      | cons d l =>
        obtain ⟨hd, hl⟩ := isChain_cons_cons.mp h
        obtain ⟨b, hb, hbn⟩ := ih hl rfl (by simpa using hz) (by omega)
        exact ⟨b, mem_cons_of_mem _ hb, hbn⟩

/-- The items' numbers lie between the first and the last one's. -/
theorem Numbered.key_mem_Icc {a b z : α} (h : Numbered key l)
    (ha : l.head? = some a) (hz : l.getLast? = some z) (hb : b ∈ l) :
    key a ≤ key b ∧ key b ≤ key z := by
  constructor
  · obtain ⟨l, rfl⟩ := head?_eq_some_iff.mp ha
    rcases mem_cons.mp hb with rfl | hb
    · exact le_rfl
    · exact (h.key_head_lt hb).le
  · obtain ⟨l, rfl⟩ := getLast?_eq_some_iff.mp hz
    rcases mem_append.mp hb with hb | hb
    · exact (h.key_lt_of_append hb).le
    · rw [mem_singleton.mp hb]

/-- The last item's number is the first one's and the number of items between. -/
theorem Numbered.key_last {a z : α} (h : Numbered key l) (ha : l.head? = some a)
    (hz : l.getLast? = some z) : key z + 1 = key a + l.length := by
  induction l generalizing a with
  | nil => cases ha
  | cons c l ih =>
    obtain rfl : c = a := some.inj ha
    cases l with
    | nil =>
      obtain rfl : c = z := some.inj hz
      simp
    | cons d l =>
      have hd : key d = key c + 1 := (isChain_cons_cons.mp h).1
      have := ih h.of_cons rfl (by simpa using hz)
      simp only [length_cons] at this ⊢
      push_cast at this ⊢
      omega

/-! ### Ranges -/

theorem range_eq_nil {a b : ℤ} (h : b ≤ a) : Int.range a b = [] := by
  rw [Int.range, Int.toNat_of_nonpos (by omega)]
  rfl

theorem range_cons {a b : ℤ} (h : a < b) : Int.range a b = a :: Int.range (a + 1) b := by
  obtain ⟨n, hn⟩ : ∃ n : ℕ, (b - a).toNat = n + 1 := ⟨(b - a).toNat - 1, by omega⟩
  have hrest : (b - (a + 1)).toNat = n := by omega
  rw [Int.range, Int.range, hn, hrest, List.range_succ_eq_map, List.map_cons, List.map_map]
  refine congrArg₂ _ (by simp) (List.map_congr_left fun i _ => ?_)
  simp only [Function.comp_apply]
  push_cast
  omega

theorem nodup_range (a b : ℤ) : (Int.range a b).Nodup :=
  List.pairwise_map.mpr (List.nodup_range.imp fun hne h => hne (by omega))

@[simp] theorem length_range (a b : ℤ) : (Int.range a b).length = (b - a).toNat := by
  simp [Int.range]

theorem range_append {a b c : ℤ} (hab : a ≤ b) (hbc : b ≤ c) :
    Int.range a b ++ Int.range b c = Int.range a c := by
  obtain ⟨n, rfl⟩ : ∃ n : ℕ, b = a + n := ⟨(b - a).toNat, by omega⟩
  induction n generalizing a with
  | zero => simp [range_eq_nil]
  | succ n ih =>
    have hn : a + ((n + 1 : ℕ) : ℤ) = a + 1 + (n : ℤ) := by
      push_cast
      omega
    rw [hn] at hbc ⊢
    rw [range_cons (by omega : a < a + 1 + (n : ℤ)), range_cons (by omega : a < c),
      cons_append, ih (by omega) hbc]

theorem prefix_range (a : ℤ) {b c : ℤ} (hbc : b ≤ c) : Int.range a b <+: Int.range a c := by
  rcases le_total a b with hab | hba
  · exact ⟨Int.range b c, range_append hab hbc⟩
  · rw [range_eq_nil hba]
    exact nil_prefix

end Consecutive
