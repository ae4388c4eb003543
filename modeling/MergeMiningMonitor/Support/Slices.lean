import Mathlib.Algebra.Group.Int.Defs
import Mathlib.Algebra.Group.Nat.Defs
import Mathlib.Data.List.Infix
import Mathlib.Data.List.Nodup

/-!
# Support — Slices

Searching a list for a slice, and numbers in bytes.  `windows` are the slices of one
length in order; a search finds the first window that is the slice (`findSubslice_eq_some`), and
the positions of all of them are `occurrences` (`mem_occurrences`).
-/

namespace Slices

open List

variable {α : Type*}

/-- The slices of length `n`, in order. -/
def windows (n : Nat) : List α → List (List α)
  | [] => []
  | a :: l => if n ≤ (a :: l).length then (a :: l).take n :: windows n l else []

/-- The slice stands at a position. -/
def OccursAt (needle l : List α) (i : Nat) : Prop := needle <+: l.drop i

theorem getElem?_windows {n : Nat} (hn : 0 < n) {l : List α} {i : Nat} {w : List α} :
    (windows n l)[i]? = some w ↔ w.length = n ∧ OccursAt w l i := by
  induction l generalizing i with
  | nil =>
    simp only [windows, getElem?_nil, reduceCtorEq, OccursAt, drop_nil,
      prefix_nil, false_iff, not_and]
    rintro hlen rfl
    exact absurd hlen (by simpa using hn.ne)
  | cons a l ih =>
    rw [windows]
    split
    · next hle =>
        cases i with
        | zero =>
          simp only [getElem?_cons_zero, Option.some.injEq, OccursAt, drop_zero]
          constructor
          · rintro rfl
            exact ⟨length_take_of_le hle, take_prefix _ _⟩
          · rintro ⟨rfl, hw⟩
            exact (prefix_iff_eq_take.mp hw).symm
        | succ i =>
          rw [getElem?_cons_succ, ih]
          rfl
    · next hle =>
        simp only [getElem?_nil, reduceCtorEq, OccursAt, false_iff, not_and]
        intro hlen hw
        have hshort := hw.length_le
        rw [length_drop] at hshort
        omega

section Search

variable [DecidableEq α]

/-- `haystack.windows(needle.len()).position(|window| window == needle)` -/
def findSubslice (haystack needle : List α) : Option Nat :=
  (windows needle.length haystack).findIdx? (· = needle)

/-- The positions of a slice, in order. -/
def occurrences (needle l : List α) : List Nat :=
  ((windows needle.length l).zipIdx.filter (·.1 = needle)).map (·.2)

omit [DecidableEq α] in
theorem getElem?_windows_self {needle l : List α} (hne : needle ≠ []) {i : Nat} :
    (windows needle.length l)[i]? = some needle ↔ OccursAt needle l i := by
  rw [getElem?_windows (length_pos_iff.mpr hne)]
  exact and_iff_right rfl

/-- A search finds the first position of the slice. -/
theorem findSubslice_eq_some {haystack needle : List α} (hne : needle ≠ []) {i : Nat} :
    findSubslice haystack needle = some i ↔
      OccursAt needle haystack i ∧ ∀ j < i, ¬ OccursAt needle haystack j := by
  rw [findSubslice, findIdx?_eq_some_iff_getElem]
  constructor
  · rintro ⟨hlt, hhere, hbefore⟩
    refine ⟨(getElem?_windows_self hne).mp ?_, fun j hj hoccurs => ?_⟩
    · rw [getElem?_eq_getElem hlt, of_decide_eq_true hhere]
    · have hget := (getElem?_windows_self hne).mpr hoccurs
      rw [getElem?_eq_getElem (hj.trans hlt)] at hget
      exact hbefore j hj (decide_eq_true (Option.some.inj hget))
  · rintro ⟨hhere, hbefore⟩
    obtain ⟨hlt, hget⟩ := List.getElem?_eq_some_iff.mp ((getElem?_windows_self hne).mpr hhere)
    refine ⟨hlt, decide_eq_true hget, fun j hj hoccurs => hbefore j hj ?_⟩
    rw [← getElem?_windows_self hne, List.getElem?_eq_getElem (hj.trans hlt),
      of_decide_eq_true hoccurs]

theorem findSubslice_eq_none {haystack needle : List α} (hne : needle ≠ []) :
    findSubslice haystack needle = none ↔ ∀ i, ¬ OccursAt needle haystack i := by
  rw [findSubslice, findIdx?_eq_none_iff]
  constructor
  · intro hnone i hoccurs
    have hmem := mem_of_getElem? ((getElem?_windows_self hne).mpr hoccurs)
    exact of_decide_eq_false (hnone needle hmem) rfl
  · intro hnone w hw
    refine decide_eq_false ?_
    rintro rfl
    obtain ⟨i, hget⟩ := mem_iff_getElem?.mp hw
    exact hnone i ((getElem?_windows_self hne).mp hget)

theorem mem_occurrences {needle l : List α} (hne : needle ≠ []) {i : Nat} :
    i ∈ occurrences needle l ↔ OccursAt needle l i := by
  rw [← getElem?_windows_self hne, occurrences]
  simp only [mem_map, mem_filter, Prod.exists, mem_zipIdx_iff_getElem?]
  constructor
  · rintro ⟨w, j, ⟨hget, hw⟩, rfl⟩
    rwa [of_decide_eq_true hw] at hget
  · intro hget
    exact ⟨needle, i, ⟨hget, decide_eq_true rfl⟩, rfl⟩

/-- A slice that stands at one position only has that one occurrence. -/
theorem occurrences_eq_singleton {needle l : List α} (hne : needle ≠ []) {i : Nat} :
    occurrences needle l = [i] ↔
      OccursAt needle l i ∧ ∀ j, OccursAt needle l j → j = i := by
  have hnodup : (occurrences needle l).Nodup := by
    refine (Pairwise.sublist (Sublist.map _ filter_sublist) ?_ :
      (occurrences needle l).Pairwise (· ≠ ·))
    rw [zipIdx_map_snd]
    exact nodup_range'
  constructor
  · intro h
    simp only [← mem_occurrences hne, h, mem_singleton, true_and, imp_self, implies_true]
  · rintro ⟨hhere, honly⟩
    refine Perm.eq_singleton ((perm_ext_iff_of_nodup hnodup (nodup_singleton i)).mpr
      fun j => ?_)
    rw [mem_occurrences hne, mem_singleton]
    exact ⟨honly j, fun h => h ▸ hhere⟩

end Search

/-! ### Little-endian numbers -/

/-- The number that bytes stand for, lowest byte first. -/
def ofLeBytes : List UInt8 → Nat
  | [] => 0
  | b :: bs => b.toNat + 256 * ofLeBytes bs

/-- The `k` lowest bytes of a number, lowest first. -/
def toLeBytes : Nat → Nat → List UInt8
  | 0, _ => []
  | k + 1, n => UInt8.ofNat n :: toLeBytes k (n / 256)

@[simp] theorem length_toLeBytes (k n : Nat) : (toLeBytes k n).length = k := by
  induction k generalizing n with
  | zero => rfl
  | succ k ih => rw [toLeBytes, length_cons, ih]

theorem ofLeBytes_toLeBytes (k n : Nat) : ofLeBytes (toLeBytes k n) = n % 256 ^ k := by
  induction k generalizing n with
  | zero => rw [toLeBytes, ofLeBytes, Nat.pow_zero, Nat.mod_one]
  | succ k ih =>
    have hpow : 256 ^ (k + 1) = 256 * 256 ^ k := Nat.pow_succ'
    have hbyte : (UInt8.ofNat n).toNat = n % 256 := UInt8.toNat_ofNat'
    rw [toLeBytes, ofLeBytes, ih, hbyte, hpow, Nat.mod_mul]

/-! ### Big-endian numbers -/

def ofBeBytes : List UInt8 → Nat
  | [] => 0
  | b :: bytes => b.toNat * 256 ^ bytes.length + ofBeBytes bytes

def toBeBytes : Nat → Nat → List UInt8
  | 0, _ => []
  | k + 1, n => UInt8.ofNat (n / 256 ^ k) :: toBeBytes k (n % 256 ^ k)

@[simp] theorem length_toBeBytes (k n : Nat) : (toBeBytes k n).length = k := by
  induction k generalizing n with
  | zero => rfl
  | succ k ih => rw [toBeBytes, length_cons, ih]

theorem ofBeBytes_lt (bytes : List UInt8) : ofBeBytes bytes < 256 ^ bytes.length := by
  induction bytes with
  | nil => exact Nat.one_pos
  | cons b bytes ih =>
    rw [ofBeBytes, length_cons, Nat.pow_succ, Nat.mul_comm _ 256]
    refine (Nat.add_lt_add_left ih _).trans_le ?_
    rw [← Nat.succ_mul]
    exact Nat.mul_le_mul_right _ b.toNat_lt

theorem toBeBytes_ofBeBytes (bytes : List UInt8) : toBeBytes bytes.length (ofBeBytes bytes) = bytes := by
  induction bytes with
  | nil => rfl
  | cons b bytes ih =>
    have hlt := ofBeBytes_lt bytes
    rw [ofBeBytes, length_cons, toBeBytes, Nat.add_comm,
      Nat.add_mul_div_right _ _ (Nat.pow_pos (by decide)), Nat.div_eq_of_lt hlt, Nat.zero_add,
      UInt8.ofNat_toNat, Nat.add_mul_mod_self_right,
      Nat.mod_eq_of_lt hlt, ih]

theorem ofBeBytes_toBeBytes {k n : Nat} (h : n < 256 ^ k) : ofBeBytes (toBeBytes k n) = n := by
  induction k generalizing n with
  | zero => exact (Nat.lt_one_iff.mp h).symm
  | succ k ih =>
    have hfirst : n / 256 ^ k < 256 := Nat.div_lt_of_lt_mul (by rwa [Nat.pow_succ] at h)
    rw [toBeBytes, ofBeBytes, length_toBeBytes, ih (Nat.mod_lt _ (Nat.pow_pos (by decide))),
      UInt8.toNat_ofNat_of_lt' hfirst, Nat.div_add_mod']

end Slices
