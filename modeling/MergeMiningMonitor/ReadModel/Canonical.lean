import MergeMiningMonitor.Support.Ordered
import MergeMiningMonitor.ReadModel.Rows

/-!
# Read model — Canonical

The canonical blocks at given heights.  There may be none at a height, or several: the evidence of
a new active block can be reconciled before the block it displaces is demoted.

`canonicalBetween` is the query that the repair planner, the suffix replacement and the cursor all
start from.  Its result over a part of a height range is the part of its result over the range
(`canonicalBetween_filter`).
-/

namespace MergeMiningMonitor

open Relational Ordered List Option

variable {Hash : Type} [LinearOrder Hash]

namespace ReadModel

/-- `b` is a canonical block at height `n`. -/
def CanonicalAt (m : ReadModel Hash) (n : Int) (b : Block Hash) : Prop :=
  m.blocks.find? b.hash = some b ∧ b.kind = .canonical ∧ b.height = some n

/-- The heights and rows of canonical blocks between two heights, in order of height and hash. -/
def canonicalBetween (m : ReadModel Hash) (lo hi : Int) : List (Int × Block Hash) :=
  orderByKey (fun r => (r.1, r.2.hash)) (m.blocks.rows.filterMap fun b =>
    match b.kind, b.height with
    | .canonical, some n => if lo ≤ n ∧ n ≤ hi then some (n, b) else none
    | _, _ => none)

theorem mem_canonicalBetween {m : ReadModel Hash} {lo hi n : Int} {b : Block Hash} :
    (n, b) ∈ m.canonicalBetween lo hi ↔ m.CanonicalAt n b ∧ lo ≤ n ∧ n ≤ hi := by
  rw [canonicalBetween, mem_orderByKey, mem_filterMap]
  constructor
  · rintro ⟨b', hb', h⟩
    split at h
    · next n' hkind hheight =>
        split at h
        · next hrange =>
            cases h
            exact ⟨⟨Table.find?_key hb', hkind, hheight⟩, hrange⟩
        · cases h
    · cases h
  · rintro ⟨⟨hb, hkind, hheight⟩, hrange⟩
    exact ⟨b, Table.mem_of_find? hb, by simp [hkind, hheight, hrange]⟩

theorem nodup_canonicalBetween (m : ReadModel Hash) (lo hi : Int) :
    (m.canonicalBetween lo hi).Nodup := by
  rw [canonicalBetween, (perm_orderByKey _ _).nodup_iff]
  refine (Nodup.of_map _ m.blocks.keys_nodup).filterMap fun b b' r hb hb' => ?_
  have hrow : ∀ b : Block Hash, (r ∈ match b.kind, b.height with
      | .canonical, some n => if lo ≤ n ∧ n ≤ hi then some (n, b) else none
      | _, _ => none) → r.2 = b := by
    intro b hb
    split at hb
    · split at hb
      · cases hb
        rfl
      · cases hb
    · cases hb
  exact (hrow b hb).symm.trans (hrow b' hb')

/-- The result over a part of a range is the part of the result over the range. -/
theorem canonicalBetween_filter (m : ReadModel Hash) {lo hi lo' hi' : Int} (hlo : lo ≤ lo')
    (hhi : hi' ≤ hi) :
    (m.canonicalBetween lo hi).filter (fun r => decide (lo' ≤ r.1 ∧ r.1 ≤ hi')) =
      m.canonicalBetween lo' hi' := by
  rw [canonicalBetween, filter_orderByKey]
  · rw [canonicalBetween, filter_filterMap]
    congr 2
    funext b
    split
    · next n _ _ =>
        by_cases hn : lo' ≤ n ∧ n ≤ hi'
        · have : lo ≤ n ∧ n ≤ hi := by omega
          simp [hn, this]
        · rw [if_neg hn]
          by_cases hn' : lo ≤ n ∧ n ≤ hi
          · rw [if_pos hn', filter_some_neg (by simpa using hn)]
          · rw [if_neg hn', filter_none]
    · rfl
  · rintro ⟨n, b⟩ hb ⟨n', b'⟩ hb' hkey
    have hrow := (mem_canonicalBetween.mp (mem_orderByKey.mpr hb)).1.1
    have hrow' := (mem_canonicalBetween.mp (mem_orderByKey.mpr hb')).1.1
    obtain ⟨hn, hhash⟩ := Prod.mk.inj hkey
    rw [hhash, hrow'] at hrow
    exact Prod.ext hn (some.inj hrow).symm

end ReadModel

end MergeMiningMonitor
