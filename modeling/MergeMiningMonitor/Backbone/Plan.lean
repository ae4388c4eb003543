import MergeMiningMonitor.Support.Lists
import MergeMiningMonitor.Support.Consecutive
import MergeMiningMonitor.ReadModel.Canonical
import MergeMiningMonitor.CoreSuffix.Status

/-!
# Backbone — Plan

The repair planner of the reorg repair (`reorg.rs`).  It compares a view of Core's active chain
with the local canonical rows at the same heights, of which there may be any number.  A local row
with another hash than Core's is a conflict; a usable anchor is a height with a single, complete
row of Core's hash.  The plan is to replace everything above the nearest usable anchor below the
first conflict.

The planner finds no conflict exactly when there is none (`planRepair_eq_noHashConflict`), fails
exactly when no anchor is below the first conflict (`planRepair_eq_error`), and otherwise splits the
view at an anchor with the conflicts above it (`planRepair_eq_replaceFrom`).
-/

namespace MergeMiningMonitor

open FixedWidth Consecutive Lists List Option

variable {Hash : Type}

/-- One block of Core's active chain, as captured. -/
structure CoreViewRow (Hash : Type) where
  height : Int
  hash : Hash
  header : Header Hash

/-- One local canonical row. -/
structure LocalCanonicalRow (Hash : Type) where
  height : Int
  hash : Hash
  prevHash : Hash
  coinbaseStatus : CoreCoinbaseStatus

/-- A captured view of Core's active chain: not empty, ascending and hash-linked. -/
structure CoreView (blockHash : Header Hash → Hash) where
  rows : List (CoreViewRow Hash)
  ne_nil : rows ≠ []
  hash_eq : ∀ c ∈ rows, c.hash = blockHash c.header
  linked : rows.IsChain fun a b =>
    b.height = a.height + 1 ∧ b.header.prevBlockhash = blockHash a.header
  in_range : ∀ c ∈ rows, InI32 c.height

theorem CoreView.numbered {blockHash : Header Hash → Hash} (view : CoreView blockHash) :
    Numbered (·.height) view.rows :=
  view.linked.imp fun _ _ h => h.1

inductive RepairPlan
  | noHashConflict
  | replaceFrom (firstReplacementIndex : Nat)
deriving DecidableEq

inductive RepairPlanError
  | noMatchingAnchor (firstDivergenceHeight firstConflictHeight viewStart viewEnd : Int)
deriving DecidableEq

variable [LinearOrder Hash]

def loadLocalCanonicalRows (m : ReadModel Hash) (fromHeight toHeight : Int) :
    List (LocalCanonicalRow Hash) :=
  (m.canonicalBetween fromHeight toHeight).map fun r =>
    ⟨r.1, r.2.hash, r.2.prevHash, r.2.coinbaseStatus⟩

/-- Some local row at the height has another hash than Core's. -/
def conflicts (localRows : List (LocalCanonicalRow Hash)) (core : CoreViewRow Hash) : Bool :=
  (localRows.filter (·.height = core.height)).any (·.hash ≠ core.hash)

/-- The height has a single, complete local row of Core's hash. -/
def usableAnchor (localRows : List (LocalCanonicalRow Hash)) (core : CoreViewRow Hash) : Bool :=
  match localRows.filter (·.height = core.height) with
  | [row] => row.hash = core.hash && row.coinbaseStatus = .complete
  | _ => false

def planRepair (coreView : List (CoreViewRow Hash)) (localRows : List (LocalCanonicalRow Hash)) :
    Except RepairPlanError RepairPlan :=
  match coreView.findIdx? (conflicts localRows) with
  | none => .ok .noHashConflict
  | some firstConflictIndex =>
    let heightOf := fun c : Option (CoreViewRow Hash) => (c.map (·.height)).getD 0
    -- walk back from the conflict to the nearest usable anchor
    match (List.range firstConflictIndex).reverse.find? fun i =>
        coreView[i]?.any (usableAnchor localRows) with
    | some anchorIndex => .ok (.replaceFrom (anchorIndex + 1))
    | none =>
      let firstDivergence := (coreView.take (firstConflictIndex + 1)).find? fun c =>
        !usableAnchor localRows c
      .error (.noMatchingAnchor (heightOf (firstDivergence <|> coreView.head?))
        (heightOf coreView[firstConflictIndex]?) (heightOf coreView.head?)
        (heightOf coreView.getLast?))

variable {core : CoreViewRow Hash} {localRows : List (LocalCanonicalRow Hash)}
  {coreView : List (CoreViewRow Hash)}

theorem conflicts_eq_true : conflicts localRows core = true ↔
      ∃ row ∈ localRows, row.height = core.height ∧ row.hash ≠ core.hash := by
  simp [conflicts]

theorem usableAnchor_eq_true : usableAnchor localRows core = true ↔
      ∃ row, (localRows.filter fun row => row.height = core.height) = [row] ∧
        row.hash = core.hash ∧ row.coinbaseStatus = .complete := by
  rw [usableAnchor]
  generalize (localRows.filter fun row => row.height = core.height) = rows
  rcases rows with _ | ⟨row, _ | ⟨row', rest⟩⟩ <;> simp

theorem conflicts_of_usableAnchor (h : usableAnchor localRows core = true) :
    conflicts localRows core = false := by
  obtain ⟨row, hrows, hhash, -⟩ := usableAnchor_eq_true.mp h
  simp [conflicts, hrows, hhash]

/-- The planner finds no conflict exactly when every local row at a height of the view has Core's
hash. -/
theorem planRepair_eq_noHashConflict : planRepair coreView localRows = .ok .noHashConflict ↔
      ∀ core ∈ coreView, ∀ row ∈ localRows, row.height = core.height → row.hash = core.hash := by
  have hnone : coreView.findIdx? (conflicts localRows) = none ↔
      ∀ core ∈ coreView, ∀ row ∈ localRows, row.height = core.height → row.hash = core.hash := by
    rw [findIdx?_eq_none_iff]
    refine forall₂_congr fun core _ => ?_
    rw [← Bool.not_eq_true, conflicts_eq_true]
    push Not
    rfl
  rw [← hnone, planRepair]
  split
  · next h => simp [h]
  · next i h =>
      rw [h]
      split <;> simp

/-- The planner fails exactly when there is a conflict and no usable anchor below the first. -/
theorem planRepair_eq_error : (∃ e, planRepair coreView localRows = .error e) ↔
      ∃ pre core post, coreView = pre ++ core :: post ∧ conflicts localRows core = true ∧
        (∀ c ∈ pre, conflicts localRows c = false) ∧
        ∀ c ∈ pre, usableAnchor localRows c = false := by
  constructor
  · rintro ⟨e, h⟩
    rw [planRepair] at h
    split at h
    · cases h
    · next i hi =>
        obtain ⟨pre, core, post, rfl, rfl, hcore, hpre⟩ := findIdx?_split hi
        split at h
        · cases h
        · next hnone => exact ⟨pre, core, post, rfl, hcore, hpre, walkBack_eq_none.mp hnone⟩
  · rintro ⟨pre, core, post, rfl, hcore, hpre, hanchor⟩
    rw [planRepair, findIdx?_append_cons hpre hcore]
    simp only [walkBack_eq_none.mpr hanchor]
    exact ⟨_, rfl⟩

/-- A replacement plan splits the view at a usable anchor: no conflict up to it, some conflict
above it. -/
theorem planRepair_eq_replaceFrom {i : Nat}
    (h : planRepair coreView localRows = .ok (.replaceFrom i)) :
    ∃ pre anchor post, coreView = pre ++ anchor :: post ∧ i = pre.length + 1 ∧
      usableAnchor localRows anchor = true ∧
      (∀ c ∈ pre, conflicts localRows c = false) ∧
      ∃ c ∈ post, conflicts localRows c = true := by
  rw [planRepair] at h
  split at h
  · cases h
  · next ci hci =>
      obtain ⟨before, core, after, rfl, rfl, hcore, hbefore⟩ := findIdx?_split hci
      split at h
      · next a ha =>
          obtain ⟨pre, anchor, between, rfl, rfl, hanchor⟩ := walkBack_eq_some ha
          cases h
          refine ⟨pre, anchor, between ++ core :: after, by simp, rfl, hanchor, fun c hc => ?_, core,
            by simp, hcore⟩
          exact hbefore c (mem_append_left _ hc)
      · cases h

/-- Below a usable anchor without a conflict below it and without an anchor above it, the plan does
not look. -/
theorem planRepair_of_split {pre post : List (CoreViewRow Hash)} {anchor : CoreViewRow Hash}
    (hanchor : usableAnchor localRows anchor = true)
    (hpre : ∀ c ∈ pre, conflicts localRows c = false)
    (hpost : ∀ c ∈ post, usableAnchor localRows c = false)
    (hconflict : ∃ c ∈ post, conflicts localRows c = true) :
    planRepair (pre ++ anchor :: post) localRows = .ok (.replaceFrom (pre.length + 1)) := by
  obtain ⟨i, hi⟩ : ∃ i, post.findIdx? (conflicts localRows) = some i := by
    refine ne_none_iff_exists'.mp fun hnone => ?_
    obtain ⟨c, hc, hconflict⟩ := hconflict
    exact absurd (findIdx?_eq_none_iff.mp hnone c hc) (by simp [hconflict])
  obtain ⟨mid, core, rest, rfl, -, hcore, hmid⟩ := findIdx?_split hi
  have hsplit : pre ++ anchor :: (mid ++ core :: rest) = pre ++ anchor :: mid ++ core :: rest := by
    simp
  have hfirst : ∀ c ∈ pre ++ anchor :: mid, conflicts localRows c = false := by
    intro c hc
    rcases mem_append.mp hc with hc | hc
    · exact hpre c hc
    · rcases mem_cons.mp hc with rfl | hc
      · exact conflicts_of_usableAnchor hanchor
      · exact hmid c hc
  rw [planRepair, hsplit, findIdx?_append_cons hfirst hcore]
  simp only [walkBack_append_cons hanchor fun c hc => hpost c (mem_append_left _ hc)]

end MergeMiningMonitor
