import Mathlib.Data.List.Perm.Basic
import Mathlib.Data.Option.Basic

/-!
# Support — Coalesce

Nullable columns that are filled by many writes.  A write states a value for some of the columns of
a row; the row keeps what it has and takes over what it lacks (`COALESCE`, which is `Option.or`),
and a guard compares the two where both have a value (`Agree`).

`Collects f ps x` says what such a column is after the writes `ps`: the one value that any of them
states, and null where none states one.  It is kept by every write that agrees (`Collects.snoc`), it
turns agreement with the stored value into agreement with every write before
(`Collects.agree_iff`), and it depends on which writes there were only, not on their order
(`Collects.perm`, `Collects.unique`).
-/

namespace Coalesce

section Column

variable {α ι : Type*} {x y : Option α} {f : ι → Option α} {ps qs : List ι} {p q : ι}

/-- `x IS NULL OR y IS NULL OR x = y` -/
def Agree (x y : Option α) : Prop := x = none ∨ y = none ∨ x = y

instance [DecidableEq α] : Decidable (Agree x y) :=
  inferInstanceAs (Decidable (x = none ∨ y = none ∨ x = y))

theorem agree_iff : Agree x y ↔ ∀ v w, x = some v → y = some w → v = w := by
  cases x with
  | none => simp [Agree]
  | some v =>
    cases y with
    | none => simp [Agree]
    | some w => simp [Agree]

@[simp] theorem agree_none_left : Agree none y := .inl rfl

@[simp] theorem agree_self : Agree x x := .inr (.inr rfl)

/-- The column holds the value that any of the writes states, and is null where none does. -/
def Collects (f : ι → Option α) (ps : List ι) (x : Option α) : Prop :=
  ∀ v, x = some v ↔ ∃ p ∈ ps, f p = some v

theorem collects_singleton : Collects f [p] (f p) := by
  intro v
  simp

theorem Collects.eq_some (h : Collects f ps x) {v : α} (hp : p ∈ ps) (hv : f p = some v) :
    x = some v :=
  (h v).mpr ⟨p, hp, hv⟩

/-- Null means that no write states a value. -/
theorem Collects.eq_none_iff (h : Collects f ps x) : x = none ↔ ∀ p ∈ ps, f p = none := by
  constructor
  · intro hx p hp
    cases hv : f p with
    | none => rfl
    | some v => rw [h.eq_some hp hv] at hx; cases hx
  · intro hall
    cases hx : x with
    | none => rfl
    | some v =>
      obtain ⟨p, hp, hv⟩ := (h v).mp hx
      rw [hall p hp] at hv
      cases hv

/-- A value agrees with the column exactly when it agrees with every write. -/
theorem Collects.agree_iff (h : Collects f ps x) : Agree x y ↔ ∀ p ∈ ps, Agree (f p) y := by
  rw [Coalesce.agree_iff]
  constructor
  · intro hxy p hp
    exact Coalesce.agree_iff.mpr fun v w hv hw => hxy v w (h.eq_some hp hv) hw
  · intro hall v w hv hw
    obtain ⟨p, hp, hpv⟩ := (h v).mp hv
    exact Coalesce.agree_iff.mp (hall p hp) v w hpv hw

/-- The writes that a column collects agree with one another. -/
theorem Collects.agree (h : Collects f ps x) (hp : p ∈ ps) (hq : q ∈ ps) : Agree (f p) (f q) :=
  Coalesce.agree_iff.mpr fun _ _ hv hw =>
    Option.some.inj ((h.eq_some hp hv).symm.trans (h.eq_some hq hw))

/-- One more write that agrees. -/
theorem Collects.snoc (h : Collects f ps x) (hp : Agree x (f p)) :
    Collects f (ps ++ [p]) (x.or (f p)) := by
  intro v
  have hmem : (∃ q ∈ ps ++ [p], f q = some v) ↔ x = some v ∨ f p = some v := by
    rw [h v]
    simp [or_and_right, exists_or]
  rw [hmem, Option.or_eq_some_iff]
  constructor
  · rintro (hx | ⟨-, hv⟩)
    · exact .inl hx
    · exact .inr hv
  · rintro (hx | hv)
    · exact .inl hx
    · cases hx : x with
      | none => exact .inr ⟨rfl, hv⟩
      | some w => exact .inl (congrArg some (Coalesce.agree_iff.mp hp w v hx hv))

/-- A column is determined by the writes it collects. -/
theorem Collects.unique (hx : Collects f ps x) (hy : Collects f ps y) : x = y :=
  Option.ext fun v => (hx v).trans (hy v).symm

/-- The order of the writes does not matter. -/
theorem Collects.perm (h : Collects f ps x) (hperm : ps.Perm qs) : Collects f qs x := by
  intro v
  rw [h v]
  exact exists_congr fun p => and_congr_left fun _ => hperm.mem_iff

end Column

section Record

variable {C : Type*} {V : C → Type*}

/-- The nullable columns of a row. -/
abbrev Record (V : C → Type*) := (c : C) → Option (V c)

/-- Two rows agree on the columns `cs`. -/
def AgreeOn (cs : List C) (r r' : Record V) : Prop := ∀ c ∈ cs, Agree (r c) (r' c)

instance [∀ c, DecidableEq (V c)] {cs : List C} {r r' : Record V} : Decidable (AgreeOn cs r r') :=
  inferInstanceAs (Decidable (∀ c ∈ cs, Agree (r c) (r' c)))

/-- `column = COALESCE(r.column, r'.column)` for every column. -/
def fill (r r' : Record V) : Record V := fun c => (r c).or (r' c)

end Record

end Coalesce
