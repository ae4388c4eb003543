import Mathlib.Data.List.Induction
import Mathlib.Data.List.ReduceOption

/-!
# Support — Fallible

Programs that may fail, as `Except` computations.  A program that succeeds has taken every one of
its steps successfully (`bind_eq_ok`), a check that passes has found its condition to hold or its
value to be there (`ensure_eq_ok`, `required_eq_ok`), and a loop that runs to its end keeps what each
of its iterations keeps (`foldlM_invariant`).

`Succeeds x p Q` is the specification of a program that succeeds exactly when `p` holds, with a
result that is a `Q`; specifications of consecutive steps compose (`Succeeds.bind`).
-/

namespace Fallible

open List

universe u

variable {ε ε' ι : Type*} {α β σ : Type u}

/-- Fail with `e` unless `p` holds. -/
def ensure (p : Prop) [Decidable p] (e : ε) : Except ε Unit :=
  if p then .ok () else .error e

@[simp] theorem ensure_eq_ok {p : Prop} [Decidable p] {e : ε} {u : Unit} :
    ensure p e = .ok u ↔ p := by
  by_cases h : p <;> simp [ensure, h]

/-- Fail with `e` unless there is a value. -/
def required (x : Option α) (e : ε) : Except ε α := x.elim (.error e) .ok

@[simp] theorem required_eq_ok {x : Option α} {e : ε} {a : α} :
    required x e = .ok a ↔ x = some a := by
  cases x <;> simp [required]

theorem required_map {x : Option α} {e : ε} (g : α → β) :
    required (x.map g) e = (required x e >>= fun a => .ok (g a)) := by
  cases x <;> rfl

theorem bind_eq_ok {x : Except ε α} {f : α → Except ε β} {b : β} :
    (x >>= f) = .ok b ↔ ∃ a, x = .ok a ∧ f a = .ok b := by
  cases x with
  | error => simp [bind, Except.bind]
  | ok a => simp [bind, Except.bind]

theorem map_eq_ok {x : Except ε α} {f : α → β} {b : β} :
    f <$> x = .ok b ↔ ∃ a, x = .ok a ∧ f a = b := by
  cases x with
  | error => simp [Functor.map, Except.map]
  | ok a => simp [Functor.map, Except.map]

theorem mapError_eq_ok {x : Except ε α} {f : ε → ε'} {a : α} :
    x.mapError f = .ok a ↔ x = .ok a := by
  cases x with
  | error => simp [Except.mapError]
  | ok => simp [Except.mapError]

/-- A loop of checks passes if every check does. -/
theorem forM_eq_ok {f : α → Except ε Unit} {as : List α} :
    as.forM f = .ok () ↔ ∀ a ∈ as, f a = .ok () := by
  induction as with
  | nil => exact ⟨fun _ a ha => absurd ha not_mem_nil, fun _ => rfl⟩
  | cons a as ih =>
    have hcons : (a :: as).forM f = f a >>= fun _ => as.forM f := rfl
    rw [hcons, bind_eq_ok, forall_mem_cons]
    constructor
    · rintro ⟨_, ha, has⟩
      exact ⟨ha, ih.mp has⟩
    · rintro ⟨ha, has⟩
      exact ⟨(), ha, ih.mpr has⟩

/-- A loop of programs that all succeed. -/
theorem mapM_eq_ok_map {f : α → Except ε β} {g : α → β} {as : List α} (h : ∀ a ∈ as, f a = .ok (g a)) :
    as.mapM f = .ok (as.map g) := by
  induction as with
  | nil => rfl
  | cons a as ih =>
    rw [mapM_cons, h a mem_cons_self, ih fun b hb => h b (mem_cons_of_mem _ hb)]
    rfl

/-- A traversal in which every item has a value. -/
theorem mapM_eq_some_map {f : α → Option β} {g : α → β} {as : List α} (h : ∀ a ∈ as, f a = some (g a)) :
    as.mapM f = some (as.map g) := by
  induction as with
  | nil => rfl
  | cons a as ih =>
    rw [mapM_cons, h a mem_cons_self, ih fun b hb => h b (mem_cons_of_mem _ hb)]
    rfl

/-- What a loop of programs that may skip an item collects. -/
theorem mapM_reduceOption {f : α → Except ε (Option β)} {as : List α} {bs : List (Option β)}
    (h : as.mapM f = .ok bs) : bs.reduceOption = as.filterMap fun a => (f a).toOption.join := by
  induction as generalizing bs with
  | nil =>
    cases h
    rfl
  | cons a as ih =>
    rw [mapM_cons] at h
    obtain ⟨b, hb, h⟩ := bind_eq_ok.mp h
    obtain ⟨bs', hbs', h⟩ := bind_eq_ok.mp h
    cases h
    rw [filterMap_cons, hb, ← ih hbs']
    cases b <;> rfl

theorem toOption_eq_some {x : Except ε α} {a : α} (h : x.toOption = some a) : x = .ok a := by
  cases x with
  | error => cases h
  | ok b => exact congrArg _ (Option.some.inj h)

/-- A program that was run and whose result was checked. -/
theorem exists_of_any {x : Option α} {P : α → Prop} [DecidablePred P]
    (h : x.any (fun a => decide (P a)) = true) : ∃ a, x = some a ∧ P a := by
  cases x with
  | none => cases h
  | some a => exact ⟨a, rfl, of_decide_eq_true h⟩

theorem exists_of_any_toOption {x : Except ε α} {P : α → Prop} [DecidablePred P]
    (h : x.toOption.any (fun a => decide (P a)) = true) : ∃ a, x = .ok a ∧ P a := by
  obtain ⟨a, hx, ha⟩ := exists_of_any h
  exact ⟨a, toOption_eq_some hx, ha⟩

/-- The program succeeds exactly when `p` holds, and then with a `Q`. -/
structure Succeeds (x : Except ε α) (p : Prop) (Q : α → Prop) : Prop where
  complete : p → ∃ a, x = .ok a
  sound : ∀ a, x = .ok a → p ∧ Q a

namespace Succeeds

variable {x : Except ε α} {f : α → Except ε β} {p q : Prop} {Q Q' : α → Prop} {R : β → Prop}

theorem required {x : Option α} {e : ε} (hcomplete : p → ∃ a, x = some a)
    (hsound : ∀ a, x = some a → p ∧ Q a) : Succeeds (required x e) p Q where
  complete := fun hp => (hcomplete hp).imp fun _ => required_eq_ok.mpr
  sound := fun a ha => hsound a (required_eq_ok.mp ha)

/-- Two steps succeed when both conditions hold; the second may rely on the first. -/
theorem bind (hx : Succeeds x p Q) (hf : ∀ a, p → Q a → Succeeds (f a) q R) :
    Succeeds (x >>= f) (p ∧ q) R where
  complete := by
    rintro ⟨hp, hq⟩
    obtain ⟨a, ha⟩ := hx.complete hp
    obtain ⟨b, hb⟩ := (hf a hp (hx.sound a ha).2).complete hq
    exact ⟨b, bind_eq_ok.mpr ⟨a, ha, hb⟩⟩
  sound := by
    intro b hb
    obtain ⟨a, ha, hb⟩ := bind_eq_ok.mp hb
    obtain ⟨hp, hQ⟩ := hx.sound a ha
    obtain ⟨hq, hR⟩ := (hf a hp hQ).sound b hb
    exact ⟨⟨hp, hq⟩, hR⟩

/-- A step and what is made of its result. -/
theorem bind_ok {g : α → β} (hx : Succeeds x p Q) (hg : ∀ a, p → Q a → R (g a)) :
    Succeeds (x >>= fun a => .ok (g a)) p R where
  complete := fun hp =>
    let ⟨a, ha⟩ := hx.complete hp
    ⟨g a, bind_eq_ok.mpr ⟨a, ha, rfl⟩⟩
  sound := by
    intro b hb
    obtain ⟨a, ha, hb⟩ := bind_eq_ok.mp hb
    obtain ⟨hp, hQ⟩ := hx.sound a ha
    obtain rfl := Except.ok.inj hb
    exact ⟨hp, hg a hp hQ⟩

/-- The condition in other words, and less of the result. -/
theorem imp (hx : Succeeds x p Q) (hp : p ↔ q) (hQ : ∀ a, p → Q a → Q' a) : Succeeds x q Q' where
  complete := fun hq => hx.complete (hp.mpr hq)
  sound := fun a ha =>
    let ⟨h, hQa⟩ := hx.sound a ha
    ⟨hp.mp h, hQ a h hQa⟩

/-- Where the condition fails, so does the program. -/
theorem eq_error (hx : Succeeds x p Q) (hp : ¬ p) : ∃ e, x = .error e := by
  cases h : x with
  | error e => exact ⟨e, rfl⟩
  | ok a => exact absurd (hx.sound a h).1 hp

end Succeeds

/-- A loop keeps an invariant of the items done so far and the state they lead to. -/
theorem foldlM_invariant {f : σ → ι → Except ε σ} {J : List ι → σ → Prop} {s s' : σ} {as : List ι}
    (hinit : J [] s)
    (hstep : ∀ done a rest s s', as = done ++ a :: rest → J done s → f s a = .ok s' →
      J (done ++ [a]) s')
    (h : as.foldlM f s = .ok s') : J as s' := by
  induction as using List.reverseRecOn generalizing s' with
  | nil =>
    obtain rfl : s = s' := Except.ok.inj h
    exact hinit
  | append_singleton as a ih =>
    rw [foldlM_append] at h
    obtain ⟨s₁, h₁, h⟩ := bind_eq_ok.mp h
    rw [foldlM_cons] at h
    obtain ⟨s₂, h₂, h⟩ := bind_eq_ok.mp h
    obtain rfl : s₂ = s' := Except.ok.inj h
    refine hstep as a [] s₁ s₂ rfl (ih (fun done b rest s s' hsplit => ?_) h₁) h₂
    exact hstep done b (rest ++ [a]) s s' (by simp [hsplit])

end Fallible
