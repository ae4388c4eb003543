import Mathlib.Data.List.Induction
import Mathlib.Data.List.Basic

/-!
# Support — Runs

Runs of a machine whose step function may refuse an action.  `exec` runs a list of actions, and
`Along G` says that every action of a run meets a guard `G` in the state it is taken from, and
`Happens D` that some action of it is a `D`, which may look at the actions before it.  `seen see`
is the list of what an observer sees of the actions.

The proof rules are about what a run remembers: an invariant of the actions taken so far and the
state they lead to (`exec_history`), and the same invariant kept until some action discharges it
(`exec_until`).
-/

namespace Transition

open List Option

variable {σ α : Type*} (step : σ → α → Option σ)

/-- The state that the actions lead to, when none of them is refused. -/
def exec : σ → List α → Option σ
  | s, [] => some s
  | s, a :: as => (step s a).bind fun s₁ => exec s₁ as

/-- Every action of the run from `s` meets `G` in the state it is taken from. -/
def Along (G : σ → α → Prop) : σ → List α → Prop
  | _, [] => True
  | s, a :: as => G s a ∧ ∀ s₁, step s a = some s₁ → Along G s₁ as

/-- Some action of the run from `s` is a `D`, after the actions before it. -/
def Happens (D : List α → σ → α → Prop) (s : σ) (as : List α) : Prop :=
  ∃ pre a post sₐ, as = pre ++ a :: post ∧ exec step s pre = some sₐ ∧ D pre sₐ a

/-- What an observer sees of the actions of the run from `s`. -/
def seen {β : Type*} (see : σ → α → Option β) : σ → List α → List β
  | _, [] => []
  | s, a :: as => (see s a).toList ++ ((step s a).map fun s₁ => seen see s₁ as).getD []

/-- A check of every action of the run from `s`. -/
def checked (check : σ → α → Bool) : σ → List α → Bool
  | _, [] => true
  | s, a :: as => check s a && ((step s a).map fun s₁ => checked check s₁ as).getD true

variable {step}

variable {a : α} {as : List α} {s s₁ : σ} {G : σ → α → Prop}

theorem exec_cons {s s' : σ} :
    exec step s (a :: as) = some s' ↔ ∃ s₁, step s a = some s₁ ∧ exec step s₁ as = some s' :=
  bind_eq_some_iff

theorem exec_append {s s' : σ} {as bs : List α} :
    exec step s (as ++ bs) = some s' ↔
      ∃ s₁, exec step s as = some s₁ ∧ exec step s₁ bs = some s' := by
  induction as generalizing s with
  | nil => simp [exec]
  | cons a as ih =>
    rw [cons_append, exec_cons]
    constructor
    · rintro ⟨s₁, hs, h⟩
      obtain ⟨s₂, has, hbs⟩ := ih.mp h
      exact ⟨s₂, exec_cons.mpr ⟨s₁, hs, has⟩, hbs⟩
    · rintro ⟨s₂, has, hbs⟩
      obtain ⟨s₁, hs, has⟩ := exec_cons.mp has
      exact ⟨s₁, hs, ih.mpr ⟨s₂, has, hbs⟩⟩

theorem exec_snoc {s s' : σ} : exec step s (as ++ [a]) = some s' ↔
      ∃ s₁, exec step s as = some s₁ ∧ step s₁ a = some s' := by
  rw [exec_append]
  refine exists_congr fun s₁ => and_congr_right fun _ => ?_
  simp [exec]

/-- What is seen of a run that is one action longer. -/
theorem seen_snoc {β : Type*} {see : σ → α → Option β} (hrun : exec step s as = some s₁) :
    seen step see s (as ++ [a]) = seen step see s as ++ (see s₁ a).toList := by
  induction as generalizing s with
  | nil =>
    obtain rfl : s = s₁ := by simpa [exec] using hrun
    cases h : step s a <;> simp [seen, h]
  | cons b as ih =>
    obtain ⟨s₂, hb, hrun⟩ := exec_cons.mp hrun
    simp [seen, hb, ih hrun]

/-- A guard that every action meets in every state. -/
theorem along_of_forall (s : σ) (h : ∀ s, ∀ a ∈ as, G s a) : Along step G s as := by
  induction as generalizing s with
  | nil => trivial
  | cons a as ih =>
    exact ⟨h s a mem_cons_self, fun s₁ _ =>
      ih s₁ fun s b hb => h s b (mem_cons_of_mem _ hb)⟩

/-- A guard that was checked on the run. -/
theorem along_of_checked (check : σ → α → Bool) (hcheck : ∀ s a, check s a = true → G s a) {s : σ}
    (h : checked step check s as = true) : Along step G s as := by
  induction as generalizing s with
  | nil => trivial
  | cons a as ih =>
    obtain ⟨ha, has⟩ := Bool.and_eq_true_iff.mp h
    refine ⟨hcheck s a ha, fun s₁ hs₁ => ih ?_⟩
    rwa [hs₁] at has

theorem along_cons (hstep : step s a = some s₁)
    (ha : G s a) (h : Along step G s₁ as) : Along step G s (a :: as) := by
  refine ⟨ha, fun s₂ hs₂ => ?_⟩
  obtain rfl := some.inj (hstep.symm.trans hs₂)
  exact h

theorem along_and {G H : σ → α → Prop} {s : σ} (hG : Along step G s as)
    (hH : Along step H s as) : Along step (fun s a => G s a ∧ H s a) s as := by
  induction as generalizing s with
  | nil => trivial
  | cons a as ih =>
    exact ⟨⟨hG.1, hH.1⟩, fun s₁ h => ih (hG.2 s₁ h) (hH.2 s₁ h)⟩

/-- A guarded run splits into a guarded run and a guarded run. -/
theorem along_append {as bs : List α}
    (h : Along step G s (as ++ bs)) (hrun : exec step s as = some s₁) :
    Along step G s as ∧ Along step G s₁ bs := by
  induction as generalizing s with
  | nil =>
    obtain rfl : s = s₁ := by simpa [exec] using hrun
    exact ⟨trivial, h⟩
  | cons a as ih =>
    obtain ⟨s₂, hs, hrun⟩ := exec_cons.mp hrun
    refine ⟨⟨h.1, fun s₃ hs₃ => ?_⟩, (ih (h.2 s₂ hs) hrun).2⟩
    rw [hs] at hs₃
    cases hs₃
    exact (ih (h.2 s₂ hs) hrun).1

/-- A guarded run that is one action longer. -/
theorem along_snoc (hrun : exec step s as = some s₁) (h : Along step G s as) (ha : G s₁ a) :
    Along step G s (as ++ [a]) := by
  induction as generalizing s with
  | nil =>
    obtain rfl : s = s₁ := by simpa [exec] using hrun
    exact ⟨ha, fun _ _ => trivial⟩
  | cons b as ih =>
    obtain ⟨s₂, hs, hrun⟩ := exec_cons.mp hrun
    refine ⟨h.1, fun s₃ hs₃ => ?_⟩
    obtain rfl := some.inj (hs.symm.trans hs₃)
    exact ih hrun (h.2 s₂ hs)

theorem not_happens_nil {D : List α → σ → α → Prop} : ¬ Happens step D s [] := by
  rintro ⟨pre, b, post, sₐ, h, -⟩
  simp at h

/-- What happens in a run that is one action longer. -/
theorem happens_snoc {D : List α → σ → α → Prop} (hrun : exec step s as = some s₁) :
    Happens step D s (as ++ [a]) ↔ Happens step D s as ∨ D as s₁ a := by
  constructor
  · rintro ⟨pre, b, post, sₐ, hsplit, hpre, hD⟩
    induction post using List.reverseRecOn with
    | nil =>
      obtain ⟨rfl, hb⟩ := append_inj' hsplit rfl
      obtain rfl : a = b := by simpa using hb
      obtain rfl : s₁ = sₐ := some.inj (hrun.symm.trans hpre)
      exact .inr hD
    | append_singleton post c _ =>
      rw [← cons_append, ← append_assoc] at hsplit
      exact .inl ⟨pre, b, post, sₐ, (append_inj' hsplit rfl).1, hpre, hD⟩
  · rintro (⟨pre, b, post, sₐ, rfl, hpre, hD⟩ | hD)
    · exact ⟨pre, b, post ++ [a], sₐ, by simp, hpre, hD⟩
    · exact ⟨as, a, [], s₁, rfl, hrun, hD⟩

/-- **Induction along a guarded run.**  What holds of the empty run, and is kept by every guarded
step, holds of the actions taken and the state they lead to. -/
theorem exec_history {J : List α → σ → Prop} {s₀ s : σ} (h₀ : J [] s₀)
    (hstep : ∀ as s a s', exec step s₀ as = some s → J as s → G s a → step s a = some s' →
      J (as ++ [a]) s')
    (hrun : exec step s₀ as = some s) (hG : Along step G s₀ as) : J as s := by
  induction as using List.reverseRecOn generalizing s with
  | nil =>
    obtain rfl : s₀ = s := by simpa [exec] using hrun
    exact h₀
  | append_singleton as a ih =>
    obtain ⟨s₁, has, ha⟩ := exec_snoc.mp hrun
    obtain ⟨hG₁, hGa⟩ := along_append hG has
    exact hstep as s₁ a s has (ih has hG₁) hGa.1 ha

/-- **An obligation lasts until it is discharged.**  If every guarded step either keeps `J` or is
a discharging action `D`, then `J` holds at the end of a guarded run or `D` happened in it. -/
theorem exec_until {J : List α → σ → Prop} {D : List α → σ → α → Prop} {s₀ s : σ} (h₀ : J [] s₀)
    (hstep : ∀ as s a s', exec step s₀ as = some s → J as s → G s a → step s a = some s' →
      J (as ++ [a]) s' ∨ D as s a)
    (hrun : exec step s₀ as = some s) (hG : Along step G s₀ as) :
    J as s ∨ Happens step D s₀ as := by
  refine exec_history (G := G) (J := fun as s => J as s ∨ Happens step D s₀ as) (.inl h₀)
    (fun as s a s' has hJ hGa ha => ?_) hrun hG
  rcases hJ with hJ | hD
  · rcases hstep as s a s' has hJ hGa ha with hJ' | hD
    · exact .inl hJ'
    · exact .inr ((happens_snoc has).mpr (.inr hD))
  · exact .inr ((happens_snoc has).mpr (.inl hD))

end Transition
