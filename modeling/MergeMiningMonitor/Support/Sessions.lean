import MergeMiningMonitor.Support.Fallible

/-!
# Support — Sessions

Programs that talk to something with a state and may fail.  Three statements about them compose along
`>>=`.  `Returns p a` says that the program returns `a` from every state.  `Keeps I G p` says that it
keeps an invariant of the state, unless its value is a `G`.  `Tolerates G strict lenient` relates two
readings of one program: they do the same, except that the strict one fails in some places where the
lenient one gives up and returns a `G`.

What a strict reading returns, the lenient one returns too (`Tolerates.lenient_eq`), and in the other
direction for what was not given up (`Tolerates.strict_eq`).
-/

namespace Sessions

open Fallible

variable {σ ε α β : Type}

/-- A program over a state. -/
abbrev Session (σ ε α : Type) := StateT σ (Except ε) α

theorem run_pure {a b : α} {s s' : σ} :
    (pure a : Session σ ε α) s = .ok (b, s') ↔ a = b ∧ s = s' := by
  have hpure : (pure a : Session σ ε α) s = .ok (a, s) := rfl
  rw [hpure, Except.ok.injEq, Prod.mk.injEq]

theorem run_bind {p : Session σ ε α} {f : α → Session σ ε β} {s s' : σ} {b : β} :
    (p >>= f) s = .ok (b, s') ↔ ∃ a t, p s = .ok (a, t) ∧ f a t = .ok (b, s') :=
  (bind_eq_ok : ((p s >>= fun r => f r.1 r.2) = .ok (b, s') ↔ _)).trans Prod.exists

theorem bind_of_ok {p : Session σ ε α} {f : α → Session σ ε β} {s t : σ} {a : α}
    (h : p s = .ok (a, t)) : (p >>= f) s = f a t := by
  have hbind : (p >>= f) s = (p s >>= fun r => f r.1 r.2) := rfl
  rw [hbind, h]
  rfl

theorem bind_of_error {p : Session σ ε α} {f : α → Session σ ε β} {s : σ} {e : ε}
    (h : p s = .error e) : (p >>= f) s = .error e := by
  have hbind : (p >>= f) s = (p s >>= fun r => f r.1 r.2) := rfl
  rw [hbind, h]
  rfl

/-! ### Values -/

/-- The program returns the value, whatever the state. -/
def Returns (p : Session σ ε α) (a : α) : Prop := ∀ s, ∃ s', p s = .ok (a, s')

namespace Returns

theorem pure (a : α) : Returns (pure a : Session σ ε α) a := fun s => ⟨s, rfl⟩

theorem bind {p : Session σ ε α} {f : α → Session σ ε β} {a : α} {b : β} (hp : Returns p a)
    (hf : Returns (f a) b) : Returns (p >>= f) b := by
  intro s
  obtain ⟨t, ht⟩ := hp s
  obtain ⟨s', hs'⟩ := hf t
  exact ⟨s', (bind_of_ok ht).trans hs'⟩

end Returns

/-! ### Invariants -/

/-- The program keeps the invariant, or returns a `G`. -/
def Keeps (I : σ → Prop) (G : α → Prop) (p : Session σ ε α) : Prop :=
  ∀ s a s', I s → p s = .ok (a, s') → I s' ∨ G a

namespace Keeps

variable {I : σ → Prop} {G : α → Prop} {H : β → Prop} {p : Session σ ε α} {f : α → Session σ ε β}

theorem pure (a : α) : Keeps I G (pure a : Session σ ε α) := by
  rintro s b s' hI h
  obtain ⟨-, rfl⟩ := run_pure.mp h
  exact .inl hI

theorem throw (e : ε) : Keeps I G (throw e : Session σ ε α) := fun _ _ _ _ h => nomatch h

/-- A program all of whose values are a `G`. -/
theorem of_forall (h : ∀ s a s', p s = .ok (a, s') → G a) : Keeps I G p :=
  fun s a s' _ hrun => .inr (h s a s' hrun)

/-- After a program that gave up, the rest has to give up as well. -/
theorem bind (hp : Keeps I G p) (hf : ∀ a, Keeps I H (f a))
    (hG : ∀ a, G a → ∀ s b s', f a s = .ok (b, s') → H b) : Keeps I H (p >>= f) := by
  intro s b s' hI h
  obtain ⟨a, t, ha, hb⟩ := run_bind.mp h
  rcases hp s a t hI ha with ht | hgave
  · exact hf a t b s' ht hb
  · exact .inr (hG a hgave t b s' hb)

end Keeps

/-! ### Two policies -/

/-- The readings do the same, except where the strict one fails and the lenient one returns a `G`. -/
def Tolerates (G : α → Prop) (strict lenient : Session σ ε α) : Prop :=
  ∀ s, strict s = lenient s ∨
    (∃ e, strict s = .error e) ∧ ∃ a s', lenient s = .ok (a, s') ∧ G a

namespace Tolerates

variable {G : α → Prop} {H : β → Prop} {strict lenient : Session σ ε α}
  {f g : α → Session σ ε β}

theorem refl (p : Session σ ε α) : Tolerates G p p := fun _ => .inl rfl

/-- The strict reading fails here, and the lenient one gives up. -/
theorem gives_up {a : α} (e : ε) (h : G a) :
    Tolerates G (throw e : Session σ ε α) (pure a : Session σ ε α) :=
  fun s => .inr ⟨⟨e, rfl⟩, a, s, rfl, h⟩

/-- What follows a given up value has to give up as well. -/
theorem bind (h : Tolerates G strict lenient) (hf : ∀ a, Tolerates H (f a) (g a))
    (hG : ∀ a, G a → ∃ b, g a = pure b ∧ H b) : Tolerates H (strict >>= f) (lenient >>= g) := by
  intro s
  rcases h s with hsame | ⟨⟨e, he⟩, a, s', ha, hgave⟩
  · cases hlenient : lenient s with
    | error e =>
      exact .inl ((bind_of_error (hsame.trans hlenient)).trans (bind_of_error hlenient).symm)
    | ok result =>
      obtain ⟨a, t⟩ := result
      rw [bind_of_ok (hsame.trans hlenient), bind_of_ok hlenient]
      exact hf a t
  · obtain ⟨b, hb, hgave'⟩ := hG a hgave
    refine .inr ⟨⟨e, bind_of_error he⟩, b, s', ?_, hgave'⟩
    rw [bind_of_ok ha, hb]
    rfl

/-- The readings begin with the same program. -/
theorem after (p : Session σ ε α) (hf : ∀ a, Tolerates H (f a) (g a)) :
    Tolerates H (p >>= f) (p >>= g) :=
  (refl p : Tolerates (fun _ => False) p p).bind hf fun _ h => h.elim

theorem lenient_eq (h : Tolerates G strict lenient) {s s' : σ} {a : α}
    (hstrict : strict s = .ok (a, s')) : lenient s = .ok (a, s') := by
  rcases h s with hsame | ⟨⟨e, he⟩, -⟩
  · exact hsame.symm.trans hstrict
  · rw [hstrict] at he
    cases he

theorem strict_eq (h : Tolerates G strict lenient) {s s' : σ} {a : α}
    (hlenient : lenient s = .ok (a, s')) (hnot : ¬ G a) : strict s = .ok (a, s') := by
  rcases h s with hsame | ⟨-, b, t, hb, hgave⟩
  · exact hsame.trans hlenient
  · obtain ⟨rfl, -⟩ := Prod.mk.inj (Except.ok.inj (hb.symm.trans hlenient))
    exact absurd hgave hnot

end Tolerates

end Sessions
