import Mathlib.Data.List.Basic

/-!
# Support — Codes

Codes that can be told apart at the front of a stream.  A code `Decides` a relation when two streams
that start with the codes of two values are equal exactly if the values are related and the streams go
on alike.  A prefix-free code decides equality; a code that leaves something out decides agreement on
the rest.
-/

namespace Codes

variable {τ α : Type}

def Decides (enc : α → List τ) (R : α → α → Prop) : Prop :=
  ∀ a b r s, enc a ++ r = enc b ++ s ↔ R a b ∧ r = s

namespace Decides

variable {enc : α → List τ} {R : α → α → Prop}

/-- A code of a fixed length. -/
theorem fixed {n : Nat} (hlength : ∀ a, (enc a).length = n) (hinj : Function.Injective enc) :
    Decides enc (· = ·) := by
  refine fun a b r s => ⟨fun h => ?_, ?_⟩
  · obtain ⟨hab, hrs⟩ := List.append_inj h ((hlength a).trans (hlength b).symm)
    exact ⟨hinj hab, hrs⟩
  · rintro ⟨rfl, rfl⟩
    rfl

/-- A part of the code that is written only when it is asked for. -/
theorem masked (h : Decides enc R) (c : Bool) :
    Decides (fun a => if c then enc a else []) fun a b => c = true → R a b := by
  intro a b r s
  cases c with
  | false => simp
  | true => simpa using h a b r s

/-- The code, or a mark that there is none. -/
theorem option (h : Decides enc (· = ·)) {yes no : τ} (hne : yes ≠ no) :
    Decides (fun o : Option α => o.elim [no] (yes :: enc ·)) (· = ·) := by
  rintro (_ | a) (_ | b) r s
  · simp
  · simp [hne.symm]
  · simp [hne]
  · simp [h a b r s]

/-- The codes of whole streams. -/
theorem eq_iff (h : Decides enc R) {a b : α} : enc a = enc b ↔ R a b := by
  have := h a b [] []
  rwa [List.append_nil, List.append_nil, and_iff_left rfl] at this

end Decides

end Codes
