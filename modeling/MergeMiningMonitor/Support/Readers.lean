import MergeMiningMonitor.Support.Fallible

/-!
# Support — Readers

A reader takes a value off the front of its input and leaves the rest.  It is `Local` when the value
depends only on what it took: whatever follows instead, it takes the same and leaves what follows.
Local readers compose (`Local.bind`, `Local.times`), and a guard that looks ahead keeps them local when
it looks no further than they read (`Local.lookahead_bind`).

`Local.eq_ok_append` and `Local.eq_ok_exact` are what framing rests on: what a reader took, cut out of
its input, reads back to the same value with anything after it, or nothing.  In the other direction,
tokens that `Reads` as a value with anything after them are put together as the readers are
(`Reads.bind`, `Reads.times`), and a local reader is then stopped by every shorter input
(`Local.frames`).
-/

namespace Readers

open Fallible List

variable {τ ε α β : Type}

/-- A reader of tokens. -/
abbrev Reader (τ ε α : Type) := StateT (List τ) (Except ε) α

/-- Fail with `e` unless `p` holds. -/
def check (p : Prop) [Decidable p] (e : ε) : Reader τ ε Unit := fun input => do
  ensure p e
  return ((), input)

/-- Fail with `e` unless `P` holds of the input that is left. -/
def lookahead (P : List τ → Prop) [DecidablePred P] (e : ε) : Reader τ ε Unit := fun input => do
  ensure (P input) e
  return ((), input)

/-- Take `n` tokens. -/
def takeExact (n : Nat) (e : ε) : Reader τ ε { l : List τ // l.length = n } := fun input =>
  if h : n ≤ input.length then .ok (⟨input.take n, length_take_of_le h⟩, input.drop n)
  else .error e

/-- Read `n` values, one after the other. -/
def times (p : Reader τ ε α) : (n : Nat) → Reader τ ε { l : List α // l.length = n }
  | 0 => pure ⟨[], rfl⟩
  | n + 1 => do
    let a ← p
    let as ← times p n
    return ⟨a :: as.1, congrArg Nat.succ as.2⟩

variable {input rest : List τ}

theorem read_pure {a b : α} :
    (pure a : Reader τ ε α) input = .ok (b, rest) ↔ a = b ∧ input = rest := by
  have hpure : (pure a : Reader τ ε α) input = .ok (a, input) := rfl
  rw [hpure, Except.ok.injEq, Prod.mk.injEq]

theorem read_bind {p : Reader τ ε α} {f : α → Reader τ ε β} {b : β} :
    (p >>= f) input = .ok (b, rest) ↔ ∃ a mid, p input = .ok (a, mid) ∧ f a mid = .ok (b, rest) :=
  (bind_eq_ok : ((p input >>= fun r => f r.1 r.2) = .ok (b, rest) ↔ _)).trans Prod.exists

theorem read_check {p : Prop} [Decidable p] {e : ε} {u : Unit} :
    (check p e : Reader τ ε Unit) input = .ok (u, rest) ↔ p ∧ input = rest := by
  rw [check, bind_eq_ok]
  simp only [ensure_eq_ok, exists_const]
  exact and_congr_right fun _ => read_pure.trans (and_iff_right rfl)

theorem read_lookahead {P : List τ → Prop} [DecidablePred P] {e : ε} {u : Unit} :
    (lookahead P e : Reader τ ε Unit) input = .ok (u, rest) ↔ P input ∧ input = rest := by
  rw [lookahead, bind_eq_ok]
  simp only [ensure_eq_ok, exists_const]
  exact and_congr_right fun _ => read_pure.trans (and_iff_right rfl)

theorem read_takeExact {n : Nat} {e : ε} {l : { l : List τ // l.length = n }} :
    takeExact n e input = .ok (l, rest) ↔ input = l.1 ++ rest := by
  obtain ⟨l, rfl⟩ := l
  rw [takeExact]
  split
  · rw [Except.ok.injEq, Prod.mk.injEq, Subtype.mk.injEq]
    constructor
    · rintro ⟨htake, rfl⟩
      exact (htake ▸ take_append_drop l.length input).symm
    · rintro rfl
      exact ⟨take_left, drop_left⟩
  · next hshort =>
      refine iff_of_false (by simp) ?_
      rintro rfl
      exact hshort (length_append ▸ Nat.le_add_right _ _)

/-- Values that read back one by one read back from their concatenation. -/
theorem read_times {p : Reader τ ε α} {enc : α → List τ}
    (h : ∀ a rest, p (enc a ++ rest) = .ok (a, rest)) (l : List α) (rest : List τ) :
    times p l.length (l.flatMap enc ++ rest) = .ok (⟨l, rfl⟩, rest) := by
  induction l with
  | nil => rfl
  | cons a l ih =>
    rw [flatMap_cons, append_assoc]
    exact read_bind.mpr ⟨a, _, h a _, read_bind.mpr ⟨⟨l, rfl⟩, rest, ih, rfl⟩⟩

/-- The value depends only on what was taken, at least `n` tokens. -/
def Local (n : Nat) (p : Reader τ ε α) : Prop :=
  ∀ ⦃input : List τ⦄ ⦃a : α⦄ ⦃rest : List τ⦄, p input = .ok (a, rest) →
    ∃ used, input = used ++ rest ∧ n ≤ used.length ∧ ∀ other, p (used ++ other) = .ok (a, other)

namespace Local

variable {m n : Nat} {p : Reader τ ε α} {f : α → Reader τ ε β}

theorem mono (h : Local n p) (hmn : m ≤ n) : Local m p := by
  intro input a rest hread
  obtain ⟨used, hinput, hlength, hother⟩ := h hread
  exact ⟨used, hinput, Nat.le_trans hmn hlength, hother⟩

theorem pure (a : α) : Local 0 (Pure.pure a : Reader τ ε α) := by
  intro input b rest hread
  obtain ⟨rfl, rfl⟩ := read_pure.mp hread
  exact ⟨[], rfl, Nat.zero_le _, fun other => rfl⟩

theorem bind (hp : Local m p) (hf : ∀ a, Local n (f a)) : Local (m + n) (p >>= f) := by
  intro input b rest hread
  obtain ⟨a, mid, hfirst, hsecond⟩ := read_bind.mp hread
  obtain ⟨used, rfl, hlength, hother⟩ := hp hfirst
  obtain ⟨used', rfl, hlength', hother'⟩ := hf a hsecond
  refine ⟨used ++ used', (append_assoc _ _ _).symm, ?_, fun other => ?_⟩
  · rw [length_append]
    exact Nat.add_le_add hlength hlength'
  · rw [append_assoc]
    exact read_bind.mpr ⟨a, used' ++ other, hother _, hother' other⟩

theorem check {P : Prop} [Decidable P] {e : ε} : Local 0 (check P e : Reader τ ε Unit) := by
  intro input u rest hread
  obtain ⟨hP, rfl⟩ := read_check.mp hread
  exact ⟨[], rfl, Nat.zero_le _, fun other => read_check.mpr ⟨hP, rfl⟩⟩

theorem throw {e : ε} : Local n (throw e : Reader τ ε α) := fun _ _ _ hread => nomatch hread

theorem takeExact {e : ε} : Local n (takeExact n e : Reader τ ε _) := by
  intro input l rest hread
  exact ⟨l.1, read_takeExact.mp hread, Nat.le_of_eq l.2.symm, fun other => read_takeExact.mpr rfl⟩

theorem times (hp : Local m p) (k : Nat) : Local (k * m) (times p k) := by
  induction k with
  | zero => exact (Local.pure _).mono (Nat.le_of_eq (Nat.zero_mul m))
  | succ k ih =>
    refine (hp.bind fun a => ih.bind fun as => Local.pure _).mono ?_
    rw [Nat.succ_mul]
    omega

/-- A guard on the input to come keeps a reader local when what the reader takes decides it. -/
theorem lookahead_bind {P : List τ → Prop} [DecidablePred P] {e : ε} {p : Reader τ ε α} (hp : Local n p)
    (hguard : ∀ used rest other : List τ, n ≤ used.length → P (used ++ rest) → P (used ++ other)) :
    Local n (Readers.lookahead P e >>= fun _ => p) := by
  intro input a rest hread
  obtain ⟨u, mid, hlook, hrest⟩ := read_bind.mp hread
  obtain ⟨hP, rfl⟩ := read_lookahead.mp hlook
  obtain ⟨used, rfl, hlength, hother⟩ := hp hrest
  refine ⟨used, rfl, hlength, fun other => read_bind.mpr ⟨(), _, read_lookahead.mpr ⟨?_, rfl⟩, ?_⟩⟩
  · exact hguard used rest other hlength hP
  · exact hother other

/-- What a reader took reads back to the same value, whatever follows it. -/
theorem eq_ok_append (hp : Local n p) {input rest : List τ} {a : α} (h : p input = .ok (a, rest))
    (other : List τ) : p (input.take (input.length - rest.length) ++ other) = .ok (a, other) := by
  obtain ⟨used, rfl, -, hother⟩ := hp h
  rw [length_append, Nat.add_sub_cancel, take_left]
  exact hother other

theorem eq_ok_exact (hp : Local n p) {input rest : List τ} {a : α} (h : p input = .ok (a, rest)) :
    p (input.take (input.length - rest.length)) = .ok (a, []) := by
  have hexact := hp.eq_ok_append h []
  rwa [append_nil] at hexact

end Local

/-! ### Framing -/

/-- The tokens read as the value, whatever follows them. -/
def Reads (p : Reader τ ε α) (enc : List τ) (a : α) : Prop :=
  ∀ rest, p (enc ++ rest) = .ok (a, rest)

/-- The tokens are a frame of the value: they read as it, no more and no less of them. -/
structure Frames (p : Reader τ ε α) (enc : List τ) (a : α) : Prop where
  reads : Reads p enc a
  fails : ∀ short, short <+: enc → short ≠ enc → ∃ e, p short = .error e

namespace Reads

variable {p : Reader τ ε α} {f : α → Reader τ ε β} {enc enc' : List τ} {a : α} {b : β}

theorem bind (hp : Reads p enc a) (hf : Reads (f a) enc' b) : Reads (p >>= f) (enc ++ enc') b := by
  intro rest
  rw [append_assoc]
  exact read_bind.mpr ⟨a, enc' ++ rest, hp _, hf rest⟩

theorem bind_pure (hp : Reads p enc a) (g : α → β) :
    Reads (p >>= fun a => pure (g a)) enc (g a) := by
  intro rest
  exact read_bind.mpr ⟨a, rest, hp rest, rfl⟩

theorem check_bind {P : Prop} [Decidable P] {e : ε} (hP : P) (hp : Reads p enc a) :
    Reads (check P e >>= fun _ => p) enc a := by
  intro rest
  exact read_bind.mpr ⟨(), enc ++ rest, read_check.mpr ⟨hP, rfl⟩, hp rest⟩

theorem lookahead_bind {P : List τ → Prop} [DecidablePred P] {e : ε} (hP : ∀ rest, P (enc ++ rest))
    (hp : Reads p enc a) : Reads (lookahead P e >>= fun _ => p) enc a := by
  intro rest
  exact read_bind.mpr ⟨(), enc ++ rest, read_lookahead.mpr ⟨hP rest, rfl⟩, hp rest⟩

theorem takeExact {n : Nat} {e : ε} (l : { l : List τ // l.length = n }) :
    Reads (takeExact n e) l.1 l := fun _ => read_takeExact.mpr rfl

theorem times {code : α → List τ} (hp : ∀ a, Reads p (code a) a) (l : List α) :
    Reads (times p l.length) (l.flatMap code) ⟨l, rfl⟩ := read_times hp l

end Reads

/-- **Frames are prefix-free.**  A local reader that stopped inside a frame would have stopped there in
the whole of it too. -/
theorem Local.frames {n : Nat} {p : Reader τ ε α} {enc : List τ} {a : α} (hp : Local n p)
    (hreads : Reads p enc a) : Frames p enc a := by
  refine ⟨hreads, ?_⟩
  rintro short ⟨missing, rfl⟩ hne
  cases hshort : p short with
  | error e => exact ⟨e, rfl⟩
  | ok result =>
    obtain ⟨b, left⟩ := result
    obtain ⟨used, rfl, -, hother⟩ := hp hshort
    -- The frame reads as `a` with nothing left, and as `b` with the missing tokens left.
    have hwhole : p (used ++ left ++ missing) = .ok (a, []) := by
      have hexact := hreads []
      rwa [append_nil] at hexact
    have hlocal : p (used ++ left ++ missing) = .ok (b, left ++ missing) := by
      rw [append_assoc]
      exact hother _
    rw [hwhole, Except.ok.injEq, Prod.mk.injEq] at hlocal
    have hmissing : missing = [] := (append_eq_nil_iff.mp hlocal.2.symm).2
    exact absurd (by rw [hmissing, append_nil]) hne

end Readers
