import Mathlib.Algebra.Group.Nat.Defs
import Mathlib.Data.List.Basic
import Mathlib.Data.List.Induction

/-!
# Support — Merkle

Merkle trees over a hash function of pairs.  A branch is folded from a leaf with its siblings, lowest
first; the bits of the index say on which side each of them stands.

* `fold_branch`: the branch of a full binary tree at an index folds to the root.
* `fold_binding`: two folds of one length and one index that reach one root have one leaf and the same
  siblings, unless two of their own hash inputs collide.
* `leftmost_binding`: two left-most folds that reach one root, whatever their lengths, have one leaf,
  unless inputs collide or a leaf's own input is that of a pair.

A hash function onto digests of fixed size has collisions, so freedom from them is asked only of the
inputs that are hashed (`foldInputs`).
-/

namespace Merkle

open List

variable {I D : Type*} (hash : I → D) (pair : D → D → I)

/-- Fold a leaf with its siblings. -/
def fold : D → List D → Nat → D
  | leaf, [], _ => leaf
  | leaf, s :: ss, i => fold (hash (if i % 2 = 1 then pair s leaf else pair leaf s)) ss (i / 2)

/-- What a fold hashes. -/
def foldInputs : D → List D → Nat → List I
  | _, [], _ => []
  | leaf, s :: ss, i =>
    (if i % 2 = 1 then pair s leaf else pair leaf s) ::
      foldInputs (hash (if i % 2 = 1 then pair s leaf else pair leaf s)) ss (i / 2)

/-- No two inputs, one of each list, collide. -/
def NoCollision (xs ys : List I) : Prop := ∀ x ∈ xs, ∀ y ∈ ys, hash x = hash y → x = y

variable {hash pair}

/-- **A fold binds its leaf and its siblings.** -/
theorem fold_binding (hpair : Function.Injective2 pair) {leaf leaf' : D} {ss ss' : List D} {i : Nat}
    (hlength : ss.length = ss'.length)
    (hfree : NoCollision hash (foldInputs hash pair leaf ss i) (foldInputs hash pair leaf' ss' i))
    (hroot : fold hash pair leaf ss i = fold hash pair leaf' ss' i) : leaf = leaf' ∧ ss = ss' := by
  induction ss generalizing leaf leaf' ss' i with
  | nil =>
    obtain rfl := length_eq_zero_iff.mp hlength.symm
    exact ⟨hroot, rfl⟩
  | cons s ss ih =>
    obtain ⟨s', ss', rfl⟩ := exists_cons_of_length_eq_add_one hlength.symm
    have hrest := ih (Nat.succ.inj hlength)
      (fun x hx y hy => hfree x (mem_cons_of_mem _ hx) y (mem_cons_of_mem _ hy)) hroot
    have hinput := hfree _ mem_cons_self _ mem_cons_self hrest.1
    split at hinput
    · obtain ⟨rfl, rfl⟩ := hpair hinput
      exact ⟨rfl, congrArg _ hrest.2⟩
    · obtain ⟨rfl, rfl⟩ := hpair hinput
      exact ⟨rfl, congrArg _ hrest.2⟩

/-! ### Full binary trees -/

/-- A full binary tree of depth `k`. -/
inductive Tree (D : Type*) : Nat → Type _
  | leaf (d : D) : Tree D 0
  | node {k : Nat} (left right : Tree D k) : Tree D (k + 1)

namespace Tree

variable (hash pair)

def root : {k : Nat} → Tree D k → D
  | _, .leaf d => d
  | _, .node left right => hash (pair left.root right.root)

/-- The leaf at an index. -/
def leafAt : {k : Nat} → Tree D k → Nat → D
  | _, .leaf d, _ => d
  | k + 1, .node left right, i => if i < 2 ^ k then left.leafAt i else right.leafAt (i - 2 ^ k)

/-- The siblings on the way from the leaf at an index to the root. -/
def branch : {k : Nat} → Tree D k → Nat → List D
  | _, .leaf _, _ => []
  | k + 1, .node left right, i =>
    if i < 2 ^ k then left.branch i ++ [right.root hash pair]
    else right.branch (i - 2 ^ k) ++ [left.root hash pair]

variable {hash pair}

@[simp] theorem length_branch {k : Nat} (t : Tree D k) (i : Nat) :
    (t.branch hash pair i).length = k := by
  induction t generalizing i with
  | leaf d => rfl
  | node left right ihl ihr =>
    rw [branch]
    split
    · rw [length_append, ihl, length_singleton]
    · rw [length_append, ihr, length_singleton]

end Tree

/-- The last sibling of a fold is joined on the side of its own bit. -/
theorem fold_append_singleton (leaf : D) (ss : List D) (s : D) (i : Nat) :
    fold hash pair leaf (ss ++ [s]) i =
      hash (if i / 2 ^ ss.length % 2 = 1 then pair s (fold hash pair leaf ss i)
        else pair (fold hash pair leaf ss i) s) := by
  induction ss generalizing leaf i with
  | nil => rw [nil_append, length_nil, Nat.pow_zero, Nat.div_one]; rfl
  | cons r ss ih =>
    rw [cons_append, fold, ih, fold, length_cons, Nat.pow_succ', Nat.div_div_eq_div_mul]

/-- A fold reads as many bits as it has siblings. -/
theorem fold_add_pow (leaf : D) (ss : List D) (i m : Nat) :
    fold hash pair leaf ss (i + 2 ^ ss.length * m) = fold hash pair leaf ss i := by
  induction ss generalizing leaf i with
  | nil => rfl
  | cons s ss ih =>
    have hsplit : i + 2 ^ (ss.length + 1) * m = i + 2 * (2 ^ ss.length * m) := by
      rw [Nat.pow_succ', Nat.mul_assoc]
    rw [length_cons, hsplit, fold, fold, Nat.add_mul_mod_self_left,
      Nat.add_mul_div_left _ _ (by decide), ih]

/-- **The branch of a full tree folds to its root.** -/
theorem fold_branch {k : Nat} (t : Tree D k) {i : Nat} (hi : i < 2 ^ k) :
    fold hash pair (t.leafAt i) (t.branch hash pair i) i = t.root hash pair := by
  induction t generalizing i with
  | leaf d => rfl
  | @node k left right ihl ihr =>
    rw [Tree.leafAt, Tree.branch, Tree.root]
    split
    · next hlt =>
        have hbit : i / 2 ^ (left.branch hash pair i).length % 2 = 0 := by
          rw [Tree.length_branch, Nat.div_eq_of_lt hlt]
        rw [fold_append_singleton, hbit, if_neg (by decide), ihl hlt]
    · next hge =>
        obtain ⟨j, rfl⟩ := Nat.exists_eq_add_of_le (Nat.not_lt.mp hge)
        rw [Nat.add_sub_cancel_left]
        have hlt : j < 2 ^ k := by
          rw [Nat.pow_succ] at hi
          omega
        have hlength : (right.branch hash pair j).length = k := right.length_branch j
        have hfold : fold hash pair (right.leafAt j) (right.branch hash pair j)
            (j + 2 ^ (right.branch hash pair j).length * 1) = right.root hash pair :=
          (fold_add_pow _ _ _ _).trans (ihr hlt)
        rw [hlength, Nat.mul_one, Nat.add_comm] at hfold
        have hbit : (2 ^ k + j) / 2 ^ k % 2 = 1 := by
          rw [Nat.add_div_left _ (Nat.two_pow_pos k), Nat.div_eq_of_lt hlt]
        rw [fold_append_singleton, hlength, hbit, if_pos rfl, hfold]

/-! ### Left-most folds -/

theorem fold_zero_eq_foldl (leaf : D) (ss : List D) :
    fold hash pair leaf ss 0 = ss.foldl (fun acc s => hash (pair acc s)) leaf := by
  induction ss generalizing leaf with
  | nil => rfl
  | cons s ss ih => exact ih _

theorem fold_zero_append_singleton (leaf : D) (ss : List D) (s : D) :
    fold hash pair leaf (ss ++ [s]) 0 = hash (pair (fold hash pair leaf ss 0) s) := by
  rw [fold_append_singleton, Nat.zero_div, if_neg (by decide)]

theorem foldInputs_zero_append_singleton (leaf : D) (ss : List D) (s : D) :
    foldInputs hash pair leaf (ss ++ [s]) 0 =
      foldInputs hash pair leaf ss 0 ++ [pair (fold hash pair leaf ss 0) s] := by
  induction ss generalizing leaf with
  | nil => rfl
  | cons r ss ih =>
    rw [cons_append, foldInputs, foldInputs, fold, Nat.zero_div, ih, cons_append]

/-- **A left-most fold binds its leaf**, whatever its length, when the leaf is the hash of an input that
is no pair's. -/
theorem leftmost_binding (hpair : Function.Injective2 pair) {x x' : I} {ss ss' : List D}
    (hleaf : ∀ a b, x ≠ pair a b) (hleaf' : ∀ a b, x' ≠ pair a b)
    (hfree : NoCollision hash (x :: foldInputs hash pair (hash x) ss 0)
      (x' :: foldInputs hash pair (hash x') ss' 0))
    (hroot : fold hash pair (hash x) ss 0 = fold hash pair (hash x') ss' 0) : x = x' := by
  induction ss using List.reverseRecOn generalizing ss' with
  | nil =>
    rcases eq_nil_or_concat' ss' with rfl | ⟨ss', s', rfl⟩
    · exact hfree x mem_cons_self x' mem_cons_self hroot
    · rw [fold_zero_append_singleton] at hroot
      refine absurd (hfree x mem_cons_self _ ?_ hroot) (hleaf _ _)
      rw [foldInputs_zero_append_singleton]
      exact mem_cons_of_mem _ (mem_append_right _ mem_cons_self)
  | append_singleton ss s ih =>
    rcases eq_nil_or_concat' ss' with rfl | ⟨ss', s', rfl⟩
    · rw [fold_zero_append_singleton] at hroot
      refine absurd (hfree _ ?_ x' mem_cons_self hroot).symm (hleaf' _ _)
      rw [foldInputs_zero_append_singleton]
      exact mem_cons_of_mem _ (mem_append_right _ mem_cons_self)
    · rw [fold_zero_append_singleton, fold_zero_append_singleton] at hroot
      rw [foldInputs_zero_append_singleton, foldInputs_zero_append_singleton,
        ← cons_append, ← cons_append] at hfree
      have htop := hfree _ (mem_append_right _ mem_cons_self) _
        (mem_append_right _ mem_cons_self) hroot
      exact ih (fun y hy z hz => hfree y (mem_append_left _ hy) z (mem_append_left _ hz))
        (hpair htop).1

/-! ### Roots of lists -/

section Lists

variable (hash pair)

/-- The next level of a list of nodes: they are joined in pairs, the last one with itself when it is
alone. -/
def level : List D → List D
  | [] => []
  | [a] => [hash (pair a a)]
  | a :: b :: rest => hash (pair a b) :: level rest

/-- What a level hashes. -/
def levelInputs : List D → List I
  | [] => []
  | [a] => [pair a a]
  | a :: b :: rest => pair a b :: levelInputs rest

/-- The root after at most `fuel` levels. -/
def rootWithin : Nat → List D → Option D
  | _, [] => none
  | _, [a] => some a
  | 0, _ :: _ :: _ => none
  | fuel + 1, a :: b :: rest => rootWithin fuel (level hash pair (a :: b :: rest))

/-- What a root hashes. -/
def rootInputs : Nat → List D → List I
  | _, [] => []
  | _, [_] => []
  | 0, _ :: _ :: _ => []
  | fuel + 1, a :: b :: rest =>
    levelInputs pair (a :: b :: rest) ++ rootInputs fuel (level hash pair (a :: b :: rest))

variable {hash pair}

/-- The first leaf reaches the root by a left-most fold. -/
theorem exists_leftmost_fold {fuel : Nat} {a r : D} {l : List D}
    (h : rootWithin hash pair fuel (a :: l) = some r) :
    ∃ ss, fold hash pair a ss 0 = r ∧
      ∀ x ∈ foldInputs hash pair a ss 0, x ∈ rootInputs hash pair fuel (a :: l) := by
  induction fuel generalizing a l with
  | zero =>
    cases l with
    | nil => exact ⟨[], Option.some.inj h, fun x hx => nomatch hx⟩
    | cons b l => cases h
  | succ fuel ih =>
    cases l with
    | nil => exact ⟨[], Option.some.inj h, fun x hx => nomatch hx⟩
    | cons b l =>
      obtain ⟨ss, hroot, hinputs⟩ := ih h
      refine ⟨b :: ss, hroot, fun x hx => ?_⟩
      rw [rootInputs, levelInputs, cons_append]
      rcases mem_cons.mp hx with rfl | hx
      · exact mem_cons_self
      · exact mem_cons_of_mem _ (mem_append_right _ (hinputs x hx))

end Lists

end Merkle
