import Mathlib.Data.Set.Finite.Basic
import Mathlib.Data.Fintype.Pigeonhole
import Mathlib.Order.Bounds.Basic

/-!
# Support — Forest

Keys with at most one parent each.  `ancestor parent n a` is the key `n` steps above `a`, and the root
of `a` the one above it that has no parent (`RootOf`).  With no cycles in finitely many keys every key
has a root (`exists_rootOf`), and two keys are connected exactly if they have one root
(`connected_iff_rootOf`).

The searches over such keys are `chase`, which goes up until there is no parent or a key comes again,
and `descend` and `depths`, which go down with a stack.  `chase` finds the root, `descend` all keys
below, and `depths` their distances too.
-/

namespace Forest

open List Option

variable {K : Type*} (parent : K → Option K)

/-- The key `n` steps above. -/
def ancestor : ℕ → K → Option K
  | 0, a => some a
  | n + 1, a => (parent a).bind (ancestor n)

/-- `b` is `a` or above it. -/
def Under (a b : K) : Prop := ∃ n, ancestor parent n a = some b

/-- `r` is the root above `a`. -/
def RootOf (a r : K) : Prop := Under parent a r ∧ parent r = none

/-- The two keys are joined by links, in either direction. -/
def Connected (a b : K) : Prop := Relation.EqvGen (fun a b => parent a = some b) a b

/-- What a summary says of the component of `anchor`: its members, its root, and the range of their
heights. -/
structure Summarizes {H : Type*} [Preorder H] (height : K → H → Prop) (anchor : K)
    (members : List K) (root : K) (heightMin heightMax : H) : Prop where
  nodup : members.Nodup
  mem : ∀ k, k ∈ members ↔ Connected parent anchor k
  root_mem : root ∈ members
  root_iff : ∀ k ∈ members, k = root ↔ parent k = none
  least : IsLeast {n | ∃ k ∈ members, height k n} heightMin
  greatest : IsGreatest {n | ∃ k ∈ members, height k n} heightMax

/-- No key is above itself. -/
def Acyclic : Prop := ∀ a n, ancestor parent (n + 1) a ≠ some a

variable {parent}

theorem ancestor_add (m n : ℕ) (a : K) :
    ancestor parent (m + n) a = (ancestor parent m a).bind (ancestor parent n) := by
  induction m generalizing a with
  | zero => rw [Nat.zero_add, ancestor, bind_some]
  | succ m ih =>
    rw [Nat.add_right_comm, ancestor, ancestor, bind_assoc]
    exact bind_congr fun b _ => ih b

theorem ancestor_succ_of_eq {n : ℕ} {a b : K} (h : ancestor parent n a = some b) :
    ancestor parent (n + 1) a = parent b := by
  rw [ancestor_add, h, bind_some, ancestor]
  cases parent b <;> rfl

theorem Under.refl (a : K) : Under parent a a := ⟨0, rfl⟩

theorem Under.of_parent {a b : K} (h : parent a = some b) : Under parent a b :=
  ⟨1, by rw [ancestor, h]; rfl⟩

theorem Under.trans {a b c : K} (hab : Under parent a b) (hbc : Under parent b c) : Under parent a c := by
  obtain ⟨m, hm⟩ := hab
  obtain ⟨n, hn⟩ := hbc
  exact ⟨m + n, by rw [ancestor_add, hm, bind_some, hn]⟩

/-- What is above `a`, and is not `a`, is above its parent. -/
theorem Under.cases {a b : K} (h : Under parent a b) :
    a = b ∨ ∃ c, parent a = some c ∧ Under parent c b := by
  obtain ⟨n, hn⟩ := h
  cases n with
  | zero => exact .inl (some.inj hn)
  | succ n =>
    obtain ⟨c, hc, hcb⟩ := bind_eq_some_iff.mp hn
    exact .inr ⟨c, hc, n, hcb⟩

/-- No key is above itself if parents rank lower. -/
theorem acyclic_of_lt (rank : K → ℕ) (h : ∀ a b, parent a = some b → rank b < rank a) : Acyclic parent := by
  have hup : ∀ n a b, ancestor parent n a = some b → rank b + n ≤ rank a := by
    intro n
    induction n with
    | zero =>
      intro a b hab
      rw [some.inj hab]
      exact le_rfl
    | succ n ih =>
      intro a b hab
      obtain ⟨c, hc, hcb⟩ := bind_eq_some_iff.mp hab
      have := h a c hc
      have := ih c b hcb
      omega
  intro a n ha
  have := hup _ _ _ ha
  omega

/-! ### Fewer links -/

section Fewer

variable {fewer : K → Option K} (hfewer : ∀ a b, fewer a = some b → parent a = some b)
include hfewer

theorem ancestor_of_fewer {n : ℕ} {a b : K} (h : ancestor fewer n a = some b) :
    ancestor parent n a = some b := by
  induction n generalizing a with
  | zero => exact h
  | succ n ih =>
    obtain ⟨c, hc, hcb⟩ := bind_eq_some_iff.mp h
    rw [ancestor, hfewer a c hc, bind_some, ih hcb]

theorem Acyclic.of_fewer (h : Acyclic parent) : Acyclic fewer :=
  fun a n hn => h a n (ancestor_of_fewer hfewer hn)

theorem Connected.of_fewer {a b : K} (h : Connected fewer a b) : Connected parent a b :=
  h.mono hfewer

end Fewer

/-- What the links do not leave holds of connected keys alike. -/
theorem Connected.iff {s : K → Prop} (hs : ∀ a b, parent a = some b → (s a ↔ s b)) {a b : K}
    (h : Connected parent a b) : s a ↔ s b := by
  induction h with
  | rel a b h => exact hs a b h
  | refl a => exact Iff.rfl
  | symm a b _ ih => exact ih.symm
  | trans a b c _ _ ih ih' => exact ih.trans ih'

/-! ### Roots -/

/-- Above a root there is nothing. -/
theorem ancestor_of_root {r : K} (hr : parent r = none) (n : ℕ) : ancestor parent (n + 1) r = none := by
  rw [ancestor, hr, bind_none]

/-- A root is at one distance only. -/
theorem depth_unique {a r r' : K} {m n : ℕ} (hr : parent r = none) (hr' : parent r' = none)
    (hm : ancestor parent m a = some r) (hn : ancestor parent n a = some r') : m = n ∧ r = r' := by
  rcases lt_trichotomy m n with h | rfl | h
  · obtain ⟨k, rfl⟩ := Nat.exists_eq_add_of_lt h
    rw [Nat.add_assoc, ancestor_add, hm, bind_some, ancestor_of_root hr] at hn
    cases hn
  · exact ⟨rfl, some.inj (hm.symm.trans hn)⟩
  · obtain ⟨k, rfl⟩ := Nat.exists_eq_add_of_lt h
    rw [Nat.add_assoc, ancestor_add, hn, bind_some, ancestor_of_root hr'] at hm
    cases hm

theorem RootOf.unique {a r r' : K} (h : RootOf parent a r) (h' : RootOf parent a r') : r = r' := by
  obtain ⟨⟨m, hm⟩, hr⟩ := h
  obtain ⟨⟨n, hn⟩, hr'⟩ := h'
  exact (depth_unique hr hr' hm hn).2

theorem RootOf.of_root {r : K} (h : parent r = none) : RootOf parent r r := ⟨.refl r, h⟩

theorem rootOf_of_parent {a b r : K} (h : parent a = some b) : RootOf parent a r ↔ RootOf parent b r := by
  constructor
  · rintro ⟨hunder, hr⟩
    rcases hunder.cases with rfl | ⟨c, hc, hunder⟩
    · rw [h] at hr
      cases hr
    · obtain rfl := some.inj (h.symm.trans hc)
      exact ⟨hunder, hr⟩
  · rintro ⟨hunder, hr⟩
    exact ⟨(Under.of_parent h).trans hunder, hr⟩

section Finite

variable {members : List K} (hmembers : ∀ a b, parent a = some b → b ∈ members)
  (hacyclic : Acyclic parent)
include hmembers hacyclic

/-- Without cycles, going up from one of finitely many keys comes to an end. -/
theorem exists_rootOf (a : K) : ∃ r, RootOf parent a r := by
  by_contra hnone
  -- otherwise there is an ancestor at every distance, and two of them are the same key
  have hall : ∀ n, ∃ b, ancestor parent n a = some b := by
    intro n
    induction n with
    | zero => exact ⟨a, rfl⟩
    | succ n ih =>
      obtain ⟨b, hb⟩ := ih
      cases hparent : parent b with
      | none => exact absurd ⟨b, ⟨n, hb⟩, hparent⟩ hnone
      | some c => exact ⟨c, by rw [ancestor_succ_of_eq hb, hparent]⟩
  choose f hf using hall
  have hmem : ∀ n, f (n + 1) ∈ members := fun n =>
    hmembers _ _ ((ancestor_succ_of_eq (hf n)).symm.trans (hf (n + 1)))
  obtain ⟨i, j, hij, heq⟩ : ∃ i j, i < j ∧ f (i + 1) = f (j + 1) := by
    have hfinite : Finite {k // k ∈ members} := members.finite_toSet
    obtain ⟨i, j, hne, heq⟩ := Finite.exists_ne_map_eq_of_infinite
      fun n : ℕ => (⟨f (n + 1), hmem n⟩ : {k // k ∈ members})
    have heq : f (i + 1) = f (j + 1) := congrArg Subtype.val heq
    rcases Nat.lt_or_gt_of_ne hne with h | h
    · exact ⟨i, j, h, heq⟩
    · exact ⟨j, i, h, heq.symm⟩
  obtain ⟨k, rfl⟩ := Nat.exists_eq_add_of_lt hij
  refine hacyclic (f (i + 1)) k ?_
  have hsum : i + k + 1 + 1 = (i + 1) + (k + 1) := by omega
  have hj := hf (i + k + 1 + 1)
  rw [hsum, ancestor_add, hf (i + 1), bind_some, ← hsum] at hj
  rw [hj, heq]

/-- **Keys are connected exactly if they have one root.** -/
theorem connected_iff_rootOf {a b : K} :
    Connected parent a b ↔ ∃ r, RootOf parent a r ∧ RootOf parent b r := by
  constructor
  · intro h
    induction h with
    | rel a b h =>
      obtain ⟨r, hr⟩ := exists_rootOf hmembers hacyclic a
      exact ⟨r, hr, (rootOf_of_parent h).mp hr⟩
    | refl a =>
      obtain ⟨r, hr⟩ := exists_rootOf hmembers hacyclic a
      exact ⟨r, hr, hr⟩
    | symm a b _ ih =>
      obtain ⟨r, hr, hr'⟩ := ih
      exact ⟨r, hr', hr⟩
    | trans a b c _ _ ih ih' =>
      obtain ⟨r, hr, hr'⟩ := ih
      obtain ⟨r', hr'', hr'''⟩ := ih'
      exact ⟨r, hr, hr'.unique hr'' ▸ hr'''⟩
  · rintro ⟨r, ⟨⟨m, hm⟩, -⟩, ⟨n, hn⟩, -⟩
    have hup : ∀ (n : ℕ) (a : K), ancestor parent n a = some r → Connected parent a r := by
      intro n
      induction n with
      | zero =>
        intro a h
        rw [← some.inj h]
        exact .refl a
      | succ n ih =>
        intro a h
        obtain ⟨c, hc, hcr⟩ := bind_eq_some_iff.mp h
        exact .trans _ _ _ (.rel _ _ hc) (ih c hcr)
    exact .trans _ _ _ (hup m a hm) (.symm _ _ (hup n b hn))

end Finite

/-- A key is not nearer to its root than itself: the keys on the way up are distinct. -/
theorem ancestor_ne {a r k : K} {n m : ℕ} (hr : parent r = none) (hn : ancestor parent n a = some r)
    (hm : m < n) (hk : ancestor parent (m + 1) a = some k) : k ≠ a := by
  rintro rfl
  obtain ⟨d, rfl⟩ := Nat.exists_eq_add_of_le (Nat.succ_le_of_lt hm)
  rw [ancestor_add, hk, bind_some] at hn
  have := (depth_unique hr hr hn (show ancestor parent (m.succ + d) k = some r by
    rw [ancestor_add, hk, bind_some, hn])).1
  omega

/-- The way up to a root is shorter than the list of all keys on it. -/
theorem depth_lt_length {members : List K} {a r : K} {n : ℕ} (ha : a ∈ members)
    (hmembers : ∀ a b, parent a = some b → b ∈ members) (hr : parent r = none)
    (hn : ancestor parent n a = some r) : n < members.length := by
  -- the path as a list, head first
  suffices h : ∀ n a, a ∈ members → ancestor parent n a = some r →
      ∃ path : List K, path.length = n + 1 ∧ path.Nodup ∧ (∀ k ∈ path, k ∈ members) ∧
        ∀ k ∈ path, ∃ m ≤ n, ancestor parent m a = some k by
    obtain ⟨path, hlength, hnodup, hsub, -⟩ := h n a ha hn
    have := (hnodup.subperm fun k hk => hsub k hk).length_le
    omega
  intro n
  induction n with
  | zero =>
    intro a ha _
    exact ⟨[a], rfl, nodup_singleton a, fun k hk => mem_singleton.mp hk ▸ ha,
      fun k hk => ⟨0, le_rfl, by rw [mem_singleton.mp hk]; rfl⟩⟩
  | succ n ih =>
    intro a ha hn
    obtain ⟨c, hc, hcr⟩ := bind_eq_some_iff.mp hn
    obtain ⟨path, hlength, hnodup, hsub, hup⟩ := ih c (hmembers a c hc) hcr
    have habove : ∀ k ∈ path, ∃ m < n + 1, ancestor parent (m + 1) a = some k := by
      intro k hk
      obtain ⟨m, hm, hmk⟩ := hup k hk
      exact ⟨m, by omega, by rw [ancestor, hc, bind_some, hmk]⟩
    refine ⟨a :: path, by rw [length_cons, hlength], nodup_cons.mpr ⟨fun hmem => ?_, hnodup⟩, ?_, ?_⟩
    · obtain ⟨m, hm, hmk⟩ := habove a hmem
      exact ancestor_ne hr hn hm hmk rfl
    · intro k hk
      rcases mem_cons.mp hk with rfl | hk
      · exact ha
      · exact hsub k hk
    · intro k hk
      rcases mem_cons.mp hk with rfl | hk
      · exact ⟨0, Nat.zero_le _, rfl⟩
      · obtain ⟨m, hm, hmk⟩ := habove k hk
        exact ⟨m + 1, hm, hmk⟩

/-! ### Going up -/

section Search

variable [DecidableEq K]

/-- Goes up until there is no parent, or a key comes again. -/
def chase (parent : K → Option K) : ℕ → List K → K → K
  | 0, _, k => k
  | fuel + 1, seen, k =>
    if k ∈ seen then k
    else
      match parent k with
      | none => k
      | some above => chase parent fuel (k :: seen) above

theorem chase_mem {s : K → Prop} (hs : ∀ a b, parent a = some b → s b) (fuel : ℕ) (seen : List K) {k : K}
    (hk : s k) : s (chase parent fuel seen k) := by
  induction fuel generalizing seen k with
  | zero => exact hk
  | succ fuel ih =>
    rw [chase]
    split
    · exact hk
    · cases hparent : parent k with
      | none => exact hk
      | some above => exact ih _ (hs k above hparent)

/-- **The root is found**, if there is one. -/
theorem chase_eq {fuel n : ℕ} {seen : List K} {k r : K} (hr : parent r = none)
    (hn : ancestor parent n k = some r) (hfuel : n < fuel)
    (hseen : ∀ m ≤ n, ∀ above, ancestor parent m k = some above → above ∉ seen) :
    chase parent fuel seen k = r := by
  induction fuel generalizing n seen k with
  | zero => omega
  | succ fuel ih =>
    rw [chase, if_neg (hseen 0 (Nat.zero_le n) k rfl)]
    cases n with
    | zero =>
      obtain rfl := some.inj hn
      rw [hr]
    | succ n =>
      obtain ⟨above, habove, hrest⟩ := bind_eq_some_iff.mp hn
      rw [habove]
      refine ih hrest (by omega) fun m hm key hkey => ?_
      have hkey' : ancestor parent (m + 1) k = some key := by
        rw [ancestor, habove, bind_some, hkey]
      rw [mem_cons, not_or]
      exact ⟨ancestor_ne hr hn (by omega) hkey', hseen (m + 1) (by omega) key hkey'⟩

/-! ### Going down -/

/-- Goes down with a stack; the keys that were visited. -/
def descend (children : K → List K) : ℕ → List K → List K → List K
  | 0, _, seen => seen
  | _ + 1, [], seen => seen
  | fuel + 1, k :: stack, seen =>
    if k ∈ seen then descend children fuel stack seen
    else descend children fuel ((children k).reverse ++ stack) (k :: seen)

variable {children : K → List K}

theorem descend_forall {s : K → Prop} (hs : ∀ k c, s k → c ∈ children k → s c) (fuel : ℕ)
    (stack seen : List K) (hstack : ∀ k ∈ stack, s k) (hseen : ∀ k ∈ seen, s k) :
    ∀ k ∈ descend children fuel stack seen, s k := by
  induction fuel generalizing stack seen with
  | zero => exact hseen
  | succ fuel ih =>
    cases stack with
    | nil => exact hseen
    | cons k stack =>
      rw [descend]
      have hk := hstack k mem_cons_self
      have hrest := fun j hj => hstack j (mem_cons_of_mem _ hj)
      split
      · exact ih _ _ hrest hseen
      · refine ih _ _ (fun j hj => ?_) fun j hj => ?_
        · rcases mem_append.mp hj with hj | hj
          · exact hs k j hk (mem_reverse.mp hj)
          · exact hrest j hj
        · rcases mem_cons.mp hj with rfl | hj
          · exact hk
          · exact hseen j hj

theorem descend_grows (fuel : ℕ) (stack seen : List K) :
    ∀ k ∈ seen, k ∈ descend children fuel stack seen := by
  induction fuel generalizing stack seen with
  | zero => exact fun k hk => hk
  | succ fuel ih =>
    cases stack with
    | nil => exact fun k hk => hk
    | cons j stack =>
      rw [descend]
      split
      · exact ih _ _
      · exact fun k hk => ih _ _ k (mem_cons_of_mem _ hk)

/-- **The search ends with an empty stack.**  What was on the stack is visited, and so are the children
of what is visited.  The links say how many children are pushed. -/
theorem descend_closed {links : List (K × K)}
    (hlinks : ∀ k, (children k).length = links.countP fun l => l.1 = k) (fuel : ℕ) (stack seen : List K)
    (hfuel : stack.length + (links.countP fun l => l.1 ∉ seen) ≤ fuel)
    (hclosed : ∀ k ∈ seen, ∀ c ∈ children k, c ∈ seen ∨ c ∈ stack) :
    (∀ k ∈ stack, k ∈ descend children fuel stack seen) ∧
      ∀ k ∈ descend children fuel stack seen, ∀ c ∈ children k, c ∈ descend children fuel stack seen := by
  induction fuel generalizing stack seen with
  | zero =>
    have hstack : stack = [] := length_eq_zero_iff.mp (by omega)
    subst hstack
    refine ⟨fun _ h => absurd h not_mem_nil, fun k hk c hc => ?_⟩
    exact (hclosed k hk c hc).resolve_right not_mem_nil
  | succ fuel ih =>
    cases stack with
    | nil =>
      refine ⟨fun _ h => absurd h not_mem_nil, fun k hk c hc => ?_⟩
      exact (hclosed k hk c hc).resolve_right not_mem_nil
    | cons k stack =>
      rw [length_cons] at hfuel
      rw [descend]
      split
      · next hold =>
          obtain ⟨hvisited, hdone⟩ := ih stack seen (by omega) fun j hj c hc => by
            rcases hclosed j hj c hc with h | h
            · exact .inl h
            · rcases mem_cons.mp h with rfl | h
              · exact .inl hold
              · exact .inr h
          refine ⟨fun j hj => ?_, hdone⟩
          rcases mem_cons.mp hj with rfl | hj
          · exact descend_grows _ _ _ _ hold
          · exact hvisited j hj
      · next hnew =>
          have hcount : (links.countP fun l => l.1 ∉ k :: seen) + (children k).length =
              links.countP fun l => l.1 ∉ seen := by
            rw [hlinks]
            clear hfuel ih hlinks hclosed
            induction links with
            | nil => rfl
            | cons l links ih =>
              rw [countP_cons, countP_cons, countP_cons, ← ih]
              by_cases h : l.1 = k
              · simp [h, hnew]
                omega
              · simp [h]
                omega
          obtain ⟨hvisited, hdone⟩ := ih ((children k).reverse ++ stack) (k :: seen)
            (by rw [length_append, length_reverse]; omega) fun j hj c hc => by
              rcases mem_cons.mp hj with rfl | hj
              · exact .inr (mem_append_left _ (mem_reverse.mpr hc))
              · rcases hclosed j hj c hc with h | h
                · exact .inl (mem_cons_of_mem _ h)
                · rcases mem_cons.mp h with rfl | h
                  · exact .inl mem_cons_self
                  · exact .inr (mem_append_right _ h)
          refine ⟨fun j hj => ?_, hdone⟩
          rcases mem_cons.mp hj with rfl | hj
          · exact descend_grows _ _ _ _ mem_cons_self
          · exact hvisited j (mem_append_right _ hj)

/-- **All keys below are found**, and no others. -/
theorem mem_descend {links : List (K × K)} (hchildren : ∀ k c, c ∈ children k ↔ parent c = some k)
    (hlinks : ∀ k, (children k).length = links.countP fun l => l.1 = k) {fuel : ℕ}
    (hfuel : links.length < fuel) {r k : K} :
    k ∈ descend children fuel [r] [] ↔ Under parent k r := by
  constructor
  · refine descend_forall (s := fun k => Under parent k r) (fun k c hk hc => ?_) _ _ _ ?_ ?_ k
    · exact (Under.of_parent ((hchildren k c).mp hc)).trans hk
    · exact fun k hk => mem_singleton.mp hk ▸ .refl k
    · exact fun _ h => absurd h not_mem_nil
  · rintro ⟨n, hn⟩
    obtain ⟨hstack, hclosed⟩ := descend_closed hlinks fuel [r] []
      (by have := countP_le_length (p := fun l : K × K => decide (l.1 ∉ ([] : List K))) (l := links)
          rw [length_singleton]
          omega)
      fun _ h => absurd h not_mem_nil
    induction n generalizing k with
    | zero => exact hstack k (mem_singleton.mpr (some.inj hn))
    | succ n ih =>
      obtain ⟨c, hc, hcr⟩ := bind_eq_some_iff.mp hn
      exact hclosed c (ih hcr) k ((hchildren c k).mpr hc)

/-! ### Distances -/

/-- Notes a child that is met for the first time, and puts it on the stack. -/
def meet (depth : ℕ) (s : List (K × ℕ) × List K) (child : K) : List (K × ℕ) × List K :=
  if child ∈ s.1.map Prod.fst then s else (s.1 ++ [(child, depth + 1)], child :: s.2)

/-- The distance that was noted. -/
def noted (found : List (K × ℕ)) (k : K) : Option ℕ := (found.find? fun p => p.1 = k).map Prod.snd

/-- Goes down with a stack and notes the distance of every key that is met. -/
def depths (children : K → List K) : ℕ → List K → List (K × ℕ) → List (K × ℕ)
  | 0, _, found => found
  | _ + 1, [], found => found
  | fuel + 1, k :: stack, found =>
    let s := (children k).foldl (meet ((noted found k).getD 0)) (found, stack)
    depths children fuel s.2 s.1

theorem mem_of_noted {found : List (K × ℕ)} {k : K} {n : ℕ} (h : noted found k = some n) :
    (k, n) ∈ found := by
  obtain ⟨p, hp, rfl⟩ := map_eq_some_iff.mp h
  have hk : p.1 = k := by simpa using find?_some hp
  exact hk ▸ mem_of_find?_eq_some hp

theorem exists_noted {found : List (K × ℕ)} {k : K} (h : k ∈ found.map Prod.fst) :
    ∃ n, noted found k = some n := by
  obtain ⟨p, hp, rfl⟩ := mem_map.mp h
  have hsome : (found.find? fun q => q.1 = p.1).isSome := find?_isSome.mpr ⟨p, hp, decide_eq_true rfl⟩
  obtain ⟨q, hq⟩ := isSome_iff_exists.mp hsome
  exact ⟨q.2, by rw [noted, hq]; rfl⟩

/-- What the search has noted: true distances of keys in `members`, each once, and as many of them as
were taken from the stack or are on it. -/
structure Noted (parent : K → Option K) (root : K) (members : List K) (taken : ℕ)
    (s : List (K × ℕ) × List K) : Prop where
  distinct : (s.1.map Prod.fst).Nodup
  sound : ∀ q ∈ s.1, ancestor parent q.2 q.1 = some root ∧ q.1 ∈ members
  pending : ∀ k ∈ s.2, k ∈ s.1.map Prod.fst
  count : taken + s.2.length = s.1.length

/-- The search goes on from `s` to `s'`: nothing is forgotten, and what is new is on the stack. -/
structure GoesOn (s s' : List (K × ℕ) × List K) : Prop where
  keys : ∀ k ∈ s.1.map Prod.fst, k ∈ s'.1.map Prod.fst
  stack : ∀ k ∈ s.2, k ∈ s'.2
  fresh : ∀ k ∈ s'.1.map Prod.fst, k ∈ s.1.map Prod.fst ∨ k ∈ s'.2

omit [DecidableEq K] in
theorem GoesOn.refl (s : List (K × ℕ) × List K) : GoesOn s s :=
  ⟨fun _ h => h, fun _ h => h, fun _ h => .inl h⟩

omit [DecidableEq K] in
theorem GoesOn.trans {s s' s'' : List (K × ℕ) × List K} (h : GoesOn s s') (h' : GoesOn s' s'') :
    GoesOn s s'' where
  keys k hk := h'.keys k (h.keys k hk)
  stack k hk := h'.stack k (h.stack k hk)
  fresh k hk := by
    rcases h'.fresh k hk with hk | hk
    · exact (h.fresh k hk).imp_right (h'.stack k)
    · exact .inr hk

variable {root : K} {members : List K}

/-- One child is noted. -/
theorem Noted.meet {taken depth : ℕ} {s : List (K × ℕ) × List K}
    (h : Noted parent root members taken s) {k c : K}
    (hc : parent c = some k) (hmember : c ∈ members) (hk : ancestor parent depth k = some root) :
    Noted parent root members taken (meet depth s c) ∧ GoesOn s (Forest.meet depth s c) ∧
      c ∈ (Forest.meet depth s c).1.map Prod.fst := by
  rw [Forest.meet]
  split
  · next hold => exact ⟨h, .refl s, hold⟩
  · next hnew =>
      have hkeys : (s.1 ++ [(c, depth + 1)]).map Prod.fst = s.1.map Prod.fst ++ [c] := by simp
      refine ⟨⟨?_, fun q hq => ?_, fun j hj => ?_, ?_⟩,
        ⟨fun j hj => ?_, fun j hj => ?_, fun j hj => ?_⟩, ?_⟩
      · rw [hkeys]
        exact nodup_append.mpr ⟨h.distinct, nodup_singleton c,
          fun a ha b hb heq => hnew (mem_singleton.mp hb ▸ heq ▸ ha)⟩
      · rcases mem_append.mp hq with hq | hq
        · exact h.sound q hq
        · rw [mem_singleton.mp hq]
          exact ⟨by rw [ancestor, hc, bind_some, hk], hmember⟩
      · rw [hkeys, mem_append]
        rcases mem_cons.mp hj with rfl | hj
        · exact .inr mem_cons_self
        · exact .inl (h.pending j hj)
      · have := h.count
        rw [length_cons, length_append, length_singleton]
        omega
      · rw [hkeys]
        exact mem_append_left _ hj
      · exact mem_cons_of_mem _ hj
      · rw [hkeys, mem_append, mem_singleton] at hj
        rcases hj with hj | rfl
        · exact .inl hj
        · exact .inr mem_cons_self
      · rw [hkeys]
        exact mem_append_right _ mem_cons_self

/-- All children of a key are noted. -/
theorem Noted.foldl_meet {taken depth : ℕ} {k : K} (hk : ancestor parent depth k = some root) :
    ∀ (cs : List K) (s : List (K × ℕ) × List K), (∀ c ∈ cs, parent c = some k ∧ c ∈ members) →
      Noted parent root members taken s →
      Noted parent root members taken (cs.foldl (Forest.meet depth) s) ∧
        GoesOn s (cs.foldl (Forest.meet depth) s) ∧
        ∀ c ∈ cs, c ∈ (cs.foldl (Forest.meet depth) s).1.map Prod.fst := by
  intro cs
  induction cs with
  | nil => exact fun s _ h => ⟨h, .refl s, fun _ hc => absurd hc not_mem_nil⟩
  | cons c cs ih =>
    intro s hcs h
    obtain ⟨hc, hmember⟩ := hcs c mem_cons_self
    obtain ⟨hnoted, hgoes, hin⟩ := h.meet hc hmember hk
    obtain ⟨hrest, hgoes', hall⟩ := ih _ (fun d hd => hcs d (mem_cons_of_mem _ hd)) hnoted
    refine ⟨hrest, hgoes.trans hgoes', fun d hd => ?_⟩
    rcases mem_cons.mp hd with rfl | hd
    · exact hgoes'.keys _ hin
    · exact hall d hd

/-- The stack is empty at the end, so that the children of what is noted are noted. -/
theorem depths_closed (hchildren : ∀ k c, c ∈ children k ↔ parent c = some k)
    (hmembers : ∀ a b, parent a = some b → a ∈ members) (fuel taken : ℕ) (stack : List K)
    (found : List (K × ℕ))
    (h : Noted parent root members taken (found, stack)) (hfuel : members.length ≤ taken + fuel)
    (hclosed : ∀ k ∈ found.map Prod.fst, k ∈ stack ∨ ∀ c ∈ children k, c ∈ found.map Prod.fst) :
    ∃ taken', Noted parent root members taken' (depths children fuel stack found, []) ∧
      (∀ k ∈ found.map Prod.fst, k ∈ (depths children fuel stack found).map Prod.fst) ∧
      ∀ k ∈ (depths children fuel stack found).map Prod.fst, ∀ c ∈ children k,
        c ∈ (depths children fuel stack found).map Prod.fst := by
  induction fuel generalizing taken stack found with
  | zero =>
    have hbound : found.length ≤ members.length := by
      rw [← length_map (f := Prod.fst)]
      refine (h.distinct.subperm fun k hk => ?_).length_le
      obtain ⟨q, hq, rfl⟩ := mem_map.mp hk
      exact (h.sound q hq).2
    have hcount : taken + stack.length = found.length := h.count
    obtain rfl : stack = [] := length_eq_zero_iff.mp (by omega)
    exact ⟨taken, h, fun _ hk => hk, fun k hk => (hclosed k hk).resolve_left not_mem_nil⟩
  | succ fuel ih =>
    cases stack with
    | nil => exact ⟨taken, h, fun _ hk => hk, fun k hk => (hclosed k hk).resolve_left not_mem_nil⟩
    | cons k stack =>
      obtain ⟨n, hn⟩ := exists_noted (h.pending k mem_cons_self)
      have hk := (h.sound _ (mem_of_noted hn)).1
      have hpopped : Noted parent root members (taken + 1) (found, stack) := by
        refine ⟨h.distinct, h.sound, fun j hj => h.pending j (mem_cons_of_mem _ hj), ?_⟩
        have hcount : taken + (stack.length + 1) = found.length := h.count
        dsimp only
        omega
      obtain ⟨hnoted, hgoes, hall⟩ := Noted.foldl_meet hk (children k) (found, stack)
        (fun c hc => ⟨(hchildren k c).mp hc, hmembers c k ((hchildren k c).mp hc)⟩) hpopped
      rw [depths, hn, getD_some]
      obtain ⟨taken', hdone, hgrows, hend⟩ := ih (taken + 1) _ _ hnoted (by omega) fun j hj => by
        rcases hgoes.fresh j hj with hold | hnew
        · rcases hclosed j hold with hstack | hkids
          · rcases mem_cons.mp hstack with rfl | hstack
            · exact .inr hall
            · exact .inl (hgoes.stack j hstack)
          · exact .inr fun c hc => hgoes.keys c (hkids c hc)
        · exact .inl hnew
      exact ⟨taken', hdone, fun j hj => hgrows j (hgoes.keys j hj), hend⟩

/-- **Every key below the root is noted with its distance.** -/
theorem noted_depths (hchildren : ∀ k c, c ∈ children k ↔ parent c = some k)
    (hmembers : ∀ a b, parent a = some b → a ∈ members) (hroot : root ∈ members) {n : ℕ} {k : K}
    (hnone : parent root = none) (h : ancestor parent n k = some root) :
    noted (depths children members.length [root] [(root, 0)]) k = some n := by
  have hstart : Noted parent root members 0 ([(root, 0)], [root]) := by
    refine ⟨nodup_singleton _, fun q hq => ?_, fun j hj => hj, rfl⟩
    rw [mem_singleton.mp hq]
    exact ⟨rfl, hroot⟩
  obtain ⟨_, hdone, hgrows, hend⟩ :=
    depths_closed hchildren hmembers members.length 0 [root] [(root, 0)] hstart
    (by omega) fun j hj => .inl hj
  have hin : ∀ m j, ancestor parent m j = some root →
      j ∈ (depths children members.length [root] [(root, 0)]).map Prod.fst := by
    intro m
    induction m with
    | zero =>
      intro j hj
      rw [some.inj hj]
      exact hgrows root mem_cons_self
    | succ m ih =>
      intro j hj
      obtain ⟨c, hc, hcr⟩ := bind_eq_some_iff.mp hj
      exact hend c (ih c hcr) j ((hchildren c j).mpr hc)
  obtain ⟨m, hm⟩ := exists_noted (hin n k h)
  have hsound : ancestor parent m k = some root := (hdone.sound _ (mem_of_noted hm)).1
  rw [hm, (depth_unique hnone hnone hsound h).1]

end Search

end Forest
