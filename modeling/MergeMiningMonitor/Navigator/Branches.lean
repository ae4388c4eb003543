import Mathlib.Algebra.Order.Ring.Int
import MergeMiningMonitor.Support.Lists
import MergeMiningMonitor.Support.Ordered
import MergeMiningMonitor.Support.Table
import MergeMiningMonitor.Navigator.Cursor

/-!
# Navigator — Branches

Blocks grouped into branches (`branch_components`).  From every block whose predecessor is not among the
blocks, and then from every block that is still unvisited, the blocks that descend from it are collected
with a stack.  A branch keeps its root, the hashes of its members and the range of their order keys; a
single block is no branch.

The members of different branches are disjoint (`branchComponents_pairwise`), a root is a member of its
own branch and the range is one (`branchComponents_spec`).  So branches are told apart by their roots
(`branchComponents_nodup`), and a block is in one branch at most.  The collection always runs until its
stack is empty (`collect_closed`).
-/

namespace MergeMiningMonitor.Navigator

open Relational Ordered Lists List
open AuxPow (Hash32)

structure BranchRow where
  hash : Hash32
  prevHash : Hash32
  orderKey : ℤ

/-- The rows of a branch index, by their hashes. -/
abbrev BranchRows := Table BranchRow.hash

structure BranchComponent where
  rootHash : Hash32
  memberHashes : List Hash32
  tipHashes : List Hash32
  keyMin : ℤ
  keyMax : ℤ
  depth : ℕ
deriving DecidableEq

/-- Smaller order keys first, then smaller hashes. -/
def oldestKeyFirst (a b : BranchRow) : Bool :=
  a.orderKey < b.orderKey || (a.orderKey = b.orderKey && a.hash ≤ b.hash)

section Components

variable (rows : BranchRows)

def childrenByPrev (hash : Hash32) : List Hash32 :=
  (sortBy oldestKeyFirst (rows.rows.filter (·.prevHash = hash))).map (·.hash)

/-- The loop of `summarize_component` over its stack, with the visited hashes and the members. -/
def collect : ℕ → List Hash32 → List Hash32 → List BranchRow → List Hash32 × List BranchRow
  | 0, _, visited, members => (visited, members)
  | _ + 1, [], visited, members => (visited, members)
  | fuel + 1, hash :: stack, visited, members =>
    if hash ∈ visited then collect fuel stack visited members
    else
      match rows.find? hash with
      | some row => collect fuel (childrenByPrev rows hash ++ stack) (hash :: visited) (members ++ [row])
      | none => collect fuel stack (hash :: visited) members

/-- Greater order keys first, then smaller hashes. -/
def newestKeyFirst (a b : BranchRow) : Bool :=
  b.orderKey < a.orderKey || (a.orderKey = b.orderKey && a.hash ≤ b.hash)

/-- `tip_rows`: the members that no member extends, the newest first. -/
def tipRows (members : List BranchRow) : List BranchRow :=
  sortBy newestKeyFirst (members.filter fun m =>
    (childrenByPrev rows m.hash).all fun child => child ∉ members.map (·.hash))

def summarizeComponent (rootHash : Hash32) (visited : List Hash32) :
    Option BranchComponent × List Hash32 :=
  match rows.find? rootHash with
  | none => (none, visited)
  | some _ =>
    match collect rows (rows.rows.length + 1) [rootHash] visited [] with
    | (visited, []) => (none, visited)
    | (visited, m :: members) =>
      (some
        { rootHash
          memberHashes := ((m :: members).map (·.hash)).insertionSort (· ≤ ·)
          tipHashes := (tipRows rows (m :: members)).map (·.hash)
          keyMin := members.foldl (fun key r => min key r.orderKey) m.orderKey
          keyMax := members.foldl (fun key r => max key r.orderKey) m.orderKey
          depth := (m :: members).length }, visited)

/-- A component from one more root. -/
def addComponent (s : List BranchComponent × List Hash32) (rootHash : Hash32) :
    List BranchComponent × List Hash32 :=
  let (component, visited) := summarizeComponent rows rootHash s.2
  (s.1 ++ component.toList, visited)

def branchComponents : List BranchComponent :=
  let roots := sortBy oldestKeyFirst (rows.rows.filter fun r => (rows.find? r.prevHash).isNone)
  let s := roots.foldl (fun s r => addComponent rows s r.hash) ([], [])
  -- what is left lies on cycles or hangs off them
  let s := (sortBy oldestKeyFirst rows.rows).foldl
    (fun s r => if r.hash ∈ s.2 then s else addComponent rows s r.hash) s
  s.1.filter fun component => component.depth ≥ 2

end Components

/-! ### One component -/

variable {rows : BranchRows}

/-- The rows that were collected, from one set of visited hashes to the next. -/
structure Collected (rows : BranchRows) (visited visited' : List Hash32) (collected : List BranchRow) :
    Prop where
  grows : ∀ h ∈ visited, h ∈ visited'
  fresh : ∀ r ∈ collected, r ∈ rows.rows ∧ r.hash ∉ visited ∧ r.hash ∈ visited'

/-- **Only rows that were not visited are collected.** -/
theorem collect_spec (rows : BranchRows) (fuel : ℕ) (stack visited : List Hash32)
    (members : List BranchRow) :
    ∃ collected, (collect rows fuel stack visited members).2 = members ++ collected ∧
      Collected rows visited (collect rows fuel stack visited members).1 collected := by
  induction fuel generalizing stack visited members with
  | zero => exact ⟨[], (append_nil _).symm, fun _ h => h, fun _ h => absurd h not_mem_nil⟩
  | succ fuel ih =>
    cases stack with
    | nil => exact ⟨[], (append_nil _).symm, fun _ h => h, fun _ h => absurd h not_mem_nil⟩
    | cons hash stack =>
      rw [collect]
      split
      · exact ih stack visited members
      · next hnew =>
          split
          · next row hrow =>
              obtain ⟨collected, hmembers, hgrows, hfresh⟩ :=
                ih (childrenByPrev rows hash ++ stack) (hash :: visited) (members ++ [row])
              refine ⟨row :: collected, by rw [hmembers, append_assoc]; rfl,
                fun h hh => hgrows h (mem_cons_of_mem _ hh), fun r hr => ?_⟩
              rcases mem_cons.mp hr with rfl | hr
              · have hkey : r.hash = hash := Table.key_of_find? hrow
                exact ⟨Table.mem_of_find? hrow, hkey ▸ hnew,
                  hgrows _ (hkey ▸ mem_cons_self)⟩
              · obtain ⟨hmem, hnot, hin⟩ := hfresh r hr
                exact ⟨hmem, fun h => hnot (mem_cons_of_mem _ h), hin⟩
          · obtain ⟨collected, hmembers, hgrows, hfresh⟩ := ih stack (hash :: visited) members
            refine ⟨collected, hmembers, fun h hh => hgrows h (mem_cons_of_mem _ hh),
              fun r hr => ?_⟩
            obtain ⟨hmem, hnot, hin⟩ := hfresh r hr
            exact ⟨hmem, fun h => hnot (mem_cons_of_mem _ h), hin⟩

theorem mem_childrenByPrev {hash child : Hash32} :
    child ∈ childrenByPrev rows hash ↔ ∃ r ∈ rows.rows, r.prevHash = hash ∧ r.hash = child := by
  simp [childrenByPrev, and_assoc]

theorem length_childrenByPrev (hash : Hash32) :
    (childrenByPrev rows hash).length = rows.rows.countP (·.prevHash = hash) := by
  rw [childrenByPrev, length_map, (perm_sortBy _ _).length_eq, countP_eq_length_filter]

/-- Every step pops a hash, and pushes rows only under a predecessor that was not visited. -/
theorem countP_unvisited (rows : BranchRows) {hash : Hash32} {visited : List Hash32}
    (hnew : hash ∉ visited) :
    (rows.rows.countP fun r => r.prevHash ∉ hash :: visited) + (childrenByPrev rows hash).length =
      rows.rows.countP fun r => r.prevHash ∉ visited := by
  rw [length_childrenByPrev]
  generalize rows.rows = rs
  induction rs with
  | nil => rfl
  | cons r rs ih =>
    rw [countP_cons, countP_cons, countP_cons, ← ih]
    by_cases h : r.prevHash = hash
    · have hvisited : r.prevHash ∉ visited := h ▸ hnew
      simp [h, hnew]
      omega
    · simp [h]
      omega

/-- **The collection ends with an empty stack.**  Whatever follows a collected row is visited. -/
theorem collect_closed (fuel : ℕ) (stack visited : List Hash32) (members : List BranchRow)
    (hfuel : stack.length + (rows.rows.countP fun r => r.prevHash ∉ visited) ≤ fuel)
    (hmembers : ∀ m ∈ members, ∀ child ∈ childrenByPrev rows m.hash, child ∈ visited ∨ child ∈ stack) :
    ∀ m ∈ (collect rows fuel stack visited members).2, ∀ child ∈ childrenByPrev rows m.hash,
      child ∈ (collect rows fuel stack visited members).1 := by
  induction fuel generalizing stack visited members with
  | zero =>
    have hstack : stack = [] := length_eq_zero_iff.mp (by omega)
    subst hstack
    exact fun m hm child hchild => (hmembers m hm child hchild).resolve_right not_mem_nil
  | succ fuel ih =>
    cases stack with
    | nil => exact fun m hm child hchild => (hmembers m hm child hchild).resolve_right not_mem_nil
    | cons hash stack =>
      rw [length_cons] at hfuel
      rw [collect]
      split
      · next hold =>
          refine ih _ _ _ (by omega) fun m hm child hchild => ?_
          rcases hmembers m hm child hchild with h | h
          · exact .inl h
          · rcases mem_cons.mp h with rfl | h
            · exact .inl hold
            · exact .inr h
      · next hnew =>
          have hcount := countP_unvisited rows hnew
          have hkept : ∀ m ∈ members, ∀ child ∈ childrenByPrev rows m.hash,
              child ∈ hash :: visited ∨ child ∈ stack := by
            intro m hm child hchild
            rcases hmembers m hm child hchild with h | h
            · exact .inl (mem_cons_of_mem _ h)
            · rcases mem_cons.mp h with rfl | h
              · exact .inl mem_cons_self
              · exact .inr h
          split
          · next row hrow =>
              refine ih _ _ _ (by rw [length_append]; omega) fun m hm child hchild => ?_
              rcases mem_append.mp hm with hm | hm
              · exact (hkept m hm child hchild).imp_right (mem_append_right _)
              · obtain rfl := mem_singleton.mp hm
                rw [show m.hash = hash from Table.key_of_find? hrow] at hchild
                exact .inr (mem_append_left _ hchild)
          · exact ih _ _ _ (by omega) hkept

/-- What a component keeps of its members. -/
structure ComponentSpec (rows : BranchRows) (c : BranchComponent) : Prop where
  root_mem : c.rootHash ∈ c.memberHashes
  members : ∀ h ∈ c.memberHashes, ∃ r ∈ rows.rows, r.hash = h
  min_le_max : c.keyMin ≤ c.keyMax
  min_mem : ∃ r ∈ rows.rows, r.orderKey = c.keyMin
  max_mem : ∃ r ∈ rows.rows, r.orderKey = c.keyMax

/-- **A component has new members only, and its root among them.** -/
theorem summarizeComponent_spec (rows : BranchRows) (rootHash : Hash32) (visited : List Hash32) :
    (∀ h ∈ visited, h ∈ (summarizeComponent rows rootHash visited).2) ∧
    ∀ c ∈ (summarizeComponent rows rootHash visited).1, ComponentSpec rows c ∧
      ∀ h ∈ c.memberHashes, h ∉ visited ∧ h ∈ (summarizeComponent rows rootHash visited).2 := by
  unfold summarizeComponent
  cases hroot : rows.find? rootHash with
  | none => exact ⟨fun h hh => hh, fun c hc => nomatch hc⟩
  | some root =>
    dsimp only
    obtain ⟨collected, hmembers, hgrows, hfresh⟩ :=
      collect_spec rows (rows.rows.length + 1) [rootHash] visited []
    -- the root is collected first, if it was not visited
    have hfirst : (collect rows (rows.rows.length + 1) [rootHash] visited []).2 = [] ∨
        root ∈ (collect rows (rows.rows.length + 1) [rootHash] visited []).2 := by
      rw [collect]
      split
      · refine .inl ?_
        cases rows.rows.length <;> rfl
      · rw [hroot]
        obtain ⟨more, hmore, -⟩ := collect_spec rows rows.rows.length
          (childrenByPrev rows rootHash ++ []) (rootHash :: visited) ([] ++ [root])
        dsimp only
        rw [hmore]
        exact .inr (mem_append_left _ mem_cons_self)
    generalize collect rows (rows.rows.length + 1) [rootHash] visited [] = result at *
    obtain ⟨visited', members⟩ := result
    obtain rfl : members = collected := hmembers
    cases members with
    | nil => exact ⟨hgrows, fun c hc => nomatch hc⟩
    | cons m members =>
      refine ⟨hgrows, fun c hc => ?_⟩
      obtain rfl := Option.some.inj hc
      obtain ⟨rmin, hrmin, hmin, hle⟩ := foldl_select (R := (· ≤ ·)) min_choice min_le_left
        min_le_right BranchRow.orderKey m members
      obtain ⟨rmax, hrmax, hmax, -⟩ := foldl_select (R := (· ≥ ·)) max_choice le_max_left
        le_max_right BranchRow.orderKey m members
      have hhashes : ∀ h, h ∈ ((m :: members).map (·.hash)).insertionSort (· ≤ ·) ↔
          ∃ r ∈ m :: members, r.hash = h := fun h => by
        rw [mem_insertionSort, mem_map]
      refine ⟨⟨?_, ?_, hmin ▸ hmax ▸ hle rmax hrmax, ⟨rmin, (hfresh rmin hrmin).1, hmin⟩,
        ⟨rmax, (hfresh rmax hrmax).1, hmax⟩⟩, fun h hh => ?_⟩
      · rcases hfirst with h | h
        · cases h
        · exact (hhashes _).mpr ⟨root, h, Table.key_of_find? hroot⟩
      · intro h hh
        obtain ⟨r, hr, rfl⟩ := (hhashes h).mp hh
        exact ⟨r, (hfresh r hr).1, rfl⟩
      · obtain ⟨r, hr, rfl⟩ := (hhashes h).mp hh
        exact (hfresh r hr).2

/-! ### All components -/

/-- What is collected so far: components of visited members, no two of which meet. -/
structure Grouped (rows : BranchRows) (s : List BranchComponent × List Hash32) : Prop where
  spec : ∀ c ∈ s.1, ComponentSpec rows c
  visited : ∀ c ∈ s.1, ∀ h ∈ c.memberHashes, h ∈ s.2
  disjoint : s.1.Pairwise fun c d => ∀ h ∈ c.memberHashes, h ∉ d.memberHashes

theorem Grouped.addComponent {s : List BranchComponent × List Hash32} (hs : Grouped rows s)
    (rootHash : Hash32) : Grouped rows (addComponent rows s rootHash) := by
  obtain ⟨hgrows, hspec⟩ := summarizeComponent_spec rows rootHash s.2
  rw [Navigator.addComponent]
  generalize summarizeComponent rows rootHash s.2 = result at hgrows hspec
  obtain ⟨component, visited⟩ := result
  cases component with
  | none =>
    refine ⟨?_, ?_, ?_⟩
    · simpa using hs.spec
    · intro c hc h hh
      exact hgrows h (hs.visited c (by simpa using hc) h hh)
    · simpa using hs.disjoint
  | some component =>
    obtain ⟨hcomponent, hfresh⟩ := hspec component rfl
    dsimp only [Option.toList_some]
    refine ⟨fun c hc => ?_, fun c hc h hh => ?_, ?_⟩
    · rcases mem_append.mp hc with hc | hc
      · exact hs.spec c hc
      · exact mem_singleton.mp hc ▸ hcomponent
    · rcases mem_append.mp hc with hc | hc
      · exact hgrows h (hs.visited c hc h hh)
      · exact (hfresh h (mem_singleton.mp hc ▸ hh)).2
    · refine pairwise_append.mpr ⟨hs.disjoint, pairwise_singleton _ _, ?_⟩
      intro c hc d hd h hh hd'
      exact (hfresh h (mem_singleton.mp hd ▸ hd')).1 (hs.visited c hc h hh)

theorem grouped_components (rows : BranchRows) :
    ∃ s, Grouped rows s ∧ branchComponents rows = s.1.filter fun c => c.depth ≥ 2 := by
  refine ⟨_, ?_, rfl⟩
  have hroots : ∀ (rs : List BranchRow) s, Grouped rows s →
      Grouped rows (rs.foldl (fun s r => addComponent rows s r.hash) s) := by
    intro rs
    induction rs with
    | nil => exact fun s hs => hs
    | cons r rs ih => exact fun s hs => ih _ (hs.addComponent r.hash)
  have hleft : ∀ (rs : List BranchRow) s, Grouped rows s → Grouped rows
      (rs.foldl (fun s r => if r.hash ∈ s.2 then s else addComponent rows s r.hash) s) := by
    intro rs
    induction rs with
    | nil => exact fun s hs => hs
    | cons r rs ih =>
      intro s hs
      refine ih _ ?_
      dsimp only
      split
      · exact hs
      · exact hs.addComponent r.hash
  refine hleft _ _ (hroots _ _ ⟨?_, ?_, Pairwise.nil⟩)
  · exact fun c hc => absurd hc not_mem_nil
  · exact fun c hc => absurd hc not_mem_nil

theorem branchComponents_spec {c : BranchComponent} (hc : c ∈ branchComponents rows) :
    ComponentSpec rows c := by
  obtain ⟨s, hs, heq⟩ := grouped_components rows
  rw [heq] at hc
  exact hs.spec c (mem_of_mem_filter hc)

/-- **No block is in two branches.** -/
theorem branchComponents_pairwise (rows : BranchRows) :
    (branchComponents rows).Pairwise fun c d => ∀ h ∈ c.memberHashes, h ∉ d.memberHashes := by
  obtain ⟨s, hs, heq⟩ := grouped_components rows
  rw [heq]
  exact hs.disjoint.filter _

theorem branchComponents_nodup (rows : BranchRows) :
    ((branchComponents rows).map (·.rootHash)).Nodup := by
  refine pairwise_map.mpr ((branchComponents_pairwise rows).imp_of_mem fun hc hd hdisjoint h => ?_)
  exact hdisjoint _ (branchComponents_spec hc).root_mem (h ▸ (branchComponents_spec hd).root_mem)

end MergeMiningMonitor.Navigator
