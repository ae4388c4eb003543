import Mathlib.Data.Int.ConditionallyCompleteOrder
import Mathlib.Order.ConditionallyCompleteLattice.Basic
import MergeMiningMonitor.Support.Forest
import MergeMiningMonitor.Navigator.Branches

/-!
# Navigator — Components

The branches of `branch_components` are the connected components of the blocks.  With heights that go up
by one along every link there are no cycles, so every block has a root, and a component is what lies
under one root (`rowParent`, `Forest.connected_iff_rootOf`).  Each root is collected with all that lies
under it (`summarizeComponent_root`), and nothing is left over for the second pass.
-/

namespace MergeMiningMonitor.Navigator

open Relational Ordered Lists Forest List Option
open AuxPow (Hash32)

/-- The predecessor of a row, if it is a row. -/
def rowParent (rows : BranchRows) (hash : Hash32) : Option Hash32 :=
  (rows.find? hash).bind fun r => (rows.find? r.prevHash).map (·.hash)

/-- A linked child's height is its parent's and one. -/
def HeightsFollow (rows : BranchRows) : Prop :=
  ∀ child ∈ rows.rows, ∀ parent ∈ rows.rows, child.prevHash = parent.hash →
    child.orderKey = parent.orderKey + 1

/-- The row with this hash has this height. -/
def RowHeight (rows : BranchRows) (hash : Hash32) (n : ℤ) : Prop :=
  ∃ r ∈ rows.rows, r.hash = hash ∧ r.orderKey = n

variable {rows : BranchRows}

theorem rowParent_eq_some {a b : Hash32} :
    rowParent rows a = some b ↔ ∃ r ∈ rows.rows, r.hash = a ∧ r.prevHash = b ∧
      ∃ q ∈ rows.rows, q.hash = b := by
  rw [rowParent, bind_eq_some_iff]
  constructor
  · rintro ⟨r, hr, hb⟩
    obtain ⟨q, hq, rfl⟩ := map_eq_some_iff.mp hb
    exact ⟨r, Table.mem_of_find? hr, Table.key_of_find? hr, (Table.key_of_find? hq).symm, q,
      Table.mem_of_find? hq, rfl⟩
  · rintro ⟨r, hr, rfl, rfl, q, hq, hhash⟩
    refine ⟨r, Table.find?_key hr, ?_⟩
    rw [← hhash, Table.find?_key hq]
    rfl

variable {r : BranchRow}

theorem rowParent_eq_none (hr : r ∈ rows.rows) :
    rowParent rows r.hash = none ↔ rows.find? r.prevHash = none := by
  rw [rowParent, Table.find?_key hr, bind_some, map_eq_none_iff]

theorem under_row {a b : Hash32} (h : Under (rowParent rows) a b) (hb : ∃ r ∈ rows.rows, r.hash = b) :
    ∃ r ∈ rows.rows, r.hash = a := by
  rcases h.cases with rfl | ⟨c, hc, -⟩
  · exact hb
  · obtain ⟨r, hr, hhash, -⟩ := rowParent_eq_some.mp hc
    exact ⟨r, hr, hhash⟩

section Heights

variable (hheights : HeightsFollow rows)
include hheights

theorem ancestor_height {n : ℕ} {r q : BranchRow} (hr : r ∈ rows.rows) (hq : q ∈ rows.rows)
    (h : ancestor (rowParent rows) n r.hash = some q.hash) : r.orderKey = q.orderKey + n := by
  induction n generalizing r with
  | zero =>
    rw [Table.eq_of_key_eq hr hq (some.inj h)]
    simp
  | succ n ih =>
    obtain ⟨c, hc, hcq⟩ := bind_eq_some_iff.mp h
    obtain ⟨r', hr', hhash, hprev, p, hp, hphash⟩ := rowParent_eq_some.mp hc
    obtain rfl := Table.eq_of_key_eq hr' hr hhash
    subst hphash
    rw [hheights r' hr p hp hprev, ih hp hcq]
    push_cast
    omega

theorem rowParent_acyclic : Acyclic (rowParent rows) := by
  intro a n h
  obtain ⟨c, hc, -⟩ := bind_eq_some_iff.mp h
  obtain ⟨r, hr, rfl, -⟩ := rowParent_eq_some.mp hc
  have := ancestor_height hheights hr hr h
  push_cast at this
  omega

end Heights

theorem rowParent_members (a b : Hash32) (h : rowParent rows a = some b) : b ∈ rows.rows.map (·.hash) := by
  obtain ⟨-, -, -, -, q, hq, rfl⟩ := rowParent_eq_some.mp h
  exact mem_map_of_mem hq

/-! ### Collecting one component -/

theorem child_iff {hash child : Hash32} (hhash : ∃ r ∈ rows.rows, r.hash = hash) :
    child ∈ childrenByPrev rows hash ↔ rowParent rows child = some hash := by
  rw [mem_childrenByPrev, rowParent_eq_some]
  constructor
  · rintro ⟨r, hr, hprev, hchild⟩
    exact ⟨r, hr, hchild, hprev, hhash⟩
  · rintro ⟨r, hr, hchild, hprev, -⟩
    exact ⟨r, hr, hprev, hchild⟩

/-- What is collected satisfies what holds of the stack and of the children of rows. -/
theorem collect_forall {s : Hash32 → Prop}
    (hs : ∀ r ∈ rows.rows, s r.hash → ∀ child ∈ childrenByPrev rows r.hash, s child) (fuel : ℕ)
    (stack visited : List Hash32) (members : List BranchRow) (hstack : ∀ h ∈ stack, s h)
    (hmembers : ∀ m ∈ members, s m.hash) :
    ∀ m ∈ (collect rows fuel stack visited members).2, s m.hash := by
  induction fuel generalizing stack visited members with
  | zero => exact hmembers
  | succ fuel ih =>
    cases stack with
    | nil => exact hmembers
    | cons hash stack =>
      rw [collect]
      have hrest := fun h hh => hstack h (mem_cons_of_mem _ hh)
      split
      · exact ih _ _ _ hrest hmembers
      · split
        · next row hrow =>
            have hhash : row.hash = hash := Table.key_of_find? hrow
            have hrow' : s row.hash := hhash ▸ hstack hash mem_cons_self
            refine ih _ _ _ (fun h hh => ?_) fun m hm => ?_
            · rcases mem_append.mp hh with hh | hh
              · exact hs row (Table.mem_of_find? hrow) hrow' h (hhash ▸ hh)
              · exact hrest h hh
            · rcases mem_append.mp hm with hm | hm
              · exact hmembers m hm
              · exact mem_singleton.mp hm ▸ hrow'
        · exact ih _ _ _ hrest hmembers

/-- What is visited was visited before or is collected, if the stack holds rows. -/
theorem collect_visited (fuel : ℕ) (stack visited : List Hash32) (members : List BranchRow)
    (hstack : ∀ h ∈ stack, ∃ r ∈ rows.rows, r.hash = h) (start : List Hash32)
    (hvisited : ∀ h ∈ visited, h ∈ start ∨ ∃ m ∈ members, m.hash = h) :
    ∀ h ∈ (collect rows fuel stack visited members).1,
      h ∈ start ∨ ∃ m ∈ (collect rows fuel stack visited members).2, m.hash = h := by
  induction fuel generalizing stack visited members with
  | zero => exact hvisited
  | succ fuel ih =>
    cases stack with
    | nil => exact hvisited
    | cons hash stack =>
      have hrest := fun h hh => hstack h (mem_cons_of_mem _ hh)
      rw [collect]
      split
      · exact ih _ _ _ hrest hvisited
      · obtain ⟨r, hr, rfl⟩ := hstack hash mem_cons_self
        rw [Table.find?_key hr]
        refine ih _ _ _ (fun h hh => ?_) fun h hh => ?_
        · rcases mem_append.mp hh with hh | hh
          · obtain ⟨q, hq, -, hhash⟩ := mem_childrenByPrev.mp hh
            exact ⟨q, hq, hhash⟩
          · exact hrest h hh
        · rcases mem_cons.mp hh with rfl | hh
          · exact .inr ⟨r, mem_append_right _ mem_cons_self, rfl⟩
          · refine (hvisited h hh).imp_right ?_
            rintro ⟨m, hm, hhash⟩
            exact ⟨m, mem_append_left _ hm, hhash⟩

theorem collect_nodup (fuel : ℕ) (stack visited : List Hash32) (members : List BranchRow)
    (hnodup : (members.map (·.hash)).Nodup) (hvisited : ∀ m ∈ members, m.hash ∈ visited) :
    ((collect rows fuel stack visited members).2.map (·.hash)).Nodup := by
  induction fuel generalizing stack visited members with
  | zero => exact hnodup
  | succ fuel ih =>
    cases stack with
    | nil => exact hnodup
    | cons hash stack =>
      rw [collect]
      split
      · exact ih _ _ _ hnodup hvisited
      · next hnew =>
          split
          · next row hrow =>
              have hhash : row.hash = hash := Table.key_of_find? hrow
              refine ih _ _ _ ?_ fun m hm => ?_
              · rw [map_append, nodup_append]
                refine ⟨hnodup, nodup_singleton _, fun a ha b hb => ?_⟩
                obtain ⟨m, hm, rfl⟩ := mem_map.mp ha
                rw [map_singleton, mem_singleton, hhash] at hb
                exact fun heq => hnew (hb ▸ heq ▸ hvisited m hm)
              · rcases mem_append.mp hm with hm | hm
                · exact mem_cons_of_mem _ (hvisited m hm)
                · exact mem_singleton.mp hm ▸ hhash ▸ mem_cons_self
          · exact ih _ _ _ hnodup fun m hm => mem_cons_of_mem _ (hvisited m hm)

/-- The component is what lies under the root `r`. -/
structure IsTree (rows : BranchRows) (r : BranchRow) (c : BranchComponent) : Prop where
  root : c.rootHash = r.hash
  nodup : c.memberHashes.Nodup
  depth : c.depth = c.memberHashes.length
  mem : ∀ h, h ∈ c.memberHashes ↔ Under (rowParent rows) h r.hash
  tips : ∀ h, h ∈ c.tipHashes ↔ h ∈ c.memberHashes ∧ ∀ q ∈ rows.rows, q.prevHash ≠ h
  least : IsLeast {n | ∃ h ∈ c.memberHashes, RowHeight rows h n} c.keyMin
  greatest : IsGreatest {n | ∃ h ∈ c.memberHashes, RowHeight rows h n} c.keyMax

/-- **What is collected from a root.**  The rows under it, if none of them was visited. -/
theorem collect_root (hr : r ∈ rows.rows) {visited : List Hash32}
    (hfresh : ∀ h, Under (rowParent rows) h r.hash → h ∉ visited) :
    let result := collect rows (rows.rows.length + 1) [r.hash] visited []
    (∀ q, q ∈ result.2 ↔ q ∈ rows.rows ∧ Under (rowParent rows) q.hash r.hash) ∧
      ∀ h, h ∈ result.1 ↔ h ∈ visited ∨ Under (rowParent rows) h r.hash := by
  intro result
  obtain ⟨collected, hcollected, hgrows, hnew⟩ :=
    collect_spec rows (rows.rows.length + 1) [r.hash] visited []
  have hmembers : ∀ q ∈ result.2, q ∈ rows.rows ∧ q.hash ∈ result.1 := by
    intro q hq
    have hq : q ∈ [] ++ collected := hcollected ▸ hq
    exact ⟨(hnew q hq).1, (hnew q hq).2.2⟩
  have hunder : ∀ q ∈ result.2, Under (rowParent rows) q.hash r.hash := by
    refine collect_forall (s := fun h => Under (rowParent rows) h r.hash)
      (fun q hq hs child hchild => ?_) _ _ _ _
      (fun h hh => mem_singleton.mp hh ▸ .refl _) fun _ h => absurd h not_mem_nil
    exact (Under.of_parent ((child_iff ⟨q, hq, rfl⟩).mp hchild)).trans hs
  have hvisited := collect_visited (rows.rows.length + 1) [r.hash] visited []
    (fun h hh => ⟨r, hr, (mem_singleton.mp hh).symm⟩) visited fun h hh => .inl hh
  have hclosed : ∀ m ∈ result.2, ∀ child ∈ childrenByPrev rows m.hash, child ∈ result.1 := by
    refine collect_closed _ _ _ _ ?_ fun _ h => absurd h not_mem_nil
    have := countP_le_length (p := fun r : BranchRow => decide (r.prevHash ∉ visited)) (l := rows.rows)
    rw [length_singleton]
    omega
  have hroot : r ∈ result.2 := by
    have hstart : result = collect rows rows.rows.length (childrenByPrev rows r.hash ++ [])
        (r.hash :: visited) ([] ++ [r]) := by
      show collect rows (rows.rows.length + 1) [r.hash] visited [] = _
      rw [collect, if_neg (hfresh _ (.refl _)), Table.find?_key hr]
    obtain ⟨more, hmore, -⟩ := collect_spec rows rows.rows.length (childrenByPrev rows r.hash ++ [])
      (r.hash :: visited) ([] ++ [r])
    rw [hstart, hmore]
    exact mem_append_left _ mem_cons_self
  have hall : ∀ n, ∀ q ∈ rows.rows, ancestor (rowParent rows) n q.hash = some r.hash → q ∈ result.2 := by
    intro n
    induction n with
    | zero =>
      intro q hq h
      rwa [Table.eq_of_key_eq hq hr (some.inj h)]
    | succ n ih =>
      intro q hq h
      obtain ⟨c, hc, hcr⟩ := bind_eq_some_iff.mp h
      obtain ⟨-, -, -, -, p, hp, rfl⟩ := rowParent_eq_some.mp hc
      have hin := hclosed p (ih p hp hcr) q.hash ((child_iff ⟨p, hp, rfl⟩).mpr hc)
      rcases hvisited q.hash hin with hold | ⟨m, hm, hhash⟩
      · exact absurd hold (hfresh _ ⟨n + 1, h⟩)
      · exact Table.eq_of_key_eq (hmembers m hm).1 hq hhash ▸ hm
  refine ⟨fun q => ⟨fun hq => ⟨(hmembers q hq).1, hunder q hq⟩, ?_⟩,
    fun h => ⟨fun hh => ?_, fun hh => ?_⟩⟩
  · rintro ⟨hq, n, hn⟩
    exact hall n q hq hn
  · refine (hvisited h hh).imp_right ?_
    rintro ⟨m, hm, rfl⟩
    exact hunder m hm
  · rcases hh with hh | hh
    · exact hgrows h hh
    · obtain ⟨q, hq, rfl⟩ := under_row hh ⟨r, hr, rfl⟩
      obtain ⟨n, hn⟩ := hh
      exact (hmembers q (hall n q hq hn)).2

/-- **The component of a root.** -/
theorem summarizeComponent_root (hr : r ∈ rows.rows) {visited : List Hash32}
    (hfresh : ∀ h, Under (rowParent rows) h r.hash → h ∉ visited) :
    ∃ c, (summarizeComponent rows r.hash visited).1 = some c ∧ IsTree rows r c ∧
      ∀ h, h ∈ (summarizeComponent rows r.hash visited).2 ↔
        h ∈ visited ∨ Under (rowParent rows) h r.hash := by
  obtain ⟨hmembers, hvisited⟩ := collect_root hr hfresh
  have hnodup : ((collect rows (rows.rows.length + 1) [r.hash] visited []).2.map (·.hash)).Nodup :=
    collect_nodup _ _ _ _ List.nodup_nil fun _ h => absurd h List.not_mem_nil
  rw [summarizeComponent, Table.find?_key hr]
  dsimp only
  generalize collect rows (rows.rows.length + 1) [r.hash] visited [] = result at *
  obtain ⟨visited', members⟩ := result
  cases members with
  | nil => exact absurd ((hmembers r).mpr ⟨hr, .refl _⟩) List.not_mem_nil
  | cons m members =>
    have hhashes : ∀ h, h ∈ ((m :: members).map (·.hash)).insertionSort (· ≤ ·) ↔
        Under (rowParent rows) h r.hash := by
      intro h
      rw [List.mem_insertionSort, List.mem_map]
      constructor
      · rintro ⟨q, hq, rfl⟩
        exact ((hmembers q).mp hq).2
      · intro hunder
        obtain ⟨q, hq, rfl⟩ := under_row hunder ⟨r, hr, rfl⟩
        exact ⟨q, (hmembers q).mpr ⟨hq, hunder⟩, rfl⟩
    have hkeys : ∀ n, (∃ h ∈ ((m :: members).map (·.hash)).insertionSort (· ≤ ·), RowHeight rows h n) ↔
        ∃ q ∈ m :: members, q.orderKey = n := by
      intro n
      constructor
      · rintro ⟨h, hh, q, hq, rfl, hkey⟩
        exact ⟨q, (hmembers q).mpr ⟨hq, (hhashes _).mp hh⟩, hkey⟩
      · rintro ⟨q, hq, hkey⟩
        obtain ⟨hrow, hunder⟩ := (hmembers q).mp hq
        exact ⟨q.hash, (hhashes _).mpr hunder, q, hrow, rfl, hkey⟩
    obtain ⟨rmin, hrmin, hmin, hminall⟩ := foldl_select (R := (· ≤ ·)) min_choice min_le_left
      min_le_right BranchRow.orderKey m members
    obtain ⟨rmax, hrmax, hmax, hmaxall⟩ := foldl_select (R := (· ≥ ·)) max_choice le_max_left
      le_max_right BranchRow.orderKey m members
    refine ⟨_, rfl, ⟨rfl, ?_, ?_, hhashes, fun h => ?_,
      ⟨(hkeys _).mpr ⟨rmin, hrmin, hmin⟩, fun n hn => ?_⟩,
      (hkeys _).mpr ⟨rmax, hrmax, hmax⟩, fun n hn => ?_⟩, hvisited⟩
    · exact (List.perm_insertionSort _ _).nodup_iff.mpr hnodup
    · rw [List.length_insertionSort, List.length_map]
    · rw [tipRows, List.mem_map, hhashes]
      simp only [mem_sortBy, List.mem_filter, List.all_eq_true, decide_eq_true_eq]
      constructor
      · rintro ⟨q, ⟨hq, hnone⟩, rfl⟩
        refine ⟨((hmembers q).mp hq).2, fun child hchild hprev => ?_⟩
        refine hnone child.hash (mem_childrenByPrev.mpr ⟨child, hchild, hprev, rfl⟩)
          (List.mem_map_of_mem ?_)
        have hparent : rowParent rows child.hash = some q.hash :=
          (child_iff ⟨q, ((hmembers q).mp hq).1, rfl⟩).mp
            (mem_childrenByPrev.mpr ⟨child, hchild, hprev, rfl⟩)
        exact (hmembers child).mpr ⟨hchild, (Under.of_parent hparent).trans ((hmembers q).mp hq).2⟩
      · rintro ⟨hunder, hnone⟩
        obtain ⟨q, hq, rfl⟩ := under_row hunder ⟨r, hr, rfl⟩
        refine ⟨q, ⟨(hmembers q).mpr ⟨hq, hunder⟩, fun child hchild => ?_⟩, rfl⟩
        obtain ⟨p, hp, hprev, -⟩ := mem_childrenByPrev.mp hchild
        exact absurd hprev (hnone p hp)
    · obtain ⟨q, hq, rfl⟩ := (hkeys n).mp hn
      exact hmin ▸ hminall q hq
    · obtain ⟨q, hq, rfl⟩ := (hkeys n).mp hn
      exact hmax ▸ hmaxall q hq

/-! ### All components -/

/-- The rows without a row before them, in order. -/
def rootRows (rows : BranchRows) : List BranchRow :=
  sortBy oldestKeyFirst (rows.rows.filter fun r => (rows.find? r.prevHash).isNone)

theorem mem_rootRows : r ∈ rootRows rows ↔ r ∈ rows.rows ∧ rowParent rows r.hash = none := by
  rw [rootRows, mem_sortBy, mem_filter, isNone_iff_eq_none]
  exact and_congr_right fun hr => (rowParent_eq_none hr).symm

theorem nodup_rootRows (rows : BranchRows) : (rootRows rows).Nodup := by
  rw [rootRows, (perm_sortBy _ _).nodup_iff]
  exact (Nodup.of_map _ rows.keys_nodup).filter _

/-- After some roots, their components are there and what lies under them is visited. -/
structure RootsDone (rows : BranchRows) (done : List BranchRow) (s : List BranchComponent × List Hash32) :
    Prop where
  trees : List.Forall₂ (IsTree rows) done s.1
  visited : ∀ h, h ∈ s.2 ↔ ∃ r ∈ done, Under (rowParent rows) h r.hash

theorem RootsDone.addComponent {done : List BranchRow} {s : List BranchComponent × List Hash32}
    (h : RootsDone rows done s) (hr : r ∈ rootRows rows) (hnew : r ∉ done)
    (hdone : ∀ q ∈ done, q ∈ rootRows rows) :
    RootsDone rows (done ++ [r]) (addComponent rows s r.hash) := by
  obtain ⟨hrow, hroot⟩ := mem_rootRows.mp hr
  have hfresh : ∀ hash, Under (rowParent rows) hash r.hash → hash ∉ s.2 := by
    intro hash hunder hvisited
    obtain ⟨q, hq, hunder'⟩ := (h.visited hash).mp hvisited
    obtain ⟨hqrow, hqroot⟩ := mem_rootRows.mp (hdone q hq)
    have hsame : r.hash = q.hash := RootOf.unique ⟨hunder, hroot⟩ ⟨hunder', hqroot⟩
    exact hnew (Table.eq_of_key_eq hrow hqrow hsame ▸ hq)
  obtain ⟨c, hc, htree, hvisited⟩ := summarizeComponent_root hrow hfresh
  rw [Navigator.addComponent]
  generalize summarizeComponent rows r.hash s.2 = result at hc hvisited
  obtain ⟨component, visited⟩ := result
  obtain rfl : component = some c := hc
  refine ⟨rel_append h.trees (.cons htree .nil), fun hash => ?_⟩
  rw [hvisited, h.visited]
  simp only [mem_append, mem_singleton]
  constructor
  · rintro (⟨q, hq, hunder⟩ | hunder)
    · exact ⟨q, .inl hq, hunder⟩
    · exact ⟨r, .inr rfl, hunder⟩
  · rintro ⟨q, hq | rfl, hunder⟩
    · exact .inl ⟨q, hq, hunder⟩
    · exact .inr hunder

/-- **The first pass finds a tree for every root.** -/
theorem rootsDone_foldl (rs done : List BranchRow) (s : List BranchComponent × List Hash32)
    (hs : RootsDone rows done s) (hroots : ∀ r ∈ done ++ rs, r ∈ rootRows rows)
    (hnodup : (done ++ rs).Nodup) :
    RootsDone rows (done ++ rs) (rs.foldl (fun s r => Navigator.addComponent rows s r.hash) s) := by
  induction rs generalizing done s with
  | nil => simpa using hs
  | cons r rs ih =>
    have hr : r ∈ done ++ r :: rs := mem_append_right _ mem_cons_self
    have hsplit : done ++ r :: rs = done ++ [r] ++ rs := by simp
    rw [foldl_cons, hsplit]
    refine ih _ _ (hs.addComponent (hroots r hr) (fun hin => ?_)
      fun q hq => hroots q (mem_append_left _ hq))
      (hsplit ▸ hroots) (hsplit ▸ hnodup)
    exact (nodup_append.mp hnodup).2.2 r hin r mem_cons_self rfl

section Heights

variable (hheights : HeightsFollow rows)
include hheights

theorem exists_root (hash : Hash32) : ∃ r, RootOf (rowParent rows) hash r :=
  exists_rootOf rowParent_members (rowParent_acyclic hheights) hash

theorem exists_rootRow {q : BranchRow} (hq : q ∈ rows.rows) :
    ∃ r ∈ rootRows rows, Under (rowParent rows) q.hash r.hash := by
  obtain ⟨root, hunder, hroot⟩ := exists_root hheights q.hash
  obtain ⟨r, hr, rfl⟩ : ∃ r ∈ rows.rows, r.hash = root := by
    obtain ⟨n, hn⟩ := hunder
    cases n with
    | zero => exact ⟨q, hq, some.inj hn⟩
    | succ n =>
      have hlast : ancestor (rowParent rows) (n + 1) q.hash = _ := ancestor_add n 1 q.hash
      rw [hn] at hlast
      obtain ⟨c, -, hc⟩ := bind_eq_some_iff.mp hlast.symm
      obtain ⟨p, hp, hpp⟩ := bind_eq_some_iff.mp hc
      obtain ⟨-, -, -, -, r, hr, hhash⟩ := rowParent_eq_some.mp hp
      exact ⟨r, hr, hhash.trans (some.inj hpp)⟩
  exact ⟨r, mem_rootRows.mpr ⟨hr, hroot⟩, hunder⟩

/-- **Nothing is left over.**  The branches are the trees of two rows or more. -/
theorem branchComponents_trees : ∃ components, List.Forall₂ (IsTree rows) (rootRows rows) components ∧
    branchComponents rows = components.filter fun c => c.depth ≥ 2 := by
  have hdone : RootsDone rows (rootRows rows)
      ((rootRows rows).foldl (fun s r => Navigator.addComponent rows s r.hash) ([], [])) :=
    rootsDone_foldl _ [] _ ⟨.nil, fun h => by simp⟩ (fun r hr => hr) (nodup_rootRows rows)
  have hleft : ∀ (rs : List BranchRow) s, (∀ r ∈ rs, r.hash ∈ s.2) →
      rs.foldl (fun s r => if r.hash ∈ s.2 then s else Navigator.addComponent rows s r.hash) s = s := by
    intro rs
    induction rs with
    | nil => exact fun _ _ => rfl
    | cons r rs ih =>
      intro s hs
      rw [foldl_cons, if_pos (hs r mem_cons_self)]
      exact ih s fun q hq => hs q (mem_cons_of_mem _ hq)
  refine ⟨_, hdone.trees, ?_⟩
  rw [branchComponents, hleft]
  · rfl
  · intro q hq
    rw [mem_sortBy] at hq
    obtain ⟨r, hr, hunder⟩ := exists_rootRow hheights hq
    exact (hdone.visited q.hash).mpr ⟨r, hr, hunder⟩

theorem connected_root_iff {r : BranchRow} (hr : r ∈ rootRows rows) {h : Hash32} :
    Connected (rowParent rows) r.hash h ↔ Under (rowParent rows) h r.hash := by
  have hroot := (mem_rootRows.mp hr).2
  rw [connected_iff_rootOf rowParent_members (rowParent_acyclic hheights)]
  constructor
  · rintro ⟨root, hrr, hh⟩
    rw [(RootOf.of_root hroot).unique hrr]
    exact hh.1
  · intro hunder
    exact ⟨r.hash, .of_root hroot, hunder, hroot⟩

theorem IsTree.summarizes {r : BranchRow} {c : BranchComponent} (htree : IsTree rows r c)
    (hr : r ∈ rootRows rows) :
    Summarizes (rowParent rows) (RowHeight rows) r.hash c.memberHashes c.rootHash c.keyMin c.keyMax := by
  obtain ⟨-, hroot⟩ := mem_rootRows.mp hr
  refine ⟨htree.nodup, fun h => ?_, ?_, fun h hmem => ?_, htree.least, htree.greatest⟩
  · rw [htree.mem, connected_root_iff hheights hr]
  · rw [htree.root, htree.mem]
    exact .refl _
  · rw [htree.root]
    constructor
    · rintro rfl
      exact hroot
    · intro hnone
      exact (RootOf.of_root hnone).unique ⟨(htree.mem _).mp hmem, hroot⟩

/-- **The branches are the components of two blocks or more.** -/
theorem branchComponents_components :
    (∀ c ∈ branchComponents rows, ∃ r ∈ rows.rows,
        Summarizes (rowParent rows) (RowHeight rows) r.hash c.memberHashes c.rootHash c.keyMin c.keyMax ∧
        2 ≤ c.memberHashes.length ∧
        ∀ h, h ∈ c.tipHashes ↔ h ∈ c.memberHashes ∧ ∀ q ∈ rows.rows, q.prevHash ≠ h) ∧
      ∀ a ∈ rows.rows, ∀ b ∈ rows.rows, a ≠ b → Connected (rowParent rows) a.hash b.hash →
        ∃ c ∈ branchComponents rows, a.hash ∈ c.memberHashes := by
  obtain ⟨components, htrees, heq⟩ := branchComponents_trees hheights
  rw [heq]
  refine ⟨fun c hc => ?_, fun a ha b hb hne hconnected => ?_⟩
  · obtain ⟨hc, hdepth⟩ := mem_filter.mp hc
    obtain ⟨r, hr, htree⟩ := exists_of_forall₂ htrees.flip hc
    refine ⟨r, (mem_rootRows.mp hr).1, htree.summarizes hheights hr, ?_, htree.tips⟩
    rw [← htree.depth]
    exact of_decide_eq_true hdepth
  · obtain ⟨r, hr, hunder⟩ := exists_rootRow hheights ha
    obtain ⟨c, hc, htree⟩ := exists_of_forall₂ htrees hr
    have hsummary := htree.summarizes hheights hr
    have hra := (htree.mem a.hash).mpr hunder
    have hrb : b.hash ∈ c.memberHashes :=
      (hsummary.mem b.hash).mpr (.trans _ _ _ ((hsummary.mem a.hash).mp hra) hconnected)
    refine ⟨c, mem_filter.mpr ⟨hc, decide_eq_true ?_⟩, hra⟩
    rw [htree.depth]
    have hpair : [a.hash, b.hash].Nodup := by
      simpa using fun h => hne (Table.eq_of_key_eq ha hb h)
    exact (hpair.subperm (by simp [hra, hrb])).length_le

end Heights

end MergeMiningMonitor.Navigator
