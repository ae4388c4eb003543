import MergeMiningMonitor.Navigator.Components
import MergeMiningMonitor.Tree.Materialize

/-!
# Tree — Branches

The navigator and the tree group stale blocks by three different traversals: `branch_components`
collects what lies under each root, `stale_branch_members_to_include` goes up to a root and down again,
and `assign_branches` goes up from each node, for `build_branches` to group the nodes by what it finds.
All of them find the connected components of the blocks (`branches_are_components`).
-/

namespace MergeMiningMonitor.Tree

open Relational Forest Ordered List Option

variable {Hash : Type} [LinearOrder Hash] {parent : Hash → Option Hash}

/-! ### Which branches a tree includes -/

/-- `parent` links the stale blocks with a height among the projections. -/
structure StaleProjections (parent : Hash → Option Hash)
    (projections : List (ParentProjection Hash)) : Prop where
  distinct : (projections.map (·.hash)).Nodup
  parent_iff : ∀ a b, parent a = some b ↔ b ∈ staleHashes projections ∧
    ∃ p ∈ projections, isHeightedStale p = true ∧ p.hash = a ∧ p.prevHash = b
  acyclic : Acyclic parent

section Include

variable {projections : List (ParentProjection Hash)} (hstale : StaleProjections parent projections)
include hstale

theorem StaleProjections.mem_staleLinks_iff {l : Hash × Hash} :
    l ∈ staleLinks projections ↔ parent l.2 = some l.1 := by
  rw [mem_staleLinks, hstale.parent_iff]
  constructor
  · rintro ⟨p, hp, hkind, hprev, rfl⟩
    exact ⟨hprev, p, hp, hkind, rfl, rfl⟩
  · rintro ⟨hprev, p, hp, hkind, hhash, hphash⟩
    exact ⟨p, hp, hkind, hphash ▸ hprev, Prod.ext hphash hhash⟩

theorem StaleProjections.prevByHash_eq (hash : Hash) : prevByHash projections hash = parent hash := by
  rw [prevByHash]
  cases hfind : (staleLinks projections).reverse.find? fun l => l.2 = hash with
  | none =>
    cases hparent : parent hash with
    | none => rfl
    | some b =>
      have hlink : (b, hash) ∈ (staleLinks projections).reverse :=
        mem_reverse.mpr (hstale.mem_staleLinks_iff.mpr hparent)
      exact absurd (decide_eq_true rfl) (find?_eq_none.mp hfind _ hlink)
  | some l =>
    have hlink := mem_reverse.mp (mem_of_find?_eq_some hfind)
    have hhash : l.2 = hash := by simpa using find?_some hfind
    rw [← hhash]
    exact (hstale.mem_staleLinks_iff.mp hlink).symm

theorem StaleProjections.mem_childrenByHash (k c : Hash) :
    c ∈ childrenByHash projections k ↔ parent c = some k := by
  have hlink : (k, c) ∈ staleLinks projections ↔ parent c = some k := hstale.mem_staleLinks_iff
  rw [← hlink, childrenByHash]
  simp

omit [LinearOrder Hash] in
theorem StaleProjections.parent_mem (a b : Hash) (h : parent a = some b) : b ∈ staleHashes projections :=
  ((hstale.parent_iff a b).mp h).1

omit hstale in
theorem length_staleLinks (projections : List (ParentProjection Hash)) :
    (staleLinks projections).length < projections.length + 1 := by
  rw [staleLinks, length_map]
  exact Nat.lt_succ_of_le ((length_filter_le _ _).trans (length_filter_le _ _))

theorem StaleProjections.staleBranchRoot_rootOf {hash : Hash} (hhash : hash ∈ staleHashes projections) :
    RootOf parent hash (staleBranchRoot projections hash) := by
  obtain ⟨root, ⟨n, hn⟩, hroot⟩ := exists_rootOf hstale.parent_mem hstale.acyclic hash
  have hdepth := depth_lt_length hhash hstale.parent_mem hroot hn
  have hlength : (staleHashes projections).length ≤ projections.length := by
    rw [staleHashes, length_map]
    exact length_filter_le _ _
  have hchase : staleBranchRoot projections hash = root := by
    rw [staleBranchRoot, funext hstale.prevByHash_eq]
    exact chase_eq hroot hn (by omega) fun _ _ _ _ => not_mem_nil
  rw [hchase]
  exact ⟨⟨n, hn⟩, hroot⟩

theorem StaleProjections.mem_staleDescendants {root hash : Hash} :
    hash ∈ staleDescendants projections root ↔ Under parent hash root := by
  have hlinks : ∀ k, (childrenByHash projections k).length =
      (staleLinks projections).countP fun l => l.1 = k := fun k => by
    rw [childrenByHash, length_map, countP_eq_length_filter]
  exact mem_descend hstale.mem_childrenByHash hlinks (length_staleLinks projections)

/-- **The branches that are included** are the components of the blocks that pass the filters. -/
theorem StaleProjections.mem_toInclude (query : TreeQuery) (hash : Hash) :
    hash ∈ staleBranchMembersToInclude projections query ↔ ∃ p ∈ projections, isHeightedStale p = true ∧
      passesFilters query p = true ∧ Connected parent p.hash hash := by
  have hbranch : ∀ p ∈ projections, isHeightedStale p = true →
      (hash ∈ staleDescendants projections (staleBranchRoot projections p.hash) ↔
        Connected parent p.hash hash) := by
    intro p hp hkind
    have hroot := hstale.staleBranchRoot_rootOf (mem_staleHashes.mpr ⟨p, hp, hkind, rfl⟩)
    rw [hstale.mem_staleDescendants, connected_iff_rootOf hstale.parent_mem hstale.acyclic]
    constructor
    · exact fun hunder => ⟨_, hroot, hunder, hroot.2⟩
    · rintro ⟨r, hr, hunder, -⟩
      rwa [hroot.unique hr]
  rw [staleBranchMembersToInclude, mem_flatMap]
  constructor
  · rintro ⟨p, hp, hin⟩
    obtain ⟨hp, hpass⟩ := mem_filter.mp hp
    obtain ⟨hp, hkind⟩ := mem_filter.mp hp
    exact ⟨p, hp, hkind, hpass, (hbranch p hp hkind).mp hin⟩
  · rintro ⟨p, hp, hkind, hpass, hconnected⟩
    exact ⟨p, mem_filter.mpr ⟨mem_filter.mpr ⟨hp, hkind⟩, hpass⟩, (hbranch p hp hkind).mpr hconnected⟩

end Include

/-! ### Assigning branches -/

/-- The stale node with this hash has this height. -/
def NodeHeight (nodes : List (TreeNode Hash)) (hash : Hash) (n : ℤ) : Prop :=
  ∃ node ∈ nodes, node.kind = .stale ∧ node.hash = hash ∧ node.height = some n

/-- `parent` links the stale nodes, whose heights go up by one, and no other node is in a stale
branch. -/
structure StaleNodes (parent : Hash → Option Hash) (nodes : List (TreeNode Hash)) : Prop where
  distinct : (nodes.map (·.hash)).Nodup
  others : ∀ n ∈ nodes, n.kind ≠ .stale → ∀ m root, n.branch ≠ some (.stale m root)
  heighted : ∀ n ∈ nodes, n.kind = .stale → n.height.isSome
  parent_iff : ∀ a b, parent a = some b ↔ b ∈ staleNodeHashes nodes ∧
    ∃ n ∈ nodes, n.kind = .stale ∧ n.hash = a ∧ n.prevHash = b
  acyclic : Acyclic parent
  rising : ∀ a b m, parent a = some b → NodeHeight nodes b m → NodeHeight nodes a (m + 1)

omit [LinearOrder Hash] in
theorem mem_staleNodeHashes {nodes : List (TreeNode Hash)} {hash : Hash} :
    hash ∈ staleNodeHashes nodes ↔ ∃ n ∈ nodes, n.kind = .stale ∧ n.hash = hash := by
  simp [staleNodeHashes, and_assoc]

section Assign

variable {nodes : List (TreeNode Hash)} (hstale : StaleNodes parent nodes)
include hstale

omit [LinearOrder Hash] in
theorem StaleNodes.eq_of_hash {a b : TreeNode Hash} (ha : a ∈ nodes) (hb : b ∈ nodes)
    (h : a.hash = b.hash) : a = b :=
  inj_on_of_nodup_map hstale.distinct ha hb h

omit [LinearOrder Hash] in
theorem StaleNodes.parent_mem (a b : Hash) (h : parent a = some b) : b ∈ staleNodeHashes nodes :=
  ((hstale.parent_iff a b).mp h).1

omit [LinearOrder Hash] in
theorem StaleNodes.nodeHeight_unique {hash : Hash} {m n : ℤ} (hm : NodeHeight nodes hash m)
    (hn : NodeHeight nodes hash n) : m = n := by
  obtain ⟨a, ha, -, hahash, ham⟩ := hm
  obtain ⟨b, hb, -, hbhash, hbn⟩ := hn
  rw [hstale.eq_of_hash ha hb (hahash.trans hbhash.symm), hbn] at ham
  exact (some.inj ham).symm

theorem StaleNodes.branchRoot_eq {root : TreeNode Hash} (hroot : root ∈ nodes)
    (hnone : parent root.hash = none)
    {steps : ℕ} : ∀ {fuel : ℕ} {n : TreeNode Hash}, n ∈ nodes → n.kind = .stale →
      ancestor parent steps n.hash = some root.hash → steps < fuel →
        branchRoot nodes fuel n = some root := by
  induction steps with
  | zero =>
    intro fuel n hn hkind hsteps hfuel
    obtain ⟨fuel, rfl⟩ := Nat.exists_eq_succ_of_ne_zero (Nat.ne_zero_of_lt hfuel)
    obtain rfl := hstale.eq_of_hash hn hroot (some.inj hsteps)
    rw [branchRoot, if_neg]
    intro hprev
    have := (hstale.parent_iff n.hash n.prevHash).mpr ⟨hprev, n, hn, hkind, rfl, rfl⟩
    rw [hnone] at this
    cases this
  | succ steps ih =>
    intro fuel n hn hkind hsteps hfuel
    obtain ⟨fuel, rfl⟩ := Nat.exists_eq_succ_of_ne_zero (Nat.ne_zero_of_lt hfuel)
    obtain ⟨c, hc, hrest⟩ := bind_eq_some_iff.mp hsteps
    obtain ⟨hprev, n', hn', -, hhash, rfl⟩ := (hstale.parent_iff _ _).mp hc
    obtain rfl := hstale.eq_of_hash hn' hn hhash
    obtain ⟨prev, hprevmem, hprevkind, hprevhash⟩ := mem_staleNodeHashes.mp hprev
    have hfind : nodes.find? (fun candidate => candidate.hash = n'.prevHash) = some prev := by
      cases hfind : nodes.find? fun candidate => candidate.hash = n'.prevHash with
      | none => exact absurd (decide_eq_true hprevhash) (find?_eq_none.mp hfind prev hprevmem)
      | some found =>
        have hfound : found.hash = n'.prevHash := by simpa using find?_some hfind
        rw [hstale.eq_of_hash (mem_of_find?_eq_some hfind) hprevmem (hfound.trans hprevhash.symm)]
    rw [branchRoot, if_pos hprev, hfind]
    exact ih hprevmem hprevkind (hprevhash ▸ hrest) (by omega)

/-- The node, with its branch. -/
def assigned (nodes : List (TreeNode Hash)) (n : TreeNode Hash) : TreeNode Hash :=
  (assignBranch nodes n).getD n

variable {n : TreeNode Hash}

/-- **Every stale node gets the branch of its root.** -/
theorem StaleNodes.assignBranch_eq (hn : n ∈ nodes) (hkind : n.kind = .stale) :
    ∃ root m, RootOf parent n.hash root ∧ NodeHeight nodes root m ∧
      assignBranch nodes n = some { n with branch := some (.stale m root) } := by
  have hhash : n.hash ∈ staleNodeHashes nodes := mem_staleNodeHashes.mpr ⟨n, hn, hkind, rfl⟩
  obtain ⟨root, ⟨steps, hsteps⟩, hnone⟩ := exists_rootOf hstale.parent_mem hstale.acyclic n.hash
  have hrootmem : root ∈ staleNodeHashes nodes := by
    cases steps with
    | zero => rwa [← some.inj hsteps]
    | succ steps =>
      have hlast : ancestor parent (steps + 1) n.hash = _ := ancestor_add steps 1 n.hash
      rw [hsteps] at hlast
      obtain ⟨c, -, hc⟩ := bind_eq_some_iff.mp hlast.symm
      obtain ⟨b, hb, hroot⟩ := bind_eq_some_iff.mp hc
      exact some.inj hroot ▸ hstale.parent_mem c b hb
  obtain ⟨r, hr, hrkind, rfl⟩ := mem_staleNodeHashes.mp hrootmem
  obtain ⟨m, hm⟩ := isSome_iff_exists.mp (hstale.heighted r hr hrkind)
  have hdepth := depth_lt_length hhash hstale.parent_mem hnone hsteps
  have hlength : (staleNodeHashes nodes).length ≤ nodes.length := by
    rw [staleNodeHashes, length_map]
    exact length_filter_le _ _
  refine ⟨r.hash, m, ⟨⟨steps, hsteps⟩, hnone⟩, ⟨r, hr, hrkind, rfl, hm⟩, ?_⟩
  rw [assignBranch, if_pos hkind, hstale.branchRoot_eq hr hnone hn hkind hsteps (hdepth.trans_le hlength),
    map_some, hm]
  rfl

omit hstale in
theorem assigned_of_ne (hkind : n.kind ≠ .stale) : assigned nodes n = n := by
  rw [assigned, assignBranch, if_neg hkind]
  rfl

theorem StaleNodes.assigned_spec (hn : n ∈ nodes) :
    (assigned nodes n).hash = n.hash ∧ (assigned nodes n).kind = n.kind ∧
    (assigned nodes n).height = n.height ∧
      (n.kind = .stale → ∃ root m, RootOf parent n.hash root ∧ NodeHeight nodes root m ∧
        (assigned nodes n).branch = some (.stale m root)) ∧
      (n.kind ≠ .stale → ∀ m root, (assigned nodes n).branch ≠ some (.stale m root)) := by
  by_cases hkind : n.kind = .stale
  · obtain ⟨root, m, hroot, hm, heq⟩ := hstale.assignBranch_eq hn hkind
    rw [assigned, heq]
    exact ⟨rfl, rfl, rfl, fun _ => ⟨root, m, hroot, hm, rfl⟩, fun h => absurd hkind h⟩
  · rw [assigned_of_ne hkind]
    exact ⟨rfl, rfl, rfl, fun h => absurd h hkind, fun h => hstale.others n hn h⟩

/-- **Assigning branches ends.** -/
theorem StaleNodes.assignBranches_eq : assignBranches nodes = some (nodes.map (assigned nodes)) := by
  have hall : ∀ ns : List (TreeNode Hash), (∀ n ∈ ns, (assignBranch nodes n).isSome) →
      ns.mapM (assignBranch nodes) = some (ns.map (assigned nodes)) := by
    intro ns
    induction ns with
    | nil => exact fun _ => rfl
    | cons n ns ih =>
      intro h
      obtain ⟨n', hn'⟩ := isSome_iff_exists.mp (h n mem_cons_self)
      rw [mapM_cons, hn', ih fun m hm => h m (mem_cons_of_mem _ hm), map_cons, assigned, hn']
      rfl
  refine hall nodes fun n hn => ?_
  by_cases hkind : n.kind = .stale
  · obtain ⟨root, m, -, -, heq⟩ := hstale.assignBranch_eq hn hkind
    rw [heq]
    rfl
  · rw [assignBranch, if_neg hkind]
    rfl

/-! ### Building branches -/

/-- The members of a branch, in the order of the nodes. -/
def branchMembers (nodes : List (TreeNode Hash)) (branchId : BranchId Hash) : List (TreeNode Hash) :=
  (branchNodes (nodes.map (assigned nodes))).filter fun n => n.branch = some branchId

theorem StaleNodes.mem_branchMembers {m : ℤ} {root : Hash} :
    n ∈ branchMembers nodes (.stale m root) ↔ ∃ n₀ ∈ nodes, n₀.kind = .stale ∧ n = assigned nodes n₀ ∧
      RootOf parent n₀.hash root ∧ NodeHeight nodes root m := by
  simp only [branchMembers, branchNodes, List.mem_filter, List.mem_map, decide_eq_true_eq]
  constructor
  · rintro ⟨⟨⟨n₀, hn₀, rfl⟩, -⟩, hbranch⟩
    obtain ⟨-, -, -, hstaleBranch, hother⟩ := hstale.assigned_spec hn₀
    by_cases hkind : n₀.kind = .stale
    · obtain ⟨root', m', hroot, hm, heq⟩ := hstaleBranch hkind
      obtain ⟨rfl, rfl⟩ := BranchId.stale.inj (Option.some.inj (hbranch.symm.trans heq))
      exact ⟨n₀, hn₀, hkind, rfl, hroot, hm⟩
    · exact absurd hbranch (hother hkind m root)
  · rintro ⟨n₀, hn₀, hkind, rfl, hroot, hm⟩
    obtain ⟨-, hkind', -, hstaleBranch, -⟩ := hstale.assigned_spec hn₀
    obtain ⟨root', m', hroot', hm', heq⟩ := hstaleBranch hkind
    refine ⟨⟨⟨n₀, hn₀, rfl⟩, by rw [hkind', hkind]; rfl⟩, ?_⟩
    obtain rfl := hroot.unique hroot'
    rw [heq, hstale.nodeHeight_unique hm hm']

theorem StaleNodes.mem_members_iff {root : Hash} {m : ℤ} {n₀ : TreeNode Hash}
    (hroot : RootOf parent n₀.hash root) (hm : NodeHeight nodes root m) (hash : Hash) :
    hash ∈ (branchMembers nodes (.stale m root)).map (·.hash) ↔ Connected parent n₀.hash hash := by
  rw [List.mem_map, connected_iff_rootOf hstale.parent_mem hstale.acyclic]
  constructor
  · rintro ⟨n, hn, rfl⟩
    obtain ⟨n₁, hn₁, -, rfl, hroot', -⟩ := hstale.mem_branchMembers.mp hn
    rw [(hstale.assigned_spec hn₁).1]
    exact ⟨root, hroot, hroot'⟩
  · rintro ⟨root', hroot', hhash⟩
    obtain rfl := hroot.unique hroot'
    have hmem : hash ∈ staleNodeHashes nodes := by
      rcases hhash.1.cases with rfl | ⟨c, hc, -⟩
      · obtain ⟨r, hr, hrkind, hrhash, -⟩ := hm
        exact mem_staleNodeHashes.mpr ⟨r, hr, hrkind, hrhash⟩
      · obtain ⟨-, n, hn, hnkind, hnhash, -⟩ := (hstale.parent_iff _ _).mp hc
        exact mem_staleNodeHashes.mpr ⟨n, hn, hnkind, hnhash⟩
    obtain ⟨n, hn, hnkind, rfl⟩ := mem_staleNodeHashes.mp hmem
    exact ⟨assigned nodes n, hstale.mem_branchMembers.mpr ⟨n, hn, hnkind, rfl, hhash, hm⟩,
      (hstale.assigned_spec hn).1⟩

theorem StaleNodes.nodup_assigned : ((branchNodes (nodes.map (assigned nodes))).map (·.hash)).Nodup := by
  have hhashes : (nodes.map (assigned nodes)).map (·.hash) = nodes.map (·.hash) := by
    rw [List.map_map]
    exact map_congr_left fun n hn => (hstale.assigned_spec hn).1
  exact Sublist.nodup (Sublist.map _ filter_sublist) (hhashes ▸ hstale.distinct)

theorem StaleNodes.nodup_members (branchId : BranchId Hash) :
    ((branchMembers nodes branchId).map (·.hash)).Nodup :=
  Sublist.nodup (Sublist.map _ filter_sublist) hstale.nodup_assigned

theorem StaleNodes.member_height {m : ℤ} {root : Hash}
    (hn : n ∈ branchMembers nodes (.stale m root)) :
    ∃ m, rankHeight n = some m ∧ NodeHeight nodes n.hash m := by
  obtain ⟨n₀, hn₀, hkind, rfl, -⟩ := hstale.mem_branchMembers.mp hn
  obtain ⟨hhash, -, hheight, -⟩ := hstale.assigned_spec hn₀
  obtain ⟨m, hm⟩ := isSome_iff_exists.mp (hstale.heighted n₀ hn₀ hkind)
  refine ⟨m, ?_, n₀, hn₀, hkind, hhash.symm, hm⟩
  rw [rankHeight, hheight, hm]
  rfl

omit [LinearOrder Hash] in
theorem StaleNodes.height_of_ancestor {steps : ℕ} {a b : Hash} {m : ℤ}
    (h : ancestor parent steps a = some b) (hm : NodeHeight nodes b m) :
    NodeHeight nodes a (m + steps) := by
  induction steps generalizing a with
  | zero =>
    rw [some.inj h]
    simpa using hm
  | succ steps ih =>
    obtain ⟨c, hc, hcb⟩ := bind_eq_some_iff.mp h
    have := hstale.rising a c _ hc (ih hcb)
    rwa [Int.add_assoc] at this

end Assign

/-! ### The summary of a branch -/

omit [LinearOrder Hash] in
theorem rankLe_iff {a b : TreeNode Hash} {m n : ℤ} (ha : rankHeight a = some m)
    (hb : rankHeight b = some n) :
    rankLe a b = true ↔ m ≤ n := by
  rw [rankLe, ha, hb]
  exact decide_eq_true_iff

omit [LinearOrder Hash] in
theorem pairwise_rank (members : List (TreeNode Hash)) :
    (members.insertionSort fun a b => rankLe a b = true).Pairwise fun a b => rankLe a b = true := by
  have htotal : Std.Total fun a b : TreeNode Hash => rankLe a b = true := by
    refine ⟨fun a b => ?_⟩
    unfold rankLe
    cases rankHeight a <;> cases rankHeight b <;> simp [le_total]
  have htrans : IsTrans (TreeNode Hash) fun a b => rankLe a b = true := by
    refine ⟨fun a b c => ?_⟩
    unfold rankLe
    cases rankHeight a <;> cases rankHeight b <;> cases rankHeight c <;> simp
    exact le_trans
  exact pairwise_insertionSort _ _

omit [LinearOrder Hash] in
theorem mem_of_summarizeBranch {branchId : BranchId Hash} {members : List (TreeNode Hash)}
    {b : TreeBranch Hash} (hb : summarizeBranch branchId members = some b) :
    b.branchId = branchId ∧ ∀ hash, hash ∈ b.memberHashes ↔ hash ∈ members.map (·.hash) := by
  rw [summarizeBranch] at hb
  split at hb
  · obtain rfl := Option.some.inj hb
    refine ⟨rfl, fun hash => ?_⟩
    simp only [List.mem_map, List.mem_insertionSort]
  · cases hb

omit [LinearOrder Hash] in
theorem isSome_summarizeBranch {branchId : BranchId Hash} {members : List (TreeNode Hash)}
    (h : members ≠ []) : (summarizeBranch branchId members).isSome := by
  have hsorted : members.insertionSort (fun a b => rankLe a b = true) ≠ [] := by
    rw [Ne, ← length_eq_zero_iff, length_insertionSort, length_eq_zero_iff]
    exact h
  rw [summarizeBranch, head?_eq_some_head hsorted, getLast?_eq_some_getLast hsorted]
  rfl

section Build

variable {nodes : List (TreeNode Hash)} (hstale : StaleNodes parent nodes)
include hstale

/-- **A stale branch summarizes its members**: the lowest is its root. -/
theorem StaleNodes.summarizeBranch_spec {height : ℤ} {root : Hash} {b : TreeBranch Hash}
    (hb : summarizeBranch (.stale height root) (branchMembers nodes (.stale height root)) = some b) :
    ∃ a ∈ staleNodeHashes nodes,
      Summarizes parent (NodeHeight nodes) a b.memberHashes b.rootHash b.btcHeightMin b.btcHeightMax := by
  rw [summarizeBranch] at hb
  have hsorted := pairwise_rank (branchMembers nodes (.stale height root))
  have hmem : ∀ n, n ∈ (branchMembers nodes (.stale height root)).insertionSort
      (fun a b => rankLe a b = true) ↔
      n ∈ branchMembers nodes (.stale height root) := fun n => mem_insertionSort _
  have hnodup : (((branchMembers nodes (.stale height root)).insertionSort
      fun a b => rankLe a b = true).map (·.hash)).Nodup :=
    ((perm_insertionSort _ _).map _).nodup_iff.mpr (hstale.nodup_members (.stale height root))
  generalize (branchMembers nodes (.stale height root)).insertionSort
    (fun a b => rankLe a b = true) = sorted at *
  split at hb
  · next first last hfirst hlast =>
      obtain rfl := some.inj hb
      have hfirstmem := (hmem first).mp (mem_of_head? hfirst)
      have hlastmem := (hmem last).mp (mem_of_getLast? hlast)
      obtain ⟨n₀, hn₀, hkind, hn₀first, hroot, hheight⟩ := hstale.mem_branchMembers.mp hfirstmem
      have hhashes : ∀ hash, hash ∈ sorted.map (·.hash) ↔ Connected parent n₀.hash hash := by
        intro hash
        rw [← hstale.mem_members_iff hroot hheight, List.mem_map, List.mem_map]
        simp only [hmem]
      obtain ⟨x, hx, hxheight⟩ := hstale.member_height hfirstmem
      obtain ⟨y, hy, hyheight⟩ := hstale.member_height hlastmem
      -- the first member is the lowest, and the last one the highest
      have hleast : ∀ n ∈ sorted, ∀ k, rankHeight n = some k → x ≤ k := by
        intro n hn k hk
        cases sorted with
        | nil => exact absurd hn not_mem_nil
        | cons a rest =>
          cases hfirst
          rcases mem_cons.mp hn with rfl | hn
          · rw [hx] at hk
            exact (some.inj hk).le
          · exact (rankLe_iff hx hk).mp ((pairwise_cons.mp hsorted).1 n hn)
      have hgreatest : ∀ n ∈ sorted, ∀ k, rankHeight n = some k → k ≤ y := by
        intro n hn k hk
        obtain ⟨init, rfl⟩ := getLast?_eq_some_iff.mp hlast
        rcases mem_append.mp hn with hn | hn
        · exact (rankLe_iff hk hy).mp ((pairwise_append.mp hsorted).2.2 n hn last mem_cons_self)
        · rw [mem_singleton.mp hn, hy] at hk
          exact (some.inj hk).ge
      have hheights : ∀ hash ∈ sorted.map (·.hash), ∀ k, NodeHeight nodes hash k →
          ∃ n ∈ sorted, rankHeight n = some k := by
        intro hash hin k hk
        obtain ⟨n, hn, rfl⟩ := mem_map.mp hin
        obtain ⟨k', hk', hk''⟩ := hstale.member_height ((hmem n).mp hn)
        exact ⟨n, hn, hstale.nodeHeight_unique hk'' hk ▸ hk'⟩
      -- the root is a member, and the first member is no higher than it
      have hrootfirst : first.hash = root := by
        have hrootmem : root ∈ sorted.map (·.hash) := by
          rw [hhashes, connected_iff_rootOf hstale.parent_mem hstale.acyclic]
          exact ⟨root, hroot, .of_root hroot.2⟩
        have hsame : first.hash = n₀.hash := by rw [hn₀first, (hstale.assigned_spec hn₀).1]
        obtain ⟨steps, hsteps⟩ := hroot.1
        have hxm := hstale.nodeHeight_unique hxheight (hsame ▸ hstale.height_of_ancestor hsteps hheight)
        obtain ⟨n, hn, hnm⟩ := hheights root hrootmem height hheight
        have hle := hleast n hn height hnm
        obtain rfl : steps = 0 := by omega
        rw [hsame]
        exact some.inj hsteps
      refine ⟨n₀.hash, mem_staleNodeHashes.mpr ⟨n₀, hn₀, hkind, rfl⟩, hnodup, hhashes,
        mem_map_of_mem (mem_of_head? hfirst), fun hash hin => ?_, ?_, ?_⟩
      · dsimp only
        rw [hrootfirst]
        constructor
        · rintro rfl
          exact hroot.2
        · intro hnone
          obtain ⟨r, hr, hr'⟩ :=
            (connected_iff_rootOf hstale.parent_mem hstale.acyclic).mp ((hhashes hash).mp hin)
          rw [hroot.unique hr]
          exact (RootOf.of_root hnone).unique hr'
      · dsimp only
        rw [hx]
        refine ⟨⟨first.hash, mem_map_of_mem (mem_of_head? hfirst), hxheight⟩, ?_⟩
        rintro k ⟨hash, hin, hk⟩
        obtain ⟨n, hn, hnk⟩ := hheights hash hin k hk
        exact hleast n hn k hnk
      · dsimp only
        rw [hy]
        refine ⟨⟨last.hash, mem_map_of_mem (mem_of_getLast? hlast), hyheight⟩, ?_⟩
        rintro k ⟨hash, hin, hk⟩
        obtain ⟨n, hn, hnk⟩ := hheights hash hin k hk
        exact hgreatest n hn k hnk
  · cases hb

theorem StaleNodes.pairwise_buildBranches :
    (buildBranches (nodes.map (assigned nodes))).Pairwise fun b c =>
      ∀ h ∈ b.memberHashes, h ∉ c.memberHashes := by
  rw [buildBranches, (perm_orderByKey _ _).pairwise_iff fun h a ha hb => h a hb ha, pairwise_filterMap]
  refine (nodup_dedup _).imp fun {i j} hne b hb c hc hash hin hin' => ?_
  rw [(mem_of_summarizeBranch hb).2] at hin
  rw [(mem_of_summarizeBranch hc).2] at hin'
  obtain ⟨n, hn, rfl⟩ := mem_map.mp hin
  obtain ⟨n', hn', hhash⟩ := mem_map.mp hin'
  obtain ⟨hnmem, hbranch⟩ := mem_filter.mp hn
  obtain ⟨hnmem', hbranch'⟩ := mem_filter.mp hn'
  obtain rfl := inj_on_of_nodup_map hstale.nodup_assigned hnmem' hnmem hhash
  rw [decide_eq_true_eq] at hbranch hbranch'
  exact hne (some.inj (hbranch.symm.trans hbranch'))

/-- **The stale branches are the components.** -/
theorem StaleNodes.buildBranches_components :
    (∀ b ∈ buildBranches (nodes.map (assigned nodes)), ∀ m root, b.branchId = .stale m root →
        ∃ a ∈ staleNodeHashes nodes,
          Summarizes parent (NodeHeight nodes) a b.memberHashes b.rootHash b.btcHeightMin b.btcHeightMax) ∧
      ∀ a ∈ staleNodeHashes nodes, ∃ b ∈ buildBranches (nodes.map (assigned nodes)),
        (∃ m root, b.branchId = .stale m root) ∧ a ∈ b.memberHashes := by
  simp only [buildBranches, mem_orderByKey, mem_filterMap, mem_dedup]
  constructor
  · rintro b ⟨branchId, -, hb⟩ m root hid
    obtain rfl := (mem_of_summarizeBranch hb).1.symm.trans hid
    exact hstale.summarizeBranch_spec hb
  · intro a ha
    obtain ⟨n, hn, hkind, rfl⟩ := mem_staleNodeHashes.mp ha
    obtain ⟨hhash, hkind', -, hbranch, -⟩ := hstale.assigned_spec hn
    obtain ⟨root, m, hroot, hm, heq⟩ := hbranch hkind
    have hmember : assigned nodes n ∈ branchMembers nodes (.stale m root) :=
      hstale.mem_branchMembers.mpr ⟨n, hn, hkind, rfl, hroot, hm⟩
    have hsome : (summarizeBranch (.stale m root) (branchMembers nodes (.stale m root))).isSome :=
      isSome_summarizeBranch (ne_nil_of_mem hmember)
    obtain ⟨b, hb⟩ := isSome_iff_exists.mp hsome
    obtain ⟨hid, hmem⟩ := mem_of_summarizeBranch hb
    refine ⟨b, ⟨.stale m root, ⟨assigned nodes n, (mem_filter.mp hmember).1, heq⟩, hb⟩, ⟨m, root, hid⟩, ?_⟩
    rw [hmem]
    exact mem_map.mpr ⟨_, hmember, hhash⟩

end Build

/-! ### One set of blocks -/

section Rows

open Navigator
open AuxPow (Hash32)

/-- The stale projections with a height are the rows. -/
structure ProjectionsOf (rows : BranchRows) (projections : List (ParentProjection Hash32)) : Prop where
  distinct : (projections.map (·.hash)).Nodup
  rows_iff : ∀ r : BranchRow, r ∈ rows.rows ↔ ∃ p ∈ projections, p.kind = .stale ∧ p.hash = r.hash ∧
    p.prevHash = r.prevHash ∧ p.height = some r.orderKey

/-- The stale nodes are the rows, and no other node is in a stale branch. -/
structure NodesOf (rows : BranchRows) (nodes : List (TreeNode Hash32)) : Prop where
  distinct : (nodes.map (·.hash)).Nodup
  heighted : ∀ n ∈ nodes, n.kind = .stale → n.height.isSome
  rows_iff : ∀ r : BranchRow, r ∈ rows.rows ↔ ∃ n ∈ nodes, n.kind = .stale ∧ n.hash = r.hash ∧
    n.prevHash = r.prevHash ∧ n.height = some r.orderKey
  others : ∀ n ∈ nodes, n.kind ≠ .stale → ∀ m root, n.branch ≠ some (.stale m root)

variable {rows : BranchRows} {projections : List (ParentProjection Hash32)}
  {nodes : List (TreeNode Hash32)}

theorem ProjectionsOf.exists_row (h : ProjectionsOf rows projections) {p : ParentProjection Hash32}
    (hp : p ∈ projections) (hkind : isHeightedStale p = true) :
    ∃ r ∈ rows.rows, r.hash = p.hash ∧ r.prevHash = p.prevHash := by
  simp only [isHeightedStale, Bool.and_eq_true, decide_eq_true_eq] at hkind
  obtain ⟨n, hn⟩ := isSome_iff_exists.mp hkind.1
  exact ⟨⟨p.hash, p.prevHash, n⟩, (h.rows_iff _).mpr ⟨p, hp, hkind.2, rfl, rfl, hn⟩, rfl, rfl⟩

theorem ProjectionsOf.exists_projection (h : ProjectionsOf rows projections) {r : BranchRow}
    (hr : r ∈ rows.rows) :
    ∃ p ∈ projections, isHeightedStale p = true ∧ p.hash = r.hash ∧ p.prevHash = r.prevHash := by
  obtain ⟨p, hp, hkind, hhash, hprev, hheight⟩ := (h.rows_iff r).mp hr
  refine ⟨p, hp, ?_, hhash, hprev⟩
  simp [isHeightedStale, hkind, hheight]

theorem ProjectionsOf.staleProjections (h : ProjectionsOf rows projections)
    (hheights : HeightsFollow rows) :
    StaleProjections (rowParent rows) projections where
  distinct := h.distinct
  acyclic := rowParent_acyclic hheights
  parent_iff a b := by
    rw [rowParent_eq_some, mem_staleHashes]
    constructor
    · rintro ⟨r, hr, rfl, rfl, q, hq, hqhash⟩
      obtain ⟨p, hp, hkind, hhash, hprev⟩ := h.exists_projection hr
      obtain ⟨p', hp', hkind', hhash', -⟩ := h.exists_projection hq
      exact ⟨⟨p', hp', hkind', hhash'.trans hqhash⟩, p, hp, hkind, hhash, hprev⟩
    · rintro ⟨⟨p', hp', hkind', rfl⟩, p, hp, hkind, rfl, hprev⟩
      obtain ⟨r, hr, hhash, hrprev⟩ := h.exists_row hp hkind
      obtain ⟨q, hq, hqhash, -⟩ := h.exists_row hp' hkind'
      exact ⟨r, hr, hhash, hrprev.trans hprev, q, hq, hqhash⟩

theorem NodesOf.exists_row (h : NodesOf rows nodes) {n : TreeNode Hash32} (hn : n ∈ nodes)
    (hkind : n.kind = .stale) :
    ∃ r ∈ rows.rows, r.hash = n.hash ∧ r.prevHash = n.prevHash := by
  obtain ⟨m, hm⟩ := isSome_iff_exists.mp (h.heighted n hn hkind)
  exact ⟨⟨n.hash, n.prevHash, m⟩, (h.rows_iff _).mpr ⟨n, hn, hkind, rfl, rfl, hm⟩, rfl, rfl⟩

theorem NodesOf.nodeHeight_iff (h : NodesOf rows nodes) (hash : Hash32) (m : ℤ) :
    NodeHeight nodes hash m ↔ RowHeight rows hash m := by
  constructor
  · rintro ⟨n, hn, hkind, rfl, hm⟩
    exact ⟨⟨n.hash, n.prevHash, m⟩, (h.rows_iff _).mpr ⟨n, hn, hkind, rfl, rfl, hm⟩, rfl, rfl⟩
  · rintro ⟨r, hr, rfl, rfl⟩
    obtain ⟨n, hn, hkind, hhash, -, hheight⟩ := (h.rows_iff r).mp hr
    exact ⟨n, hn, hkind, hhash, hheight⟩

theorem NodesOf.mem_staleNodeHashes (h : NodesOf rows nodes) {hash : Hash32} :
    hash ∈ staleNodeHashes nodes ↔ ∃ r ∈ rows.rows, r.hash = hash := by
  rw [Tree.mem_staleNodeHashes]
  constructor
  · rintro ⟨n, hn, hkind, rfl⟩
    obtain ⟨r, hr, hhash, -⟩ := h.exists_row hn hkind
    exact ⟨r, hr, hhash⟩
  · rintro ⟨r, hr, rfl⟩
    obtain ⟨n, hn, hkind, hhash, -⟩ := (h.rows_iff r).mp hr
    exact ⟨n, hn, hkind, hhash⟩

theorem NodesOf.staleNodes (h : NodesOf rows nodes)
    (hheights : HeightsFollow rows) : StaleNodes (rowParent rows) nodes where
  distinct := h.distinct
  others := h.others
  heighted := h.heighted
  acyclic := rowParent_acyclic hheights
  parent_iff a b := by
    rw [rowParent_eq_some, h.mem_staleNodeHashes]
    constructor
    · rintro ⟨r, hr, rfl, rfl, hq⟩
      obtain ⟨n, hn, hkind, hhash, hprev, -⟩ := (h.rows_iff r).mp hr
      exact ⟨hq, n, hn, hkind, hhash, hprev⟩
    · rintro ⟨hq, n, hn, hkind, rfl, hprev⟩
      obtain ⟨r, hr, hhash, hrprev⟩ := h.exists_row hn hkind
      exact ⟨r, hr, hhash, hrprev.trans hprev, hq⟩
  rising a b m hparent hm := by
    rw [h.nodeHeight_iff] at hm ⊢
    obtain ⟨r, hr, rfl, hprev, -⟩ := rowParent_eq_some.mp hparent
    obtain ⟨q, hq, rfl, rfl⟩ := hm
    exact ⟨r, hr, rfl, hheights r hr q hq hprev⟩

/-- **Branches are components.**  On rows whose heights go up by one along their links, the navigator's
branches are the components of two rows or more, with their roots, tips and heights, and no row is in
two; the tree's branches are the components, with the same roots and heights, and no node is in two;
and the tree includes the components with a row that passes the filters. -/
theorem branches_are_components (rows : BranchRows) (hheights : HeightsFollow rows)
    (nodes : List (TreeNode Hash32)) (hnodes : NodesOf rows nodes)
    (projections : List (ParentProjection Hash32)) (hprojections : ProjectionsOf rows projections)
    (query : TreeQuery) :
    ((∀ c ∈ branchComponents rows, ∃ r ∈ rows.rows,
          Summarizes (rowParent rows) (RowHeight rows) r.hash c.memberHashes c.rootHash c.keyMin c.keyMax ∧
          2 ≤ c.memberHashes.length ∧
          ∀ h, h ∈ c.tipHashes ↔ h ∈ c.memberHashes ∧ ∀ q ∈ rows.rows, q.prevHash ≠ h) ∧
        (∀ a ∈ rows.rows, ∀ b ∈ rows.rows, a ≠ b → Connected (rowParent rows) a.hash b.hash →
          ∃ c ∈ branchComponents rows, a.hash ∈ c.memberHashes) ∧
        (branchComponents rows).Pairwise fun c d => ∀ h ∈ c.memberHashes, h ∉ d.memberHashes) ∧
      (∃ assignedNodes, assignBranches nodes = some assignedNodes ∧
        (∀ b ∈ buildBranches assignedNodes, ∀ m root, b.branchId = .stale m root → ∃ r ∈ rows.rows,
          Summarizes (rowParent rows) (RowHeight rows) r.hash b.memberHashes b.rootHash b.btcHeightMin
            b.btcHeightMax) ∧
        (∀ r ∈ rows.rows, ∃ b ∈ buildBranches assignedNodes,
          (∃ m root, b.branchId = .stale m root) ∧ r.hash ∈ b.memberHashes) ∧
        (buildBranches assignedNodes).Pairwise fun b c => ∀ h ∈ b.memberHashes, h ∉ c.memberHashes) ∧
      ∀ hash, hash ∈ staleBranchMembersToInclude projections query ↔ ∃ p ∈ projections,
        isHeightedStale p = true ∧ passesFilters query p = true ∧
          Connected (rowParent rows) p.hash hash := by
  obtain ⟨hcomponents, hcovered⟩ := branchComponents_components hheights
  have hstale := hnodes.staleNodes hheights
  have hheightsEq : NodeHeight nodes = RowHeight rows :=
    funext fun hash => funext fun m => propext (hnodes.nodeHeight_iff hash m)
  obtain ⟨hbranches, hall⟩ := hstale.buildBranches_components
  refine ⟨⟨hcomponents, hcovered, branchComponents_pairwise rows⟩,
    ⟨_, hstale.assignBranches_eq, fun b hb m root hid => ?_, fun r hr => ?_, hstale.pairwise_buildBranches⟩,
    (hprojections.staleProjections hheights).mem_toInclude query⟩
  · obtain ⟨a, ha, hsummary⟩ := hbranches b hb m root hid
    obtain ⟨r, hr, rfl⟩ := hnodes.mem_staleNodeHashes.mp ha
    exact ⟨r, hr, hheightsEq ▸ hsummary⟩
  · exact hall r.hash (hnodes.mem_staleNodeHashes.mpr ⟨r, hr, rfl⟩)

namespace Sample

/-- The node of a row. -/
def nodeOf (r : BranchRow) : TreeNode Hash32 :=
  ⟨0, r.hash, some r.orderKey, .stale, none, r.prevHash, none, none, none, false⟩

/-- The projection of a row. -/
def projectionOf (r : BranchRow) : ParentProjection Hash32 :=
  ⟨r.hash, r.prevHash, some r.orderKey, .stale, 0, 1, false, true, none⟩

theorem nodesOf (rows : BranchRows) : NodesOf rows (rows.rows.map nodeOf) where
  distinct := by
    rw [List.map_map]
    exact rows.keys_nodup
  heighted n hn _ := by
    obtain ⟨r, -, rfl⟩ := List.mem_map.mp hn
    rfl
  rows_iff r := by
    constructor
    · exact fun hr => ⟨nodeOf r, List.mem_map_of_mem hr, rfl, rfl, rfl, rfl⟩
    · rintro ⟨n, hn, -, hhash, hprev, hheight⟩
      obtain ⟨q, hq, rfl⟩ := List.mem_map.mp hn
      obtain rfl : q = r := by
        cases q
        cases r
        simp_all [nodeOf]
      exact hq
  others n hn hkind := by
    obtain ⟨r, -, rfl⟩ := List.mem_map.mp hn
    exact absurd rfl hkind

theorem projectionsOf (rows : BranchRows) : ProjectionsOf rows (rows.rows.map projectionOf) where
  distinct := by
    rw [List.map_map]
    exact rows.keys_nodup
  rows_iff r := by
    constructor
    · exact fun hr => ⟨projectionOf r, List.mem_map_of_mem hr, rfl, rfl, rfl, rfl⟩
    · rintro ⟨p, hp, -, hhash, hprev, hheight⟩
      obtain ⟨q, hq, rfl⟩ := List.mem_map.mp hp
      obtain rfl : q = r := by
        cases q
        cases r
        simp_all [projectionOf]
      exact hq

def hash (k : UInt8) : Hash32 := AuxPow.Sample.hash k

/-- A block with two blocks on it, and a block by itself. -/
def fork : BranchRows :=
  ⟨[⟨hash 1, hash 0, 5⟩, ⟨hash 2, hash 1, 6⟩, ⟨hash 3, hash 1, 6⟩, ⟨hash 4, hash 9, 5⟩], by decide⟩

end Sample

theorem branches_are_components_fork : HeightsFollow Sample.fork ∧
    ∀ r ∈ Sample.fork.rows, ∃ assignedNodes,
      assignBranches (Sample.fork.rows.map Sample.nodeOf) = some assignedNodes ∧
      ∃ b ∈ buildBranches assignedNodes, r.hash ∈ b.memberHashes := by
  have hheights : HeightsFollow Sample.fork := by
    unfold HeightsFollow
    decide
  refine ⟨hheights, fun r hr => ?_⟩
  obtain ⟨-, ⟨assignedNodes, hassigned, -, hall, -⟩, -⟩ := branches_are_components Sample.fork hheights _
    (Sample.nodesOf _) _ (Sample.projectionsOf _) ⟨[.stale], false, false, none, none, 1⟩
  obtain ⟨b, hb, -, hmem⟩ := hall r hr
  exact ⟨assignedNodes, hassigned, b, hb, hmem⟩

end Rows

end MergeMiningMonitor.Tree
