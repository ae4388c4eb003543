import MergeMiningMonitor.Lineage.NbitsTable
import MergeMiningMonitor.Tree.Materialize
import MergeMiningMonitor.Tree.OrphanComponent

/-!
# Tree — Orphan placement

Where the members of an orphan component are drawn (`place_orphan_component`) and which edges they get
(`push_member_nodes`).  The heights that strict members claim are carried down to the root; if they
agree the placement is exact.  Every member is then placed at the root's height and its distance from
the root.  The root hangs off a canonical node: by a solid edge if that node is known to be its
predecessor, and by an approximate edge to the nearest one otherwise.

`orphan_components_placed` is the result for the members that were loaded.
-/

namespace MergeMiningMonitor.Tree

open Relational Forest Ordered Fallible List Option

variable {Hash : Type} [LinearOrder Hash]

/-! ### Placement -/

/-- What a placement reads: `load_strict_bip34_height`, the table of the Core header cache, if it can be
loaded, and the canonical rows with their times and heights. -/
structure PlacementSources (Hash : Type) where
  strictBip34Height : Hash → Option ℤ
  nbitsTable : Option NbitsTable
  canonicalTimes : List (ℤ × ℤ)

/-- The height of a strict orphan. -/
def strictHeight (sources : PlacementSources Hash) (b : OrphanBlock Hash) : Option ℤ :=
  if b.btcOrphanClass = some .strictBtcOrphan then sources.strictBip34Height b.hash else none

/-- The canonical row whose time is nearest. -/
def nearestTime (sources : PlacementSources Hash) (time : ℤ) : Option (ℤ × ℤ) :=
  (orderByKey (fun row => (|row.1 - time|, row.2)) sources.canonicalTimes).head?

def anchorPlacementHeight (sources : PlacementSources Hash) (orphan : OrphanBlock Hash) :
    Option (ℤ × Bool) :=
  match strictHeight sources orphan with
  | some height => some (height, false)
  | none =>
    sources.nbitsTable.bind fun table =>
      if table.horizonTime < orphan.headerTime then none
      else
        match table.epochHeightForTime orphan.headerTime with
        | some height => some (height, true)
        | none => (nearestTime sources orphan.headerTime).map fun row => (row.2, true)

structure ComponentPlacement (Hash : Type) where
  placements : Hash → Option ℤ
  parentInSet : Hash → Option Hash
  rootHash : Hash
  approx : Bool
  minHeight : ℤ
  maxHeight : ℤ

section Place

variable (members : List (OrphanBlock Hash))

def childrenByParent (hash : Hash) : List Hash :=
  (members.filter fun m => m.prevHash ∈ members.map (·.hash) && m.prevHash = hash).map (·.hash)

/-- `roots`, the lowest hash first. -/
def componentRoots : List (OrphanBlock Hash) :=
  (members.filter fun m => m.prevHash ∉ members.map (·.hash)).insertionSort fun a b => a.hash ≤ b.hash

/-- `offset` of a member, or zero. -/
def pathOffset (root hash : Hash) : ℤ :=
  ((noted (depths (childrenByParent members) members.length [root] [(root, 0)]) hash).getD 0 : ℕ)

variable (sources : PlacementSources Hash)

def impliedRoots (root : Hash) : List ℤ :=
  members.filterMap fun m => (strictHeight sources m).map fun height =>
    height - pathOffset members root m.hash

/-- `root_abs` and `approx` -/
def rootPlacement (root : OrphanBlock Hash) : Option (ℤ × Bool) :=
  match (impliedRoots members sources root.hash).min?, (impliedRoots members sources root.hash).max? with
  | some low, some high => some (low, low ≠ high)
  | _, _ => (anchorPlacementHeight sources root).map fun placed => (placed.1, true)

def placeOrphanComponent : Option (ComponentPlacement Hash) :=
  (componentRoots members).head?.bind fun root =>
    (rootPlacement members sources root).map fun (rootAbs, approx) =>
      let height := fun hash => rootAbs + pathOffset members root.hash hash
      { placements := fun hash => if hash ∈ members.map (·.hash) then some (height hash) else none
        parentInSet := Tree.parentInSet members
        rootHash := root.hash
        approx
        minHeight := members.foldl (fun low m => min low (height m.hash)) 2147483647
        maxHeight := members.foldl (fun high m => max high (height m.hash)) (-2147483648) }

end Place

/-! ### Edges -/

structure MemberRender (Hash : Type) where
  ordered : List (OrphanBlock Hash)
  projectionByHash : Hash → Option (ParentProjection Hash)
  memberId : Hash → Option ℕ
  placement : ComponentPlacement Hash
  multi : Bool
  branchId : BranchId Hash

/-- `prepare_ordered_member_render`, with the render that it is for. -/
def prepareOrderedMemberRender (members : List (OrphanBlock Hash)) (placement : ComponentPlacement Hash)
    (baseId : ℕ) (projectionByHash : Hash → Option (ParentProjection Hash)) : MemberRender Hash :=
  let ordered := orderByKey (fun m => ((placement.placements m.hash).getD 0, m.hash)) members
  { ordered
    projectionByHash
    memberId := fun hash => ((ordered.zipIdx (baseId + 1)).reverse.find? fun p => p.1.hash = hash).map (·.2)
    placement
    multi := 2 ≤ members.length
    branchId := .orphan placement.rootHash }

/-- A canonical node at this height. -/
def canonicalAt (height : ℤ) (node : TreeNode Hash) : Bool :=
  node.kind = .canonical && node.height = some height

def strictVerified (placement : ComponentPlacement Hash) (nodes : List (TreeNode Hash)) (placed : ℤ)
    (prevHash : Hash) : Bool :=
  !placement.approx && nodes.any fun node => canonicalAt (placed - 1) node && node.hash = prevHash

/-- The canonical node whose height is nearest, the lower one of two. -/
def nearestCanonical (nodes : List (TreeNode Hash)) (placed : ℤ) : Option (TreeNode Hash) :=
  (orderByKey (fun n => (|n.height.getD placed - placed|, n.height.getD placed))
    (nodes.filter fun n => n.kind = .canonical && n.height.isSome)).head?

/-- `prev_id` and the edge of a member. -/
def memberLink (render : MemberRender Hash) (nodes : List (TreeNode Hash)) (member : OrphanBlock Hash)
    (projection : ParentProjection Hash) : Option ℕ × Option (TreeEdge Hash) :=
  match render.placement.parentInSet member.hash with
  | some parentHash =>
    (render.memberId parentHash,
      (render.memberId parentHash).map fun _ => ⟨parentHash, projection.hash, none, .orphan⟩)
  | none =>
    let placed := (render.placement.placements member.hash).getD render.placement.minHeight
    let verified := strictVerified render.placement nodes placed projection.prevHash
    let attach := if verified then nodes.find? (canonicalAt (placed - 1)) else nearestCanonical nodes placed
    (attach.bind fun node => if node.hash = projection.prevHash then some node.id else none,
      attach.map fun node => ⟨node.hash, projection.hash, none,
        if verified then .orphan else .orphanApprox⟩)

/-- The node of a member. -/
def memberNode (render : MemberRender Hash) (member : OrphanBlock Hash) (projection : ParentProjection Hash)
    (prevId : Option ℕ) : TreeNode Hash :=
  { id := (render.memberId member.hash).getD 0
    hash := projection.hash
    height := none
    kind := .unknown
    prevId
    prevHash := projection.prevHash
    branch := if render.multi then some render.branchId else none
    competition := none
    placementHeight := render.placement.placements member.hash
    placementApprox := render.placement.approx }

/-- One member of `push_member_nodes`. -/
def pushMember (render : MemberRender Hash) (s : List (TreeNode Hash) × List (TreeEdge Hash))
    (member : OrphanBlock Hash) : Except String (List (TreeNode Hash) × List (TreeEdge Hash)) := do
  let projection ← required (render.projectionByHash member.hash) "anchor member projected to no node"
  let link := memberLink render s.1 member projection
  return (s.1 ++ [memberNode render member projection link.1], s.2 ++ link.2.toList)

def pushMemberNodes (render : MemberRender Hash) (nodes : List (TreeNode Hash))
    (edges : List (TreeEdge Hash)) :
    Except String (List (TreeNode Hash) × List (TreeEdge Hash)) :=
  render.ordered.foldlM (pushMember render) (nodes, edges)

/-! ### The root and the offsets -/

/-- The members have one root, and it is above every member. -/
structure Rooted (members : List (OrphanBlock Hash)) (root : OrphanBlock Hash) : Prop where
  distinct : (members.map (·.hash)).Nodup
  mem : root ∈ members
  top : root.prevHash ∉ members.map (·.hash)
  unique : ∀ m ∈ members, m.prevHash ∉ members.map (·.hash) → m = root
  above : ∀ m ∈ members, RootOf (parentInSet members) m.hash root.hash

/-- The member is `n` links below a member without a parent. -/
def Distance (members : List (OrphanBlock Hash)) (m : OrphanBlock Hash) (n : ℕ) : Prop :=
  ∃ root, parentInSet members root = none ∧ ancestor (parentInSet members) n m.hash = some root

variable {members members' : List (OrphanBlock Hash)} {root : OrphanBlock Hash}
  {sources : PlacementSources Hash} {placement : ComponentPlacement Hash}

section Rooted

variable (hrooted : Rooted members root)
include hrooted

theorem Rooted.head?_componentRoots : (componentRoots members).head? = some root := by
  have hmem : ∀ m, m ∈ componentRoots members ↔ m ∈ members ∧ m.prevHash ∉ members.map (·.hash) := by
    intro m
    rw [componentRoots, mem_insertionSort, mem_filter, decide_eq_true_eq]
  cases hroots : componentRoots members with
  | nil => exact absurd ((hmem root).mpr ⟨hrooted.mem, hrooted.top⟩) (hroots ▸ not_mem_nil)
  | cons r rest =>
    obtain ⟨hr, htop⟩ := (hmem r).mp (hroots ▸ mem_cons_self)
    rw [head?_cons, hrooted.unique r hr htop]

theorem Rooted.mem_childrenByParent (k c : Hash) :
    c ∈ childrenByParent members k ↔ parentInSet members c = some k := by
  rw [parentInSet_eq_some hrooted.distinct, childrenByParent]
  simp only [List.mem_map, List.mem_filter, Bool.and_eq_true, decide_eq_true_eq]
  constructor
  · rintro ⟨m, ⟨hm, hprev, rfl⟩, rfl⟩
    exact ⟨m, hm, rfl, rfl, hprev⟩
  · rintro ⟨m, hm, rfl, rfl, hprev⟩
    exact ⟨m, ⟨hm, hprev, rfl⟩, rfl⟩

theorem Rooted.parent_root : parentInSet members root.hash = none :=
  (parentInSet_eq_none hrooted.distinct hrooted.mem).mpr hrooted.top

theorem Rooted.pathOffset_eq {n : ℕ} {hash : Hash}
    (h : ancestor (parentInSet members) n hash = some root.hash) :
    pathOffset members root.hash hash = n := by
  have hnoted : noted (depths (childrenByParent members) (members.map (·.hash)).length [root.hash]
      [(root.hash, 0)])
      hash = some n :=
    noted_depths hrooted.mem_childrenByParent
      (fun a b hab => (parentInSet_members hrooted.distinct a b hab).1) (mem_map_of_mem hrooted.mem)
      hrooted.parent_root h
  rw [length_map] at hnoted
  rw [pathOffset, hnoted]
  rfl

theorem Rooted.distance_iff {m : OrphanBlock Hash} (hm : m ∈ members) {n : ℕ} :
    Distance members m n ↔ pathOffset members root.hash m.hash = n := by
  obtain ⟨⟨k, hk⟩, hnone⟩ := hrooted.above m hm
  rw [hrooted.pathOffset_eq hk, Nat.cast_inj]
  constructor
  · rintro ⟨r, hr, hn⟩
    exact (depth_unique hnone hr hk hn).1
  · rintro rfl
    exact ⟨root.hash, hnone, hk⟩

theorem Rooted.pathOffset_child {m q : OrphanBlock Hash} (hm : m ∈ members) (hq : q ∈ members)
    (hlink : m.prevHash = q.hash) :
    pathOffset members root.hash m.hash = pathOffset members root.hash q.hash + 1 := by
  obtain ⟨⟨k, hk⟩, -⟩ := hrooted.above q hq
  have hparent : parentInSet members m.hash = some q.hash :=
    (parentInSet_eq_some hrooted.distinct).mpr ⟨m, hm, rfl, hlink, mem_map_of_mem hq⟩
  have hup : ancestor (parentInSet members) (k + 1) m.hash = some root.hash := by
    rw [ancestor, hparent, bind_some, hk]
  rw [hrooted.pathOffset_eq hk, hrooted.pathOffset_eq hup]
  push_cast
  rfl

/-! ### The heights -/

/-- Some strict member has a height, and all of them imply one height of the root. -/
def StrictAgree (sources : PlacementSources Hash) (members : List (OrphanBlock Hash)) : Prop :=
  (∃ m ∈ members, (strictHeight sources m).isSome) ∧
    ∃ rootHeight, ∀ m ∈ members, ∀ height (n : ℕ), strictHeight sources m = some height →
      Distance members m n → height - n = rootHeight

/-- What a placement says: the height of the root and the distances give every height, and an exact one
has the strict members at their own heights. -/
structure Placed (sources : PlacementSources Hash) (members : List (OrphanBlock Hash))
    (placement : ComponentPlacement Hash) : Prop where
  distances : ∃ root ∈ members, root.prevHash ∉ members.map (·.hash) ∧ placement.rootHash = root.hash ∧
    ∃ rootHeight, placement.placements root.hash = some rootHeight ∧
      ∀ m ∈ members, ∃ n : ℕ, ancestor (parentInSet members) n m.hash = some root.hash ∧
        placement.placements m.hash = some (rootHeight + n)
  linked : ∀ m ∈ members, ∀ q ∈ members, m.prevHash = q.hash →
    ∃ height, placement.placements q.hash = some height ∧ placement.placements m.hash = some (height + 1)
  strict : placement.approx = false → ∀ m ∈ members, ∀ height, strictHeight sources m = some height →
    placement.placements m.hash = some height

omit hrooted in
theorem mem_impliedRoots {x : ℤ} :
    x ∈ impliedRoots members sources root.hash ↔
      ∃ m ∈ members, ∃ height, strictHeight sources m = some height ∧
      height - pathOffset members root.hash m.hash = x := by
  simp only [impliedRoots, mem_filterMap, map_eq_some_iff]

omit hrooted in
theorem rootPlacement_exact {x : ℤ} :
    rootPlacement members sources root = some (x, false) ↔
      x ∈ impliedRoots members sources root.hash ∧ ∀ y ∈ impliedRoots members sources root.hash, y = x := by
  rw [rootPlacement]
  generalize impliedRoots members sources root.hash = implied
  cases hmin : implied.min? with
  | none =>
    rw [min?_eq_none_iff] at hmin
    subst hmin
    simp
  | some low =>
    obtain ⟨hlow, hleast⟩ := min?_eq_some_iff.mp hmin
    cases hmax : implied.max? with
    | none =>
      rw [max?_eq_none_iff] at hmax
      exact absurd hlow (hmax ▸ not_mem_nil)
    | some high =>
      obtain ⟨hhigh, hgreatest⟩ := max?_eq_some_iff.mp hmax
      simp only [Option.some.injEq, Prod.mk.injEq, decide_eq_false_iff_not, not_not]
      constructor
      · rintro ⟨rfl, rfl⟩
        exact ⟨hlow, fun y hy => le_antisymm (hgreatest y hy) (hleast y hy)⟩
      · rintro ⟨-, hall⟩
        exact ⟨hall low hlow, (hall low hlow).trans (hall high hhigh).symm⟩

theorem Rooted.place_eq (h : placeOrphanComponent members sources = some placement) : ∃ rootAbs,
      rootPlacement members sources root = some (rootAbs, placement.approx) ∧
      placement.rootHash = root.hash ∧
      placement.parentInSet = parentInSet members ∧
      ∀ m ∈ members, placement.placements m.hash =
        some (rootAbs + pathOffset members root.hash m.hash) := by
  rw [placeOrphanComponent, hrooted.head?_componentRoots, bind_some] at h
  obtain ⟨⟨rootAbs, approx⟩, hroot, rfl⟩ := map_eq_some_iff.mp h
  exact ⟨rootAbs, hroot, rfl, rfl, fun m hm => if_pos (mem_map_of_mem hm)⟩

/-- **The heights of a placement.** -/
theorem Rooted.placed (h : placeOrphanComponent members sources = some placement) :
    Placed sources members placement := by
  obtain ⟨rootAbs, hroot, hhash, -, hplaced⟩ := hrooted.place_eq h
  have hzero : pathOffset members root.hash root.hash = 0 := by
    exact_mod_cast hrooted.pathOffset_eq (n := 0) rfl
  refine ⟨⟨root, hrooted.mem, hrooted.top, hhash, rootAbs, ?_, fun m hm => ?_⟩, fun m hm q hq hlink => ?_,
    fun hexact m hm height hheight => ?_⟩
  · rw [hplaced root hrooted.mem, hzero, add_zero]
  · obtain ⟨⟨n, hn⟩, -⟩ := hrooted.above m hm
    exact ⟨n, hn, by rw [hplaced m hm, hrooted.pathOffset_eq hn]⟩
  · refine ⟨_, hplaced q hq, ?_⟩
    rw [hplaced m hm, hrooted.pathOffset_child hm hq hlink, add_assoc]
  · rw [hexact] at hroot
    have := (rootPlacement_exact.mp hroot).2 _ (mem_impliedRoots.mpr ⟨m, hm, height, hheight, rfl⟩)
    rw [hplaced m hm]
    congr 1
    omega

/-- **When a placement is exact.** -/
theorem Rooted.exact_iff :
    (∃ placement, placeOrphanComponent members sources = some placement ∧ placement.approx = false) ↔
      StrictAgree sources members := by
  have hexact :
      (∃ placement, placeOrphanComponent members sources = some placement ∧ placement.approx = false) ↔
      ∃ x, rootPlacement members sources root = some (x, false) := by
    constructor
    · rintro ⟨placement, h, happrox⟩
      obtain ⟨rootAbs, hroot, -⟩ := hrooted.place_eq h
      exact ⟨rootAbs, happrox ▸ hroot⟩
    · rintro ⟨x, hx⟩
      rw [placeOrphanComponent, hrooted.head?_componentRoots, bind_some, hx]
      exact ⟨_, rfl, rfl⟩
  rw [hexact]
  simp only [rootPlacement_exact, mem_impliedRoots]
  constructor
  · rintro ⟨x, ⟨m, hm, height, hheight, -⟩, hall⟩
    refine ⟨⟨m, hm, hheight ▸ rfl⟩, x, fun q hq height' n hheight' hn => ?_⟩
    rw [← (hrooted.distance_iff hq).mp hn]
    exact hall _ ⟨q, hq, height', hheight', rfl⟩
  · rintro ⟨⟨m, hm, hsome⟩, x, hall⟩
    obtain ⟨height, hheight⟩ := isSome_iff_exists.mp hsome
    have hone : ∀ q ∈ members, ∀ height, strictHeight sources q = some height →
        height - pathOffset members root.hash q.hash = x := by
      intro q hq height hheight
      obtain ⟨⟨n, hn⟩, hnone⟩ := hrooted.above q hq
      rw [hrooted.pathOffset_eq hn]
      exact hall q hq height n hheight ⟨root.hash, hnone, hn⟩
    refine ⟨x, ⟨m, hm, height, hheight, hone m hm height hheight⟩, ?_⟩
    rintro y ⟨q, hq, height', hheight', rfl⟩
    exact hone q hq height' hheight'

end Rooted

/-! ### The edge to the root -/

/-- The two lists have the same canonical nodes. -/
def SameCanonical (nodes nodes' : List (TreeNode Hash)) : Prop :=
  ∀ n : TreeNode Hash, n.kind = .canonical → (n ∈ nodes ↔ n ∈ nodes')

variable {nodes : List (TreeNode Hash)} {render : MemberRender Hash}
  {result : List (TreeNode Hash) × List (TreeEdge Hash)} {projection : ParentProjection Hash}

/-- **Where the edges come from.** -/
theorem pushMemberNodes_edges {edges : List (TreeEdge Hash)}
    (h : pushMemberNodes render nodes edges = .ok result) :
    ∃ added, result.2 = edges ++ added ∧ ∀ e ∈ added, ∃ m ∈ render.ordered, ∃ nodes' projection,
      SameCanonical nodes' nodes ∧ render.projectionByHash m.hash = some projection ∧
      (memberLink render nodes' m projection).2 = some e := by
  have hinv := foldlM_invariant (J := fun _ s => SameCanonical s.1 nodes ∧ ∃ added, s.2 = edges ++ added ∧
      ∀ e ∈ added, ∃ m ∈ render.ordered, ∃ nodes' projection, SameCanonical nodes' nodes ∧
        render.projectionByHash m.hash = some projection ∧
          (memberLink render nodes' m projection).2 = some e)
    ⟨fun _ _ => Iff.rfl, [], (append_nil _).symm, fun _ he => absurd he not_mem_nil⟩ ?_ h
  · exact hinv.2
  · rintro done m rest s s' hsplit ⟨hsame, added, hadded, hfrom⟩ hpush
    obtain ⟨projection, hprojection, heq⟩ := bind_eq_ok.mp hpush
    rw [required_eq_ok] at hprojection
    obtain rfl := Except.ok.inj heq
    refine ⟨fun n hn => ?_, added ++ (memberLink render s.1 m projection).2.toList, ?_, fun e he => ?_⟩
    · rw [mem_append, hsame n hn, mem_singleton]
      refine or_iff_left fun hnode => ?_
      rw [hnode] at hn
      exact ParentKind.noConfusion hn
    · rw [hadded, append_assoc]
    · rcases mem_append.mp he with he | he
      · exact hfrom e he
      · exact ⟨m, hsplit ▸ mem_append_right _ mem_cons_self, s.1, projection, hsame, hprojection,
          mem_toList.mp he⟩

/-- The projections are those of the members. -/
def ProjectsMembers (projectionByHash : Hash → Option (ParentProjection Hash))
    (members : List (OrphanBlock Hash)) : Prop :=
  ∀ m ∈ members, ∀ p, projectionByHash m.hash = some p → p.hash = m.hash ∧ p.prevHash = m.prevHash

/-- A height has one canonical node. -/
def OneCanonical (nodes : List (TreeNode Hash)) : Prop :=
  ∀ n ∈ nodes, ∀ n' ∈ nodes, n.kind = .canonical → n'.kind = .canonical → n.height.isSome →
    n.height = n'.height → n = n'

theorem memberLink_toHash {m : OrphanBlock Hash} {e : TreeEdge Hash}
    (h : (memberLink render nodes m projection).2 = some e) :
    e.toHash = projection.hash := by
  rw [memberLink] at h
  split at h
  all_goals
    obtain ⟨-, -, rfl⟩ := map_eq_some_iff.mp h
    rfl

theorem memberLink_solid {m : OrphanBlock Hash} {e : TreeEdge Hash}
    (h : (memberLink render nodes m projection).2 = some e)
    (hnone : render.placement.parentInSet m.hash = none) (hkind : e.edgeKind = .orphan) {placed : ℤ}
    (hplaced : render.placement.placements m.hash = some placed) :
    render.placement.approx = false ∧
      (∃ n ∈ nodes, canonicalAt (placed - 1) n = true ∧ n.hash = projection.prevHash) ∧
      ∃ n ∈ nodes, canonicalAt (placed - 1) n = true ∧ e.fromHash = n.hash := by
  rw [memberLink, hnone, hplaced, Option.getD_some] at h
  obtain ⟨n, hattach, rfl⟩ := map_eq_some_iff.mp h
  have hverified : strictVerified render.placement nodes placed projection.prevHash = true := by
    by_contra hnot
    rw [if_neg hnot] at hkind
    cases hkind
  rw [if_pos hverified] at hattach
  rw [strictVerified, Bool.and_eq_true, Bool.not_eq_true', List.any_eq_true] at hverified
  obtain ⟨hexact, v, hv, hverified⟩ := hverified
  rw [Bool.and_eq_true, decide_eq_true_eq] at hverified
  exact ⟨hexact, ⟨v, hv, hverified⟩, n, mem_of_find?_eq_some hattach, find?_some hattach, rfl⟩

/-- **A solid edge to the root is verified.** -/
theorem Rooted.solid_edge (hrooted : Rooted members root)
    (hplace : placeOrphanComponent members sources = some placement) (hone : OneCanonical nodes)
    {projectionByHash : Hash → Option (ParentProjection Hash)}
    (hprojects : ProjectsMembers projectionByHash members) {baseId : ℕ} {edges : List (TreeEdge Hash)}
    (h : pushMemberNodes (prepareOrderedMemberRender members placement baseId projectionByHash)
      nodes edges = .ok result) :
    ∃ added, result.2 = edges ++ added ∧ ∀ e ∈ added, e.edgeKind = .orphan → e.toHash = root.hash →
      placement.approx = false ∧ e.fromHash = root.prevHash ∧ ∃ n ∈ nodes, n.kind = .canonical ∧
        n.hash = e.fromHash ∧ ∃ height, placement.placements root.hash = some height ∧
          n.height = some (height - 1) := by
  obtain ⟨rootAbs, -, -, hparent, hplaced⟩ := hrooted.place_eq hplace
  obtain ⟨added, hadded, hfrom⟩ := pushMemberNodes_edges h
  refine ⟨added, hadded, fun e he hkind hto => ?_⟩
  obtain ⟨m, hm, nodes', projection, hsame, hprojection, hlink⟩ := hfrom e he
  have hm : m ∈ members := mem_orderByKey.mp hm
  obtain ⟨hhash, hprev⟩ := hprojects m hm projection hprojection
  have hsame' : m = root :=
    inj_on_of_nodup_map hrooted.distinct hm hrooted.mem
      (hhash.symm.trans ((memberLink_toHash hlink).symm.trans hto))
  subst hsame'
  obtain ⟨hexact, ⟨v, hv, hvat, hvhash⟩, n, hn, hnat, hfromHash⟩ := memberLink_solid hlink
    (by rw [← hrooted.parent_root, ← hparent]; rfl) hkind (hplaced m hm)
  rw [canonicalAt, Bool.and_eq_true, decide_eq_true_eq, decide_eq_true_eq] at hvat hnat
  have hv := (hsame v hvat.1).mp hv
  have hn := (hsame n hnat.1).mp hn
  -- the node at that height is the one whose hash was compared
  obtain rfl := hone n hn v hv hnat.1 hvat.1 (hnat.2 ▸ rfl) (hnat.2.trans hvat.2.symm)
  exact ⟨hexact, hfromHash.trans (hvhash.trans hprev), n, hn, hnat.1, hfromHash.symm, _,
    hplaced m hm, hnat.2⟩

/-! ### The components that are loaded -/

section Loaded

variable {pool : List (OrphanBlock Hash)} {anchor : OrphanBlock Hash}

theorem Grown.perm (h : Grown pool anchor members) (hperm : members'.Perm members) :
    Grown pool anchor members' := by
  have hdistinct : (members'.map (·.hash)).Nodup := (hperm.map _).nodup_iff.mpr h.distinct
  refine ⟨fun m hm => h.from_pool m (hperm.subset hm), hdistinct, hperm.symm.subset h.anchor_mem,
    fun m hm => ?_⟩
  exact (h.connected m (hperm.subset hm)).of_fewer
    (parentInSet_mono h.distinct hdistinct fun q hq => hperm.symm.subset hq)

theorem Grown.rooted (h : Grown pool anchor members) (hdistinct : (pool.map (·.hash)).Nodup)
    (hacyclic : Acyclic (parentInSet pool)) : ∃ root, Rooted members root := by
  obtain ⟨root, hroot, htop, hunique, habove⟩ := h.exists_unique_root hdistinct hacyclic
  exact ⟨root, h.distinct, hroot, htop, hunique, habove⟩

end Loaded

/-- **Orphan components are loaded whole and placed consistently.**  The members that are loaded have
one root, and they are the component of the anchor unless the cap was hit.  A placement of them, in any
order, gives every member the height of the root and its distance; it is exact exactly if the strict
members agree; and a solid edge to the root comes from its predecessor, one below an exact placement.
-/
theorem orphan_components_placed {blocks : OrphanBlocks Hash} {filter : Navigator.ClassFilter}
    (query : ComponentQuery blocks filter) {anchor : OrphanBlock Hash} (hanchor : anchor ∈ blocks.rows)
    (hacyclic : Acyclic (parentInSet (eligible blocks filter anchor))) :
    (∃ root ∈ (loadOrphanComponent query anchor).1,
        root.prevHash ∉ (loadOrphanComponent query anchor).1.map (·.hash) ∧
        ∀ m ∈ (loadOrphanComponent query anchor).1,
          m.prevHash ∉ (loadOrphanComponent query anchor).1.map (·.hash) → m = root) ∧
      ((loadOrphanComponent query anchor).2 = false → ∀ b, b ∈ (loadOrphanComponent query anchor).1 ↔
        b ∈ eligible blocks filter anchor ∧
          Connected (parentInSet (eligible blocks filter anchor)) anchor.hash b.hash) ∧
      ∀ members : List (OrphanBlock Hash), members.Perm (loadOrphanComponent query anchor).1 →
        ∀ sources : PlacementSources Hash,
          ((∃ placement, placeOrphanComponent members sources = some placement ∧ placement.approx = false) ↔
            StrictAgree sources members) ∧
          ∀ placement, placeOrphanComponent members sources = some placement →
            Placed sources members placement ∧
            ∀ nodes edges baseId projectionByHash result, OneCanonical nodes →
              ProjectsMembers projectionByHash members →
              pushMemberNodes (prepareOrderedMemberRender members placement baseId projectionByHash)
                nodes edges =
                .ok result →
              ∃ added, result.2 = edges ++ added ∧ ∀ e ∈ added, e.edgeKind = .orphan →
                e.toHash = placement.rootHash →
                placement.approx = false ∧ ∃ root ∈ members, root.hash = placement.rootHash ∧
                  e.fromHash = root.prevHash ∧ ∃ n ∈ nodes, n.kind = .canonical ∧ n.hash = e.fromHash ∧
                    ∃ height, placement.placements root.hash = some height ∧
                      n.height = some (height - 1) := by
  have hdistinct := nodup_eligible blocks filter anchor
  obtain ⟨hgrown, hdone⟩ := loadOrphanComponent_spec hanchor query
  refine ⟨?_, fun hcapped b => ?_, fun members hperm sources => ?_⟩
  · obtain ⟨root, hrooted⟩ := hgrown.rooted hdistinct hacyclic
    exact ⟨root, hrooted.mem, hrooted.top, hrooted.unique⟩
  · have hmem := hgrown.mem_iff hdistinct (hdone hcapped) b.hash
    constructor
    · exact fun hb => ⟨hgrown.from_pool b hb, hmem.mp (mem_map_of_mem hb)⟩
    · rintro ⟨hb, hconnected⟩
      obtain ⟨m, hm, hhash⟩ := mem_map.mp (hmem.mpr hconnected)
      exact inj_on_of_nodup_map hdistinct (hgrown.from_pool m hm) hb hhash ▸ hm
  · obtain ⟨root, hrooted⟩ := (hgrown.perm hperm).rooted hdistinct hacyclic
    refine ⟨hrooted.exact_iff, fun placement hplace => ⟨hrooted.placed hplace, ?_⟩⟩
    intro nodes edges baseId projectionByHash result hone hprojects hpush
    obtain ⟨-, -, hhash, -⟩ := hrooted.place_eq hplace
    obtain ⟨added, hadded, hedges⟩ := hrooted.solid_edge hplace hone hprojects hpush
    refine ⟨added, hadded, fun e he hkind hto => ?_⟩
    obtain ⟨hexact, hfrom, n, hn, hcanonical, hnhash, hheight⟩ := hedges e he hkind (hto.trans hhash)
    exact ⟨hexact, root, hrooted.mem, hhash.symm, hfrom, n, hn, hcanonical, hnhash, hheight⟩

namespace Sample

/-- Two orphans, one on the other.  The lower one is strict. -/
def orphans : OrphanBlocks ℕ :=
  ⟨[⟨10, 9, .unknown, true, some .strictBtcOrphan, 0⟩, ⟨11, 10, .unknown, true, none, 0⟩], by decide⟩

/-- The later orphan. -/
def orphanTip : OrphanBlock ℕ := ⟨11, 10, .unknown, true, none, 0⟩

/-- Strict and pending orphans. -/
def strictOrPending : Navigator.ClassFilter := ⟨[.strictBtcOrphan], true⟩

/-- The rows of the query in the order of the table. -/
def inTableOrder (blocks : OrphanBlocks ℕ) (filter : Navigator.ClassFilter) :
    ComponentQuery blocks filter where
  rows frontier := blocks.rows.filter fun b => inClass filter b &&
    (b.prevHash ∈ frontier.map (·.hash) || b.hash ∈ frontier.map (·.prevHash))
  mem_rows frontier b := by simp

/-- The strict orphan claims height 300000. -/
def claimed : PlacementSources ℕ := ⟨fun hash => if hash = 10 then some 300000 else none, none, []⟩

theorem orphans_acyclic : Acyclic (parentInSet (eligible orphans strictOrPending orphanTip)) := by
  refine acyclic_of_lt (fun hash => hash) fun a b h => ?_
  obtain ⟨m, hm, rfl, rfl, -⟩ := (parentInSet_eq_some (nodup_eligible _ _ _)).mp h
  have hall : ∀ m ∈ orphans.rows, m.prevHash < m.hash := by decide
  exact hall m (mem_filter.mp hm).1

end Sample

theorem orphan_components_placed_pair :
    let members := (loadOrphanComponent (Sample.inTableOrder Sample.orphans Sample.strictOrPending)
      Sample.orphanTip).1
    members.length = 2 ∧ ∃ placement, placeOrphanComponent members Sample.claimed = some placement ∧
      placement.approx = false ∧ Placed Sample.claimed members placement := by
  obtain ⟨-, -, hplaced⟩ :=
    orphan_components_placed (Sample.inTableOrder Sample.orphans Sample.strictOrPending)
    (show Sample.orphanTip ∈ Sample.orphans.rows by decide) Sample.orphans_acyclic
  obtain ⟨-, hall⟩ := hplaced _ (Perm.refl _) Sample.claimed
  exact ⟨by decide, _, rfl, rfl, (hall _ rfl).1⟩

end MergeMiningMonitor.Tree
