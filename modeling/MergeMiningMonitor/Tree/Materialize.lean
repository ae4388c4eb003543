import MergeMiningMonitor.Tree.Candidates

/-!
# Tree — Materialize

The nodes and edges of a tree, from the candidates that the reduction left visible (`materialize_tree`).
A node whose predecessor is visible has an edge from it.  Otherwise its ancestry is followed through the
candidates that were stripped; if a visible node comes after them, a hidden edge joins the two and
counts what was passed.

In an exact window the stripped candidates are canonical blocks between two visible ones
(`ReducedWindow.between`).  From every canonical block a path leads down to a visible one
(`ReducedWindow.exists_downPath`), and a node whose predecessor was stripped has a hidden edge over this
path (`ReducedWindow.link_hidden`).
-/

namespace MergeMiningMonitor.Tree

open Relational Ordered Segments List Option

variable {Hash : Type} [LinearOrder Hash]

/-- The `edge_kind` of an edge. -/
inductive EdgeKind
  | canonical
  | staleEntry
  | stale
  | hidden
  | orphan
  | orphanApprox
deriving DecidableEq, Repr

structure TreeEdge (Hash : Type) where
  fromHash : Hash
  toHash : Hash
  hiddenCount : Option ℕ
  edgeKind : EdgeKind
deriving DecidableEq

/-- A branch id: `stale-<height>-<root hash>` or `orphan-<root hash>`. -/
inductive BranchId (Hash : Type)
  | stale (height : ℤ) (rootHash : Hash)
  | orphan (rootHash : Hash)
deriving DecidableEq

structure TreeNode (Hash : Type) where
  id : ℕ
  hash : Hash
  height : Option ℤ
  kind : ParentKind
  prevId : Option ℕ
  prevHash : Hash
  branch : Option (BranchId Hash)
  competition : Option Hash
  placementHeight : Option ℤ
  placementApprox : Bool
deriving DecidableEq

/-! ### Edges -/

section Edges

variable (visible : List (ParentProjection Hash))

def idByHash (hash : Hash) : Option ℕ :=
  ((visible.zipIdx 1).reverse.find? fun p => p.1.hash = hash).map (·.2)

def visibleEdgeKind (prevHash : Hash) (projection : ParentProjection Hash) : Option EdgeKind :=
  let prevKind := kindByHash visible prevHash
  if projection.kind = .stale then some (if prevKind = some .stale then .stale else .staleEntry)
  else if projection.kind = .canonical ∧ prevKind = some .canonical then some .canonical
  else none

variable (ancestryByHash : Hash → Option Hash)

/-- The loop of `hidden_predecessor`. -/
def followHidden : ℕ → List Hash → Hash → ℕ → Option (Hash × ℕ)
  | 0, _, _, _ => none
  | fuel + 1, seen, cursor, hiddenCount =>
    if cursor ∈ seen then none
    else if (idByHash visible cursor).isSome then
      if 0 < hiddenCount then some (cursor, hiddenCount) else none
    else
      match ancestryByHash cursor with
      | none => none
      | some next => followHidden fuel (cursor :: seen) next (hiddenCount + 1)

/-- What a node is linked to: its `prev_id`, its edge, and what it adds to the hidden total. -/
structure NodeLink (Hash : Type) where
  prevId : Option ℕ
  edge : Option (TreeEdge Hash)
  hidden : ℕ

/-- One projection of `materialize_tree`.  The fuel is for following its ancestry. -/
def linkNode (fuel : ℕ) (projection : ParentProjection Hash) : NodeLink Hash :=
  match idByHash visible projection.prevHash with
  | some prevId =>
    { prevId := some prevId
      edge := (visibleEdgeKind visible projection.prevHash projection).map fun edgeKind =>
        ⟨projection.prevHash, projection.hash, none, edgeKind⟩
      hidden := 0 }
  | none =>
    if projection.kind = .invalidBlock then ⟨none, none, 0⟩
    else
      match followHidden visible ancestryByHash fuel [] projection.prevHash 0 with
      | some (prevHash, hiddenCount) =>
        { prevId := idByHash visible prevHash
          edge := (idByHash visible prevHash).map fun _ =>
            ⟨prevHash, projection.hash, some hiddenCount, .hidden⟩
          hidden := hiddenCount }
      | none => ⟨none, none, 0⟩

def sortEdgesByDestinationId (edges : List (TreeEdge Hash)) : List (TreeEdge Hash) :=
  edges.insertionSort fun a b =>
    LexLe ((((idByHash visible a.toHash).getD 0 : ℕ) : ℤ), a.fromHash)
      ((((idByHash visible b.toHash).getD 0 : ℕ) : ℤ), b.fromHash)

/-- The edges of `materialize_tree`, and its hidden total. -/
def materializeEdges (fuel : ℕ) : List (TreeEdge Hash) × ℕ :=
  let links := visible.map (linkNode visible ancestryByHash fuel)
  (sortEdgesByDestinationId visible (links.filterMap (·.edge)), (links.map (·.hidden)).sum)

end Edges

/-! ### Branches -/

section Branches

variable (nodes : List (TreeNode Hash))

/-- `stale_hashes` of `assign_branches` -/
def staleNodeHashes : List Hash := (nodes.filter fun n => n.kind = .stale).map (·.hash)

/-- The loop of `assign_branches`.  It does not end on a cycle of stale nodes. -/
def branchRoot : ℕ → TreeNode Hash → Option (TreeNode Hash)
  | 0, _ => none
  | fuel + 1, root =>
    if root.prevHash ∈ staleNodeHashes nodes then
      match nodes.find? fun candidate => candidate.hash = root.prevHash with
      | some prev => branchRoot fuel prev
      | none => some root
    else some root

/-- The node with its branch. -/
def assignBranch (node : TreeNode Hash) : Option (TreeNode Hash) :=
  if node.kind = .stale then
    (branchRoot nodes nodes.length node).map fun root =>
      { node with branch := some (.stale (root.height.getD 0) root.hash) }
  else some node

def assignBranches : Option (List (TreeNode Hash)) := nodes.mapM (assignBranch nodes)

end Branches

structure TreeBranch (Hash : Type) where
  branchId : BranchId Hash
  rootHash : Hash
  tipHash : Hash
  memberHashes : List Hash
  btcHeightMin : ℤ
  btcHeightMax : ℤ
  depth : ℕ
  canonicalCompetitorHashes : List Hash
deriving DecidableEq

def rankHeight (node : TreeNode Hash) : Option ℤ := node.height.or node.placementHeight

/-- A missing height comes before every height. -/
def rankLe (a b : TreeNode Hash) : Bool :=
  match rankHeight a, rankHeight b with
  | none, _ => true
  | some _, none => false
  | some m, some n => m ≤ n

/-- The summary of the members of a branch, in the order of the nodes. -/
def summarizeBranch (branchId : BranchId Hash) (members : List (TreeNode Hash)) :
    Option (TreeBranch Hash) :=
  let members := members.insertionSort fun a b => rankLe a b = true
  match members.head?, members.getLast? with
  | some root, some tip =>
    some
      { branchId
        rootHash := root.hash
        tipHash := tip.hash
        memberHashes := members.map (·.hash)
        btcHeightMin := (rankHeight root).getD 0
        btcHeightMax := (rankHeight tip).getD 0
        depth := members.length
        canonicalCompetitorHashes := members.filterMap (·.competition) }
  | _, _ => none

/-- The nodes that are grouped by `build_branches`. -/
def branchNodes (nodes : List (TreeNode Hash)) : List (TreeNode Hash) :=
  nodes.filter fun n => n.kind = .stale || n.kind = .unknown

def buildBranches (nodes : List (TreeNode Hash)) : List (TreeBranch Hash) :=
  let branchIds := ((branchNodes nodes).filterMap (·.branch)).dedup
  orderByKey (fun b => (b.btcHeightMin, b.rootHash)) (branchIds.filterMap fun branchId =>
    summarizeBranch branchId ((branchNodes nodes).filter fun n => n.branch = some branchId))

/-! ### The tree -/

/-- `sort_nodes`: those with a height first, then by height, then by hash. -/
def sortNodes (nodes : List (ParentProjection Hash)) : List (ParentProjection Hash) :=
  orderByKey (fun p => (p.height.getD 0, p.hash)) (nodes.filter (·.height.isSome)) ++
    orderByKey (fun p => (0, p.hash)) (nodes.filter (·.height.isNone))

/-- The node that the reduction sees. -/
def reductionNode (p : ParentProjection Hash) : ReductionNode Hash :=
  ⟨p.hash, p.prevHash, p.height, p.kind, p.isProtected, p.evidence⟩

section Window

variable (candidates : List (ParentProjection Hash)) (visible : List Hash)

/-- `ancestry_by_hash` -/
def ancestry (hash : Hash) : Option Hash :=
  (candidates.reverse.find? fun p => p.hash = hash).map (·.prevHash)

/-- The candidates that stay visible, in order. -/
def visibleNodes : List (ParentProjection Hash) :=
  sortNodes (candidates.filter (·.hash ∈ visible))

/-- The edges of a reduced tree, and its hidden total. -/
def treeEdges : List (TreeEdge Hash) × ℕ :=
  materializeEdges (visibleNodes candidates visible) (ancestry candidates) (candidates.length + 1)

/-! ### What was stripped -/

/-- The candidates that the reduction hid. -/
def stripped : List (ParentProjection Hash) :=
  candidates.filter (·.hash ∉ visible)

theorem perm_visibleNodes :
    (visibleNodes candidates visible).Perm (candidates.filter (·.hash ∈ visible)) := by
  refine ((perm_orderByKey _ _).append (perm_orderByKey _ _)).trans ?_
  have hsplit := filter_append_perm (fun p : ParentProjection Hash => p.height.isSome)
    (candidates.filter (·.hash ∈ visible))
  refine Perm.trans (Perm.of_eq ?_) hsplit
  congr 1
  exact filter_congr fun p _ => by cases p.height <;> rfl

variable {candidates visible}

theorem mem_stripped {s : ParentProjection Hash} :
    s ∈ stripped candidates visible ↔ s ∈ candidates ∧ s.hash ∉ visible := by
  rw [stripped, mem_filter, decide_eq_true_eq]

theorem mem_visibleNodes {t : ParentProjection Hash} :
    t ∈ visibleNodes candidates visible ↔ t ∈ candidates ∧ t.hash ∈ visible := by
  rw [(perm_visibleNodes candidates visible).mem_iff, mem_filter, decide_eq_true_eq]

theorem isSome_idByHash {nodes : List (ParentProjection Hash)} {hash : Hash} :
    (idByHash nodes hash).isSome ↔ ∃ p ∈ nodes, p.hash = hash := by
  rw [idByHash, isSome_map, find?_isSome]
  constructor
  · rintro ⟨p, hp, hhash⟩
    exact ⟨p.1, (mem_zipIdx (mem_reverse.mp hp)).2.2 ▸ getElem_mem _, by simpa using hhash⟩
  · rintro ⟨p, hp, hhash⟩
    obtain ⟨i, hi, rfl⟩ := mem_iff_getElem.mp hp
    refine ⟨(nodes[i], 1 + i), mem_reverse.mpr ?_, by simpa using hhash⟩
    rw [mem_zipIdx_iff_le_and_getElem?_sub]
    simp [hi]

section Stripped

variable {lo hi : ℤ}

theorem ancestry_of_mem (hwindow : WindowCandidates candidates lo hi) {c : ParentProjection Hash}
    (hc : c ∈ candidates) : ancestry candidates c.hash = some c.prevHash := by
  rw [ancestry]
  cases hfind : candidates.reverse.find? fun p => p.hash = c.hash with
  | none =>
    have := find?_eq_none.mp hfind c (mem_reverse.mpr hc)
    exact absurd (decide_eq_true rfl) this
  | some d =>
    have hd := mem_reverse.mp (mem_of_find?_eq_some hfind)
    have hhash : d.hash = c.hash := by simpa using find?_some hfind
    rw [inj_on_of_nodup_map hwindow.distinct hd hc hhash]
    rfl

theorem ancestry_eq_none {hash : Hash} (h : ∀ c ∈ candidates, c.hash ≠ hash) :
    ancestry candidates hash = none := by
  rw [ancestry, map_eq_none_iff, find?_eq_none]
  intro p hp
  simpa using h p (mem_reverse.mp hp)

/-- What is known of a reduced window. -/
structure ReducedWindow (candidates : List (ParentProjection Hash)) (lo hi : ℤ)
    (visible : List Hash) : Prop where
  window : WindowCandidates candidates lo hi
  sound : SoundReduction (candidates.map reductionNode) visible

variable (h : ReducedWindow candidates lo hi visible)
include h

theorem ReducedWindow.mem_of_visible {hash : Hash} (hvisible : hash ∈ visible) :
    ∃ c ∈ candidates, c.hash = hash := by
  have := h.sound.fromNodes.subset hvisible
  rw [List.map_map] at this
  exact List.mem_map.mp this

theorem ReducedWindow.isSome_idByHash_iff {hash : Hash} :
    (idByHash (visibleNodes candidates visible) hash).isSome ↔ hash ∈ visible := by
  rw [isSome_idByHash]
  constructor
  · rintro ⟨p, hp, rfl⟩
    exact (mem_visibleNodes.mp hp).2
  · intro hvisible
    obtain ⟨c, hc, rfl⟩ := h.mem_of_visible hvisible
    exact ⟨c, mem_visibleNodes.mpr ⟨hc, hvisible⟩, rfl⟩

/-- **A stripped candidate is a canonical block that nothing protects, between the ends of the
window.** -/
theorem ReducedWindow.between {s : ParentProjection Hash} (hs : s ∈ stripped candidates visible) :
    s.kind = .canonical ∧ s.isProtected = false ∧ ∃ n, s.height = some n ∧ lo < n ∧ n < hi := by
  obtain ⟨hmem, hhidden⟩ := mem_stripped.mp hs
  have hnode : reductionNode s ∈ candidates.map reductionNode := mem_map_of_mem hmem
  have hkept := mt (h.sound.kept _ hnode) hhidden
  simp only [not_or, not_not] at hkept
  obtain ⟨hprotected, -, hkind, -⟩ := hkept
  have hkind : s.kind = .canonical := hkind
  refine ⟨hkind, Bool.eq_false_iff.mpr hprotected, ?_⟩
  have hheight : ∀ c ∈ candidates, c.kind = .canonical → ∃ n, c.height = some n ∧ lo ≤ n ∧ n ≤ hi := by
    intro c hc hcanonical
    rcases h.window.kinds c hc with ⟨-, hn⟩ | ⟨hother, -⟩
    · exact hn
    · rw [hcanonical] at hother
      simp at hother
  obtain ⟨n, hn, hlo, hhi⟩ := hheight s hmem hkind
  refine ⟨n, hn, ?_⟩
  -- the ends of its run are canonical blocks on either side of it
  obtain ⟨run, hrun, hinside, hcanonical, -⟩ := h.sound.hidden _ hnode hhidden
  obtain ⟨a, mid, b, rfl⟩ := exists_ends (ne_nil_of_mem hinside)
  have hmid : reductionNode s ∈ mid := by simpa using hinside
  have hdistinct : ((candidates.map reductionNode).map (·.hash)).Nodup := by
    rw [List.map_map]
    exact h.window.distinct
  have hsorted : (a :: (mid ++ [b])).Pairwise fun x y => LexLe (nodeKey x) (nodeKey y) :=
    (pairwise_orderByKey _ _).sublist hrun.sublist
  have hnodup : (a :: (mid ++ [b])).Nodup :=
    hrun.sublist.nodup (nodup_heighted hdistinct)
  obtain ⟨hfirst, hrest⟩ := pairwise_cons.mp hsorted
  have hside : ∀ x ∈ a :: (mid ++ [b]), x ≠ reductionNode s →
      ∃ m, x.height = some m ∧ lo ≤ m ∧ m ≤ hi ∧ m ≠ n := by
    intro x hx hne
    obtain ⟨c, hc, rfl⟩ := mem_map.mp
      (mem_filter.mp (mem_orderByKey.mp (hrun.sublist.subset hx))).1
    have hckind : c.kind = .canonical := hcanonical _ hx
    obtain ⟨m, hm, hlo, hhi⟩ := hheight c hc hckind
    refine ⟨m, hm, hlo, hhi, ?_⟩
    rintro rfl
    exact hne (congrArg reductionNode (h.window.single c hc s hmem m hckind hkind hm hn))
  have hsheight : (reductionNode s).height = some n := hn
  constructor
  · obtain ⟨m, hm, hlo', -, hne⟩ := hside a mem_cons_self
      fun heq => (nodup_cons.mp hnodup).1 (heq ▸ mem_append_left _ hmid)
    have hle := (hfirst _ (mem_append_left _ hmid)).fst_le
    simp only [nodeKey, hm, hsheight, getD_some] at hle
    omega
  · obtain ⟨m, hm, -, hhi', hne⟩ := hside b (by simp) fun heq =>
      (nodup_append.mp (nodup_cons.mp hnodup).2).2.2 _ hmid b mem_cons_self heq.symm
    have hle := ((pairwise_append.mp hrest).2.2 _ hmid b mem_cons_self).fst_le
    simp only [nodeKey, hm, hsheight, getD_some] at hle
    omega

theorem ReducedWindow.canonicalHeight {c : ParentProjection Hash} (hc : c ∈ candidates)
    (hkind : c.kind = .canonical) : ∃ n, c.height = some n ∧ lo ≤ n ∧ n ≤ hi := by
  rcases h.window.kinds c hc with ⟨-, hn⟩ | ⟨hother, -⟩
  · exact hn
  · rw [hkind] at hother
    simp at hother

end Stripped

/-! ### Paths through stripped candidates -/

variable (candidates visible) in
/-- From a hash down to a visible one, through stripped candidates. -/
inductive HiddenPath : Hash → List (ParentProjection Hash) → Hash → Prop
  | found {hash : Hash} (h : hash ∈ visible) : HiddenPath hash [] hash
  | pass {s : ParentProjection Hash} {path : List (ParentProjection Hash)} {found : Hash}
      (hs : s ∈ stripped candidates visible) (h : HiddenPath s.prevHash path found) :
      HiddenPath s.hash (s :: path) found

section Paths

variable {lo hi : ℤ} {path : List (ParentProjection Hash)}
  (h : ReducedWindow candidates lo hi visible)
include h

theorem ReducedWindow.followHidden_eq {cursor found : Hash}
    (hpath : HiddenPath candidates visible cursor path found) {fuel count : ℕ} {seen : List Hash}
    (hfuel : path.length < fuel) (hnodup : (path.map (·.hash)).Nodup)
    (hseen : ∀ x ∈ seen, x ∉ visible ∧ x ∉ path.map (·.hash)) :
    followHidden (visibleNodes candidates visible) (ancestry candidates) fuel seen cursor count =
      if 0 < count + path.length then some (found, count + path.length) else none := by
  induction hpath generalizing fuel count seen with
  | found hvisible =>
    obtain ⟨fuel, rfl⟩ := Nat.exists_eq_succ_of_ne_zero (Nat.ne_zero_of_lt hfuel)
    rw [followHidden, if_neg fun hin => (hseen _ hin).1 hvisible,
      if_pos (h.isSome_idByHash_iff.mpr hvisible), length_nil, Nat.add_zero]
  | @pass s path found hs _ ih =>
    obtain ⟨fuel, rfl⟩ := Nat.exists_eq_succ_of_ne_zero (Nat.ne_zero_of_lt hfuel)
    obtain ⟨hmem, hhidden⟩ := mem_stripped.mp hs
    rw [length_cons] at hfuel
    obtain ⟨hfirst, hrest⟩ := nodup_cons.mp hnodup
    rw [followHidden, if_neg fun hin => (hseen _ hin).2 mem_cons_self,
      if_neg (mt h.isSome_idByHash_iff.mp hhidden), ancestry_of_mem h.window hmem]
    dsimp only
    rw [ih (by omega) hrest, length_cons, Nat.add_right_comm, Nat.add_assoc]
    intro x hx
    rcases mem_cons.mp hx with rfl | hx
    · exact ⟨hhidden, hfirst⟩
    · exact ⟨(hseen x hx).1, fun hin => (hseen x hx).2 (mem_cons_of_mem _ hin)⟩

omit h in
theorem HiddenPath.unique {cursor found found' : Hash} {path' : List (ParentProjection Hash)}
    (hdistinct : (candidates.map (·.hash)).Nodup) (h : HiddenPath candidates visible cursor path found)
    (h' : HiddenPath candidates visible cursor path' found') : path = path' ∧ found = found' := by
  induction h generalizing path' found' with
  | found hvisible =>
    cases h' with
    | found _ => exact ⟨rfl, rfl⟩
    | pass hs _ => exact absurd hvisible (mem_stripped.mp hs).2
  | @pass s path found hs hrest ih =>
    generalize hcursor : s.hash = cursor at h'
    cases h' with
    | found hvisible => exact absurd (hcursor ▸ hvisible) (mem_stripped.mp hs).2
    | @pass s' path' _ hs' hrest' =>
      obtain rfl := inj_on_of_nodup_map hdistinct (mem_stripped.mp hs).1 (mem_stripped.mp hs').1 hcursor
      obtain ⟨rfl, rfl⟩ := ih hrest'
      exact ⟨rfl, rfl⟩

variable (candidates visible) in
/-- From a canonical block at height `n`, the path down to the visible canonical block `found` at height
`bottom`: it passes the stripped blocks above `bottom`, and these are all the canonical blocks there. -/
structure DownPath (cursor : Hash) (n : ℤ) (path : List (ParentProjection Hash))
    (found : ParentProjection Hash) (bottom : ℤ) : Prop where
  leads : HiddenPath candidates visible cursor path found.hash
  nodup : path.Nodup
  found_mem : found ∈ candidates
  found_visible : found.hash ∈ visible
  found_kind : found.kind = .canonical
  found_height : found.height = some bottom
  bottom_le : bottom ≤ n
  mem : ∀ s, s ∈ path ↔ s ∈ stripped candidates visible ∧ ∃ m, s.height = some m ∧ bottom < m ∧ m ≤ n
  all : ∀ c ∈ candidates, c.kind = .canonical → ∀ m, c.height = some m → bottom < m → m ≤ n →
    c.hash ∉ visible

omit h in
theorem downPath_visible {c : ParentProjection Hash} {n : ℤ} (hc : c ∈ candidates)
    (hkind : c.kind = .canonical) (hheight : c.height = some n) (hvisible : c.hash ∈ visible) :
    DownPath candidates visible c.hash n [] c n := by
  refine ⟨.found hvisible, nodup_nil, hc, hvisible, hkind, hheight, le_rfl, fun s => ?_, ?_⟩
  · constructor
    · exact fun hs => absurd hs not_mem_nil
    · rintro ⟨-, m, -, hlt, hle⟩
      omega
  · intro d _ _ m _ hlt hle
    omega

/-- **Every canonical block has a path down.** -/
theorem ReducedWindow.exists_downPath {n : ℤ} (hlo : lo ≤ n) :
    n ≤ hi → ∀ c ∈ candidates, c.kind = .canonical → c.height = some n →
      ∃ path found bottom, DownPath candidates visible c.hash n path found bottom := by
  induction n, hlo using Int.leInduction with
  | base =>
    intro _ c hc hkind hheight
    by_cases hvisible : c.hash ∈ visible
    · exact ⟨_, _, _, downPath_visible hc hkind hheight hvisible⟩
    · -- the lowest block is not stripped
      obtain ⟨-, -, m, hm, hlt, -⟩ := h.between (mem_stripped.mpr ⟨hc, hvisible⟩)
      rw [hheight] at hm
      obtain rfl := some.inj hm
      exact absurd hlt (lt_irrefl _)
  | succ n hlo ih =>
    intro hhi c hc hkind hheight
    by_cases hvisible : c.hash ∈ visible
    · exact ⟨_, _, _, downPath_visible hc hkind hheight hvisible⟩
    · obtain ⟨d, hd, hdkind, hdheight⟩ := h.window.canonical n hlo (by omega)
      obtain ⟨path, found, bottom, hpath⟩ := ih (by omega) d hd hdkind hdheight
      have hs : c ∈ stripped candidates visible := mem_stripped.mpr ⟨hc, hvisible⟩
      have hbottom := hpath.bottom_le
      refine ⟨c :: path, found, bottom, ?_, ?_, hpath.found_mem, hpath.found_visible, hpath.found_kind,
        hpath.found_height, by omega, fun s => ?_, fun e he hekind m hm hlt hle => ?_⟩
      · refine .pass hs ?_
        rw [h.window.linked c hc d hd n hkind hdkind hheight hdheight]
        exact hpath.leads
      · refine nodup_cons.mpr ⟨fun hin => ?_, hpath.nodup⟩
        obtain ⟨-, m, hm, -, hle⟩ := (hpath.mem c).mp hin
        rw [hheight] at hm
        obtain rfl := some.inj hm
        omega
      · rw [mem_cons, hpath.mem]
        constructor
        · rintro (rfl | ⟨hs', m, hm, hlt, hle⟩)
          · exact ⟨hs, n + 1, hheight, by omega, le_rfl⟩
          · exact ⟨hs', m, hm, hlt, by omega⟩
        · rintro ⟨hs', m, hm, hlt, hle⟩
          rcases eq_or_lt_of_le hle with rfl | hlt'
          · exact .inl (h.window.single s (mem_stripped.mp hs').1 c hc _ (h.between hs').1 hkind hm hheight)
          · exact .inr ⟨hs', m, hm, hlt, by omega⟩
      · rcases eq_or_lt_of_le hle with rfl | hlt'
        · rwa [h.window.single e he c hc _ hekind hkind hm hheight]
        · exact hpath.all e he hekind m hm hlt (by omega)

/-- Above a stripped block there is a visible canonical one, with only stripped ones between. -/
theorem ReducedWindow.exists_above (d : ℕ) : ∀ m, lo ≤ m → m < hi → (hi - m).toNat = d →
    ∃ t ∈ candidates, t.kind = .canonical ∧ t.hash ∈ visible ∧ ∃ n, t.height = some n ∧ m < n ∧
      ∀ c ∈ candidates, c.kind = .canonical → ∀ k, c.height = some k → m < k → k < n →
        c.hash ∉ visible := by
  induction d with
  | zero =>
    intro m _ hlt hd
    omega
  | succ d ih =>
    intro m hlo hlt hd
    obtain ⟨t, ht, hkind, hheight⟩ := h.window.canonical (m + 1) (by omega) (by omega)
    by_cases hvisible : t.hash ∈ visible
    · refine ⟨t, ht, hkind, hvisible, m + 1, hheight, by omega, ?_⟩
      intro c _ _ k _ h₁ h₂
      omega
    · obtain ⟨-, -, n, hn, -, hnhi⟩ := h.between (mem_stripped.mpr ⟨ht, hvisible⟩)
      rw [hheight] at hn
      obtain rfl := some.inj hn
      obtain ⟨t', ht', hkind', hvisible', n, hn, hlt', hall⟩ := ih (m + 1) (by omega) hnhi (by omega)
      refine ⟨t', ht', hkind', hvisible', n, hn, by omega, ?_⟩
      intro c hc hckind k hk h₁ h₂
      by_cases hk' : k = m + 1
      · subst hk'
        rwa [h.window.single c hc t ht _ hckind hkind hk hheight]
      · exact hall c hc hckind k hk (by omega) h₂

/-! ### Hidden edges -/

variable (candidates visible) in
/-- The predecessor of the node was stripped. -/
def HangsOff (t : ParentProjection Hash) : Prop :=
  ∃ s ∈ stripped candidates visible, t.prevHash = s.hash

variable (candidates visible) in
/-- How a candidate is linked in the reduced tree. -/
def link (t : ParentProjection Hash) : NodeLink Hash :=
  linkNode (visibleNodes candidates visible) (ancestry candidates) (candidates.length + 1) t

/-- A node whose predecessor was stripped has a hidden edge over the path down, unless it is invalid. -/
theorem ReducedWindow.link_hidden {s t found : ParentProjection Hash} {m bottom : ℤ}
    (hs : s ∈ stripped candidates visible) (hprev : t.prevHash = s.hash)
    (hkind : t.kind ≠ .invalidBlock) (hdown : DownPath candidates visible s.hash m path found bottom) :
    (link candidates visible t).edge = some ⟨found.hash, t.hash, some path.length, .hidden⟩ ∧
      (link candidates visible t).hidden = path.length := by
  have hsub : ∀ c ∈ path, c ∈ candidates := fun c hc => (mem_stripped.mp ((hdown.mem c).mp hc).1).1
  have hlength : path.length < candidates.length + 1 :=
    Nat.lt_succ_of_le (hdown.nodup.subperm hsub).length_le
  have hhashes : (path.map (·.hash)).Nodup := hdown.nodup.map_on fun a ha b hb hab =>
    inj_on_of_nodup_map h.window.distinct (hsub a ha) (hsub b hb) hab
  have hpos : 0 < 0 + path.length := by
    rw [Nat.zero_add]
    refine length_pos_of_ne_nil fun hnil => ?_
    have hleads := hdown.leads
    rw [hnil] at hleads
    generalize hcursor : s.hash = cursor at hleads
    cases hleads with
    | found hvisible => exact (mem_stripped.mp hs).2 (hcursor ▸ hvisible)
  have hfollow : followHidden (visibleNodes candidates visible) (ancestry candidates)
      (candidates.length + 1)
      [] s.hash 0 = some (found.hash, path.length) := by
    rw [h.followHidden_eq hdown.leads hlength hhashes fun _ hx => absurd hx not_mem_nil, if_pos hpos,
      Nat.zero_add]
  have hnone : idByHash (visibleNodes candidates visible) t.prevHash = none := by
    rw [← not_isSome_iff_eq_none, h.isSome_idByHash_iff, hprev]
    exact (mem_stripped.mp hs).2
  obtain ⟨id, hid⟩ := isSome_iff_exists.mp (h.isSome_idByHash_iff.mpr hdown.found_visible)
  rw [link, linkNode, hnone, hprev]
  dsimp only
  rw [if_neg hkind, hfollow]
  dsimp only
  rw [hid]
  exact ⟨rfl, rfl⟩

theorem ReducedWindow.link_plain {t : ParentProjection Hash}
    (hplain : t.kind = .invalidBlock ∨ ¬HangsOff candidates visible t) :
    (∀ e, (link candidates visible t).edge = some e → e.edgeKind ≠ .hidden) ∧
      (link candidates visible t).hidden = 0 := by
  rw [link, linkNode]
  cases hprev : idByHash (visibleNodes candidates visible) t.prevHash with
  | some id =>
    refine ⟨fun e he => ?_, rfl⟩
    obtain ⟨kind, hkind, rfl⟩ := map_eq_some_iff.mp he
    rintro rfl
    dsimp only [visibleEdgeKind] at hkind
    split at hkind
    · split at hkind <;> cases hkind
    · split at hkind <;> cases hkind
  | none =>
    dsimp only
    split
    · exact ⟨fun e he => (nomatch he), rfl⟩
    · next hkind =>
        have hoff := hplain.resolve_left hkind
        have hhidden : t.prevHash ∉ visible := by
          rw [← h.isSome_idByHash_iff, hprev]
          exact Bool.false_ne_true
        have hno : ∀ c ∈ candidates, c.hash ≠ t.prevHash := by
          intro c hc heq
          exact hoff ⟨c, mem_stripped.mpr ⟨hc, heq ▸ hhidden⟩, heq.symm⟩
        rw [followHidden, if_neg not_mem_nil, hprev, if_neg (by simp), ancestry_eq_none hno]
        exact ⟨fun e he => (nomatch he), rfl⟩

omit h in
theorem mem_treeEdges {e : TreeEdge Hash} : e ∈ (treeEdges candidates visible).1 ↔
    ∃ t ∈ candidates, t.hash ∈ visible ∧ (link candidates visible t).edge = some e := by
  have hnodes : ∀ t, t ∈ visibleNodes candidates visible ↔ t ∈ candidates ∧ t.hash ∈ visible :=
    fun _ => mem_visibleNodes
  rw [treeEdges, materializeEdges, sortEdgesByDestinationId, mem_insertionSort, mem_filterMap]
  constructor
  · rintro ⟨l, hl, he⟩
    obtain ⟨t, ht, rfl⟩ := mem_map.mp hl
    exact ⟨t, ((hnodes t).mp ht).1, ((hnodes t).mp ht).2, he⟩
  · rintro ⟨t, ht, hvisible, he⟩
    exact ⟨_, mem_map_of_mem ((hnodes t).mpr ⟨ht, hvisible⟩), he⟩

theorem ReducedWindow.hidden_edge {e : TreeEdge Hash} (he : e ∈ (treeEdges candidates visible).1)
    (hkind : e.edgeKind = .hidden) :
    ∃ t ∈ candidates, t.hash ∈ visible ∧ t.kind ≠ .invalidBlock ∧ ∃ s ∈ stripped candidates visible,
      t.prevHash = s.hash ∧ ∃ m path found bottom, s.height = some m ∧
        DownPath candidates visible s.hash m path found bottom ∧
        e = ⟨found.hash, t.hash, some path.length, .hidden⟩ := by
  obtain ⟨t, ht, hvisible, hedge⟩ := mem_treeEdges.mp he
  have hhidden : ¬(t.kind = .invalidBlock ∨ ¬HangsOff candidates visible t) :=
    fun hplain => (h.link_plain hplain).1 e hedge hkind
  rw [not_or, not_not] at hhidden
  obtain ⟨hinvalid, s, hs, hprev⟩ := hhidden
  obtain ⟨hskind, -, m, hm, hlo, hhi⟩ := h.between hs
  obtain ⟨path, found, bottom, hdown⟩ := h.exists_downPath hlo.le hhi.le s (mem_stripped.mp hs).1 hskind hm
  refine ⟨t, ht, hvisible, hinvalid, s, hs, hprev, m, path, found, bottom, hm, hdown, ?_⟩
  exact some.inj (hedge.symm.trans (h.link_hidden hs hprev hinvalid hdown).1)

theorem ReducedWindow.exists_hidden_edge {s t : ParentProjection Hash} (ht : t ∈ candidates)
    (hvisible : t.hash ∈ visible) (hkind : t.kind ≠ .invalidBlock) (hs : s ∈ stripped candidates visible)
    (hprev : t.prevHash = s.hash) :
    ∃ m path found bottom, s.height = some m ∧ DownPath candidates visible s.hash m path found bottom ∧
      ⟨found.hash, t.hash, some path.length, .hidden⟩ ∈ (treeEdges candidates visible).1 := by
  obtain ⟨hskind, -, m, hm, hlo, hhi⟩ := h.between hs
  obtain ⟨path, found, bottom, hdown⟩ := h.exists_downPath hlo.le hhi.le s (mem_stripped.mp hs).1 hskind hm
  exact ⟨m, path, found, bottom, hm, hdown,
    mem_treeEdges.mpr ⟨t, ht, hvisible, (h.link_hidden hs hprev hkind hdown).1⟩⟩

end Paths

end Window

end MergeMiningMonitor.Tree
