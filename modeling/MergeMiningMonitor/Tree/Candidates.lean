import MergeMiningMonitor.Support.Forest
import MergeMiningMonitor.Tree.Coverage
import MergeMiningMonitor.Tree.Reduction

/-!
# Tree — Candidates

Which of the projected blocks of a window become nodes of its tree (`select_tree_candidates`), and which
of these the reduction must keep.  Every canonical block is a candidate.  A stale block is one if its
branch has a block that passes the filters; then the canonical blocks that the branch hangs off and
competes with are protected.  Invalid blocks and blocks without a height have to pass the filters.

`mem_candidates` says what is selected, and `attach_protected` that no stale candidate hangs off a
canonical candidate that the reduction may hide.
-/

namespace MergeMiningMonitor.Tree

open Relational Fallible List

variable {Hash : Type} [LinearOrder Hash]

/-- `ParentProjection`.  Of a competition, the canonical hash. -/
structure ParentProjection (Hash : Type) where
  hash : Hash
  prevHash : Hash
  height : Option ℤ
  kind : ParentKind
  headerTime : ℤ
  /-- `source_summary.distinct_sources` -/
  distinctSources : ℕ
  evidence : Bool
  isProtected : Bool
  competition : Option Hash
deriving DecidableEq

/-- A date, as the number of its day since the epoch. -/
abbrev Date := ℤ

/-- `date_from_epoch`, which fails outside the years -9999 to 9999. -/
def dateFromEpoch (epoch : ℤ) : Option Date :=
  if -377705116800 ≤ epoch ∧ epoch ≤ 253402300799 then some (epoch / 86400) else none

/-- `TreeQuery`.  Of the classification, whether it has `pending`. -/
structure TreeQuery where
  kinds : List ParentKind
  pending : Bool
  includeUnheighted : Bool
  unheightedFrom : Option Date
  unheightedTo : Option Date
  minSources : ℕ

/-- The errors of a tree. -/
inductive TreeError (Hash : Type)
  /-- The backbone of the window is not complete and linked. -/
  | coverage (error : CoverageError Hash)
  /-- "parent header time could not be interpreted as UTC" -/
  | headerTime (hash : Hash)
  | rangeTooLarge (error : RangeTooLarge)
deriving DecidableEq

def unheightedInRange (projection : ParentProjection Hash) (query : TreeQuery) :
    Except (TreeError Hash) Bool :=
  match query.unheightedFrom, query.unheightedTo with
  | some fromDate, some toDate =>
    match dateFromEpoch projection.headerTime with
    | some date => .ok (fromDate ≤ date ∧ date ≤ toDate)
    | none => .error (.headerTime projection.hash)
  | _, _ => .ok false

/-! ### Stale branches -/

/-- The stale block has a height. -/
def isHeightedStale (projection : ParentProjection Hash) : Bool :=
  projection.height.isSome && projection.kind = .stale

section StaleBranches

variable (projections : List (ParentProjection Hash))

def staleHashes : List Hash := (projections.filter isHeightedStale).map (·.hash)

/-- The stale blocks on top of a stale block, as the links between the two. -/
def staleLinks : List (Hash × Hash) :=
  ((projections.filter isHeightedStale).filter (·.prevHash ∈ staleHashes projections)).map
    fun p => (p.prevHash, p.hash)

def prevByHash (hash : Hash) : Option Hash :=
  ((staleLinks projections).reverse.find? fun l => l.2 = hash).map (·.1)

def childrenByHash (hash : Hash) : List Hash :=
  ((staleLinks projections).filter fun l => l.1 = hash).map (·.2)

def staleBranchRoot (hash : Hash) : Hash :=
  Forest.chase (prevByHash projections) (projections.length + 1) [] hash

/-- `include_stale_descendants`, for one root. -/
def staleDescendants (root : Hash) : List Hash :=
  Forest.descend (childrenByHash projections) (projections.length + 1) [root] []

/-- The projection passes the kind and source filters. -/
def passesFilters (query : TreeQuery) (projection : ParentProjection Hash) : Bool :=
  projection.kind ∈ query.kinds && query.minSources ≤ projection.distinctSources

def staleBranchMembersToInclude (query : TreeQuery) : List Hash :=
  ((projections.filter isHeightedStale).filter (passesFilters query)).flatMap fun p =>
    staleDescendants projections (staleBranchRoot projections p.hash)

def kindByHash (hash : Hash) : Option ParentKind :=
  (projections.reverse.find? fun p => p.hash = hash).map (·.kind)

def staleAttachParentHashes (members : List Hash) : List Hash :=
  (projections.filter fun p => p.hash ∈ members && p.prevHash ∉ members &&
    kindByHash projections p.prevHash = some .canonical).map (·.prevHash)

def staleMemberCompetitorHashes (members : List Hash) : List Hash :=
  (projections.filter (·.hash ∈ members)).filterMap (·.competition)

end StaleBranches

/-! ### Selection -/

structure NodeProtection (Hash : Type) where
  staleBranchMembers : List Hash
  protectedStaleAttachParents : List Hash
  protectedCompetitors : List Hash
  protectedContext : List Hash

/-- The protection of the exact window. -/
def windowProtection (query : TreeQuery) (projections : List (ParentProjection Hash)) :
    NodeProtection Hash :=
  let members := staleBranchMembersToInclude projections query
  { staleBranchMembers := members
    protectedStaleAttachParents := staleAttachParentHashes projections members
    protectedCompetitors := staleMemberCompetitorHashes projections members
    protectedContext := [] }

/-- A projection that is a candidate in its own right. -/
def selected (projection : ParentProjection Hash) : ParentProjection Hash :=
  { projection with evidence := true, isProtected := true }

/-- One projected block of `select_tree_candidates`. -/
def selectBlock (query : TreeQuery) (protection : NodeProtection Hash)
    (projection : ParentProjection Hash) :
    Except (TreeError Hash) (Option (ParentProjection Hash)) :=
  match projection.height, projection.kind with
  | some _, .canonical =>
    let evidence := passesFilters query projection
    .ok (some { projection with
      evidence
      isProtected := evidence || projection.hash ∈ protection.protectedCompetitors ||
        projection.hash ∈ protection.protectedStaleAttachParents ||
        projection.hash ∈ protection.protectedContext })
  | some _, .stale =>
    .ok (if projection.hash ∈ protection.staleBranchMembers then
      some { projection with evidence := passesFilters query projection, isProtected := true }
    else none)
  | some _, .invalidBlock =>
    .ok (if passesFilters query projection then some (selected projection) else none)
  | none, .unknown =>
    if query.includeUnheighted && passesFilters query projection then
      (unheightedInRange projection query).map fun inRange =>
        if inRange then some (selected projection) else none
    else .ok none
  | _, _ => .ok none

/-- One projected direct event of `select_tree_candidates`. -/
def selectDirect (query : TreeQuery) (projection : ParentProjection Hash) :
    Except (TreeError Hash) (Option (ParentProjection Hash)) :=
  if query.minSources ≤ projection.distinctSources then
    (unheightedInRange projection query).map fun inRange =>
      if inRange then some (selected projection) else none
  else .ok none

/-- The projected direct events of `select_tree_candidates`. -/
def selectDirectEvents (query : TreeQuery) (direct : List (ParentProjection Hash)) :
    Except (TreeError Hash) (List (Option (ParentProjection Hash))) :=
  if query.includeUnheighted && query.pending && ParentKind.unknown ∈ query.kinds then
    direct.mapM (selectDirect query)
  else .ok []

/-- `select_tree_candidates`, with the number of candidates without a height.  The direct projections
are unknown parents that have no block. -/
def selectTreeCandidates (query : TreeQuery) (projections direct : List (ParentProjection Hash))
    (protection : NodeProtection Hash) : Except (TreeError Hash) (List (ParentProjection Hash) × ℕ) := do
  let blocks ← projections.mapM (selectBlock query protection)
  let events ← selectDirectEvents query direct
  let candidates := blocks.reduceOption ++ events.reduceOption
  pure (candidates, candidates.countP (·.height.isNone))

/-! ### What is selected -/

/-- The projection and the candidate are one block, but for its marks. -/
def SameBlock (p c : ParentProjection Hash) : Prop :=
  c = { p with evidence := c.evidence, isProtected := c.isProtected }

/-- Which candidate a projected block gives. -/
def blockCandidate (query : TreeQuery) (protection : NodeProtection Hash) (p : ParentProjection Hash) :
    Option (ParentProjection Hash) :=
  (selectBlock query protection p).toOption.join

/-- Which candidate a projected direct event gives. -/
def directCandidate (query : TreeQuery) (p : ParentProjection Hash) : Option (ParentProjection Hash) :=
  if query.includeUnheighted && query.pending && ParentKind.unknown ∈ query.kinds then
    (selectDirect query p).toOption.join
  else none

variable {query : TreeQuery} {projections direct candidates : List (ParentProjection Hash)}
  {protection : NodeProtection Hash} {p c : ParentProjection Hash} {n : ℕ}

theorem selectTreeCandidates_eq
    (h : selectTreeCandidates query projections direct protection = .ok (candidates, n)) :
    candidates = projections.filterMap (blockCandidate query protection) ++
      direct.filterMap (directCandidate query) := by
  obtain ⟨blocks, hblocks, h⟩ := bind_eq_ok.mp h
  obtain ⟨events, hevents, h⟩ := bind_eq_ok.mp h
  cases h
  rw [mapM_reduceOption hblocks]
  congr 1
  rw [selectDirectEvents] at hevents
  split at hevents
  · next hunknown =>
      rw [mapM_reduceOption hevents]
      exact filterMap_congr fun p _ => by rw [directCandidate, if_pos hunknown]
  · next hunknown =>
      cases hevents
      rw [filterMap_eq_nil_iff.mpr fun p _ => by rw [directCandidate, if_neg hunknown]]
      rfl

/-- What a candidate is, by its kind. -/
inductive Selects (protection : NodeProtection Hash) (c : ParentProjection Hash) : Prop
  | canonical (hkind : c.kind = .canonical) (hheight : c.height.isSome)
      (hprotected : c.hash ∈ protection.protectedCompetitors ∨
        c.hash ∈ protection.protectedStaleAttachParents →
        c.isProtected = true)
  | stale (hkind : c.kind = .stale) (hheight : c.height.isSome)
      (hmember : c.hash ∈ protection.staleBranchMembers) (hprotected : c.isProtected = true)
  | invalidBlock (hkind : c.kind = .invalidBlock) (hheight : c.height.isSome)
      (hprotected : c.isProtected = true)
  | unheighted (hkind : c.kind = .unknown) (hheight : c.height = none) (hprotected : c.isProtected = true)

omit [LinearOrder Hash] in
theorem selected_spec (protection : NodeProtection Hash) (hkind : p.kind = .unknown)
    (hheight : p.height = none) : SameBlock p (selected p) ∧ Selects protection (selected p) :=
  ⟨rfl, .unheighted hkind hheight rfl⟩

theorem blockCandidate_spec (h : blockCandidate query protection p = some c) :
    SameBlock p c ∧ Selects protection c := by
  unfold blockCandidate selectBlock at h
  split at h
  · next hheight hkind =>
      cases h
      refine ⟨rfl, .canonical hkind (by simp [hheight]) fun hprotected => ?_⟩
      rcases hprotected with h | h <;> simp [h]
  · next hheight hkind =>
      split at h
      · next hmember =>
          cases h
          exact ⟨rfl, .stale hkind (by simp [hheight]) hmember rfl⟩
      · cases h
  · next hheight hkind =>
      split at h
      · cases h
        exact ⟨rfl, .invalidBlock hkind (by simp [selected, hheight]) rfl⟩
      · cases h
  · next hheight hkind =>
      split at h
      · cases hrange : unheightedInRange p query with
        | error e =>
          rw [hrange] at h
          cases h
        | ok inRange =>
          rw [hrange] at h
          cases inRange
          · cases h
          · cases h
            exact selected_spec protection hkind hheight
      · cases h
  · cases h

theorem blockCandidate_canonical (query : TreeQuery) (protection : NodeProtection Hash) {n : ℤ}
    (hkind : p.kind = .canonical) (hheight : p.height = some n) :
    ∃ c, blockCandidate query protection p = some c ∧ SameBlock p c := by
  cases hcandidate : blockCandidate query protection p with
  | none =>
    rw [blockCandidate, selectBlock, hkind, hheight] at hcandidate
    cases hcandidate
  | some c => exact ⟨c, rfl, (blockCandidate_spec hcandidate).1⟩

omit [LinearOrder Hash] in
theorem directCandidate_spec (protection : NodeProtection Hash)
    (hkind : p.kind = .unknown) (hheight : p.height = none)
    (h : directCandidate query p = some c) : SameBlock p c ∧ Selects protection c := by
  unfold directCandidate selectDirect at h
  split at h
  · split at h
    · cases hrange : unheightedInRange p query with
      | error e =>
        rw [hrange] at h
        cases h
      | ok inRange =>
        rw [hrange] at h
        cases inRange
        · cases h
        · cases h
          exact selected_spec protection hkind hheight
    · cases h
  · cases h

/-- The projections of an exact window: the blocks from height `lo` to `hi`, one canonical block at each
height on top of the one below, and unknown parents without a height. -/
structure ExactWindow (projections direct : List (ParentProjection Hash)) (lo hi : ℤ) : Prop where
  distinct : ((projections ++ direct).map (·.hash)).Nodup
  direct_unknown : ∀ p ∈ direct, p.kind = .unknown ∧ p.height = none
  within : ∀ p ∈ projections, ∀ n ∈ p.height, lo ≤ n ∧ n ≤ hi
  canonical : ∀ n, lo ≤ n → n ≤ hi → ∃ p ∈ projections, p.kind = .canonical ∧ p.height = some n
  single : ∀ p ∈ projections, ∀ q ∈ projections, ∀ n, p.kind = .canonical → q.kind = .canonical →
    p.height = some n → q.height = some n → p = q
  linked : ∀ p ∈ projections, ∀ q ∈ projections, ∀ n, p.kind = .canonical → q.kind = .canonical →
    p.height = some (n + 1) → q.height = some n → p.prevHash = q.hash

/-! ### Stale members -/

omit [LinearOrder Hash] in
theorem mem_staleHashes {hash : Hash} :
    hash ∈ staleHashes projections ↔ ∃ p ∈ projections, isHeightedStale p = true ∧ p.hash = hash := by
  simp [staleHashes, and_assoc]

theorem mem_staleLinks {l : Hash × Hash} :
    l ∈ staleLinks projections ↔ ∃ p ∈ projections, isHeightedStale p = true ∧
      p.prevHash ∈ staleHashes projections ∧ (p.prevHash, p.hash) = l := by
  simp only [staleLinks, mem_map, mem_filter, decide_eq_true_eq, and_assoc]

theorem staleBranchMembers_stale {hash : Hash}
    (h : hash ∈ staleBranchMembersToInclude projections query) : hash ∈ staleHashes projections := by
  obtain ⟨p, hp, hhash⟩ := mem_flatMap.mp h
  have hp := (mem_filter.mp hp).1
  have hroot : staleBranchRoot projections p.hash ∈ staleHashes projections := by
    refine Forest.chase_mem (s := (· ∈ staleHashes projections)) (fun a b hab => ?_) _ _
      (mem_map_of_mem hp)
    obtain ⟨l, hl, rfl⟩ := Option.map_eq_some_iff.mp hab
    obtain ⟨q, -, -, hprev, rfl⟩ := mem_staleLinks.mp (mem_reverse.mp (mem_of_find?_eq_some hl))
    exact hprev
  refine Forest.descend_forall (s := (· ∈ staleHashes projections))
    (fun k c _ hc => ?_) _ _ _ ?_ ?_ hash hhash
  · obtain ⟨l, hl, rfl⟩ := mem_map.mp hc
    obtain ⟨q, hq, hstale, -, rfl⟩ := mem_staleLinks.mp (mem_filter.mp hl).1
    exact mem_staleHashes.mpr ⟨q, hq, hstale, rfl⟩
  · exact fun k hk => mem_singleton.mp hk ▸ hroot
  · exact fun _ h => absurd h not_mem_nil

theorem kindByHash_of_mem (hdistinct : (projections.map (·.hash)).Nodup) (hp : p ∈ projections) :
    kindByHash projections p.hash = some p.kind := by
  rw [kindByHash]
  cases hfind : projections.reverse.find? fun q => q.hash = p.hash with
  | none =>
    have := find?_eq_none.mp hfind p (mem_reverse.mpr hp)
    exact absurd (decide_eq_true rfl) this
  | some q =>
    have hq := mem_reverse.mp (mem_of_find?_eq_some hfind)
    have hhash : q.hash = p.hash := by simpa using find?_some hfind
    rw [inj_on_of_nodup_map hdistinct hq hp hhash]
    rfl

/-! ### The candidates of an exact window -/

/-- The candidates of an exact window: the canonical blocks of all its heights, and others, which are
protected.  What a stale candidate hangs off is protected. -/
structure WindowCandidates (candidates : List (ParentProjection Hash)) (lo hi : ℤ) : Prop where
  distinct : (candidates.map (·.hash)).Nodup
  kinds : ∀ c ∈ candidates, c.kind = .canonical ∧ (∃ n, c.height = some n ∧ lo ≤ n ∧ n ≤ hi) ∨
    (c.kind = .stale ∨ c.kind = .invalidBlock ∨ c.kind = .unknown ∧ c.height = none) ∧ c.isProtected = true
  canonical : ∀ n, lo ≤ n → n ≤ hi → ∃ c ∈ candidates, c.kind = .canonical ∧ c.height = some n
  single : ∀ c ∈ candidates, ∀ d ∈ candidates, ∀ n, c.kind = .canonical → d.kind = .canonical →
    c.height = some n → d.height = some n → c = d
  linked : ∀ c ∈ candidates, ∀ d ∈ candidates, ∀ n, c.kind = .canonical → d.kind = .canonical →
    c.height = some (n + 1) → d.height = some n → c.prevHash = d.hash
  attached : ∀ c ∈ candidates, ∀ d ∈ candidates, c.kind = .stale → d.kind = .canonical →
    c.prevHash = d.hash → d.isProtected = true

section Window

variable {lo hi : ℤ} (hwindow : ExactWindow projections direct lo hi)
  (h : selectTreeCandidates query projections direct (windowProtection query projections) =
    .ok (candidates, n))
include hwindow h

theorem mem_candidates (hc : c ∈ candidates) :
    (∃ p ∈ projections ++ direct, SameBlock p c ∧ (p.kind ≠ .unknown → p ∈ projections)) ∧
      Selects (windowProtection query projections) c := by
  rw [selectTreeCandidates_eq h] at hc
  rcases mem_append.mp hc with hc | hc
  · obtain ⟨p, hp, hpc⟩ := mem_filterMap.mp hc
    obtain ⟨hsame, hselects⟩ := blockCandidate_spec hpc
    exact ⟨⟨p, mem_append_left _ hp, hsame, fun _ => hp⟩, hselects⟩
  · obtain ⟨p, hp, hpc⟩ := mem_filterMap.mp hc
    obtain ⟨hkind, hheight⟩ := hwindow.direct_unknown p hp
    obtain ⟨hsame, hselects⟩ := directCandidate_spec (windowProtection query projections) hkind hheight hpc
    exact ⟨⟨p, mem_append_right _ hp, hsame, fun h => absurd hkind h⟩, hselects⟩

theorem candidates_sublist :
    (candidates.map (·.hash)).Sublist ((projections ++ direct).map (·.hash)) := by
  have hkey : ∀ (ps : List (ParentProjection Hash))
      (g : ParentProjection Hash → Option (ParentProjection Hash)),
      (∀ p ∈ ps, ∀ c, g p = some c → c.hash = p.hash) →
        ((ps.filterMap g).map (·.hash)).Sublist (ps.map (·.hash)) := by
    intro ps g hg
    induction ps with
    | nil => exact Sublist.refl _
    | cons p ps ih =>
      have ih := ih fun q hq => hg q (mem_cons_of_mem _ hq)
      rw [filterMap_cons]
      cases hp : g p with
      | none => exact ih.cons _
      | some c =>
        rw [map_cons, map_cons, hg p mem_cons_self c hp]
        exact ih.cons_cons _
  rw [selectTreeCandidates_eq h, map_append, map_append]
  refine (hkey _ _ fun p _ c hc => ?_).append (hkey _ _ fun p hp c hc => ?_)
  · rw [(blockCandidate_spec hc).1]
  · obtain ⟨hkind, hheight⟩ := hwindow.direct_unknown p hp
    rw [(directCandidate_spec (windowProtection query projections) hkind hheight hc).1]

/-- **The candidates of an exact window.** -/
theorem windowCandidates : WindowCandidates candidates lo hi := by
  have hdistinct : (projections.map (·.hash)).Nodup := by
    have := hwindow.distinct
    rw [map_append] at this
    exact (nodup_append.mp this).1
  -- the block of a canonical or stale candidate
  have hblock : ∀ c ∈ candidates, c.kind ≠ .unknown → ∃ p ∈ projections, SameBlock p c := by
    intro c hc hkind
    obtain ⟨⟨p, -, hsame, hp⟩, -⟩ := mem_candidates hwindow h hc
    refine ⟨p, hp ?_, hsame⟩
    rwa [hsame] at hkind
  have hcanonical : ∀ c ∈ candidates, c.kind = .canonical → ∃ p ∈ projections, SameBlock p c :=
    fun c hc hkind => hblock c hc (by rw [hkind]; decide)
  refine ⟨(candidates_sublist hwindow h).nodup hwindow.distinct, fun c hc => ?_, fun m hlo hhi => ?_,
    fun c hc d hd m hc' hd' hcm hdm => ?_, fun c hc d hd m hc' hd' hcm hdm => ?_,
    fun c hc d hd hc' hd' hprev => ?_⟩
  · cases (mem_candidates hwindow h hc).2 with
    | canonical hkind hheight _ =>
      obtain ⟨p, hp, hsame⟩ := hcanonical c hc hkind
      obtain ⟨m, hm⟩ := Option.isSome_iff_exists.mp hheight
      refine .inl ⟨hkind, m, hm, hwindow.within p hp m ?_⟩
      rwa [hsame] at hm
    | stale hkind _ _ hprotected => exact .inr ⟨.inl hkind, hprotected⟩
    | invalidBlock hkind _ hprotected => exact .inr ⟨.inr (.inl hkind), hprotected⟩
    | unheighted hkind hheight hprotected => exact .inr ⟨.inr (.inr ⟨hkind, hheight⟩), hprotected⟩
  · obtain ⟨p, hp, hkind, hheight⟩ := hwindow.canonical m hlo hhi
    obtain ⟨c, hc, hsame⟩ :=
      blockCandidate_canonical query (windowProtection query projections) hkind hheight
    rw [selectTreeCandidates_eq h]
    refine ⟨c, mem_append_left _ (mem_filterMap.mpr ⟨p, hp, hc⟩), ?_⟩
    rw [hsame]
    exact ⟨hkind, hheight⟩
  · obtain ⟨p, hp, hpc⟩ := hcanonical c hc hc'
    obtain ⟨q, hq, hqd⟩ := hcanonical d hd hd'
    have hpq : p = q := by
      rw [hpc] at hc' hcm
      rw [hqd] at hd' hdm
      exact hwindow.single p hp q hq m hc' hd' hcm hdm
    refine inj_on_of_nodup_map ((candidates_sublist hwindow h).nodup hwindow.distinct) hc hd ?_
    rw [hpc, hqd, hpq]
  · obtain ⟨p, hp, hpc⟩ := hcanonical c hc hc'
    obtain ⟨q, hq, hqd⟩ := hcanonical d hd hd'
    rw [hpc] at hc' hcm ⊢
    rw [hqd] at hd' hdm ⊢
    exact hwindow.linked p hp q hq m hc' hd' hcm hdm
  · obtain ⟨p, hp, hpc⟩ := hblock c hc (by rw [hc']; decide)
    obtain ⟨q, hq, hqd⟩ := hcanonical d hd hd'
    have hqhash : q.hash = d.hash := by rw [hqd]
    have hqkind : q.kind = .canonical := by rwa [hqd] at hd'
    have hcprev : c.prevHash = p.prevHash := by rw [hpc]
    cases (mem_candidates hwindow h hc).2 with
    | stale _ _ hmember _ =>
      cases (mem_candidates hwindow h hd).2 with
      | canonical _ _ hprotected =>
        refine hprotected (.inr (mem_map.mpr ⟨p, mem_filter.mpr ⟨hp, ?_⟩, ?_⟩))
        · have hmember : p.hash ∈ staleBranchMembersToInclude projections query := by
            rwa [hpc] at hmember
          have hnot : p.prevHash ∉ staleBranchMembersToInclude projections query := by
            intro hin
            obtain ⟨s, hs, hstale, hhash⟩ := mem_staleHashes.mp (staleBranchMembers_stale hin)
            have hsq := inj_on_of_nodup_map hdistinct hs hq
              (hhash.trans (hcprev.symm.trans (hprev.trans hqhash.symm)))
            rw [hsq] at hstale
            simp [isHeightedStale, hqkind] at hstale
          have hkind := kindByHash_of_mem hdistinct hq
          rw [hqhash, ← hprev, hcprev, hqkind] at hkind
          simp only [hmember, hnot, hkind, decide_true, not_false_eq_true, Bool.and_self]
        · exact hcprev.symm.trans hprev
      | stale hkind => rw [hkind] at hd'; cases hd'
      | invalidBlock hkind => rw [hkind] at hd'; cases hd'
      | unheighted hkind => rw [hkind] at hd'; cases hd'
    | canonical hkind => rw [hkind] at hc'; cases hc'
    | invalidBlock hkind => rw [hkind] at hc'; cases hc'
    | unheighted hkind => rw [hkind] at hc'; cases hc'

end Window

end MergeMiningMonitor.Tree
