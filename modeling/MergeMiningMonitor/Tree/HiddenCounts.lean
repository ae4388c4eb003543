import MergeMiningMonitor.Support.Lists
import MergeMiningMonitor.Support.Keyset
import MergeMiningMonitor.Tree.Materialize

/-!
# Tree — Hidden counts

Whether the hidden edges of a reduced tree account for every stripped block once.  In an exact window
every stripped block has one visible canonical block next above it (`ReducedWindow.exists_covers`), and
the hidden edge of this one passes it.  But an unknown node whose predecessor was stripped has a hidden
edge too, and counts the same blocks again; and so has a lowest block whose predecessor is a stripped
one.  `hidden_accounts_iff` says that there is no other way for the counts to go wrong.
-/

namespace MergeMiningMonitor.Tree

open Relational Fallible Ordered Segments Keyset Lists List Option

variable {Hash : Type} [LinearOrder Hash]

/-! ### The accounts -/

/-- The height of `s` is strictly between those of `low` and `high`. -/
def strictlyBetween (low high s : ParentProjection Hash) : Bool :=
  match low.height, s.height, high.height with
  | some l, some m, some n => l < m && m < n
  | _, _, _ => false

/-- `s` is on the path of the edge. -/
def OnPath (candidates : List (ParentProjection Hash)) (visible : List Hash) (e : TreeEdge Hash)
    (s : ParentProjection Hash) : Prop :=
  ∃ t ∈ candidates, t.hash = e.toHash ∧
    ∃ path, HiddenPath candidates visible t.prevHash path e.fromHash ∧ s ∈ path

/-- The hidden edges account for every stripped candidate once. -/
structure HiddenAccounts (candidates : List (ParentProjection Hash)) (visible : List Hash)
    (edges : List (TreeEdge Hash)) (hiddenLinearBlockCount : ℕ) : Prop where
  total : hiddenLinearBlockCount = (stripped candidates visible).length
  once : ∀ s ∈ stripped candidates visible,
    ∃! e, e ∈ edges ∧ e.edgeKind = .hidden ∧ OnPath candidates visible e s
  joins : ∀ e ∈ edges, e.edgeKind = .hidden → ∃ low ∈ candidates, ∃ high ∈ candidates,
    low.hash = e.fromHash ∧ low.hash ∈ visible ∧ low.kind = .canonical ∧
    high.hash = e.toHash ∧ high.hash ∈ visible ∧ high.kind = .canonical ∧
    e.hiddenCount = some ((stripped candidates visible).countP (strictlyBetween low high))

/-- No unknown node, and not the lowest canonical one, follows a stripped candidate. -/
def NothingHangsOff (candidates : List (ParentProjection Hash)) (lo : ℤ) (visible : List Hash) : Prop :=
  ∀ t ∈ candidates, t.kind = .unknown ∨ t.kind = .canonical ∧ t.height = some lo →
    ¬HangsOff candidates visible t

section Accounts

variable {candidates : List (ParentProjection Hash)} {lo hi : ℤ} {visible : List Hash}
  (h : ReducedWindow candidates lo hi visible)
include h

variable {path : List (ParentProjection Hash)} {s t : ParentProjection Hash}

/-- Of the stripped blocks on a path, those strictly between the ends of the edge are all. -/
theorem ReducedWindow.countP_between {found : ParentProjection Hash} {m bottom : ℤ} {cursor : Hash}
    (hdown : DownPath candidates visible cursor m path found bottom)
    (ht : t.height = some (m + 1)) :
    (stripped candidates visible).countP (strictlyBetween found t) = path.length := by
  rw [countP_eq_length_filter]
  refine ((perm_ext_iff_of_nodup ?_ hdown.nodup).mpr fun s => ?_).length_eq
  · exact ((Nodup.of_map _ h.window.distinct).filter _).filter _
  · rw [mem_filter, hdown.mem, strictlyBetween, hdown.found_height, ht]
    refine and_congr_right fun hs => ?_
    obtain ⟨-, -, n, hn, -⟩ := h.between hs
    simp only [hn, Bool.and_eq_true, decide_eq_true_eq, Option.some.injEq]
    constructor
    · rintro ⟨hlt, hlt'⟩
      exact ⟨n, rfl, hlt, by omega⟩
    · rintro ⟨m, rfl, hlt, hle⟩
      exact ⟨hlt, by omega⟩

/-- A visible canonical block above the lowest height is one above the stripped block it follows. -/
theorem ReducedWindow.height_of_prev {m : ℤ} (ht : t ∈ candidates)
    (hkind : t.kind = .canonical) (hlowest : t.height ≠ some lo) (hs : s ∈ stripped candidates visible)
    (hprev : t.prevHash = s.hash) (hm : s.height = some m) : t.height = some (m + 1) := by
  obtain ⟨n, hn, hlo, hhi⟩ := h.canonicalHeight ht hkind
  have hne : lo ≠ n := by
    rintro rfl
    exact hlowest hn
  obtain ⟨d, hd, hdkind, hdheight⟩ := h.window.canonical (n - 1) (by omega) (by omega)
  have hlinked := h.window.linked t ht d hd (n - 1) hkind hdkind (by rw [hn, Int.sub_add_cancel]) hdheight
  have hsd : s = d := inj_on_of_nodup_map h.window.distinct (mem_stripped.mp hs).1 hd
    (hprev.symm.trans hlinked)
  rw [hsd, hdheight] at hm
  rw [hn, ← some.inj hm, Int.sub_add_cancel]

/-- If nothing else hangs off the stripped blocks, only canonical nodes above the lowest one do. -/
theorem ReducedWindow.canonical_of_hangsOff (hclear : NothingHangsOff candidates lo visible)
    (ht : t ∈ candidates) (hinvalid : t.kind ≠ .invalidBlock)
    (hoff : HangsOff candidates visible t) : t.kind = .canonical ∧ t.height ≠ some lo := by
  obtain ⟨s, hs, hprev⟩ := hoff
  rcases h.window.kinds t ht with ⟨hkind, -⟩ | ⟨hother, -⟩
  · exact ⟨hkind, fun hlowest => hclear t ht (.inr ⟨hkind, hlowest⟩) ⟨s, hs, hprev⟩⟩
  · rcases hother with hstale | hinvalid' | ⟨hunknown, -⟩
    · -- what a stale block hangs off is protected
      obtain ⟨hskind, hunprotected, -⟩ := h.between hs
      have := h.window.attached t ht s (mem_stripped.mp hs).1 hstale hskind hprev
      rw [hunprotected] at this
      cases this
    · exact absurd hinvalid' hinvalid
    · exact absurd ⟨s, hs, hprev⟩ (hclear t ht (.inl hunknown))

/-- `t` is the next visible canonical block above `s`. -/
def covers (candidates : List (ParentProjection Hash)) (visible : List Hash)
    (t s : ParentProjection Hash) : Bool :=
  t.kind = .canonical &&
    match s.height, t.height with
    | some m, some n => m < n && candidates.all fun c =>
      match c.height with
      | some k => !(c.kind = .canonical && m < k && k < n) || c.hash ∉ visible
      | none => true
    | _, _ => false

omit h in
theorem covers_iff {m n : ℤ} (hm : s.height = some m) (hn : t.height = some n) :
    covers candidates visible t s = true ↔ t.kind = .canonical ∧ m < n ∧ ∀ c ∈ candidates,
      c.kind = .canonical → ∀ k, c.height = some k → m < k → k < n → c.hash ∉ visible := by
  simp only [covers, hm, hn, Bool.and_eq_true, decide_eq_true_eq, List.all_eq_true]
  refine and_congr_right fun _ => and_congr_right fun _ => forall₂_congr fun c _ => ?_
  cases hk : c.height with
  | none => simp
  | some k =>
    simp only [Bool.or_eq_true, Bool.not_eq_true', Bool.and_eq_false_iff, decide_eq_false_iff_not,
      decide_eq_true_eq, Option.some.injEq, forall_eq']
    tauto

/-- **Every stripped block has one visible block next above.** -/
theorem ReducedWindow.exists_covers (hs : s ∈ stripped candidates visible) :
    ∃ t ∈ candidates, t.hash ∈ visible ∧ covers candidates visible t s = true ∧
      ∀ t' ∈ candidates, t'.hash ∈ visible → covers candidates visible t' s = true → t' = t := by
  obtain ⟨-, -, m, hm, hlo, hhi⟩ := h.between hs
  obtain ⟨t, ht, hkind, hvisible, n, hn, hlt, hall⟩ := h.exists_above _ m hlo.le hhi rfl
  refine ⟨t, ht, hvisible, (covers_iff hm hn).mpr ⟨hkind, hlt, hall⟩, fun t' ht' hvisible' hcovers => ?_⟩
  have hkind' : t'.kind = .canonical := by
    rw [covers, Bool.and_eq_true, decide_eq_true_eq] at hcovers
    exact hcovers.1
  obtain ⟨n', hn', -⟩ := h.canonicalHeight ht' hkind'
  obtain ⟨-, hlt', hall'⟩ := (covers_iff hm hn').mp hcovers
  rcases lt_trichotomy n n' with hlt'' | rfl | hlt''
  · exact absurd hvisible (hall' t ht hkind n hn hlt hlt'')
  · exact h.window.single t' ht' t ht n hkind' hkind hn' hn
  · exact absurd hvisible' (hall t' ht' hkind' n' hn' hlt' hlt'')

/-- Along the path of a canonical node, the blocks passed are those it covers. -/
theorem ReducedWindow.mem_path_iff {found : ParentProjection Hash} {m bottom : ℤ} {cursor : Hash}
    (hdown : DownPath candidates visible cursor m path found bottom)
    (hkind : t.kind = .canonical) (ht : t.height = some (m + 1)) (hs : s ∈ stripped candidates visible) :
    s ∈ path ↔ covers candidates visible t s = true := by
  obtain ⟨-, -, k, hk, -⟩ := h.between hs
  rw [hdown.mem, covers_iff hk ht]
  constructor
  · rintro ⟨-, m', hm', hlt, hle⟩
    rw [hk] at hm'
    obtain rfl := some.inj hm'
    exact ⟨hkind, by omega, fun c hc hckind l hl h₁ h₂ => hdown.all c hc hckind l hl (by omega) (by omega)⟩
  · rintro ⟨-, hlt, hall⟩
    refine ⟨hs, k, hk, ?_, by omega⟩
    by_contra hle
    have hbottom := hdown.bottom_le
    rcases eq_or_lt_of_le (not_lt.mp hle) with rfl | hlt'
    · have hsame := h.window.single s (mem_stripped.mp hs).1 found hdown.found_mem k (h.between hs).1
        hdown.found_kind hk hdown.found_height
      exact (mem_stripped.mp hs).2 (hsame ▸ hdown.found_visible)
    · exact hall found hdown.found_mem hdown.found_kind bottom hdown.found_height hlt' (by omega)
        hdown.found_visible

theorem ReducedWindow.hangsOff_of_covers (ht : t ∈ candidates)
    (hs : s ∈ stripped candidates visible) (hcovers : covers candidates visible t s = true) :
    ∃ s' ∈ stripped candidates visible, t.prevHash = s'.hash ∧ t.kind = .canonical ∧
      ∃ m, s'.height = some m ∧ t.height = some (m + 1) := by
  obtain ⟨hskind, -, m, hm, hlo, -⟩ := h.between hs
  have hkind : t.kind = .canonical := by
    rw [covers, Bool.and_eq_true, decide_eq_true_eq] at hcovers
    exact hcovers.1
  obtain ⟨n, hn, -, hhi⟩ := h.canonicalHeight ht hkind
  obtain ⟨-, hlt, hall⟩ := (covers_iff hm hn).mp hcovers
  obtain ⟨d, hd, hdkind, hdheight⟩ := h.window.canonical (n - 1) (by omega) (by omega)
  have hn' : t.height = some (n - 1 + 1) := by rw [hn, Int.sub_add_cancel]
  refine ⟨d, mem_stripped.mpr ⟨hd, ?_⟩, h.window.linked t ht d hd (n - 1) hkind hdkind hn' hdheight, hkind,
    n - 1, hdheight, hn'⟩
  by_cases hnext : n - 1 = m
  · subst hnext
    rw [h.window.single d hd s (mem_stripped.mp hs).1 _ hdkind hskind hdheight hm]
    exact (mem_stripped.mp hs).2
  · exact hall d hd hdkind (n - 1) hdheight (by omega) (by omega)

theorem ReducedWindow.hidden_eq_countP (hclear : NothingHangsOff candidates lo visible)
    {t : ParentProjection Hash} (ht : t ∈ candidates) :
    (link candidates visible t).hidden =
      (stripped candidates visible).countP (covers candidates visible t) := by
  by_cases hplain : t.kind = .invalidBlock ∨ ¬HangsOff candidates visible t
  · rw [(h.link_plain hplain).2, eq_comm, countP_eq_zero]
    intro s hs hcovers
    obtain ⟨s', hs', hprev, hkind, -⟩ := h.hangsOff_of_covers ht hs hcovers
    rcases hplain with hinvalid | hoff
    · rw [hkind] at hinvalid
      cases hinvalid
    · exact hoff ⟨s', hs', hprev⟩
  · rw [not_or, not_not] at hplain
    obtain ⟨hinvalid, hoff⟩ := hplain
    obtain ⟨hkind, hlowest⟩ := h.canonical_of_hangsOff hclear ht hinvalid hoff
    obtain ⟨s, hs, hprev⟩ := hoff
    obtain ⟨hskind, -, m, hm, hlo, hhi⟩ := h.between hs
    obtain ⟨path, found, bottom, hdown⟩ :=
      h.exists_downPath hlo.le hhi.le s (mem_stripped.mp hs).1 hskind hm
    have hheight := h.height_of_prev ht hkind hlowest hs hprev hm
    rw [(h.link_hidden hs hprev hinvalid hdown).2, countP_eq_length_filter]
    refine ((perm_ext_iff_of_nodup hdown.nodup ?_).mpr fun s' => ?_).length_eq
    · exact ((Nodup.of_map _ h.window.distinct).filter _).filter _
    · rw [mem_filter]
      constructor
      · intro hin
        have hs' := ((hdown.mem s').mp hin).1
        exact ⟨hs', (h.mem_path_iff hdown hkind hheight hs').mp hin⟩
      · rintro ⟨hs', hcovers⟩
        exact (h.mem_path_iff hdown hkind hheight hs').mpr hcovers

theorem ReducedWindow.nothingHangsOff (haccounts : HiddenAccounts candidates visible
    (treeEdges candidates visible).1 (treeEdges candidates visible).2) :
    NothingHangsOff candidates lo visible := by
  intro t ht hother hoff
  obtain ⟨s, hs, hprev⟩ := hoff
  have hinvalid : t.kind ≠ .invalidBlock := by
    rcases hother with hkind | ⟨hkind, -⟩ <;> rw [hkind] <;> decide
  have hvisible : t.hash ∈ visible := by
    by_contra hhidden
    obtain ⟨hkind, -, n, hn, hlo, -⟩ := h.between (mem_stripped.mpr ⟨ht, hhidden⟩)
    rcases hother with hkind' | ⟨-, hlowest⟩
    · rw [hkind] at hkind'
      cases hkind'
    · rw [hn] at hlowest
      exact absurd (some.inj hlowest) hlo.ne'
  obtain ⟨m, path, found, bottom, hm, hdown, hedge⟩ := h.exists_hidden_edge ht hvisible hinvalid hs hprev
  obtain ⟨low, hlow, high, hhigh, hlowhash, -, hlowkind, hhighhash, -, hhighkind, hcount⟩ :=
    haccounts.joins _ hedge rfl
  obtain rfl := inj_on_of_nodup_map h.window.distinct hhigh ht hhighhash
  rcases hother with hkind | ⟨-, hlowest⟩
  · rw [hhighkind] at hkind
    cases hkind
  · -- nothing is below the lowest block, but the path is not empty
    have hzero : (stripped candidates visible).countP (strictlyBetween low high) = 0 := by
      rw [countP_eq_zero]
      intro s' hs'
      obtain ⟨-, -, n, hn, hlo, -⟩ := h.between hs'
      obtain ⟨l, hl, -⟩ := h.canonicalHeight hlow hlowkind
      simp only [strictlyBetween, hl, hn, hlowest, Bool.and_eq_true, decide_eq_true_eq]
      omega
    rw [hzero] at hcount
    have hnil : path = [] := length_eq_zero_iff.mp (some.inj hcount)
    have hbottom : bottom ≠ m := by
      rintro rfl
      have := h.window.single s (mem_stripped.mp hs).1 found hdown.found_mem bottom (h.between hs).1
        hdown.found_kind hm hdown.found_height
      exact (mem_stripped.mp hs).2 (this ▸ hdown.found_visible)
    have hle := hdown.bottom_le
    have hin := (hdown.mem s).mpr ⟨hs, m, hm, by omega, le_rfl⟩
    rw [hnil] at hin
    exact absurd hin not_mem_nil

section Clear

variable (hclear : NothingHangsOff candidates lo visible)
include hclear

theorem ReducedWindow.hidden_total :
    (treeEdges candidates visible).2 = (stripped candidates visible).length := by
  have htotal : (treeEdges candidates visible).2 = ((visibleNodes candidates visible).map fun t =>
      (stripped candidates visible).countP (covers candidates visible t)).sum := by
    rw [treeEdges, materializeEdges]
    dsimp only
    rw [List.map_map]
    refine congrArg List.sum (map_congr_left fun t ht => ?_)
    exact h.hidden_eq_countP hclear (mem_visibleNodes.mp ht).1
  rw [htotal]
  refine sum_countP_eq_length _ _ _ fun s hs => ?_
  obtain ⟨t, ht, hvisible, hcovers, honly⟩ := h.exists_covers hs
  have hnodup : (visibleNodes candidates visible).Nodup := by
    rw [(perm_visibleNodes candidates visible).nodup_iff]
    exact (Nodup.of_map _ h.window.distinct).filter _
  rw [countP_eq_length_filter, filter_eq_singleton hnodup (mem_visibleNodes.mpr ⟨ht, hvisible⟩) hcovers
    fun t' ht' hcovers' => honly t' (mem_visibleNodes.mp ht').1 (mem_visibleNodes.mp ht').2 hcovers']
  rfl

theorem ReducedWindow.passed_once (hs : s ∈ stripped candidates visible) :
    ∃! e, e ∈ (treeEdges candidates visible).1 ∧ e.edgeKind = .hidden ∧ OnPath candidates visible e s := by
  obtain ⟨t, ht, hvisible, hcovers, honly⟩ := h.exists_covers hs
  obtain ⟨s', hs', hprev, hkind, m', hm', hheight⟩ := h.hangsOff_of_covers ht hs hcovers
  obtain ⟨m, path, found, bottom, hm, hdown, hedge⟩ :=
    h.exists_hidden_edge ht hvisible (by rw [hkind]; decide) hs' hprev
  obtain rfl := some.inj (hm'.symm.trans hm)
  refine ⟨_, ⟨hedge, rfl, t, ht, rfl, path, hprev ▸ hdown.leads,
    (h.mem_path_iff hdown hkind hheight hs).mpr hcovers⟩, ?_⟩
  rintro e ⟨he, hekind, u, hu, huhash, path', hpath', hin⟩
  obtain ⟨v, hv, hvvisible, hvinvalid, w, hw, hvprev, k, vpath, vfound, vbottom, hk, hvdown, rfl⟩ :=
    h.hidden_edge he hekind
  obtain rfl := inj_on_of_nodup_map h.window.distinct hu hv huhash
  obtain ⟨hvkind, hvlowest⟩ := h.canonical_of_hangsOff hclear hu hvinvalid ⟨w, hw, hvprev⟩
  have hvheight := h.height_of_prev hu hvkind hvlowest hw hvprev hk
  obtain ⟨rfl, -⟩ := (hvprev ▸ hpath').unique h.window.distinct hvdown.leads
  obtain rfl := honly u hu hvvisible ((h.mem_path_iff hvdown hvkind hvheight hs).mp hin)
  have hww : s' = w := inj_on_of_nodup_map h.window.distinct (mem_stripped.mp hs').1
    (mem_stripped.mp hw).1 (hprev.symm.trans hvprev)
  subst hww
  obtain ⟨hpaths, hfound⟩ := hdown.leads.unique h.window.distinct hvdown.leads
  rw [hpaths, hfound]

theorem ReducedWindow.joins_canonical {e : TreeEdge Hash} (he : e ∈ (treeEdges candidates visible).1)
    (hkind : e.edgeKind = .hidden) : ∃ low ∈ candidates, ∃ high ∈ candidates,
      low.hash = e.fromHash ∧ low.hash ∈ visible ∧ low.kind = .canonical ∧
      high.hash = e.toHash ∧ high.hash ∈ visible ∧ high.kind = .canonical ∧
      e.hiddenCount = some ((stripped candidates visible).countP (strictlyBetween low high)) := by
  obtain ⟨t, ht, hvisible, hinvalid, s, hs, hprev, m, path, found, bottom, hm, hdown, rfl⟩ :=
    h.hidden_edge he hkind
  obtain ⟨htkind, hlowest⟩ := h.canonical_of_hangsOff hclear ht hinvalid ⟨s, hs, hprev⟩
  have hheight := h.height_of_prev ht htkind hlowest hs hprev hm
  refine ⟨found, hdown.found_mem, t, ht, rfl, hdown.found_visible, hdown.found_kind, rfl, hvisible,
    htkind, ?_⟩
  rw [h.countP_between hdown hheight]

end Clear

/-- **The hidden counts are right exactly if nothing else hangs off a stripped block.** -/
theorem ReducedWindow.hiddenAccounts_iff :
    HiddenAccounts candidates visible (treeEdges candidates visible).1 (treeEdges candidates visible).2 ↔
      NothingHangsOff candidates lo visible :=
  ⟨h.nothingHangsOff, fun hclear =>
    ⟨h.hidden_total hclear, fun _ hs => h.passed_once hclear hs,
      fun _ he hkind => h.joins_canonical hclear he hkind⟩⟩

end Accounts

/-- **Hidden counts of an exact window.**  They account for every stripped block once exactly if no
unknown node's predecessor, and not that of the lowest canonical block, was stripped. -/
theorem hidden_accounts_iff {query : TreeQuery}
    {projections direct candidates : List (ParentProjection Hash)}
    {lo hi : ℤ} {unheighted : ℕ} {reduction : Reduction Hash}
    (hwindow : ExactWindow projections direct lo hi)
    (hselect : selectTreeCandidates query projections direct (windowProtection query projections) =
      .ok (candidates, unheighted))
    (hreduce : reduce (candidates.map reductionNode) = .ok reduction) :
    HiddenAccounts candidates reduction.visibleHashes (treeEdges candidates reduction.visibleHashes).1
        (treeEdges candidates reduction.visibleHashes).2 ↔
      NothingHangsOff candidates lo reduction.visibleHashes := by
  have hcandidates := windowCandidates hwindow hselect
  have hdistinct : ((candidates.map reductionNode).map (·.hash)).Nodup := by
    rw [List.map_map]
    exact hcandidates.distinct
  exact ReducedWindow.hiddenAccounts_iff ⟨hcandidates, (reduce_spec hdistinct).1 _ hreduce⟩

namespace Sample

/-- The canonical block at height `i`, on top of the one below. -/
def chainBlock (i : ℕ) : ParentProjection ℕ :=
  ⟨i + 1, i, some i, .canonical, 0, 0, false, false, none⟩

/-- An unknown parent without a height. -/
def follower (prevHash : ℕ) : ParentProjection ℕ :=
  ⟨1000, prevHash, none, .unknown, 0, 1, false, false, none⟩

/-- 501 canonical blocks, and an unknown parent. -/
def chainWith (prevHash : ℕ) : List (ParentProjection ℕ) :=
  (List.range 501).map chainBlock ++ [follower prevHash]

/-- Unknown parents of the first day, with one source at least. -/
def unknownQuery : TreeQuery := ⟨[.unknown], false, true, some 0, some 0, 1⟩

def chainCandidates (prevHash : ℕ) : List (ParentProjection ℕ) :=
  (List.range 501).map chainBlock ++ [selected (follower prevHash)]

theorem mem_chainWith {prevHash : ℕ} {p : ParentProjection ℕ} :
    p ∈ chainWith prevHash ↔ (∃ i < 501, p = chainBlock i) ∨ p = follower prevHash := by
  simp [chainWith, eq_comm]

theorem chainWith_distinct (prevHash : ℕ) : ((chainWith prevHash).map (·.hash)).Nodup := by
  rw [chainWith, List.map_append, List.map_map, List.nodup_append]
  refine ⟨List.nodup_range.map fun a b hab => Nat.add_right_cancel hab, List.nodup_singleton _, ?_⟩
  intro a ha b hb
  obtain ⟨i, hi, rfl⟩ := List.mem_map.mp ha
  obtain rfl := mem_singleton.mp hb
  have := mem_range.mp hi
  simp only [Function.comp, chainBlock, follower]
  omega

theorem chainWith_window (prevHash : ℕ) : ExactWindow (chainWith prevHash) [] 0 500 := by
  have hcanonical : ∀ p ∈ chainWith prevHash, p.kind = .canonical → ∃ i < 501, p = chainBlock i := by
    intro p hp hkind
    rcases mem_chainWith.mp hp with h | rfl
    · exact h
    · cases hkind
  refine ⟨by rw [append_nil]; exact chainWith_distinct prevHash, fun p hp => absurd hp not_mem_nil,
    fun p hp n hn => ?_, fun n hlo hhi => ?_, fun p hp q hq n hpk hqk hpn hqn => ?_,
    fun p hp q hq n hpk hqk hpn hqn => ?_⟩
  · rcases mem_chainWith.mp hp with ⟨i, hi, rfl⟩ | rfl
    · cases hn
      omega
    · cases hn
  · lift n to ℕ using hlo
    exact ⟨chainBlock n, mem_chainWith.mpr (.inl ⟨n, by omega, rfl⟩), rfl, rfl⟩
  · obtain ⟨i, -, rfl⟩ := hcanonical p hp hpk
    obtain ⟨j, -, rfl⟩ := hcanonical q hq hqk
    cases hpn
    have : (j : ℤ) = i := some.inj hqn
    rw [Int.ofNat_inj.mp this]
  · obtain ⟨i, -, rfl⟩ := hcanonical p hp hpk
    obtain ⟨j, -, rfl⟩ := hcanonical q hq hqk
    cases hqn
    have : (i : ℤ) = j + 1 := some.inj hpn
    show i = j + 1
    omega

theorem chainWith_stale (prevHash : ℕ) : (chainWith prevHash).filter isHeightedStale = [] := by
  refine filter_eq_nil_iff.mpr fun p hp => ?_
  rcases mem_chainWith.mp hp with ⟨i, -, rfl⟩ | rfl <;> exact Bool.false_ne_true

theorem chainWith_select (prevHash : ℕ) :
    selectTreeCandidates unknownQuery (chainWith prevHash) []
      (windowProtection unknownQuery (chainWith prevHash)) =
      .ok (chainCandidates prevHash, 1) := by
  have hprotection : windowProtection unknownQuery (chainWith prevHash) = ⟨[], [], [], []⟩ := by
    rw [windowProtection, staleBranchMembersToInclude, chainWith_stale]
    simp [staleAttachParentHashes, staleMemberCompetitorHashes]
  have hselect : ∀ p ∈ chainWith prevHash, selectBlock unknownQuery ⟨[], [], [], []⟩ p =
      .ok (if p.kind = .unknown then some (selected p) else some p) := by
    intro p hp
    rcases mem_chainWith.mp hp with ⟨i, -, rfl⟩ | rfl <;> rfl
  have hblocks : (chainWith prevHash).mapM (selectBlock unknownQuery ⟨[], [], [], []⟩) =
      .ok ((chainCandidates prevHash).map some) := by
    rw [mapM_eq_ok_map hselect, chainWith, chainCandidates, List.map_append, List.map_append, List.map_map,
      List.map_map]
    rfl
  have hdirect : selectDirectEvents unknownQuery ([] : List (ParentProjection ℕ)) = .ok [] := rfl
  have hsome : ((chainCandidates prevHash).map some).reduceOption ++ ([] : List (Option _)).reduceOption =
      chainCandidates prevHash := by
    simp [List.reduceOption]
  have hcount : (chainCandidates prevHash).countP (·.height.isNone) = 1 := by
    rw [chainCandidates, countP_append, countP_map]
    have : (List.range 501).countP ((fun p : ParentProjection ℕ => p.height.isNone) ∘ chainBlock) = 0 :=
      countP_eq_zero.mpr fun i _ => Bool.false_ne_true
    rw [this]
    rfl
  rw [selectTreeCandidates, hprotection, hblocks, hdirect]
  show Except.ok (_, _) = _
  rw [hsome, hcount]

/-- The nodes of the chain, as the reduction orders them. -/
def chainNodes : List (ReductionNode ℕ) := (List.range 501).map fun i => reductionNode (chainBlock i)

theorem chainCandidates_nodes (prevHash : ℕ) : (chainCandidates prevHash).map reductionNode =
    chainNodes ++ [reductionNode (selected (follower prevHash))] := by
  rw [chainCandidates, List.map_append, List.map_map]
  rfl

theorem heighted_chain (prevHash : ℕ) :
    heighted ((chainCandidates prevHash).map reductionNode) = chainNodes := by
  have hall : chainNodes.filter (·.height.isSome) = chainNodes := by
    refine filter_eq_self.mpr fun n hn => ?_
    obtain ⟨i, -, rfl⟩ := List.mem_map.mp hn
    rfl
  rw [heighted, chainCandidates_nodes, filter_append, hall]
  refine (congrArg _ (append_nil chainNodes)).trans (orderByKey_eq_self ?_)
  refine pairwise_map.mpr (pairwise_lt_range.imp fun hlt => .inl ?_)
  exact Int.ofNat_lt.mpr hlt

theorem inner_chain : inner removableContext chainNodes = chainNodes.tail.dropLast := by
  refine filter_eq_self.mpr fun n hn => ?_
  obtain ⟨i, -, rfl⟩ := List.mem_map.mp (List.mem_of_mem_tail (List.dropLast_subset _ hn))
  rfl

theorem chain_distinct (prevHash : ℕ) :
    (((chainCandidates prevHash).map reductionNode).map (·.hash)).Nodup := by
  rw [List.map_map]
  exact (windowCandidates (chainWith_window prevHash) (chainWith_select prevHash)).distinct

theorem allSpans_chain (prevHash : ℕ) :
    allSpans ((chainCandidates prevHash).map reductionNode) = [chainNodes.tail.dropLast] := by
  have hchain : chainNodes.IsChain fun a b => linked a b = true := by
    refine (isChain_map _).mpr ((isChain_range_succ _ 500).mpr fun i _ => ?_)
    simp [linked, reductionNode, chainBlock]
  have hne : inner removableContext chainNodes ≠ [] := by
    rw [inner_chain]
    exact ne_nil_of_length_pos (by simp [chainNodes])
  rw [allSpans, heighted_chain, inners_of_isChain hchain hne, inner_chain]

/-- **The chain is cut to its two ends.** -/
theorem reduce_chain (prevHash : ℕ) : ∃ r, reduce ((chainCandidates prevHash).map reductionNode) = .ok r ∧
    ∀ i, 0 < i → i < 500 → (chainBlock i).hash ∉ r.visibleHashes := by
  have hdistinct := chain_distinct prevHash
  have hlength : chainNodes.tail.dropLast.length = 499 := by simp [chainNodes]
  cases hreduce : reduce ((chainCandidates prevHash).map reductionNode) with
  | error e =>
    have hprotected : chainNodes.countP (·.isProtected) = 0 := by
      refine countP_eq_zero.mpr fun n hn => ?_
      obtain ⟨i, -, rfl⟩ := List.mem_map.mp hn
      exact Bool.false_ne_true
    rcases (reduce_spec hdistinct).2.mp ⟨e, hreduce⟩ with h | h
    · rw [chainCandidates_nodes, countP_append, hprotected] at h
      have h : nodeLimit < 1 := h
      exact absurd h (by decide)
    · rw [← length_allSpans hdistinct, allSpans_chain, flatten_singleton, hlength,
        chainCandidates_nodes, length_append, chainNodes, length_map, length_range] at h
      rw [length_singleton] at h
      exact absurd h (by decide)
  | ok r =>
    refine ⟨r, rfl, fun i hpos hlt hin => ?_⟩
    obtain ⟨hvisits, hfew⟩ := visits_of_reduce hreduce
    obtain ⟨taken, hvisible, hperm⟩ := hvisits.taken hdistinct
    have htotal := Visits.length hdistinct hvisible hperm
    rw [allSpans_chain] at hperm
    -- something was hidden, and there is one span to hide
    have htaken : chainNodes.tail.dropLast ∈ taken := by
      cases htaken : taken with
      | nil =>
        rw [htaken, flatten_nil, length_nil, chainCandidates_nodes, length_append, chainNodes,
          length_map, length_range] at htotal
        have hfew : r.visibleHashes.length ≤ 500 := hfew
        exact absurd htotal (by simp; omega)
      | cons s rest =>
        have hs := hperm.subset (mem_append_left _ (htaken ▸ mem_cons_self))
        rw [mem_singleton.mp hs] at htaken ⊢
        exact mem_cons_self
    rw [hvisible, mem_filter, decide_eq_true_eq] at hin
    refine hin.2 (mem_map.mpr ⟨reductionNode (chainBlock i), mem_flatten_of_mem htaken ?_, rfl⟩)
    have hinside : i ∈ (List.range 501).tail.dropLast := by
      rw [range_succ_eq_map, tail_cons, range_succ, map_append, map_singleton,
        dropLast_concat]
      exact List.mem_map.mpr ⟨i - 1, List.mem_range.mpr (by omega), Nat.succ_pred_eq_of_pos hpos⟩
    rw [chainNodes, ← map_tail, ← map_dropLast]
    exact List.mem_map.mpr ⟨i, hinside, rfl⟩

end Sample

/-- With an unknown parent on top of a stripped block, the counts are wrong: 501 canonical blocks, the
parent on top of the one at height 3. -/
theorem follower_counted_twice : ∃ candidates reduction,
    ExactWindow (Sample.chainWith 4) [] 0 500 ∧
    selectTreeCandidates Sample.unknownQuery (Sample.chainWith 4) []
      (windowProtection Sample.unknownQuery (Sample.chainWith 4)) = .ok (candidates, 1) ∧
    reduce (candidates.map reductionNode) = .ok reduction ∧
    ¬HiddenAccounts candidates reduction.visibleHashes (treeEdges candidates reduction.visibleHashes).1
      (treeEdges candidates reduction.visibleHashes).2 := by
  obtain ⟨r, hr, hhidden⟩ := Sample.reduce_chain 4
  have hcandidates := windowCandidates (Sample.chainWith_window 4) (Sample.chainWith_select 4)
  have hreduced : ReducedWindow (Sample.chainCandidates 4) 0 500 r.visibleHashes :=
    ⟨hcandidates, (reduce_spec (Sample.chain_distinct 4)).1 _ hr⟩
  refine ⟨_, r, Sample.chainWith_window 4, Sample.chainWith_select 4, hr, fun haccounts => ?_⟩
  have hblock : Sample.chainBlock 3 ∈ Sample.chainCandidates 4 :=
    mem_append_left _ (mem_map_of_mem (mem_range.mpr (by decide)))
  refine hreduced.nothingHangsOff haccounts (selected (Sample.follower 4))
    (mem_append_right _ mem_cons_self) (.inl rfl) ⟨Sample.chainBlock 3, mem_stripped.mpr ⟨hblock, ?_⟩, rfl⟩
  exact hhidden 3 (by decide) (by decide)

/-- With the unknown parent on top of the highest block, they are right. -/
theorem hidden_accounts_above_tip : ∃ (candidates : List (ParentProjection ℕ)) (reduction : Reduction ℕ),
    reduce (candidates.map reductionNode) = .ok reduction ∧
    (stripped candidates reduction.visibleHashes) ≠ [] ∧
    HiddenAccounts candidates reduction.visibleHashes (treeEdges candidates reduction.visibleHashes).1
      (treeEdges candidates reduction.visibleHashes).2 := by
  obtain ⟨r, hr, hhidden⟩ := Sample.reduce_chain 501
  have hwindow := Sample.chainWith_window 501
  have hselect := Sample.chainWith_select 501
  have hreduced : ReducedWindow (Sample.chainCandidates 501) 0 500 r.visibleHashes :=
    ⟨windowCandidates hwindow hselect, (reduce_spec (Sample.chain_distinct 501)).1 _ hr⟩
  have hmem : ∀ c ∈ Sample.chainCandidates 501,
      (∃ i < 501, c = Sample.chainBlock i) ∨ c = selected (Sample.follower 501) := by
    intro c hc
    simpa [Sample.chainCandidates, eq_comm] using hc
  refine ⟨_, r, hr, ?_, (hidden_accounts_iff hwindow hselect hr).mpr ?_⟩
  · refine ne_nil_of_mem (a := Sample.chainBlock 3)
      (mem_stripped.mpr ⟨?_, hhidden 3 (by decide) (by decide)⟩)
    exact mem_append_left _ (mem_map_of_mem (mem_range.mpr (by decide)))
  · rintro t ht hother ⟨s, hs, hprev⟩
    obtain ⟨hskind, -, n, hn, -, hlt⟩ := hreduced.between hs
    rcases hmem s (mem_stripped.mp hs).1 with ⟨j, -, rfl⟩ | rfl
    · cases hn
      rcases hmem t ht with ⟨i, -, rfl⟩ | rfl
      · rcases hother with hkind | ⟨-, hlowest⟩
        · cases hkind
        · have hzero : (i : ℤ) = 0 := some.inj hlowest
          have hprev : i = j + 1 := hprev
          omega
      · have hprev : 501 = j + 1 := hprev
        omega
    · cases hskind

end MergeMiningMonitor.Tree
