import MergeMiningMonitor.Support.Ordered
import MergeMiningMonitor.Support.Segments
import MergeMiningMonitor.ReadModel.Rows

/-!
# Tree — Reduction

The cut of a tree to at most 500 visible nodes (`tree/reduction.rs`).  The visible nodes with a height
are ordered by height and hash and cut into runs of canonical blocks, each the predecessor of the next.
Of the run that has most of them, the blocks strictly inside it that nothing protects are hidden; and
again, until few enough nodes are visible.

The scan over the ordered nodes finds the widest span of `spans` (`largestRemovableRun_eq_some`).
Hiding it leaves the other spans as they were (`spans_hide`), so the loop takes the spans of the whole
list one after another (`Visits.taken`).  `reduce_spec` says what is visible at the end, and when the
loop fails.

Spans of one width are taken in the order of the first hash that they hide.  The documented order is
that of their left boundaries; the two agree as long as the span with the lowest left boundary also
hides the smallest first hash (`collapses_documented_iff`).
-/

namespace MergeMiningMonitor.Tree

open Relational Ordered Segments List Option

variable {Hash : Type} [LinearOrder Hash]

def nodeLimit : ℕ := 500

structure RangeTooLarge where
  parameter : String
  limit : ℕ
  received : ℕ
  message : String
deriving DecidableEq, Repr

def nodeCountError (received : ℕ) : RangeTooLarge :=
  ⟨"node_count", nodeLimit, received,
    "requested tree window cannot be reduced to the first-wave node limit"⟩

structure ReductionNode (Hash : Type) where
  hash : Hash
  prevHash : Hash
  height : Option ℤ
  kind : ParentKind
  isProtected : Bool
  evidence : Bool
deriving DecidableEq

structure Reduction (Hash : Type) where
  visibleHashes : List Hash
deriving DecidableEq

def removableContext (node : ReductionNode Hash) : Bool :=
  node.kind = .canonical && !node.isProtected && !node.evidence

/-- Whether the hashes of a run are taken over the best ones so far. -/
def preferred (removable best : List Hash) : Bool :=
  best.length < removable.length || removable.length = best.length &&
    match removable, best with
    | first :: _, bestFirst :: _ => first < bestFirst
    | _, _ => false

def considerRun (run : List (ReductionNode Hash)) (best : List Hash) : List Hash :=
  if run.length ≤ 2 then best
  else
    let removable := (run.tail.dropLast.filter removableContext).map (·.hash)
    if removable = [] then best
    else if preferred removable best then removable else best

/-- One node of the scan of `largest_removable_run`, with the best hashes and the current run. -/
def scanNode (s : List Hash × List (ReductionNode Hash)) (node : ReductionNode Hash) :
    List Hash × List (ReductionNode Hash) :=
  if node.kind ≠ .canonical then (considerRun s.2 s.1, [])
  else if s.2.getLast?.any fun previous => node.prevHash ≠ previous.hash then
    (considerRun s.2 s.1, [node])
  else (s.1, s.2 ++ [node])

/-- By height, then by hash; every node that is ordered has a height. -/
def nodeKey (node : ReductionNode Hash) : ℤ × Hash := (node.height.getD 0, node.hash)

variable (nodes : List (ReductionNode Hash)) (visible : List Hash)

/-- The visible nodes with a height, in order. -/
def sortedNodes : List (ReductionNode Hash) :=
  orderByKey nodeKey ((nodes.filter (·.hash ∈ visible)).filter (·.height.isSome))

def largestRemovableRun : Option (List Hash) :=
  let s := (sortedNodes nodes visible).foldl scanNode ([], [])
  let best := considerRun s.2 s.1
  if best = [] then none else some best

/-! ### Spans -/

/-- `b` is a canonical block on top of the canonical block `a`. -/
def linked (a b : ReductionNode Hash) : Bool :=
  a.kind = .canonical && b.kind = .canonical && b.prevHash = a.hash

/-- What each run of the visible nodes would hide. -/
def spans : List (List (ReductionNode Hash)) :=
  inners linked removableContext (sortedNodes nodes visible)

/-- The best hashes after one more span. -/
def considerSpan (best : List Hash) (span : List (ReductionNode Hash)) : List Hash :=
  if preferred (span.map (·.hash)) best then span.map (·.hash) else best

theorem considerRun_eq (run : List (ReductionNode Hash)) (best : List Hash) :
    considerRun run best =
      if inner removableContext run = [] then best else considerSpan best (inner removableContext run) := by
  rw [considerRun, considerSpan]
  split
  · next h => rw [inner_eq_nil_of_length h, if_pos rfl]
  · simp only [map_eq_nil_iff]
    rfl

theorem linked_eq_false {a b : ReductionNode Hash} (h : ¬(a.kind = .canonical ∧ b.kind = .canonical ∧
    b.prevHash = a.hash)) : linked a b = false := by
  rw [Bool.eq_false_iff]
  intro hlinked
  simp only [linked, Bool.and_eq_true, decide_eq_true_eq, and_assoc] at hlinked
  exact h hlinked

/-- A run that ends is considered. -/
theorem foldl_splitBy {current : List (ReductionNode Hash)}
    (hchain : current.IsChain fun a b => linked a b = true) (best : List Hash) :
    (current.splitBy linked).foldl (fun best run => considerRun run best) best =
      considerRun current best := by
  by_cases hnil : current = []
  · subst hnil
    rfl
  · rw [splitBy_of_isChain hnil hchain]
    rfl

/-- **The scan considers the maximal runs one after another.** -/
theorem scan_eq (xs current : List (ReductionNode Hash)) (best : List Hash)
    (hcanonical : ∀ n ∈ current, n.kind = .canonical)
    (hchain : current.IsChain fun a b => linked a b = true) :
    considerRun (xs.foldl scanNode (best, current)).2 (xs.foldl scanNode (best, current)).1 =
      ((current ++ xs).splitBy linked).foldl (fun best run => considerRun run best) best := by
  induction xs generalizing current best with
  | nil => rw [foldl_nil, append_nil, foldl_splitBy hchain]
  | cons x xs ih =>
    have hflush := foldl_splitBy hchain best
    rw [foldl_cons, scanNode]
    split
    · next hkind =>
        have hbefore : ∀ a ∈ current.getLast?, ∀ b ∈ (x :: xs).head?, linked a b = false := by
          rintro a - b hb
          cases hb
          exact linked_eq_false fun h => hkind h.2.1
        have hafter : ∀ a ∈ [x].getLast?, ∀ b ∈ xs.head?, linked a b = false := by
          rintro a ha b -
          cases ha
          exact linked_eq_false fun h => hkind h.1
        rw [ih [] _ (fun _ h => absurd h not_mem_nil) isChain_nil, nil_append,
          splitBy_append hbefore, foldl_append, hflush, ← singleton_append,
          splitBy_append hafter]
        rfl
    · next hkind =>
        have hkind : x.kind = .canonical := not_not.mp hkind
        split
        · next hunlinked =>
            have hbefore : ∀ a ∈ current.getLast?, ∀ b ∈ (x :: xs).head?, linked a b = false := by
              intro a ha b hb
              cases hb
              rw [mem_def.mp ha, any_some, decide_eq_true_eq] at hunlinked
              exact linked_eq_false fun h => hunlinked h.2.2
            rw [ih [x] _ (fun n hn => mem_singleton.mp hn ▸ hkind) (isChain_singleton x),
              splitBy_append hbefore, foldl_append, hflush]
            rfl
        · next hlinked =>
            rw [ih (current ++ [x]), append_assoc, singleton_append]
            · intro n hn
              rcases mem_append.mp hn with hn | hn
              · exact hcanonical n hn
              · exact mem_singleton.mp hn ▸ hkind
            · refine isChain_append.mpr ⟨hchain, isChain_singleton x, fun a ha b hb => ?_⟩
              cases hb
              rw [mem_def.mp ha, any_some, decide_eq_true_eq, not_not] at hlinked
              simp [linked, hkind, hlinked, hcanonical a (mem_of_getLast? ha)]

theorem foldl_considerRun (runs : List (List (ReductionNode Hash))) (best : List Hash) :
    runs.foldl (fun best run => considerRun run best) best =
      ((runs.map (inner removableContext)).filter (· ≠ [])).foldl considerSpan best := by
  induction runs generalizing best with
  | nil => rfl
  | cons run runs ih =>
    rw [foldl_cons, ih, considerRun_eq, map_cons, filter_cons]
    by_cases h : inner removableContext run = [] <;> simp [h]

theorem largestRemovableRun_eq :
    largestRemovableRun nodes visible =
      if (spans nodes visible).foldl considerSpan [] = [] then none
      else some ((spans nodes visible).foldl considerSpan []) := by
  have hscan := scan_eq (sortedNodes nodes visible) [] []
    (fun _ h => absurd h not_mem_nil) isChain_nil
  rw [nil_append, foldl_considerRun] at hscan
  rw [largestRemovableRun, hscan]
  rfl

/-! ### The widest span -/

/-- `a` hides more than `b`, or as much and no greater first hash. -/
def AtLeast (a b : List Hash) : Prop :=
  b.length < a.length ∨ b.length = a.length ∧ ∀ x ∈ a.head?, ∀ y ∈ b.head?, x ≤ y

theorem AtLeast.refl (a : List Hash) : AtLeast a a := by
  refine .inr ⟨rfl, fun x hx y hy => ?_⟩
  rw [mem_unique hx hy]

theorem AtLeast.trans {a b c : List Hash} (hab : AtLeast a b) (hbc : AtLeast b c) : AtLeast a c := by
  rcases hab with hab | ⟨hab, hab'⟩ <;> rcases hbc with hbc | ⟨hbc, hbc'⟩
  · exact .inl (hbc.trans hab)
  · exact .inl (hbc ▸ hab)
  · exact .inl (hab ▸ hbc)
  · refine .inr ⟨hbc.trans hab, fun x hx y hy => ?_⟩
    cases b with
    | nil =>
      rw [eq_nil_of_length_eq_zero hbc] at hy
      exact absurd hy (not_mem_none _)
    | cons z b => exact (hab' x hx z rfl).trans (hbc' z rfl y hy)

theorem preferred_atLeast {a b : List Hash} (h : preferred a b = true) : AtLeast a b := by
  simp only [preferred, Bool.or_eq_true, Bool.and_eq_true, decide_eq_true_eq] at h
  rcases h with h | ⟨hlength, hfirst⟩
  · exact .inl h
  · refine .inr ⟨hlength.symm, fun x hx y hy => ?_⟩
    cases a with
    | nil => exact absurd hx (not_mem_none _)
    | cons a as =>
      cases b with
      | nil => exact absurd hy (not_mem_none _)
      | cons b bs =>
        cases hx
        cases hy
        exact (of_decide_eq_true hfirst).le

theorem not_preferred_atLeast {a b : List Hash} (h : ¬preferred a b = true) : AtLeast b a := by
  simp only [preferred, Bool.or_eq_true, Bool.and_eq_true, decide_eq_true_eq, not_or, not_and] at h
  obtain ⟨hle, hfirst⟩ := h
  rcases Nat.lt_or_eq_of_le (not_lt.mp hle) with hlt | heq
  · exact .inl hlt
  · refine .inr ⟨heq, fun y hy x hx => ?_⟩
    cases a with
    | nil => exact absurd hx (not_mem_none _)
    | cons a as =>
      cases b with
      | nil => exact absurd hy (not_mem_none _)
      | cons b bs =>
        obtain rfl := some.inj hx
        obtain rfl := some.inj hy
        exact not_lt.mp fun hlt => hfirst heq (decide_eq_true hlt)

/-- The best of some hashes and a list of spans is one of them, and at least as good as each. -/
theorem foldl_considerSpan (ss : List (List (ReductionNode Hash))) (best : List Hash) :
    (ss.foldl considerSpan best = best ∨ ∃ s ∈ ss, s.map (·.hash) = ss.foldl considerSpan best) ∧
      AtLeast (ss.foldl considerSpan best) best ∧
      ∀ s ∈ ss, AtLeast (ss.foldl considerSpan best) (s.map (·.hash)) := by
  induction ss generalizing best with
  | nil => exact ⟨.inl rfl, .refl best, fun _ h => absurd h not_mem_nil⟩
  | cons s ss ih =>
    obtain ⟨hfrom, hbest, hall⟩ := ih (considerSpan best s)
    rw [foldl_cons]
    have hnext : (considerSpan best s = best ∨ considerSpan best s = s.map (·.hash)) ∧
        AtLeast (considerSpan best s) best ∧ AtLeast (considerSpan best s) (s.map (·.hash)) := by
      rw [considerSpan]
      split
      · next h => exact ⟨.inr rfl, preferred_atLeast h, .refl _⟩
      · next h => exact ⟨.inl rfl, .refl _, not_preferred_atLeast h⟩
    refine ⟨?_, hbest.trans hnext.2.1, fun s' hs' => ?_⟩
    · rcases hfrom with h | ⟨s', hs', h⟩
      · rcases hnext.1 with h' | h'
        · exact .inl (h.trans h')
        · exact .inr ⟨s, mem_cons_self, h'.symm.trans h.symm⟩
      · exact .inr ⟨s', mem_cons_of_mem _ hs', h⟩
    · rcases mem_cons.mp hs' with rfl | hs'
      · exact hbest.trans hnext.2.2
      · exact hall s' hs'

variable {nodes visible} {s xs run : List (ReductionNode Hash)} {n : ReductionNode Hash}

theorem ne_nil_of_mem_spans (hs : s ∈ spans nodes visible) : s ≠ [] :=
  (mem_inners.mp hs).1

/-- **The widest span is found.**  Of spans of one width, it is the one with the smallest first hash. -/
theorem largestRemovableRun_eq_some {visible run : List Hash}
    (h : largestRemovableRun nodes visible = some run) :
    (∃ s ∈ spans nodes visible, s.map (·.hash) = run) ∧
      ∀ s ∈ spans nodes visible, AtLeast run (s.map (·.hash)) := by
  rw [largestRemovableRun_eq] at h
  split at h
  · cases h
  · next hne =>
      obtain rfl := some.inj h
      obtain ⟨hfrom, -, hall⟩ := foldl_considerSpan (spans nodes visible) []
      exact ⟨hfrom.resolve_left hne, hall⟩

theorem largestRemovableRun_eq_none :
    largestRemovableRun nodes visible = none ↔ spans nodes visible = [] := by
  rw [largestRemovableRun_eq]
  constructor
  · intro h
    split at h
    · next hnil =>
        rw [eq_nil_iff_forall_not_mem]
        intro s hs
        have hall := (foldl_considerSpan (spans nodes visible) []).2.2 s hs
        rw [hnil] at hall
        have hlength : 0 < (s.map (·.hash)).length := by
          rw [length_map]
          exact length_pos_of_ne_nil (ne_nil_of_mem_spans hs)
        rcases hall with h | ⟨h, -⟩
        · exact absurd h (Nat.not_lt_zero _)
        · rw [h] at hlength
          exact absurd hlength (Nat.lt_irrefl _)
    · cases h
  · intro h
    rw [h]
    rfl

theorem mem_sortedNodes :
    n ∈ sortedNodes nodes visible ↔ n ∈ nodes ∧ n.hash ∈ visible ∧ n.height.isSome := by
  simp only [sortedNodes, mem_orderByKey, mem_filter, decide_eq_true_eq, and_assoc]

theorem mem_of_mem_spans (hs : s ∈ spans nodes visible) (hn : n ∈ s) :
    n ∈ nodes ∧ n.hash ∈ visible ∧ n.height.isSome :=
  mem_sortedNodes.mp ((flatten_inners_sublist _).subset (mem_flatten_of_mem hs hn))

/-- The visible hashes without those of a run. -/
def hide (visible run : List Hash) : List Hash := visible.filter (· ∉ run)

theorem largestRemovableRun_visible {visible run : List Hash}
    (h : largestRemovableRun nodes visible = some run) :
    (hide visible run).length < visible.length := by
  obtain ⟨⟨s, hs, rfl⟩, -⟩ := largestRemovableRun_eq_some h
  obtain ⟨n, hn⟩ := exists_mem_of_ne_nil _ (ne_nil_of_mem_spans hs)
  refine lt_of_le_of_ne (length_filter_le ..) fun heq => ?_
  have hall := filter_eq_self.mp (filter_sublist.eq_of_length heq) n.hash
    (mem_of_mem_spans hs hn).2.1
  exact of_decide_eq_true hall (mem_map_of_mem hn)

/-- The loop of `reduce`. -/
def reduceLoop (nodes : List (ReductionNode Hash)) (visible : List Hash) :
    Except RangeTooLarge (Reduction Hash) :=
  if nodeLimit < visible.length then
    match _h : largestRemovableRun nodes visible with
    | none => .error (nodeCountError visible.length)
    | some run => reduceLoop nodes (hide visible run)
  else .ok ⟨visible⟩
termination_by visible.length
decreasing_by exact largestRemovableRun_visible _h

def reduce (nodes : List (ReductionNode Hash)) : Except RangeTooLarge (Reduction Hash) :=
  let isProtected := nodes.countP (·.isProtected)
  if nodeLimit < isProtected then .error (nodeCountError isProtected)
  else reduceLoop nodes (nodes.map (·.hash)).dedup

/-! ### The loop -/

/-- The visible hashes that the loop of `reduce` comes to. -/
inductive Visits (nodes : List (ReductionNode Hash)) : List Hash → Prop
  | start (h : nodes.countP (·.isProtected) ≤ nodeLimit) : Visits nodes (nodes.map (·.hash)).dedup
  | step {visible run : List Hash} (h : Visits nodes visible) (hlarge : nodeLimit < visible.length)
      (hrun : largestRemovableRun nodes visible = some run) : Visits nodes (hide visible run)

/-- **How the loop ends.** -/
theorem reduceLoop_visits
    (h : Visits nodes visible) : ∃ last, Visits nodes last ∧
      (reduceLoop nodes visible = .ok ⟨last⟩ ∧ last.length ≤ nodeLimit ∨
        reduceLoop nodes visible = .error (nodeCountError last.length) ∧ nodeLimit < last.length ∧
          spans nodes last = []) := by
  fun_induction reduceLoop nodes visible with
  | case1 visible hlarge hnone =>
    exact ⟨visible, h, .inr ⟨rfl, hlarge, largestRemovableRun_eq_none.mp hnone⟩⟩
  | case2 visible hlarge run hrun ih => exact ih (h.step hlarge hrun)
  | case3 visible hsmall => exact ⟨visible, h, .inl ⟨rfl, not_lt.mp hsmall⟩⟩

theorem visits_of_reduce {r : Reduction Hash}
    (h : reduce nodes = .ok r) :
    Visits nodes r.visibleHashes ∧ r.visibleHashes.length ≤ nodeLimit := by
  rw [reduce] at h
  split at h
  · cases h
  · next hprotected =>
      obtain ⟨last, hlast, ⟨hok, hfew⟩ | ⟨herror, -⟩⟩ :=
        reduceLoop_visits (Visits.start (not_lt.mp hprotected))
      · obtain rfl := Except.ok.inj (hok.symm.trans h)
        exact ⟨hlast, hfew⟩
      · rw [herror] at h
        cases h

/-- All nodes with a height, in order. -/
def heighted (nodes : List (ReductionNode Hash)) : List (ReductionNode Hash) :=
  orderByKey nodeKey (nodes.filter (·.height.isSome))

theorem mem_heighted : n ∈ heighted nodes ↔ n ∈ nodes ∧ n.height.isSome := by
  rw [heighted, mem_orderByKey, mem_filter]

/-- What the runs of all nodes would hide. -/
def allSpans (nodes : List (ReductionNode Hash)) : List (List (ReductionNode Hash)) :=
  inners linked removableContext (heighted nodes)

section Distinct

variable (hdistinct : (nodes.map (·.hash)).Nodup)
include hdistinct

omit hdistinct in
theorem mem_of_mem_allSpans {n : ReductionNode Hash} (h : n ∈ (allSpans nodes).flatten) :
    n ∈ nodes ∧ n.height.isSome :=
  mem_heighted.mp ((flatten_inners_sublist _).subset h)

omit [LinearOrder Hash] in
theorem eq_of_hash {a b : ReductionNode Hash} (ha : a ∈ nodes) (hb : b ∈ nodes) (h : a.hash = b.hash) :
    a = b :=
  inj_on_of_nodup_map hdistinct ha hb h

omit [LinearOrder Hash] in
theorem hash_mem_map {part : List (ReductionNode Hash)} (hpart : ∀ n ∈ part, n ∈ nodes)
    {n : ReductionNode Hash} (hn : n ∈ nodes) : n.hash ∈ part.map (·.hash) ↔ n ∈ part := by
  rw [List.mem_map]
  constructor
  · rintro ⟨n', hn', hhash⟩
    exact eq_of_hash hdistinct (hpart n' hn') hn hhash ▸ hn'
  · exact fun h => ⟨n, h, rfl⟩

theorem sortedNodes_eq_filter (visible : List Hash) :
    sortedNodes nodes visible = (heighted nodes).filter (·.hash ∈ visible) := by
  rw [heighted, filter_orderByKey, sortedNodes, filter_comm]
  intro a ha b hb hkey
  exact eq_of_hash hdistinct (mem_filter.mp ha).1 (mem_filter.mp hb).1 (congrArg Prod.snd hkey)

theorem nodup_sortedNodes (visible : List Hash) : (sortedNodes nodes visible).Nodup := by
  rw [sortedNodes, (perm_orderByKey _ _).nodup_iff]
  exact ((Nodup.of_map _ hdistinct).filter _).filter _

theorem sortedNodes_all : sortedNodes nodes (nodes.map (·.hash)).dedup = heighted nodes := by
  rw [sortedNodes_eq_filter hdistinct]
  refine filter_eq_self.mpr fun n hn => ?_
  simpa using ⟨n, (mem_heighted.mp hn).1, rfl⟩

/-- **Hiding a span leaves the other spans.** -/
theorem spans_hide (hs : s ∈ spans nodes visible) :
    spans nodes (hide visible (s.map (·.hash))) = (spans nodes visible).erase s := by
  rw [spans, spans, ← inners_remove (nodup_sortedNodes hdistinct visible) hs]
  congr 1
  rw [sortedNodes_eq_filter hdistinct, sortedNodes_eq_filter hdistinct, List.filter_filter]
  refine List.filter_congr fun n hn => ?_
  have hin := hash_mem_map hdistinct (fun n' hn' => (mem_of_mem_spans hs hn').1) (mem_heighted.mp hn).1
  rw [Bool.eq_iff_iff]
  simp only [hide, List.mem_filter, decide_eq_true_eq, Bool.and_eq_true, hin, and_comm]

/-- **The loop takes spans of the whole list.**  What it hides are the spans taken, and the others are
left as they were. -/
theorem Visits.taken (h : Visits nodes visible) : ∃ taken : List (List (ReductionNode Hash)),
      visible = (nodes.map (·.hash)).filter (· ∉ taken.flatten.map (·.hash)) ∧
      (taken ++ spans nodes visible).Perm (allSpans nodes) := by
  induction h with
  | start _ =>
    refine ⟨[], ?_, ?_⟩
    · rw [hdistinct.dedup]
      exact (filter_eq_self.mpr fun _ _ => by simp).symm
    · rw [spans, sortedNodes_all hdistinct, nil_append, allSpans]
  | @step visible run _ _ hrun ih =>
    obtain ⟨taken, hvisible, hperm⟩ := ih
    obtain ⟨⟨s, hs, rfl⟩, -⟩ := largestRemovableRun_eq_some hrun
    refine ⟨s :: taken, ?_, ?_⟩
    · rw [hide, hvisible, List.filter_filter]
      exact filter_congr fun h _ => by simp
    · rw [spans_hide hdistinct hs]
      refine Perm.trans ?_ hperm
      exact perm_middle.symm.trans ((perm_cons_erase hs).symm.append_left taken)

omit [LinearOrder Hash] in
theorem countP_nodes {p : ReductionNode Hash → Bool} {some : List (ReductionNode Hash)}
    (hsome : some.Nodup) (hmem : ∀ n, n ∈ some ↔ n ∈ nodes ∧ p n = true) :
    nodes.countP p = some.length := by
  rw [countP_eq_length_filter]
  refine Perm.length_eq ((perm_ext_iff_of_nodup ?_ hsome).mpr fun n => ?_)
  · exact (Nodup.of_map _ hdistinct).filter _
  · rw [mem_filter, hmem]

theorem nodup_heighted : (heighted nodes).Nodup := sortedNodes_all hdistinct ▸ nodup_sortedNodes hdistinct _

theorem nodup_allSpans : (allSpans nodes).flatten.Nodup :=
  (flatten_inners_sublist _).nodup (nodup_heighted hdistinct)

/-- Every node is visible or in one of the spans taken, and in one at most. -/
theorem Visits.length {taken : List (List (ReductionNode Hash))}
    (hvisible : visible = (nodes.map (·.hash)).filter (· ∉ taken.flatten.map (·.hash)))
    (hperm : (taken ++ spans nodes visible).Perm (allSpans nodes)) :
    visible.length + taken.flatten.length = nodes.length := by
  have hflat : (taken ++ spans nodes visible).flatten.Perm (allSpans nodes).flatten := hperm.flatten
  rw [flatten_append] at hflat
  have hnodup : taken.flatten.Nodup :=
    (nodup_append.mp (hflat.nodup_iff.mpr (nodup_allSpans hdistinct))).1
  have hnodes : ∀ n ∈ taken.flatten, n ∈ nodes := fun n hn =>
    (mem_of_mem_allSpans (hflat.subset (mem_append_left _ hn))).1
  have htaken : nodes.countP (fun n => n.hash ∈ taken.flatten.map (·.hash)) = taken.flatten.length := by
    refine countP_nodes hdistinct hnodup fun n => ?_
    rw [decide_eq_true_eq]
    exact ⟨fun hn => ⟨hnodes n hn, mem_map_of_mem hn⟩,
      fun ⟨hn, hin⟩ => (hash_mem_map hdistinct hnodes hn).mp hin⟩
  have hkept : visible.length = nodes.countP fun n => ¬n.hash ∈ taken.flatten.map (·.hash) := by
    rw [hvisible, List.filter_map, List.length_map, List.countP_eq_length_filter]
    rfl
  rw [hkept, ← htaken, length_eq_countP_add_countP (fun n => n.hash ∈ taken.flatten.map (·.hash)),
    Nat.add_comm]
  congr 1
  exact countP_congr fun n _ => by simp

end Distinct

/-! ### What is visible at the end -/

/-- The node is strictly inside a maximal run of linked canonical blocks, consecutive in the order. -/
def StrictlyInside (nodes : List (ReductionNode Hash)) (n : ReductionNode Hash) : Prop :=
  ∃ run, MaximalRun linked (heighted nodes) run ∧ n ∈ run.tail.dropLast

instance (nodes : List (ReductionNode Hash)) (n : ReductionNode Hash) :
    Decidable (StrictlyInside nodes n) :=
  decidable_of_iff (∃ run ∈ (heighted nodes).splitBy linked, n ∈ run.tail.dropLast)
    (exists_congr fun _ => and_congr_left fun _ => mem_splitBy)

/-- How many nodes strictly inside the runs are neither protected nor evidence. -/
def removableCount (nodes : List (ReductionNode Hash)) : ℕ :=
  nodes.countP fun n => !n.isProtected && !n.evidence && decide (StrictlyInside nodes n)

/-- The nodes of a run of more than one are canonical. -/
theorem canonical_run (hrun : MaximalRun linked xs run)
    (hlong : run.tail ≠ []) : ∀ m ∈ run, m.kind = .canonical := by
  intro m hm
  obtain ⟨before, after, rfl⟩ := append_of_mem hm
  obtain ⟨-, hrest, hlast⟩ := isChain_append.mp hrun.chain
  have hkinds : ∀ a b : ReductionNode Hash,
      linked a b = true → a.kind = .canonical ∧ b.kind = .canonical := by
    intro a b h
    simp only [linked, Bool.and_eq_true, decide_eq_true_eq] at h
    exact h.1
  cases after with
  | cons b after => exact (hkinds m b (isChain_cons_cons.mp hrest).1).1
  | nil =>
    rcases eq_nil_or_concat before with rfl | ⟨before, a, rfl⟩
    · exact absurd rfl hlong
    · exact (hkinds a m (hlast a (by simp) m rfl)).2

theorem length_allSpans (hdistinct : (nodes.map (·.hash)).Nodup) :
    (allSpans nodes).flatten.length = removableCount nodes := by
  refine (countP_nodes hdistinct (nodup_allSpans hdistinct) fun n => ?_).symm
  rw [allSpans, mem_flatten_inners]
  simp only [removableContext, Bool.and_eq_true, decide_eq_true_eq]
  constructor
  · rintro ⟨⟨⟨-, hprotected⟩, hevidence⟩, run, hrun, hn⟩
    have hmem := hrun.sublist.subset (mem_of_mem_tail (dropLast_subset _ hn))
    exact ⟨(mem_heighted.mp hmem).1, ⟨hprotected, hevidence⟩, run, hrun, hn⟩
  · rintro ⟨-, ⟨hprotected, hevidence⟩, run, hrun, hn⟩
    have hcanonical := canonical_run hrun (fun h => absurd hn (by simp [h])) n
      (mem_of_mem_tail (dropLast_subset _ hn))
    exact ⟨⟨⟨hcanonical, hprotected⟩, hevidence⟩, run, hrun, hn⟩

/-- What stays visible, and what a hidden node is. -/
structure SoundReduction (nodes : List (ReductionNode Hash)) (visible : List Hash) : Prop where
  few : visible.length ≤ nodeLimit
  fromNodes : visible.Sublist (nodes.map (·.hash))
  kept : ∀ n ∈ nodes, n.isProtected ∨ n.evidence ∨ n.kind ≠ .canonical ∨ n.height = none → n.hash ∈ visible
  hidden : ∀ n ∈ nodes, n.hash ∉ visible → ∃ run, MaximalRun linked (heighted nodes) run ∧
    n ∈ run.tail.dropLast ∧ (∀ m ∈ run, m.kind = .canonical) ∧
    (∀ m ∈ run.head?, m.hash ∈ visible) ∧ ∀ m ∈ run.getLast?, m.hash ∈ visible

theorem ends_not_taken (hnodup : xs.Nodup)
    (hrun : MaximalRun linked xs run) {m : ReductionNode Hash}
    (hm : m ∈ run.head? ∨ m ∈ run.getLast?) : m ∉ (inners linked removableContext xs).flatten := by
  intro hin
  obtain ⟨-, run', hrun', hinside⟩ := mem_flatten_inners.mp hin
  have hmem : m ∈ run := by
    rcases hm with hm | hm
    · exact mem_of_head? hm
    · exact mem_of_getLast? hm
  obtain rfl := hrun'.unique hnodup hrun (mem_of_mem_tail (dropLast_subset _ hinside)) hmem
  exact ends_not_inside (hrun.sublist.nodup hnodup) hm hinside

section Result

variable (hdistinct : (nodes.map (·.hash)).Nodup)
include hdistinct

theorem Visits.sound {visible : List Hash} (h : Visits nodes visible) (hfew : visible.length ≤ nodeLimit) :
    SoundReduction nodes visible := by
  obtain ⟨taken, hvisible, hperm⟩ := h.taken hdistinct
  have hspan : ∀ n ∈ taken.flatten, n ∈ (allSpans nodes).flatten := by
    intro n hn
    refine hperm.flatten.subset ?_
    rw [flatten_append]
    exact mem_append_left _ hn
  have hmem : ∀ n ∈ nodes, n.hash ∈ visible ↔ n ∉ taken.flatten := by
    intro n hn
    rw [hvisible, mem_filter, decide_eq_true_eq, and_iff_right (mem_map_of_mem hn),
      hash_mem_map hdistinct (fun n' hn' => (mem_of_mem_allSpans (hspan n' hn')).1) hn]
  refine ⟨hfew, hvisible ▸ filter_sublist, fun n hn hkeep => (hmem n hn).mpr fun hin => ?_,
    fun n hn hhidden => ?_⟩
  · have hin := hspan n hin
    have hremovable := (mem_flatten_inners.mp hin).1
    simp only [removableContext, Bool.and_eq_true, decide_eq_true_eq, Bool.not_eq_true'] at hremovable
    rcases hkeep with h | h | h | h
    · rw [hremovable.1.2] at h
      cases h
    · rw [hremovable.2] at h
      cases h
    · exact h hremovable.1.1
    · have := (mem_of_mem_allSpans hin).2
      rw [h] at this
      cases this
  · have hin := hspan n (not_not.mp (mt (hmem n hn).mpr hhidden))
    obtain ⟨-, run, hrun, hinside⟩ := mem_flatten_inners.mp hin
    have hend : ∀ m, m ∈ run.head? ∨ m ∈ run.getLast? → m.hash ∈ visible := by
      intro m hm
      have hmrun : m ∈ run := hm.elim (fun h => mem_of_head? h) fun h => mem_of_getLast? h
      have hmnodes := (mem_heighted.mp (hrun.sublist.subset hmrun)).1
      exact (hmem m hmnodes).mpr fun h => ends_not_taken (nodup_heighted hdistinct) hrun hm (hspan m h)
    refine ⟨run, hrun, hinside, canonical_run hrun ?_, fun m hm => hend m (.inl hm),
      fun m hm => hend m (.inr hm)⟩
    exact fun h => absurd hinside (by simp [h])

/-- **The reduction is sound, and succeeds whenever it can.** -/
theorem reduce_spec :
    (∀ r, reduce nodes = .ok r → SoundReduction nodes r.visibleHashes) ∧
      ((∃ e, reduce nodes = .error e) ↔ nodeLimit < nodes.countP (·.isProtected) ∨
        nodeLimit < nodes.length - removableCount nodes) := by
  rw [reduce]
  by_cases hprotected : nodeLimit < nodes.countP (·.isProtected)
  · simp [hprotected]
  · rw [if_neg hprotected]
    obtain ⟨last, hlast, hend⟩ := reduceLoop_visits (Visits.start (not_lt.mp hprotected))
    obtain ⟨taken, hvisible, hperm⟩ := hlast.taken hdistinct
    have hlength := Visits.length hdistinct hvisible hperm
    have htotal : taken.flatten.length + (spans nodes last).flatten.length = removableCount nodes := by
      rw [← length_allSpans hdistinct, ← length_append, ← flatten_append]
      exact hperm.flatten.length_eq
    rcases hend with ⟨hok, hfew⟩ | ⟨herror, hmany, hnone⟩
    · rw [hok]
      refine ⟨fun r hr => Except.ok.inj hr ▸ hlast.sound hdistinct hfew, ?_⟩
      constructor
      · rintro ⟨e, he⟩
        cases he
      · rintro (h | h)
        · exact absurd h hprotected
        · omega
    · rw [herror]
      refine ⟨fun r hr => (nomatch hr), fun _ => .inr ?_, fun _ => ⟨_, rfl⟩⟩
      rw [hnone, flatten_nil, length_nil] at htotal
      omega

end Result

namespace Sample

/-- A canonical block that nothing protects. -/
def context (hash prevHash : ℕ) (height : ℤ) : ReductionNode ℕ :=
  ⟨hash, prevHash, some height, .canonical, false, false⟩

/-- 495 nodes without a height. -/
def unheighted : List (ReductionNode ℕ) :=
  (List.range 495).map fun i => ⟨i + 100, 0, none, .unknown, false, true⟩

/-- The blocks, among so many others that they have to be cut. -/
def crowded (blocks : List (ReductionNode ℕ)) : List (ReductionNode ℕ) := blocks ++ unheighted

theorem crowded_distinct {blocks : List (ReductionNode ℕ)}
    (h : (blocks.map (·.hash)).Nodup ∧ ∀ n ∈ blocks, n.hash < 100) :
    ((crowded blocks).map (·.hash)).Nodup := by
  rw [crowded, unheighted, List.map_append, List.map_map, List.nodup_append]
  refine ⟨h.1, List.nodup_range.map fun a b hab => Nat.add_right_cancel hab, ?_⟩
  intro a ha b hb
  obtain ⟨n, hn, rfl⟩ := mem_map.mp ha
  obtain ⟨i, -, rfl⟩ := mem_map.mp hb
  have := h.2 n hn
  dsimp only [Function.comp]
  omega

theorem heighted_crowded {blocks : List (ReductionNode ℕ)} :
    heighted (crowded blocks) = heighted blocks := by
  have hnone : unheighted.filter (·.height.isSome) = [] := by
    refine filter_eq_nil_iff.mpr fun n hn => ?_
    obtain ⟨i, -, rfl⟩ := List.mem_map.mp hn
    exact Bool.false_ne_true
  rw [heighted, crowded, filter_append, hnone, append_nil, heighted]

/-- Two runs of three blocks.  The higher run hides the smaller hash. -/
def twoRuns : List (ReductionNode ℕ) :=
  [context 20 10 1, context 30 20 2, context 40 30 3, context 50 11 5, context 5 50 6, context 60 5 7]

theorem twoRuns_distinct : ((crowded twoRuns).map (·.hash)).Nodup := crowded_distinct (by decide)

end Sample

/-- A list that needs one step. -/
theorem reduce_spec_twoRuns : ∃ r, reduce (Sample.crowded Sample.twoRuns) = .ok r ∧
    SoundReduction (Sample.crowded Sample.twoRuns) r.visibleHashes := by
  obtain ⟨hsound, hfails⟩ := reduce_spec Sample.twoRuns_distinct
  cases hreduce : reduce (Sample.crowded Sample.twoRuns) with
  | ok r => exact ⟨r, rfl, hsound r hreduce⟩
  | error e =>
    refine absurd (hfails.mp ⟨e, hreduce⟩) ?_
    rw [← length_allSpans Sample.twoRuns_distinct, allSpans, Sample.heighted_crowded]
    decide +kernel

/-! ### The order of the spans -/

variable (nodes visible run)

/-- A run of the visible nodes that hides something. -/
structure Collapsible : Prop where
  maximal : MaximalRun linked (sortedNodes nodes visible) run
  hides : inner removableContext run ≠ []

/-- How many nodes a run hides. -/
def width : ℕ := (inner removableContext run).length

/-- The run that step 6 of the procedure of `tree-semantics.md` chooses: the widest; of these the one
with the lowest left boundary; of these the one whose left boundary has the smallest hash. -/
def Documented : Prop :=
  Collapsible nodes visible run ∧ ∀ other, Collapsible nodes visible other →
    width other < width run ∨ width other = width run ∧
      ∀ left ∈ run.head?, ∀ left' ∈ other.head?, LexLe (nodeKey left) (nodeKey left')

/-- Of the widest runs, the one with the lowest left boundary hides the smallest first hash. -/
def LowestHidesLeast : Prop :=
  ∀ run other, Documented nodes visible run → Collapsible nodes visible other →
    width other = width run → ∀ n ∈ (inner removableContext run).head?,
      ∀ n' ∈ (inner removableContext other).head?, n.hash ≤ n'.hash

variable {nodes visible run}

theorem mem_spans :
    s ∈ spans nodes visible ↔ ∃ run, Collapsible nodes visible run ∧ inner removableContext run = s := by
  rw [spans, mem_inners]
  constructor
  · rintro ⟨hne, run, hrun, rfl⟩
    exact ⟨run, ⟨hrun, hne⟩, rfl⟩
  · rintro ⟨run, ⟨hrun, hne⟩, rfl⟩
    exact ⟨hne, run, hrun, rfl⟩

/-- The run that is collapsed is a widest one, with the smallest first hash. -/
theorem collapsed_run {visible hashes : List Hash}
    (h : largestRemovableRun nodes visible = some hashes) :
    ∃ run, Collapsible nodes visible run ∧ (inner removableContext run).map (·.hash) = hashes ∧
      ∀ other, Collapsible nodes visible other → width other < width run ∨ width other = width run ∧
        ∀ n ∈ (inner removableContext run).head?, ∀ n' ∈ (inner removableContext other).head?,
          n.hash ≤ n'.hash := by
  obtain ⟨⟨s, hs, rfl⟩, hbest⟩ := largestRemovableRun_eq_some h
  obtain ⟨run, hrun, rfl⟩ := mem_spans.mp hs
  refine ⟨run, hrun, rfl, fun other hother => ?_⟩
  have hatleast := hbest _ (mem_spans.mpr ⟨other, hother, rfl⟩)
  simp only [AtLeast, length_map, head?_map] at hatleast
  refine hatleast.imp id fun ⟨hwidth, hfirst⟩ => ⟨hwidth, fun n hn n' hn' => ?_⟩
  exact hfirst n.hash (mem_map_of_mem _ hn) n'.hash (mem_map_of_mem _ hn')

section Order

variable (hdistinct : (nodes.map (·.hash)).Nodup)
include hdistinct

variable {other : List (ReductionNode Hash)}

theorem Collapsible.eq_of_hash
    (hrun : Collapsible nodes visible run) (hother : Collapsible nodes visible other)
    {a b : ReductionNode Hash} (ha : a ∈ run) (hb : b ∈ other) (h : a.hash = b.hash) : run = other := by
  have ha' := (mem_sortedNodes.mp (hrun.maximal.sublist.subset ha)).1
  have hb' := (mem_sortedNodes.mp (hother.maximal.sublist.subset hb)).1
  obtain rfl := Tree.eq_of_hash hdistinct ha' hb' h
  exact hrun.maximal.unique (nodup_sortedNodes hdistinct visible) hother.maximal ha hb

omit hdistinct in
theorem exists_documented (hrun : Collapsible nodes visible run)
    (hwidest : ∀ other, Collapsible nodes visible other → width other ≤ width run) :
    ∃ documented, Documented nodes visible documented ∧ width documented = width run := by
  -- the left boundaries of the widest runs
  let lefts := (((sortedNodes nodes visible).splitBy linked).filter fun other =>
    inner removableContext other ≠ [] ∧ width other = width run).filterMap (·.head?)
  have hlefts : ∀ n, n ∈ lefts ↔
      ∃ other, Collapsible nodes visible other ∧ width other = width run ∧ other.head? = some n := by
    intro n
    simp only [lefts, mem_filterMap, mem_filter, mem_splitBy, decide_eq_true_eq]
    constructor
    · rintro ⟨other, ⟨hmaximal, hhides, hwidth⟩, hhead⟩
      exact ⟨other, ⟨hmaximal, hhides⟩, hwidth, hhead⟩
    · rintro ⟨other, ⟨hmaximal, hhides⟩, hwidth, hhead⟩
      exact ⟨other, ⟨hmaximal, hhides, hwidth⟩, hhead⟩
  have hne : lefts ≠ [] := by
    refine ne_nil_of_mem (a := run.head hrun.maximal.ne_nil) ((hlefts _).mpr ?_)
    exact ⟨run, hrun, rfl, head?_eq_some_head _⟩
  obtain ⟨left, hleft, hleast⟩ := exists_least nodeKey hne
  obtain ⟨documented, hdocumented, hwidth, hhead⟩ := (hlefts left).mp hleft
  refine ⟨documented, ⟨hdocumented, fun other hother => ?_⟩, hwidth⟩
  rw [hwidth, hhead]
  rcases Nat.lt_or_eq_of_le (hwidest other hother) with h | h
  · exact .inl h
  · refine .inr ⟨h, fun l hl l' hl' => ?_⟩
    cases hl
    exact hleast l' ((hlefts l').mpr ⟨other, hother, h, hl'⟩)

theorem Documented.unique
    (hrun : Documented nodes visible run) (hother : Documented nodes visible other) : run = other := by
  obtain ⟨left, hleft⟩ : ∃ n, n ∈ List.head? _ := ⟨_, head_mem_head? hrun.1.maximal.ne_nil⟩
  obtain ⟨left', hleft'⟩ : ∃ n, n ∈ List.head? _ := ⟨_, head_mem_head? hother.1.maximal.ne_nil⟩
  have hkeys : nodeKey left = nodeKey left' := by
    rcases hrun.2 other hother.1 with h | ⟨hwidth, h⟩ <;>
      rcases hother.2 run hrun.1 with h' | ⟨hwidth', h'⟩
    · omega
    · omega
    · omega
    · exact (h left hleft left' hleft').antisymm (h' left' hleft' left hleft)
  exact hrun.1.eq_of_hash hdistinct hother.1 (mem_of_head? hleft) (mem_of_head? hleft')
    (congrArg Prod.snd hkeys)

theorem Collapsible.eq_of_first
    (hrun : Collapsible nodes visible run) (hother : Collapsible nodes visible other)
    {n n' : ReductionNode Hash} (hn : n ∈ (inner removableContext run).head?)
    (hn' : n' ∈ (inner removableContext other).head?) (h : n.hash = n'.hash) : run = other :=
  hrun.eq_of_hash hdistinct hother ((inner_sublist run).subset (mem_of_head? hn))
    ((inner_sublist other).subset (mem_of_head? hn')) h

/-- **When the documented run is collapsed.** -/
theorem documented_iff {visible hashes : List Hash} (h : largestRemovableRun nodes visible = some hashes) :
    (∃ run, Documented nodes visible run ∧ (inner removableContext run).map (·.hash) = hashes) ↔
      LowestHidesLeast nodes visible := by
  obtain ⟨chosen, hchosen, rfl, hbest⟩ := collapsed_run h
  obtain ⟨c, hc⟩ : ∃ n, n ∈ List.head? _ := ⟨_, head_mem_head? hchosen.hides⟩
  constructor
  · rintro ⟨run, hrun, hhashes⟩ low other hlow hother hwidth n hn n' hn'
    obtain ⟨r, hr⟩ : ∃ n, n ∈ List.head? _ := ⟨_, head_mem_head? hrun.1.hides⟩
    have hfirst : r.hash = c.hash := by
      have := congrArg List.head? hhashes
      rw [head?_map, head?_map, mem_def.mp hr, mem_def.mp hc] at this
      exact some.inj this
    obtain rfl := hrun.1.eq_of_first hdistinct hchosen hr hc hfirst
    obtain rfl := hrun.unique hdistinct hlow
    rcases hbest other hother with h | ⟨-, h⟩
    · omega
    · exact h n hn n' hn'
  · intro hleast
    obtain ⟨documented, hdocumented, hwidth⟩ := exists_documented hchosen fun other hother =>
      (hbest other hother).elim le_of_lt fun h => h.1.le
    obtain ⟨d, hd⟩ : ∃ n, n ∈ List.head? _ := ⟨_, head_mem_head? hdocumented.1.hides⟩
    have hle := hleast documented chosen hdocumented hchosen hwidth.symm d hd c hc
    rcases hbest documented hdocumented.1 with h | ⟨-, h⟩
    · omega
    · have hfirst := le_antisymm hle (h c hc d hd)
      rw [← hdocumented.1.eq_of_first hdistinct hchosen hd hc hfirst]
      exact ⟨documented, hdocumented, rfl⟩

/-- **The documented order.**  Every step of `reduce` collapses the documented run exactly if in every
state that needs one the widest run with the lowest left boundary also hides the smallest first hash. -/
theorem collapses_documented_iff :
    (∀ visible hashes, Visits nodes visible → nodeLimit < visible.length →
        largestRemovableRun nodes visible = some hashes →
        ∃ run, Documented nodes visible run ∧ (inner removableContext run).map (·.hash) = hashes) ↔
      ∀ visible, Visits nodes visible → nodeLimit < visible.length → LowestHidesLeast nodes visible := by
  constructor
  · intro h visible hvisible hlarge run other hrun
    cases hfound : largestRemovableRun nodes visible with
    | none =>
      have := mem_spans.mpr ⟨run, hrun.1, rfl⟩
      rw [largestRemovableRun_eq_none.mp hfound] at this
      exact absurd this not_mem_nil
    | some hashes =>
      exact (documented_iff hdistinct hfound).mp (h _ _ hvisible hlarge hfound) run other hrun
  · intro h visible hashes hvisible hlarge hfound
    exact (documented_iff hdistinct hfound).mpr (h visible hvisible hlarge)

end Order

namespace Sample

/-- The hashes of all nodes. -/
def everyHash (nodes : List (ReductionNode ℕ)) : List ℕ := (nodes.map (·.hash)).dedup

theorem twoRuns_sorted : sortedNodes (crowded twoRuns) (everyHash (crowded twoRuns)) = twoRuns := by
  rw [everyHash, sortedNodes_all twoRuns_distinct, heighted_crowded]
  decide

end Sample

/-- The runs of `twoRuns` hide one block each, and the higher one is collapsed. -/
theorem twoRuns_collapses_higher :
    ∃ visible hashes, Visits (Sample.crowded Sample.twoRuns) visible ∧ nodeLimit < visible.length ∧
      largestRemovableRun (Sample.crowded Sample.twoRuns) visible = some hashes ∧
      ¬∃ run, Documented (Sample.crowded Sample.twoRuns) visible run ∧
        (inner removableContext run).map (·.hash) = hashes := by
  have hruns : Sample.twoRuns.splitBy linked =
      [[Sample.context 20 10 1, Sample.context 30 20 2, Sample.context 40 30 3],
        [Sample.context 50 11 5, Sample.context 5 50 6, Sample.context 60 5 7]] := by
    decide
  refine ⟨Sample.everyHash (Sample.crowded Sample.twoRuns), [5], .start (by decide +kernel), ?_, ?_, ?_⟩
  · rw [Sample.everyHash, Sample.twoRuns_distinct.dedup]
    decide +kernel
  · rw [largestRemovableRun, Sample.twoRuns_sorted]
    decide
  · rintro ⟨run, ⟨hrun, hfirst⟩, hhashes⟩
    have hmem := mem_splitBy.mpr hrun.maximal
    rw [Sample.twoRuns_sorted, hruns, mem_cons, mem_singleton] at hmem
    rcases hmem with rfl | rfl
    · exact absurd hhashes (by decide)
    · have hlower : Collapsible (Sample.crowded Sample.twoRuns)
          (Sample.everyHash (Sample.crowded Sample.twoRuns))
          [Sample.context 20 10 1, Sample.context 30 20 2, Sample.context 40 30 3] := by
        refine ⟨mem_splitBy.mp ?_, by decide⟩
        rw [Sample.twoRuns_sorted, hruns]
        exact mem_cons_self
      rcases hfirst _ hlower with h | ⟨-, h⟩
      · exact absurd h (by decide)
      · exact absurd (h _ rfl _ rfl) (by decide)

namespace Sample

/-- Two runs of three blocks.  The lower run hides the smaller hash. -/
def alignedRuns : List (ReductionNode ℕ) :=
  [context 20 10 1, context 5 20 2, context 40 5 3, context 50 11 5, context 30 50 6, context 60 30 7]

theorem alignedRuns_distinct : ((crowded alignedRuns).map (·.hash)).Nodup := crowded_distinct (by decide)

theorem alignedRuns_sorted :
    sortedNodes (crowded alignedRuns) (everyHash (crowded alignedRuns)) = alignedRuns := by
  rw [everyHash, sortedNodes_all alignedRuns_distinct, heighted_crowded]
  decide

/-- One step is enough. -/
theorem crowded_visits {blocks : List (ReductionNode ℕ)} (hblocks : blocks.length = 6)
    (hdistinct : ((crowded blocks).map (·.hash)).Nodup) {visible : List ℕ}
    (h : Visits (crowded blocks) visible) :
    visible = everyHash (crowded blocks) ∨ visible.length ≤ nodeLimit := by
  induction h with
  | start _ => exact .inl rfl
  | step _ hlarge hrun ih =>
    have hstart := ih.resolve_right (not_le.mpr hlarge)
    have hless := largestRemovableRun_visible hrun
    have hlength : (everyHash (crowded blocks)).length = 501 := by
      rw [everyHash, hdistinct.dedup, length_map, crowded, length_append, hblocks,
        unheighted, length_map, length_range]
    rw [hstart, hlength] at hless
    rw [hstart]
    exact .inr (Nat.le_of_lt_succ hless)

end Sample

/-- On `alignedRuns`, every step is the documented one. -/
theorem collapses_documented_alignedRuns :
    ((Sample.crowded Sample.alignedRuns).map (·.hash)).Nodup ∧
      ∀ visible hashes, Visits (Sample.crowded Sample.alignedRuns) visible → nodeLimit < visible.length →
        largestRemovableRun (Sample.crowded Sample.alignedRuns) visible = some hashes →
        ∃ run, Documented (Sample.crowded Sample.alignedRuns) visible run ∧
          (inner removableContext run).map (·.hash) = hashes := by
  refine ⟨Sample.alignedRuns_distinct,
    (collapses_documented_iff Sample.alignedRuns_distinct).mpr fun visible hvisible hlarge => ?_⟩
  have hstart := (Sample.crowded_visits rfl Sample.alignedRuns_distinct hvisible).resolve_right
    (not_le.mpr hlarge)
  have hruns : (sortedNodes (Sample.crowded Sample.alignedRuns) visible).splitBy linked =
      [[Sample.context 20 10 1, Sample.context 5 20 2, Sample.context 40 5 3],
        [Sample.context 50 11 5, Sample.context 30 50 6, Sample.context 60 30 7]] := by
    rw [hstart, Sample.alignedRuns_sorted]
    decide
  have hmem : ∀ run, MaximalRun linked (sortedNodes (Sample.crowded Sample.alignedRuns) visible) run ↔
      run = [Sample.context 20 10 1, Sample.context 5 20 2, Sample.context 40 5 3] ∨
        run = [Sample.context 50 11 5, Sample.context 30 50 6, Sample.context 60 30 7] := by
    intro run
    rw [← mem_splitBy, hruns, mem_cons, mem_singleton]
  rintro run other ⟨hrun, hfirst⟩ hother -
  rcases (hmem run).mp hrun.maximal with rfl | rfl
  · rcases (hmem other).mp hother.maximal with rfl | rfl <;> decide
  · rcases hfirst _ ⟨(hmem _).mpr (.inl rfl), by decide⟩ with h | ⟨-, h⟩
    · exact absurd h (by decide)
    · exact absurd (h _ rfl _ rfl) (by decide)

end MergeMiningMonitor.Tree
