import MergeMiningMonitor.CoreSuffix.Committed
import MergeMiningMonitor.Backbone.Plan

/-!
# Backbone — Repair

The repair of a canonical suffix, from its plan to its transaction (`replace_planned_suffix`).  The
planner and the transaction are in two crates and share no code; the inputs that the producer
derives from a plan pass the checks of the transaction (`planned_inputs_valid`,
`planned_rows_verified`), and a committed repair leaves Core's chain as the only canonical chain
from the anchor to the end of the view (`plan_and_replacement_agree`).
-/

namespace MergeMiningMonitor

open Relational Fallible FixedWidth Ordered Consecutive Lists ReadModel List Option

variable {Hash : Type}

section Producer

variable (blockHash : Header Hash → Hash) (blockCoinbase : Hash → Option BlockCoinbase)

/-- `fetch_replacements`: Core is asked for the coinbase of each block. -/
def fetchReplacements : List (CoreViewRow Hash) → Option (List (CoreCanonicalReplacement Hash))
  | [] => some []
  | row :: rest => do
    let coinbase ← blockCoinbase (blockHash row.header)
    return ⟨row.height, row.header, coinbase⟩ :: (← fetchReplacements rest)

def expectedLocalRows (rows : List (LocalCanonicalRow Hash)) :
    List (ExpectedCoreCanonicalRow Hash) :=
  rows.map fun row => ⟨row.height, row.hash, row.prevHash⟩

variable [LinearOrder Hash] [ToString Hash] (catalogue : Hash → Option InvalidBlock)

/-- `replace_planned_suffix`, up to the drain that follows it.  `stable`, `validateBefore` and
`validateAfter` are the checks that Core still has the target on its active chain, before the
transaction and inside it. -/
def replacePlannedSuffix (db : Db Hash) (now expectedContiguousCompleteHeight : Int)
    (coreView : List (CoreViewRow Hash)) (localRows : List (LocalCanonicalRow Hash))
    (firstReplacementIndex : Nat) (target : Int × Hash)
    (stable validateBefore validateAfter : Except SuffixError Unit) :
    Except SuffixError (Db Hash × CoreSuffixReplacementSummary) := do
  let ancestor ← required coreView[firstReplacementIndex - 1]? .emptyReplacement
  let replacements ← required
    (fetchReplacements blockHash blockCoinbase (coreView.drop firstReplacementIndex)) .rpc
  stable
  replaceCoreCanonicalSuffixValidated blockHash catalogue db now expectedContiguousCompleteHeight
    ancestor.height
    { expectedLocal := expectedLocalRows localRows
      replacements
      pendingSyncTarget := some target }
    validateBefore validateAfter

end Producer

variable {blockHash : Header Hash → Hash} {blockCoinbase : Hash → Option BlockCoinbase}

variable {replacements : List (CoreCanonicalReplacement Hash)} {rows : List (CoreViewRow Hash)}
  {anchor last : CoreViewRow Hash} {pre post : List (CoreViewRow Hash)}
  {localRows : List (LocalCanonicalRow Hash)} {m : ReadModel Hash}
  {coreView : List (CoreViewRow Hash)} {db db' : Db Hash}
  {first target : CoreCanonicalReplacement Hash} {stable before after : Except SuffixError Unit}
  {summary : CoreSuffixReplacementSummary}

theorem map_fetchReplacements
    (h : fetchReplacements blockHash blockCoinbase rows = some replacements) :
    replacements.map (fun r => (r.height, r.header)) =
      rows.map fun c => (c.height, c.header) := by
  induction rows generalizing replacements with
  | nil =>
    obtain rfl := some.inj h
    rfl
  | cons c rest ih =>
    obtain ⟨coinbase, -, h⟩ := bind_eq_some_iff.mp h
    obtain ⟨rs, hrs, h⟩ := bind_eq_some_iff.mp h
    obtain rfl := some.inj h
    simp [ih hrs]

theorem getLast?_replacements (hpost : post ≠ [])
    (hlast : (pre ++ anchor :: post).getLast? = some last)
    (h : replacements.map (fun r => (r.height, r.header)) =
      post.map fun c => (c.height, c.header)) :
    ∃ target, replacements.getLast? = some target ∧ target.height = last.height := by
  have hpost_last : post.getLast? = some last := by
    rw [getLast?_append, getLast?_cons_of_ne_nil hpost] at hlast
    obtain ⟨c, hc⟩ := ne_none_iff_exists'.mp (mt getLast?_eq_none_iff.mp hpost)
    rw [hc] at hlast ⊢
    exact hlast
  have hmap := congrArg List.getLast? h
  rw [getLast?_map, getLast?_map, hpost_last] at hmap
  obtain ⟨target, htarget, heq⟩ := map_eq_some_iff.mp hmap
  exact ⟨target, htarget, (Prod.mk.inj heq).1⟩

variable [LinearOrder Hash]

/-! ### The inputs of the transaction -/

/-- The rows the producer expects, brought into the form of the transaction, are the rows the
transaction finds, when nothing changed between. -/
theorem planned_rows_verified (m : ReadModel Hash) {lo hi ancestor target : Int}
    (hlo : lo ≤ ancestor) (hhi : target ≤ hi) :
    verifyExpectedRows (loadLockedCanonicalRows m ancestor target) (normalizedExpectedSuffix
      (expectedLocalRows (loadLocalCanonicalRows m lo hi)) ancestor target) = .ok () := by
  rw [verifyExpectedRows, ensure_eq_ok, normalizedExpectedSuffix, expectedLocalRows,
    loadLocalCanonicalRows, loadLockedCanonicalRows, List.map_map, List.map_map, List.filter_map]
  simp only [Function.comp_def, m.canonicalBetween_filter hlo hhi]
  rw [orderByKey_eq_self]
  · rfl
  · rw [List.pairwise_map]
    exact pairwise_orderByKey _ _

theorem planned_inputs_valid (view : CoreView blockHash) {anchor : CoreViewRow Hash}
    (hview : view.rows = pre ++ anchor :: post)
    (hanchor : usableAnchor localRows anchor = true) (hpost : post ≠ [])
    (hfetch : fetchReplacements blockHash blockCoinbase post = some replacements) :
    validateReplacement blockHash anchor.height (expectedLocalRows localRows) replacements =
      .ok () := by
  have hmap := map_fetchReplacements hfetch
  have hlinked : (anchor :: post).IsChain fun a b =>
      b.height = a.height + 1 ∧ b.header.prevBlockhash = blockHash a.header :=
    IsChain.right_of_append (hview ▸ view.linked)
  obtain ⟨c, rest, rfl⟩ := exists_cons_of_ne_nil hpost
  obtain ⟨⟨hheight, hprev⟩, hrest⟩ := isChain_cons_cons.mp hlinked
  obtain ⟨row, hrows, hhash, -⟩ := usableAnchor_eq_true.mp hanchor
  obtain ⟨r, rs, rfl⟩ : ∃ r rs, replacements = r :: rs := by
    cases replacements with
    | nil => cases hmap
    | cons r rs => exact ⟨r, rs, rfl⟩
  obtain ⟨hr, -⟩ := List.cons.inj hmap
  obtain ⟨hr_height, hr_header⟩ := Prod.mk.inj hr
  have hc : c ∈ view.rows := by simp [hview]
  have ha : anchor ∈ view.rows := by simp [hview]
  refine validateReplacement_eq_ok.mpr ⟨r, ⟨row.height, row.hash, row.prevHash⟩, rfl,
    hheight ▸ view.in_range c hc, hr_height.trans hheight, ?_, ?_, ?_⟩
  · have hpairs : ((c :: rest).map fun c => (c.height, c.header)).IsChain fun a b =>
        b.1 = a.1 + 1 ∧ b.2.prevBlockhash = blockHash a.2 := (isChain_map _).mpr hrest
    rw [← hmap] at hpairs
    exact (isChain_map _).mp hpairs
  · rw [expectedLocalRows, List.filter_map]
    exact congrArg (List.map _) hrows
  · rw [hr_header, hprev, ← view.hash_eq anchor ha]
    exact hhash

theorem mem_loadLocalCanonicalRows {lo hi : Int} {row : LocalCanonicalRow Hash} :
    row ∈ loadLocalCanonicalRows m lo hi ↔ ∃ n b, m.CanonicalAt n b ∧ lo ≤ n ∧ n ≤ hi ∧
      row = ⟨n, b.hash, b.prevHash, b.coinbaseStatus⟩ := by
  simp only [loadLocalCanonicalRows, List.mem_map, Prod.exists, mem_canonicalBetween, and_assoc,
    eq_comm]

/-- A usable anchor among loaded rows is the only canonical block at its height. -/
theorem canonicalAt_anchor {lo hi : Int} {anchor : CoreViewRow Hash}
    (h : usableAnchor (loadLocalCanonicalRows m lo hi) anchor = true) (hlo : lo ≤ anchor.height)
    (hhi : anchor.height ≤ hi) :
    ∃ b, m.CanonicalAt anchor.height b ∧ b.hash = anchor.hash ∧
      ∀ b', m.CanonicalAt anchor.height b' → b' = b := by
  obtain ⟨row, hrows, hhash, -⟩ := usableAnchor_eq_true.mp h
  have hmem : row ∈ (loadLocalCanonicalRows m lo hi).filter fun row =>
      row.height = anchor.height := by simp [hrows]
  obtain ⟨hmem, hheight⟩ := mem_filter.mp hmem
  obtain ⟨n, b, hb, -, -, rfl⟩ := mem_loadLocalCanonicalRows.mp hmem
  obtain rfl : n = anchor.height := by simpa using hheight
  refine ⟨b, hb, hhash, fun b' hb' => ?_⟩
  have hmem' : (⟨anchor.height, b'.hash, b'.prevHash, b'.coinbaseStatus⟩ : LocalCanonicalRow Hash) ∈
      (loadLocalCanonicalRows m lo hi).filter fun row => row.height = anchor.height :=
    mem_filter.mpr
      ⟨mem_loadLocalCanonicalRows.mpr ⟨_, b', hb', hlo, hhi, rfl⟩, by simp⟩
  rw [hrows, mem_singleton] at hmem'
  have hhash' : b'.hash = b.hash := congrArg LocalCanonicalRow.hash hmem'
  exact some.inj ((hhash' ▸ hb'.1).symm.trans hb.1)

/-- The planner compares with every canonical block at a height of the view. -/
theorem planRepair_load_eq_noHashConflict {lo hi : Int}
    (hrange : ∀ c ∈ coreView, lo ≤ c.height ∧ c.height ≤ hi) :
    planRepair coreView (loadLocalCanonicalRows m lo hi) = .ok .noHashConflict ↔
      ∀ c ∈ coreView, ∀ b, m.CanonicalAt c.height b → b.hash = c.hash := by
  rw [planRepair_eq_noHashConflict]
  refine forall₂_congr fun c hc => ⟨fun h b hb => ?_, fun h row hrow hheight => ?_⟩
  · exact h _ (mem_loadLocalCanonicalRows.mpr ⟨_, b, hb, (hrange c hc).1, (hrange c hc).2, rfl⟩) rfl
  · obtain ⟨n, b, hb, -, -, rfl⟩ := mem_loadLocalCanonicalRows.mp hrow
    obtain rfl : n = c.height := hheight
    exact h b hb

/-! ### A committed repair -/

/-- The parents that a repair above `anchor` touches: Core's blocks there and the blocks they
displace. -/
def Affected (rows : List (CoreViewRow Hash)) (anchor : CoreViewRow Hash) (m : ReadModel Hash)
    (k : Hash) : Prop :=
  ∃ c ∈ rows, anchor.height < c.height ∧
    (k = c.hash ∨ ∃ b, m.CanonicalAt c.height b ∧ b.hash = k ∧ b.hash ≠ c.hash)

/-- What a repair above `anchor` leaves behind. -/
structure Repaired (rows : List (CoreViewRow Hash)) (anchor target : CoreViewRow Hash) (now : Int)
    (db db' : Db Hash) : Prop where
  /-- From the anchor up, Core's block is the only canonical block at its height, -/
  canonical : ∀ c ∈ rows, anchor.height ≤ c.height → ∃ b, db'.readModel.CanonicalAt c.height b ∧
    b.hash = c.hash ∧ ∀ b', db'.readModel.CanonicalAt c.height b' → b' = b
  /-- linked to the canonical block below it. -/
  linked : ∀ c ∈ rows, anchor.height < c.height → ∀ b b', db'.readModel.CanonicalAt c.height b →
    db'.readModel.CanonicalAt (c.height - 1) b' → b.prevHash = b'.hash
  /-- The displaced blocks are stale, with the replacement at their height as competitor. -/
  displaced : ∀ c ∈ rows, anchor.height < c.height → ∀ b, db.readModel.CanonicalAt c.height b →
    b.hash ≠ c.hash → ∃ b', db'.readModel.blocks.find? b.hash = some b' ∧ b'.kind = .stale ∧
      b'.height = some c.height ∧ b'.competitor = some c.hash
  /-- The canonical blocks at other heights are the same. -/
  outside : ∀ n, n < anchor.height ∨ target.height < n → ∀ b,
    db'.readModel.CanonicalAt n b ↔ db.readModel.CanonicalAt n b
  /-- The affected parents are queued as primaries that are to be expanded, and no other. -/
  queued : ∀ k, Affected rows anchor db.readModel k →
    db'.queue.find? k = some (CoreReconcileRow.primary now true k (db.queue.find? k))
  unqueued : ∀ k, ¬ Affected rows anchor db.readModel k →
    db'.queue.find? k = db.queue.find? k

variable [ToString Hash] {catalogue : Hash → Option InvalidBlock}

theorem repaired_of_commit (view : CoreView blockHash) {now lo hi : Int}
    {input : CoreSuffixReplacementInput Hash}
    {plan : SuffixMutationPlan Hash} {row row' : SyncStateRow Hash}
    {pending : ReplacementPending Hash} (hview : view.rows = pre ++ anchor :: post)
    (hlast : view.rows.getLast? = some last)
    (hanchor : usableAnchor (loadLocalCanonicalRows db.readModel lo hi) anchor = true)
    (hlo : lo ≤ anchor.height) (hhi : anchor.height ≤ hi) (hpost₀ : post ≠ [])
    (hreps : input.replacements.map (fun r => (r.height, r.header)) =
      post.map fun c => (c.height, c.header))
    (h : Commit blockHash catalogue db db' now anchor.height input first target plan row row' pending)
    (hp : ChainPromise blockHash catalogue db.readModel input.replacements) :
    Repaired view.rows anchor last now db db' := by
  have hnumbered : Numbered (·.height) (pre ++ anchor :: post) := hview ▸ view.numbered
  have hanchor_mem : anchor ∈ view.rows := by simp [hview]
  have hpost : ∀ c, c ∈ post ↔ c ∈ view.rows ∧ anchor.height < c.height := fun c => by
    rw [hnumbered.mem_after_iff, hview]
  have hrep : ∀ c ∈ view.rows, anchor.height < c.height → ∃ r ∈ input.replacements,
      r.height = c.height ∧ r.header = c.header ∧ blockHash r.header = c.hash := by
    intro c hc hlt
    obtain ⟨r, hr, heq⟩ := exists_mem_of_map_eq hreps.symm ((hpost c).mpr ⟨hc, hlt⟩)
    obtain ⟨hheight, hheader⟩ := Prod.mk.inj heq
    exact ⟨r, hr, hheight, hheader, hheader ▸ (view.hash_eq c hc).symm⟩
  have htarget : target.height = last.height := by
    obtain ⟨target', htarget', hheight⟩ := getLast?_replacements hpost₀ (hview ▸ hlast) hreps
    obtain rfl := some.inj (h.last.symm.trans htarget')
    exact hheight
  have haffected : ∀ k, k ∈ plan.affectedHashes ↔ Affected view.rows anchor db.readModel k := by
    intro k
    rw [h.mem_affectedHashes]
    constructor
    · rintro ⟨r, hr, hk⟩
      obtain ⟨c, hc, heq⟩ := exists_mem_of_map_eq hreps hr
      obtain ⟨hheight, hheader⟩ := Prod.mk.inj heq
      obtain ⟨hc, hlt⟩ := (hpost c).mp hc
      rw [← hheight, ← hheader, ← view.hash_eq c hc] at hk
      exact ⟨c, hc, hlt, hk⟩
    · rintro ⟨c, hc, hlt, hk⟩
      obtain ⟨r, hr, hheight, -, hhash⟩ := hrep c hc hlt
      exact ⟨r, hr, by rwa [hheight, hhash]⟩
  refine ⟨fun c hc hle => ?_, fun c hc hlt b b' hb hb' => ?_, fun c hc hlt b hb hne => ?_,
    fun n hn b => ?_, fun k hk => ?_, fun k hk => ?_⟩
  · rcases hle.eq_or_lt with heq | hlt
    · obtain rfl := view.numbered.eq_of_key_eq hanchor_mem hc heq
      obtain ⟨b, hb, hhash, hunique⟩ := canonicalAt_anchor hanchor hlo hhi
      refine ⟨b, h.canonicalAt_of_not_replaced hp hb (by omega), hhash, fun b' hb' => ?_⟩
      rcases h.canonicalAt_cases hp hb' with ⟨r, hr, -, hheight, -⟩ | ⟨hb', -⟩
      · have := h.height_mem hr
        omega
      · exact hunique b' hb'
    · obtain ⟨r, hr, hheight, -, hhash⟩ := hrep c hc hlt
      obtain ⟨b, hb, hb_hash, -, hunique⟩ := h.canonicalAt_replaced hp hr
      rw [hheight] at hb hunique
      exact ⟨b, hb, hb_hash.trans hhash, hunique⟩
  · obtain ⟨r, hr, hheight, -, -⟩ := hrep c hc hlt
    obtain ⟨b₀, -, -, hrow, hunique⟩ := h.canonicalAt_replaced hp hr
    rw [← hheight] at hb hb'
    rw [hunique b hb, hrow.2.2.1, h.hash_eq_prev hp hr hb']
  · obtain ⟨r, hr, hheight, -, hhash⟩ := hrep c hc hlt
    rw [← hheight, ← hhash]
    exact h.demoted hp hr (hheight ▸ hb) (hhash ▸ hne.symm)
  · have hn' : ¬ (anchor.height < n ∧ n ≤ target.height) := by omega
    refine ⟨fun hb => ?_, fun hb => h.canonicalAt_of_not_replaced hp hb hn'⟩
    rcases h.canonicalAt_cases hp hb with ⟨r, hr, -, rfl, -⟩ | ⟨hb, -⟩
    · exact absurd (h.height_mem hr) hn'
    · exact hb
  · rw [CoreReconcileQueue.find?_enqueueCoreReconcileHashes h.queue, if_pos ((haffected k).mpr hk)]
  · rw [CoreReconcileQueue.find?_enqueueCoreReconcileHashes h.queue,
      if_neg (mt (haffected k).mp hk)]

omit [ToString Hash] in
theorem displaced_competitor {anchor last : Int} (hnumbered : Numbered (·.height) replacements)
    (hfirst : replacements.head? = some first) (htarget : replacements.getLast? = some target)
    (hlast : target.height = last) {old : LockedCanonicalRow Hash}
    (hold : old ∈ (planSuffixMutation blockHash (loadLockedCanonicalRows m anchor last) replacements
      first.height).displaced) :
    ∃ competitor, (planSuffixMutation blockHash (loadLockedCanonicalRows m anchor last) replacements
      first.height).replacementHashes.lookup old.height = some competitor := by
  obtain ⟨hmem, hheight⟩ := mem_filter.mp hold
  simp only [Bool.and_eq_true, decide_eq_true_eq] at hheight
  obtain ⟨n, b, -, -, hhi, rfl⟩ := mem_loadLockedCanonicalRows.mp hmem
  obtain ⟨r, hr, hr'⟩ := hnumbered.exists_key_eq hfirst htarget hheight.1 (hlast ▸ hhi)
  rw [← hr']
  exact ⟨_, hnumbered.lookup_eq hr⟩

theorem replacePlannedSuffix_eq_ok {now cch : Int} {i : Nat} {target : Int × Hash}
    (h : replacePlannedSuffix blockHash blockCoinbase catalogue db now cch coreView localRows i
      target stable before after = .ok (db', summary)) :
    ∃ ancestor replacements, coreView[i - 1]? = some ancestor ∧
      fetchReplacements blockHash blockCoinbase (coreView.drop i) = some replacements ∧
      replaceCoreCanonicalSuffixValidated blockHash catalogue db now cch ancestor.height
        ⟨expectedLocalRows localRows, replacements, some target⟩ before after =
          .ok (db', summary) := by
  obtain ⟨ancestor, hancestor, h⟩ := bind_eq_ok.mp h
  obtain ⟨replacements, hreplacements, h⟩ := bind_eq_ok.mp h
  obtain ⟨_, -, h⟩ := bind_eq_ok.mp h
  exact ⟨ancestor, replacements, required_eq_ok.mp hancestor, required_eq_ok.mp hreplacements, h⟩

/-- A committed replacement that was planned on the rows of its own database repairs the view from the
anchor of the plan up. -/
theorem repaired_of_replacePlannedSuffix (view : CoreView blockHash)
    {now cch lo hi : Int} {target : Int × Hash}
    (hview : view.rows = pre ++ anchor :: post) (hlast : view.rows.getLast? = some last)
    (hrange : ∀ c ∈ view.rows, lo ≤ c.height ∧ c.height ≤ hi)
    (hanchor : usableAnchor (loadLocalCanonicalRows db.readModel lo hi) anchor = true)
    (hpost : post ≠ [])
    (hfetch : fetchReplacements blockHash blockCoinbase post = some replacements)
    (hp : ChainPromise blockHash catalogue db.readModel replacements)
    (h : replacePlannedSuffix blockHash blockCoinbase catalogue db now cch view.rows
      (loadLocalCanonicalRows db.readModel lo hi) (pre.length + 1) target stable before after =
        .ok (db', summary)) :
    Repaired view.rows anchor last now db db' := by
  obtain ⟨anchor', replacements', hanchor', hfetch', hcommit⟩ := replacePlannedSuffix_eq_ok h
  obtain rfl : anchor = anchor' := by simpa [hview] using hanchor'
  rw [drop_length_succ hview, hfetch] at hfetch'
  obtain rfl := some.inj hfetch'
  obtain ⟨first, target, plan, row, row', pending, -, hcommit⟩ :=
    replaceCoreCanonicalSuffixValidated_eq_ok hcommit
  obtain ⟨hlo, hhi⟩ := hrange anchor (by simp [hview])
  exact repaired_of_commit view hview hlast hanchor hlo hhi hpost
    (map_fetchReplacements hfetch) hcommit hp

/-- **Plan and replacement agree.**  For every view of Core's chain and every list of local rows: the
planner finds no conflict exactly when no local row at a height of the view has another hash than
Core's, and fails exactly when there is a conflict and no height below the first one holds a
single complete row of Core's hash.

When it plans a replacement, the ancestor, the expected rows and the replacements derived from the
plan are valid; on a database that still has the local rows, they are verified and every displaced
block finds its competitor; and a committed replacement leaves Core's chain as the only canonical
chain from the anchor to the end of the view, with nothing left to plan. -/
theorem plan_and_replacement_agree (blockCoinbase : Hash → Option BlockCoinbase)
    (catalogue : Hash → Option InvalidBlock) (view : CoreView blockHash)
    (localRows : List (LocalCanonicalRow Hash)) :
    (planRepair view.rows localRows = .ok .noHashConflict ↔
      ∀ c ∈ view.rows, ∀ row ∈ localRows, row.height = c.height → row.hash = c.hash) ∧
    ((∃ e, planRepair view.rows localRows = .error e) ↔
      ∃ pre core post, view.rows = pre ++ core :: post ∧
        (∃ row ∈ localRows, row.height = core.height ∧ row.hash ≠ core.hash) ∧
        (∀ c ∈ pre, ∀ row ∈ localRows, row.height = c.height → row.hash = c.hash) ∧
        ∀ c ∈ pre, ¬ ∃ row, (localRows.filter fun row => row.height = c.height) = [row] ∧
          row.hash = c.hash ∧ row.coinbaseStatus = .complete) ∧
    ∀ i, planRepair view.rows localRows = .ok (.replaceFrom i) →
      ∃ anchor last, view.rows[i - 1]? = some anchor ∧ view.rows.getLast? = some last ∧
        ∀ replacements,
          fetchReplacements blockHash blockCoinbase (view.rows.drop i) = some replacements →
          validateReplacement blockHash anchor.height (expectedLocalRows localRows) replacements =
            .ok () ∧
          ∀ (db : Db Hash) (lo hi : Int), (∀ c ∈ view.rows, lo ≤ c.height ∧ c.height ≤ hi) →
            localRows = loadLocalCanonicalRows db.readModel lo hi →
            verifyExpectedRows (loadLockedCanonicalRows db.readModel anchor.height last.height)
              (normalizedExpectedSuffix (expectedLocalRows localRows) anchor.height last.height) =
                .ok () ∧
            (∀ first, replacements.head? = some first →
              let plan := planSuffixMutation blockHash
                (loadLockedCanonicalRows db.readModel anchor.height last.height) replacements
                first.height
              ∀ old ∈ plan.displaced, ∃ competitor,
                plan.replacementHashes.lookup old.height = some competitor) ∧
            ∀ now cch target stable before after db' summary,
              ChainPromise blockHash catalogue db.readModel replacements →
              replacePlannedSuffix blockHash blockCoinbase catalogue db now cch view.rows localRows
                i target stable before after = .ok (db', summary) →
              Repaired view.rows anchor last now db db' ∧
              planRepair view.rows (loadLocalCanonicalRows db'.readModel lo hi) =
                .ok .noHashConflict := by
  refine ⟨planRepair_eq_noHashConflict, ?_, fun i hplan => ?_⟩
  · rw [planRepair_eq_error]
    simp only [conflicts_eq_true, ← Bool.not_eq_true, usableAnchor_eq_true]
    push Not
    rfl
  · obtain ⟨pre, anchor, post, hview, rfl, hanchor, hpre, c₀, hc₀, -⟩ :=
      planRepair_eq_replaceFrom hplan
    have hpost : post ≠ [] := ne_nil_of_mem hc₀
    have hindex : view.rows[pre.length + 1 - 1]? = some anchor := by simp [hview]
    obtain ⟨last, hlast⟩ : ∃ last, view.rows.getLast? = some last :=
      ⟨_, getLast?_eq_some_getLast view.ne_nil⟩
    rw [drop_length_succ hview]
    refine ⟨anchor, last, hindex, hlast, fun replacements hfetch =>
      ⟨planned_inputs_valid view hview hanchor hpost hfetch, fun db lo hi hrange hload => ?_⟩⟩
    have hreps := map_fetchReplacements hfetch
    have hanchor_mem : anchor ∈ view.rows := by simp [hview]
    obtain ⟨hlo, hhi⟩ := hrange anchor hanchor_mem
    have hlast_range := hrange _ (mem_of_getLast? hlast)
    refine ⟨?_, fun first hfirst => ?_, ?_⟩
    · rw [hload]
      exact planned_rows_verified db.readModel hlo hlast_range.2
    · obtain ⟨_, _, _, _, _, hlinked, _⟩ := validateReplacement_eq_ok.mp
        (planned_inputs_valid view hview hanchor hpost hfetch)
      obtain ⟨target, htarget, hheight⟩ := getLast?_replacements hpost (hview ▸ hlast) hreps
      exact fun old => displaced_competitor (hlinked.imp fun _ _ h => h.1) hfirst htarget hheight
    · intro now cch target stable before after db' summary hp h
      subst hload
      have hrepaired := repaired_of_replacePlannedSuffix view hview hlast hrange hanchor hpost
        hfetch hp h
      refine ⟨hrepaired, (planRepair_load_eq_noHashConflict hrange).mpr fun c hc b hb => ?_⟩
      rcases le_or_gt anchor.height c.height with hle | hlt
      · obtain ⟨b', hb', hhash, hunique⟩ := hrepaired.canonical c hc hle
        rw [hunique b hb, hhash]
      · have hc_pre : c ∈ pre := by
          have hnumbered : Numbered (·.height) (pre ++ anchor :: post) := hview ▸ view.numbered
          rcases mem_append.mp (hview ▸ hc) with hc | hc
          · exact hc
          · rcases mem_cons.mp hc with rfl | hc
            · exact absurd hlt (lt_irrefl _)
            · exact absurd hlt (hnumbered.suffix.key_head_lt hc).not_gt
        have hb₀ := (hrepaired.outside c.height (.inl hlt) b).mp hb
        have hrow := mem_loadLocalCanonicalRows.mpr
          ⟨c.height, b, hb₀, (hrange c hc).1, (hrange c hc).2, rfl⟩
        by_contra hne
        exact absurd (conflicts_eq_true.mpr ⟨_, hrow, rfl, hne⟩) (by simp [hpre c hc_pre])

/-! ### A fork of two blocks -/

section Fork

/-- A header known by its hash, which stands in its nonce. -/
def header (prev hash : Nat) : Header Nat := ⟨1, prev, 0, 0, 0, hash⟩

/-- Core has blocks `10`, `11` and `12` at these heights. -/
def coreTenToTwelve : CoreView (@Header.nonce Nat) where
  rows := [⟨10, 10, header 9 10⟩, ⟨11, 11, header 10 11⟩, ⟨12, 12, header 11 12⟩]
  ne_nil := by simp
  hash_eq := by simp [header]
  linked := by simp [header]
  in_range := by simp [InI32]

/-- A canonical block, as Core attests it. -/
def canonicalBlock (height : Int) (prev hash : Nat) : Block Nat :=
  coreCanonicalRow hash (header prev hash) height (some ⟨[], [], []⟩)

/-- Evidence for the block `hash`. -/
def evidence (height : Int) (prev hash : Nat) : MergeMiningEvent Nat where
  id := hash
  childHeight := some 1
  parentHash := hash
  parentPrevHash := prev
  parentHeader := header prev hash
  parentHeight := some height
  parentKind := .canonical
  powValidatesBtcTarget := true
  difficultyEpochOk := some true
  coinbaseScript := none
  revoked := false

/-- Locally block `21` extends `10`, and there is evidence for it. -/
def forkedDb : Db Nat where
  readModel.events := ⟨[evidence 11 10 21], by decide⟩
  readModel.blocks := ⟨[canonicalBlock 10 9 10, canonicalBlock 11 10 21], by decide⟩
  queue := Table.empty
  syncState := some ⟨none, none, 11, none, none, none, none, none, .null⟩

theorem canonicalAt_forkedDb {n : Int} {b : Block Nat} (h : forkedDb.readModel.CanonicalAt n b) :
    (n = 10 ∧ b = canonicalBlock 10 9 10) ∨ (n = 11 ∧ b = canonicalBlock 11 10 21) := by
  obtain ⟨hb, -, hheight⟩ := h
  have hmem : b = canonicalBlock 10 9 10 ∨ b = canonicalBlock 11 10 21 := by
    simpa [forkedDb] using Table.mem_of_find? hb
  rcases hmem with rfl | rfl
  · exact .inl ⟨(some.inj hheight).symm, rfl⟩
  · exact .inr ⟨(some.inj hheight).symm, rfl⟩

/-- The replacements for the fork. -/
def elevenAndTwelve : List (CoreCanonicalReplacement Nat) :=
  [⟨11, header 10 11, ⟨[], [], []⟩⟩, ⟨12, header 11 12, ⟨[], [], []⟩⟩]

theorem chainPromise_forkedDb :
    ChainPromise (@Header.nonce Nat) (fun _ => none) forkedDb.readModel elevenAndTwelve where
  one_height r hr n b hb hhash := by
    rcases canonicalAt_forkedDb hb with ⟨rfl, rfl⟩ | ⟨rfl, rfl⟩ <;>
      simp [elevenAndTwelve] at hr <;> rcases hr with rfl | rfl <;> cases hhash
  one_height_replaced := by simp [elevenAndTwelve, header]
  vouched := by
    simp [elevenAndTwelve, header, Vouched, activeEvents, forkedDb, evidence]
  vouched_canonical n b hb := by
    rcases canonicalAt_forkedDb hb with ⟨rfl, rfl⟩ | ⟨rfl, rfl⟩ <;>
      simp [Vouched, activeEvents, forkedDb, evidence]
  extends_prev := by
    simp [elevenAndTwelve, header, activeEvents, forkedDb, evidence]

/-- The fork is repaired from block `10` up. -/
theorem fork_repaired :
    ∃ db' summary,
      replacePlannedSuffix (@Header.nonce Nat) (fun _ => some ⟨[], [], []⟩)
        (fun _ => none) forkedDb 0 11 coreTenToTwelve.rows
        (loadLocalCanonicalRows forkedDb.readModel 10 12) 1 (12, 12) (.ok ()) (.ok ()) (.ok ()) =
          .ok (db', summary) ∧
      Repaired coreTenToTwelve.rows ⟨10, 10, header 9 10⟩ ⟨12, 12, header 11 12⟩ 0 forkedDb db' := by
  obtain ⟨db', summary, h⟩ : ∃ db' summary,
      replacePlannedSuffix (@Header.nonce Nat) (fun _ => some ⟨[], [], []⟩)
        (fun _ => none) forkedDb 0 11 coreTenToTwelve.rows
        (loadLocalCanonicalRows forkedDb.readModel 10 12) 1 (12, 12) (.ok ()) (.ok ()) (.ok ()) =
          .ok (db', summary) := ⟨_, _, rfl⟩
  obtain ⟨anchor, last, hanchor, hlast, hrest⟩ := (plan_and_replacement_agree
    (fun _ => some ⟨[], [], []⟩) (fun _ => none) coreTenToTwelve
    (loadLocalCanonicalRows forkedDb.readModel 10 12)).2.2 1 (by decide)
  obtain rfl : ⟨10, 10, header 9 10⟩ = anchor := some.inj hanchor
  obtain rfl : ⟨12, 12, header 11 12⟩ = last := some.inj hlast
  obtain ⟨-, hrest⟩ := hrest elevenAndTwelve rfl
  obtain ⟨-, -, hrest⟩ := hrest forkedDb 10 12 (by simp [coreTenToTwelve]) rfl
  exact ⟨db', summary, h, (hrest 0 11 (12, 12) _ _ _ db' summary chainPromise_forkedDb h).1⟩

end Fork

end MergeMiningMonitor
