import MergeMiningMonitor.CoreSuffix.Replace

/-!
# Core suffix — Committed

What a committed suffix replacement leaves behind, for any database and any input that the
transaction accepts: a canonical row for each replacement, a stale row for each displaced block,
and every other canonical row as it was (`applySuffixMutation_eq_ok`).

It takes what the writers of the evidence and Core promise (`ChainPromise`).  Evidence for a block
of an active chain meets the Bitcoin target, is of no catalogued invalid block and extends what
the block extends; and a block has one height.

The three loops of the mutation keep one invariant, `Midway`: which replacements have their row and
which displaced blocks are demoted.
-/

namespace MergeMiningMonitor

open Relational Fallible FixedWidth Ordered Consecutive ReadModel List Option

variable {Hash : Type} [LinearOrder Hash] {blockHash : Header Hash → Hash}
  {catalogue : Hash → Option InvalidBlock}

/-- The row of a replacement: canonical at its height, linked and complete. -/
def IsReplacementRow (r : CoreCanonicalReplacement Hash) (b : Block Hash) : Prop :=
  b.kind = .canonical ∧ b.height = some r.height ∧ b.prevHash = r.header.prevBlockhash ∧
    b.coinbaseStatus = .complete

/-- The row of a displaced block: stale at its old height, displaced by `competitor`. -/
def IsDemotedRow (old : LockedCanonicalRow Hash) (competitor : Hash) (b : Block Hash) : Prop :=
  b.kind = .stale ∧ b.height = some old.height ∧ b.competitor = some competitor

/-! ### One statement of the mutation -/

variable {r : CoreCanonicalReplacement Hash}

theorem writesOne_upsertReplacement {m m' : ReadModel Hash}
    (hheight : ∀ b ∈ m.blocks.find? (blockHash r.header), b.kind = .canonical →
      ∀ n ∈ b.height, n = r.height)
    (h : upsertReplacement blockHash m r = .ok m') :
    m.WritesOne m' (blockHash r.header) (IsReplacementRow r) := by
  obtain ⟨hevents, hblocks⟩ := upsertBlockRow_eq_ok h
  obtain ⟨hprev, hkind, hheight', hstatus⟩ := BlockWriteMode.synthesizedCore_row
    (show (coreCanonicalRow (blockHash r.header) r.header r.height (some r.coinbase)).kind =
      .canonical from rfl) rfl fun b hb hkind n hn => congrArg some (hheight b hb hkind n hn).symm
  exact ⟨.of_events_eq hevents, fun k hk => (hblocks k).trans (if_neg hk), _,
    (hblocks _).trans (if_pos rfl), hkind, hheight', hprev, hstatus rfl⟩

theorem mem_activeEvents_of_findAnchorEventForBlock {m : ReadModel Hash} {h : Hash}
    {event : MergeMiningEvent Hash} (he : m.findAnchorEventForBlock h = some event) :
    event ∈ m.activeEvents h :=
  Table.mem_of_firstBy he

theorem writesOne_demoteDisplacedParent {m m' : ReadModel Hash} {old : LockedCanonicalRow Hash}
    {competitor : Hash} (hv : Vouched catalogue blockHash m old.hash)
    (hpresent : ∃ b, m.blocks.find? old.hash = some b)
    (h : demoteDisplacedParent blockHash catalogue m old competitor = .ok m') :
    m.WritesOne m' old.hash (IsDemotedRow old competitor) := by
  rw [demoteDisplacedParent] at h
  split at h
  · next event he =>
      obtain ⟨hsame, hothers, b, hb, ⟨_, _, hcols⟩, -⟩ := writesOne_reconcileOneEventInTxn
        (mem_activeEvents_of_findAnchorEventForBlock he) hv (by simp [staleVerdict]) h
      rw [verdictColumns_stale rfl] at hcols
      simp only [staleVerdict, Except.ok.injEq, Prod.mk.injEq] at hcols
      exact ⟨hsame, hothers, b, hb, hcols.1.symm, hcols.2.1.symm, hcols.2.2.2.1.symm⟩
  · obtain rfl := putBlocks_eq_ok h
    obtain ⟨b, hb⟩ := hpresent
    refine ⟨.of_events_eq rfl, fun k hk => ?_, demotedRow old competitor b, ?_, rfl, rfl, rfl⟩
    · simp only [Table.find?_update]
      cases hk' : m.blocks.find? k with
      | none => rfl
      | some b => simp [Table.key_of_find? hk', hk]
    · simp [Table.find?_update, hb, Table.key_of_find? hb]

theorem writesOne_reconcileReplacementParent {m m' : ReadModel Hash}
    (hv : Vouched catalogue blockHash m (blockHash r.header))
    (hextends : ∀ e ∈ m.activeEvents (blockHash r.header),
      e.parentPrevHash = r.header.prevBlockhash)
    (h : reconcileReplacementParent blockHash catalogue m r = .ok m') :
    m' = m ∨ m.WritesOne m' (blockHash r.header) (IsReplacementRow r) := by
  rw [reconcileReplacementParent] at h
  split at h
  · exact .inl (Except.ok.inj h).symm
  · next event he =>
      obtain ⟨hsame, hothers, b, hb, ⟨_, _, hcols⟩, ⟨e, he, hprev⟩, hcoinbase⟩ :=
        writesOne_reconcileOneEventInTxn (mem_activeEvents_of_findAnchorEventForBlock he) hv
          (by simp [canonicalVerdict]) h
      rw [verdictColumns_canonical rfl] at hcols
      simp only [canonicalVerdict, Except.ok.injEq, Prod.mk.injEq] at hcols
      rw [show b.hash = blockHash r.header from Table.key_of_find? hb] at he
      exact .inr ⟨hsame, hothers, b, hb, hcols.1.symm, hcols.2.1.symm,
        hprev.trans (hextends e he), hcoinbase rfl⟩

theorem rebindStaleCompetitors_eq_ok {m m' : ReadModel Hash} {old : LockedCanonicalRow Hash}
    {competitor : Hash} (h : rebindStaleCompetitors m old competitor = .ok m') :
    m'.events = m.events ∧ ∀ k, m'.blocks.find? k = m.blocks.find? k ∨
      ∃ b, m.blocks.find? k = some b ∧ b.kind = .stale ∧ b.competitor = some old.hash ∧
        m'.blocks.find? k = some { b with competitor := some competitor } := by
  obtain rfl := putBlocks_eq_ok h
  refine ⟨rfl, fun k => ?_⟩
  simp only [Table.find?_update]
  cases hk : m.blocks.find? k with
  | none => exact .inl rfl
  | some b =>
    by_cases hb : b.kind = .stale ∧ b.height = some old.height ∧ b.competitor = some old.hash
    · exact .inr ⟨b, rfl, hb.1, hb.2.2, by simp [hb]⟩
    · refine .inl ?_
      rw [map_some, if_neg (by simpa [and_assoc] using hb)]

/-! ### The three loops -/

/-- What the mutation of `m` may rely on. -/
structure MutationPromise (blockHash : Header Hash → Hash) (catalogue : Hash → Option InvalidBlock)
    (m : ReadModel Hash) (replacements : List (CoreCanonicalReplacement Hash))
    (displaced : List (LockedCanonicalRow Hash)) : Prop where
  one_height : ∀ r ∈ replacements, ∀ b ∈ m.blocks.find? (blockHash r.header),
    b.kind = .canonical → ∀ n ∈ b.height, n = r.height
  distinct : ∀ r ∈ replacements, ∀ r' ∈ replacements,
    blockHash r.header = blockHash r'.header → r = r'
  disjoint : ∀ r ∈ replacements, ∀ old ∈ displaced, blockHash r.header ≠ old.hash
  distinct_displaced : ∀ old ∈ displaced, ∀ old' ∈ displaced, old.hash = old'.hash → old = old'
  present : ∀ old ∈ displaced, ∃ b, m.blocks.find? old.hash = some b
  vouched : ∀ r ∈ replacements, Vouched catalogue blockHash m (blockHash r.header)
  vouched_displaced : ∀ old ∈ displaced, Vouched catalogue blockHash m old.hash
  extends_prev : ∀ r ∈ replacements, ∀ e ∈ m.activeEvents (blockHash r.header),
    e.parentPrevHash = r.header.prevBlockhash

variable {m₀ m m' : ReadModel Hash} {replacements : List (CoreCanonicalReplacement Hash)}
  {displaced : List (LockedCanonicalRow Hash)}

/-- The first loop gives every replacement its row and writes no other. -/
theorem foldlM_upsertReplacement
    (hp : MutationPromise blockHash catalogue m₀ replacements displaced)
    (h : replacements.foldlM (upsertReplacement blockHash) m₀ = .ok m) :
    m₀.SameEvidence m ∧
      (∀ r ∈ replacements, ∃ b, m.blocks.find? (blockHash r.header) = some b ∧
        IsReplacementRow r b) ∧
      ∀ k, (∀ r ∈ replacements, blockHash r.header ≠ k) →
        m.blocks.find? k = m₀.blocks.find? k := by
  refine foldlM_invariant (J := fun done m => m₀.SameEvidence m ∧
    (∀ r ∈ done, ∃ b, m.blocks.find? (blockHash r.header) = some b ∧ IsReplacementRow r b) ∧
    ∀ k, (∀ r ∈ done, blockHash r.header ≠ k) → m.blocks.find? k = m₀.blocks.find? k)
    ⟨.of_events_eq rfl, by simp, fun _ _ => rfl⟩ ?_ h
  rintro done r rest m₁ m₂ hsplit ⟨hsame, hdone, hrest⟩ hr
  have hmem : ∀ r' ∈ done ++ [r], r' ∈ replacements := by
    intro r' hr'
    rw [hsplit]
    simp only [mem_append, mem_singleton] at hr'
    simp only [mem_append, mem_cons]
    tauto
  -- a replacement of this hash would be this replacement
  have hnew : m₁.WritesOne m₂ (blockHash r.header) (IsReplacementRow r) := by
    refine writesOne_upsertReplacement (fun b hb hkind n hn => ?_) hr
    by_cases hin : ∃ r' ∈ done, blockHash r'.header = blockHash r.header
    · obtain ⟨r', hr', heq⟩ := hin
      obtain rfl := hp.distinct r' (hmem r' (by simp [hr'])) r (hmem r (by simp)) heq
      obtain ⟨b', hb', hrow⟩ := hdone r' hr'
      obtain rfl : b' = b := some.inj (hb'.symm.trans hb)
      exact some.inj (hn.symm.trans hrow.2.1)
    · rw [hrest _ fun r' hr' heq => hin ⟨r', hr', heq⟩] at hb
      exact hp.one_height r (hmem r (by simp)) b hb hkind n hn
  refine ⟨hsame.trans hnew.evidence, fun r' hr' => ?_, fun k hk => ?_⟩
  · by_cases heq : blockHash r'.header = blockHash r.header
    · obtain rfl := hp.distinct r' (hmem r' hr') r (hmem r (by simp)) heq
      exact hnew.row
    · rw [hnew.others _ heq]
      refine hdone r' ((mem_append.mp hr').resolve_right fun h => heq ?_)
      rw [mem_singleton.mp h]
  · rw [hnew.others k fun h => hk r (by simp) h.symm]
    exact hrest k fun r' hr' => hk r' (mem_append_left _ hr')

/-- Every replacement has its row, the blocks of `demoted` are demoted to stale, and a canonical
block that is neither replaced nor displaced is as it was. -/
structure Midway (blockHash : Header Hash → Hash) (m₀ : ReadModel Hash)
    (replacements : List (CoreCanonicalReplacement Hash))
    (displaced demoted : List (LockedCanonicalRow Hash)) (m : ReadModel Hash) : Prop where
  evidence : m₀.SameEvidence m
  replaced : ∀ r ∈ replacements, ∃ b, m.blocks.find? (blockHash r.header) = some b ∧
    IsReplacementRow r b
  present : ∀ old ∈ displaced, ∃ b, m.blocks.find? old.hash = some b
  demoted : ∀ old ∈ demoted, ∃ r ∈ replacements, ∃ b, r.height = old.height ∧
    m.blocks.find? old.hash = some b ∧ IsDemotedRow old (blockHash r.header) b
  untouched : ∀ k, (∀ r ∈ replacements, blockHash r.header ≠ k) →
    (∀ old ∈ displaced, old.hash ≠ k) →
    (m.blocks.find? k).filter (·.kind = .canonical) =
      (m₀.blocks.find? k).filter (·.kind = .canonical)

namespace Midway

variable {demoted : List (LockedCanonicalRow Hash)} {old : LockedCanonicalRow Hash}
  {r : CoreCanonicalReplacement Hash}
  (hp : MutationPromise blockHash catalogue m₀ replacements displaced)
  (hm : Midway blockHash m₀ replacements displaced demoted m)
include hp hm

theorem demote (hsub : ∀ old' ∈ demoted, old' ∈ displaced) (hold : old ∈ displaced)
    (hr : r ∈ replacements) (hheight : r.height = old.height)
    (h : demoteDisplacedParent blockHash catalogue m old (blockHash r.header) = .ok m') :
    Midway blockHash m₀ replacements displaced (demoted ++ [old]) m' := by
  have hw := writesOne_demoteDisplacedParent
    ((hp.vouched_displaced old hold).sameEvidence hm.evidence) (hm.present old hold) h
  refine ⟨hm.evidence.trans hw.evidence, fun r' hr' => ?_, fun old' hold' => ?_,
    fun old' hold' => ?_, fun k hk hk' => ?_⟩
  · rw [hw.others _ (hp.disjoint r' hr' old hold)]
    exact hm.replaced r' hr'
  · by_cases heq : old'.hash = old.hash
    · obtain ⟨b, hb, -⟩ := hw.row
      exact ⟨b, heq ▸ hb⟩
    · rw [hw.others _ heq]
      exact hm.present old' hold'
  · have hold'' : old' ∈ displaced := by
      rcases mem_append.mp hold' with h' | h'
      · exact hsub old' h'
      · exact mem_singleton.mp h' ▸ hold
    by_cases heq : old'.hash = old.hash
    · obtain rfl := hp.distinct_displaced old' hold'' old hold heq
      obtain ⟨b, hb, hrow⟩ := hw.row
      exact ⟨r, hr, b, hheight, hb, hrow⟩
    · rw [hw.others _ heq]
      refine hm.demoted old' ((mem_append.mp hold').resolve_right fun h' => heq ?_)
      rw [mem_singleton.mp h']
  · rw [hw.others k (hk' old hold).symm]
    exact hm.untouched k hk hk'

/-- Rebinding touches stale blocks whose competitor is displaced: no canonical block, and no demoted
one, whose competitor is a replacement. -/
theorem rebind (hold : old ∈ displaced) {competitor : Hash}
    (h : rebindStaleCompetitors m old competitor = .ok m') :
    Midway blockHash m₀ replacements displaced demoted m' := by
  obtain ⟨hevents, hrows⟩ := rebindStaleCompetitors_eq_ok h
  refine ⟨hm.evidence.trans (.of_events_eq hevents), fun r hr => ?_, fun old' hold' => ?_,
    fun old' hold' => ?_, fun k hk hk' => ?_⟩
  · obtain ⟨b, hb, hrow⟩ := hm.replaced r hr
    rcases hrows (blockHash r.header) with heq | ⟨b', hb', hstale, -, -⟩
    · exact ⟨b, heq.trans hb, hrow⟩
    · obtain rfl : b' = b := some.inj (hb'.symm.trans hb)
      exact absurd (hstale.symm.trans hrow.1) (by simp)
  · obtain ⟨b, hb⟩ := hm.present old' hold'
    rcases hrows old'.hash with heq | ⟨_, _, _, _, hb'⟩
    · exact ⟨b, heq.trans hb⟩
    · exact ⟨_, hb'⟩
  · obtain ⟨r, hr, b, hheight, hb, hrow⟩ := hm.demoted old' hold'
    rcases hrows old'.hash with heq | ⟨b', hb', -, hcomp, -⟩
    · exact ⟨r, hr, b, hheight, heq.trans hb, hrow⟩
    · obtain rfl : b' = b := some.inj (hb'.symm.trans hb)
      exact absurd (some.inj (hrow.2.2.symm.trans hcomp)) (hp.disjoint r hr old hold)
  · rw [← hm.untouched k hk hk']
    rcases hrows k with heq | ⟨b, hb, hstale, -, hb'⟩
    · rw [heq]
    · rw [hb, hb', filter_some_neg (by simp [hstale]),
        filter_some_neg (by simp [hstale])]

theorem reconcile (hsub : ∀ old ∈ demoted, old ∈ displaced) (hr : r ∈ replacements)
    (h : reconcileReplacementParent blockHash catalogue m r = .ok m') :
    Midway blockHash m₀ replacements displaced demoted m' := by
  have hextends : ∀ e ∈ m.activeEvents (blockHash r.header),
      e.parentPrevHash = r.header.prevBlockhash := by
    intro e he
    obtain ⟨e₀, he₀, hproof⟩ := hm.evidence.exists_mem he
    obtain ⟨-, -, hprev⟩ : _ ∧ _ ∧ e₀.parentPrevHash = e.parentPrevHash := by
      simpa [proof] using hproof
    exact hprev.symm.trans (hp.extends_prev r hr e₀ he₀)
  rcases writesOne_reconcileReplacementParent ((hp.vouched r hr).sameEvidence hm.evidence) hextends
    h with rfl | hw
  · exact hm
  · refine ⟨hm.evidence.trans hw.evidence, fun r' hr' => ?_, fun old hold => ?_,
      fun old hold => ?_, fun k hk hk' => ?_⟩
    · by_cases heq : blockHash r'.header = blockHash r.header
      · obtain rfl := hp.distinct r' hr' r hr heq
        exact hw.row
      · rw [hw.others _ heq]
        exact hm.replaced r' hr'
    · rw [hw.others _ (hp.disjoint r hr old hold).symm]
      exact hm.present old hold
    · rw [hw.others _ (hp.disjoint r hr old (hsub old hold)).symm]
      exact hm.demoted old hold
    · rw [hw.others k (hk r hr).symm]
      exact hm.untouched k hk hk'

end Midway

/-- **A committed mutation.**  Every replacement has its canonical row, every displaced block is stale
with the replacement at its height as competitor, and no other canonical block is touched. -/
theorem applySuffixMutation_eq_ok {plan : SuffixMutationPlan Hash}
    (hp : MutationPromise blockHash catalogue m₀ replacements plan.displaced)
    (hplan : plan.replacementHashes = replacements.map fun r => (r.height, blockHash r.header))
    (h : applySuffixMutation blockHash catalogue m₀ replacements plan = .ok m) :
    Midway blockHash m₀ replacements plan.displaced plan.displaced m := by
  obtain ⟨m₁, h₁, h⟩ := bind_eq_ok.mp h
  obtain ⟨m₂, h₂, h₃⟩ := bind_eq_ok.mp h
  obtain ⟨hsame, hreplaced, hrest⟩ := foldlM_upsertReplacement hp (mapError_eq_ok.mp h₁)
  have hdisplaced₁ : ∀ old ∈ plan.displaced,
      m₁.blocks.find? old.hash = m₀.blocks.find? old.hash :=
    fun old hold => hrest old.hash fun r hr => hp.disjoint r hr old hold
  have hmid₁ : Midway blockHash m₀ replacements plan.displaced [] m₁ :=
    ⟨hsame, hreplaced, fun old hold => hdisplaced₁ old hold ▸ hp.present old hold, by simp,
      fun k hk _ => by rw [hrest k hk]⟩
  have hmid₂ : Midway blockHash m₀ replacements plan.displaced plan.displaced m₂ := by
    refine foldlM_invariant
      (J := fun done m => Midway blockHash m₀ replacements plan.displaced done m) hmid₁ ?_ h₂
    intro done old rest m m' hsplit hm hold
    have hmem : old ∈ plan.displaced := by simp [hsplit]
    rw [displace, hplan] at hold
    obtain ⟨competitor, hlookup, hold⟩ := bind_eq_ok.mp hold
    obtain ⟨m₃, hdemote, hrebind⟩ := bind_eq_ok.mp hold
    obtain ⟨r, hr, hheight, rfl⟩ := exists_of_lookup_eq (required_eq_ok.mp hlookup)
    exact (hm.demote hp (fun old' hold' => by simp [hsplit, hold']) hmem hr hheight
      (mapError_eq_ok.mp hdemote)).rebind hp hmem (mapError_eq_ok.mp hrebind)
  exact foldlM_invariant
    (J := fun _ m => Midway blockHash m₀ replacements plan.displaced plan.displaced m) hmid₂
    (fun done r rest m m' hsplit hm hr => hm.reconcile hp (fun _ h => h) (by simp [hsplit]) hr)
    (mapError_eq_ok.mp h₃)

/-! ### The transaction -/

theorem validateLinks_eq_ok {u : Unit} {replacements : List (CoreCanonicalReplacement Hash)} :
    validateLinks blockHash replacements = .ok u ↔ replacements.IsChain fun a b =>
      b.height = a.height + 1 ∧ b.header.prevBlockhash = blockHash a.header := by
  induction replacements with
  | nil => simp [validateLinks]
  | cons a rest ih =>
    cases rest with
    | nil => simp [validateLinks]
    | cons b rest =>
      rw [validateLinks, isChain_cons_cons, ← ih]
      simp only [bind_eq_ok, ensure_eq_ok, exists_and_left, exists_const, and_assoc]

theorem validateAncestor_eq_ok {u : Unit} {prev : Hash}
    {rows : List (ExpectedCoreCanonicalRow Hash)} :
    validateAncestor prev rows = .ok u ↔ ∃ row, rows = [row] ∧ row.hash = prev := by
  rcases rows with _ | ⟨row, _ | ⟨row', rest⟩⟩ <;> simp [validateAncestor]

/-- What `validate_replacement` accepts: a linked suffix that starts right above the one expected row
at the ancestor's height, and extends it. -/
theorem validateReplacement_eq_ok {u : Unit} {ancestor : Int}
    {expectedLocal : List (ExpectedCoreCanonicalRow Hash)}
    {replacements : List (CoreCanonicalReplacement Hash)} :
    validateReplacement blockHash ancestor expectedLocal replacements = .ok u ↔
      ∃ first row, replacements.head? = some first ∧ InI32 (ancestor + 1) ∧
        first.height = ancestor + 1 ∧
        (replacements.IsChain fun a b =>
          b.height = a.height + 1 ∧ b.header.prevBlockhash = blockHash a.header) ∧
        (expectedLocal.filter fun row => row.height = ancestor) = [row] ∧
        row.hash = first.header.prevBlockhash := by
  rw [validateReplacement]
  cases hhead : replacements.head? with
  | none => simp
  | some first =>
    simp only [bind_eq_ok, ensure_eq_ok, validateLinks_eq_ok, validateAncestor_eq_ok,
      exists_and_left, exists_const, Option.some.injEq, exists_eq_left']

variable [ToString Hash]

/-- The steps of a committed replacement. -/
structure Commit (blockHash : Header Hash → Hash) (catalogue : Hash → Option InvalidBlock)
    (db db' : Db Hash) (now ancestor : Int) (input : CoreSuffixReplacementInput Hash)
    (first target : CoreCanonicalReplacement Hash) (plan : SuffixMutationPlan Hash)
    (row row' : SyncStateRow Hash) (pending : ReplacementPending Hash) : Prop where
  valid : validateReplacement blockHash ancestor input.expectedLocal input.replacements = .ok ()
  head : input.replacements.head? = some first
  last : input.replacements.getLast? = some target
  syncState : db.syncState = some row
  verified : verifyExpectedRows (loadLockedCanonicalRows db.readModel ancestor target.height)
    (normalizedExpectedSuffix input.expectedLocal ancestor target.height) = .ok ()
  plan_eq : plan = planSuffixMutation blockHash
    (loadLockedCanonicalRows db.readModel ancestor target.height) input.replacements first.height
  mutation : applySuffixMutation blockHash catalogue db.readModel input.replacements plan =
    .ok db'.readModel
  queue : db.queue.enqueueCoreReconcileHashes now plan.affectedHashes true = some db'.queue
  marked : row.markReplacementPending pending = .ok row'
  syncState' : db'.syncState = some row'
  cursor : pending.contiguousCompleteHeight =
    if ancestor ≤ row.contiguousCompleteHeight then target.height
    else row.contiguousCompleteHeight

theorem replaceCoreCanonicalSuffixValidated_eq_ok {db db' : Db Hash} {now cch ancestor : Int}
    {input : CoreSuffixReplacementInput Hash} {before after : Except SuffixError Unit}
    {summary : CoreSuffixReplacementSummary}
    (h : replaceCoreCanonicalSuffixValidated blockHash catalogue db now cch ancestor input before
      after = .ok (db', summary)) :
    ∃ first target plan row row' pending, row.contiguousCompleteHeight = cch ∧
      Commit blockHash catalogue db db' now ancestor input first target plan row row' pending := by
  rw [replaceCoreCanonicalSuffixValidated] at h
  obtain ⟨_, hvalid, h⟩ := bind_eq_ok.mp h
  split at h
  · next first target hfirst htarget =>
      obtain ⟨_, -, h⟩ := bind_eq_ok.mp h
      obtain ⟨_, -, h⟩ := bind_eq_ok.mp h
      obtain ⟨row, hrow, h⟩ := bind_eq_ok.mp h
      obtain ⟨_, hverify, h⟩ := bind_eq_ok.mp h
      obtain ⟨readModel, hmutation, h⟩ := bind_eq_ok.mp h
      obtain ⟨queue, hqueue, h⟩ := bind_eq_ok.mp h
      obtain ⟨row', hmarked, h⟩ := bind_eq_ok.mp h
      obtain ⟨_, -, h⟩ := bind_eq_ok.mp h
      cases h
      obtain ⟨row₀, hrow₀, hrow⟩ := bind_eq_ok.mp hrow
      obtain ⟨_, hcch, hrow⟩ := bind_eq_ok.mp hrow
      cases hrow
      exact ⟨first, target, _, row, row', _, ensure_eq_ok.mp hcch, hvalid, hfirst, htarget,
        required_eq_ok.mp hrow₀, hverify, rfl, hmutation, required_eq_ok.mp hqueue,
        mapError_eq_ok.mp hmarked, rfl, rfl⟩
  · cases h

/-! ### The canonical blocks after a commit -/

/-- What Core and the writers of the evidence promise of the blocks of active chains.  A block has
one height, among the canonical blocks and the replacements.  Active evidence for a canonical block
or a replacement meets the Bitcoin target and is of no catalogued invalid block, and a
replacement's evidence extends what its header extends. -/
structure ChainPromise (blockHash : Header Hash → Hash) (catalogue : Hash → Option InvalidBlock)
    (m : ReadModel Hash) (replacements : List (CoreCanonicalReplacement Hash)) : Prop where
  one_height : ∀ r ∈ replacements, ∀ n b, m.CanonicalAt n b → b.hash = blockHash r.header →
    n = r.height
  one_height_replaced : ∀ r ∈ replacements, ∀ r' ∈ replacements,
    blockHash r.header = blockHash r'.header → r.height = r'.height
  vouched : ∀ r ∈ replacements, Vouched catalogue blockHash m (blockHash r.header)
  vouched_canonical : ∀ n b, m.CanonicalAt n b → Vouched catalogue blockHash m b.hash
  extends_prev : ∀ r ∈ replacements, ∀ e ∈ m.activeEvents (blockHash r.header),
    e.parentPrevHash = r.header.prevBlockhash

omit [ToString Hash] in
theorem mem_loadLockedCanonicalRows {m : ReadModel Hash} {lo hi : Int}
    {old : LockedCanonicalRow Hash} :
    old ∈ loadLockedCanonicalRows m lo hi ↔
      ∃ n b, m.CanonicalAt n b ∧ lo ≤ n ∧ n ≤ hi ∧ old = lockedRow n b := by
  simp only [loadLockedCanonicalRows, List.mem_map, Prod.exists, mem_canonicalBetween, and_assoc,
    eq_comm]

namespace Commit

variable {db db' : Db Hash} {now ancestor : Int} {input : CoreSuffixReplacementInput Hash}
  {first target : CoreCanonicalReplacement Hash} {plan : SuffixMutationPlan Hash}
  {row row' : SyncStateRow Hash} {pending : ReplacementPending Hash}
  (h : Commit blockHash catalogue db db' now ancestor input first target plan row row' pending)
include h

theorem linked :
    input.replacements.IsChain fun a b =>
      b.height = a.height + 1 ∧ b.header.prevBlockhash = blockHash a.header := by
  obtain ⟨_, _, _, _, _, hlinked, _⟩ := validateReplacement_eq_ok.mp h.valid
  exact hlinked

theorem numbered :
    Numbered (·.height) input.replacements :=
  h.linked.imp fun _ _ hab => hab.1

theorem first_height :
    first.height = ancestor + 1 := by
  obtain ⟨first', _, hhead, _, hstart, _⟩ := validateReplacement_eq_ok.mp h.valid
  obtain rfl : first' = first := some.inj (hhead.symm.trans h.head)
  exact hstart

variable {r : CoreCanonicalReplacement Hash} {b : Block Hash}

/-- The replacements are at the heights above the ancestor up to the target. -/
theorem height_mem
    (hr : r ∈ input.replacements) :
    ancestor < r.height ∧ r.height ≤ target.height := by
  have hrange := h.numbered.key_mem_Icc h.head h.last hr
  have := h.first_height
  omega

theorem exists_replacement
    {n : Int} (hn : ancestor < n) (hn' : n ≤ target.height) :
    ∃ r ∈ input.replacements, r.height = n := by
  have := h.first_height
  exact h.numbered.exists_key_eq h.head h.last (by omega) hn'

/-- A block is displaced when it was canonical at a replaced height with another hash than the
replacement there. -/
theorem mem_displaced
    {old : LockedCanonicalRow Hash} :
    old ∈ plan.displaced ↔ ∃ n b, ∃ r ∈ input.replacements, db.readModel.CanonicalAt n b ∧
      r.height = n ∧ blockHash r.header ≠ b.hash ∧ old = lockedRow n b := by
  have hstart := h.first_height
  rw [h.plan_eq, planSuffixMutation, mem_filter, mem_loadLockedCanonicalRows]
  simp only [Bool.and_eq_true, decide_eq_true_eq, ne_eq]
  constructor
  · rintro ⟨⟨n, b, hb, hlo, hhi, rfl⟩, hfirst, hlookup⟩
    obtain ⟨r, hr, hheight⟩ := h.exists_replacement (n := n)
      (by simp only [lockedRow] at hfirst; omega) hhi
    refine ⟨n, b, r, hr, hb, hheight, fun heq => hlookup ?_, rfl⟩
    rw [lockedRow, ← hheight, h.numbered.lookup_eq hr, heq]
  · rintro ⟨n, b, r, hr, hb, rfl, hne, rfl⟩
    have hrange := h.height_mem hr
    refine ⟨⟨r.height, b, hb, by omega, by omega, rfl⟩, by simp only [lockedRow]; omega, ?_⟩
    rw [lockedRow, h.numbered.lookup_eq hr]
    exact fun heq => hne (some.inj heq)

/-- The queued hashes are those of the replacements and of the displaced blocks. -/
theorem mem_affectedHashes
    {k : Hash} : k ∈ plan.affectedHashes ↔ ∃ r ∈ input.replacements, k = blockHash r.header ∨
      ∃ b, db.readModel.CanonicalAt r.height b ∧ b.hash = k ∧ b.hash ≠ blockHash r.header := by
  have hmem : k ∈ plan.affectedHashes ↔
      (∃ r ∈ input.replacements, blockHash r.header = k) ∨ ∃ old ∈ plan.displaced, old.hash = k := by
    conv_lhs => rw [h.plan_eq]
    simp only [planSuffixMutation, mem_sortedDistinct, List.mem_append, List.map_map, List.mem_map,
      Function.comp_apply, h.plan_eq]
  rw [hmem]
  constructor
  · rintro (⟨r, hr, rfl⟩ | ⟨old, hold, rfl⟩)
    · exact ⟨r, hr, .inl rfl⟩
    · obtain ⟨n, b, r, hr, hb, rfl, hne, rfl⟩ := h.mem_displaced.mp hold
      exact ⟨r, hr, .inr ⟨b, hb, rfl, hne.symm⟩⟩
  · rintro ⟨r, hr, rfl | ⟨b, hb, rfl, hne⟩⟩
    · exact .inl ⟨r, hr, rfl⟩
    · exact .inr ⟨lockedRow r.height b,
        h.mem_displaced.mpr ⟨r.height, b, r, hr, hb, rfl, hne.symm, rfl⟩, rfl⟩

variable (hp : ChainPromise blockHash catalogue db.readModel input.replacements)
include hp

theorem eq_of_hash_eq
    {r r' : CoreCanonicalReplacement Hash} (hr : r ∈ input.replacements)
    (hr' : r' ∈ input.replacements) (heq : blockHash r.header = blockHash r'.header) : r = r' :=
  h.numbered.eq_of_key_eq hr hr' (hp.one_height_replaced r hr r' hr' heq)

theorem displaced_ne
    (hr : r ∈ input.replacements)
    {old : LockedCanonicalRow Hash} (hold : old ∈ plan.displaced) :
    blockHash r.header ≠ old.hash := by
  obtain ⟨n, b, r', hr', hb, hheight, hne, rfl⟩ := h.mem_displaced.mp hold
  intro heq
  have hr_height := hp.one_height r hr n b hb heq.symm
  obtain rfl := h.numbered.eq_of_key_eq hr hr' (hr_height.symm.trans hheight.symm)
  exact hne heq

theorem midway
    :
    Midway blockHash db.readModel input.replacements plan.displaced plan.displaced
      db'.readModel := by
  have hpromise : MutationPromise blockHash catalogue db.readModel input.replacements
      plan.displaced := by
    refine ⟨fun r hr b hb hkind n hn => ?_, fun r hr r' hr' => h.eq_of_hash_eq hp hr hr',
      fun r hr old hold => h.displaced_ne hp hr hold, fun old hold old' hold' heq => ?_,
      fun old hold => ?_, hp.vouched, fun old hold => ?_, hp.extends_prev⟩
    · have hhash := Table.key_of_find? hb
      exact hp.one_height r hr n b ⟨hhash ▸ hb, hkind, hn⟩ hhash
    · obtain ⟨n, b, _, _, hb, _, _, rfl⟩ := h.mem_displaced.mp hold
      obtain ⟨n', b', _, _, hb', _, _, rfl⟩ := h.mem_displaced.mp hold'
      have hhash : b.hash = b'.hash := heq
      obtain rfl : b = b' := some.inj ((hhash ▸ hb.1).symm.trans hb'.1)
      rw [some.inj (hb.2.2.symm.trans hb'.2.2)]
    · obtain ⟨n, b, _, _, hb, _, _, rfl⟩ := h.mem_displaced.mp hold
      exact ⟨b, hb.1⟩
    · obtain ⟨n, b, _, _, hb, _, _, rfl⟩ := h.mem_displaced.mp hold
      exact hp.vouched_canonical n b hb
  exact applySuffixMutation_eq_ok hpromise (by rw [h.plan_eq]; rfl) h.mutation

/-- Where a block that is canonical after the commit comes from: it is a replacement, or it was
canonical before at a height that is not replaced. -/
theorem canonicalAt_cases
    {n : Int} (hb : db'.readModel.CanonicalAt n b) :
    (∃ r ∈ input.replacements, b.hash = blockHash r.header ∧ r.height = n ∧
      IsReplacementRow r b) ∨
      (db.readModel.CanonicalAt n b ∧ ¬ (ancestor < n ∧ n ≤ target.height)) := by
  have hm := h.midway hp
  obtain ⟨hfind, hkind, hheight⟩ := hb
  by_cases hin : ∃ r ∈ input.replacements, blockHash r.header = b.hash
  · obtain ⟨r, hr, heq⟩ := hin
    obtain ⟨b', hb', hrow⟩ := hm.replaced r hr
    obtain rfl : b' = b := some.inj ((heq ▸ hb').symm.trans hfind)
    exact .inl ⟨r, hr, heq.symm, some.inj (hrow.2.1.symm.trans hheight), hrow⟩
  · by_cases hold : ∃ old ∈ plan.displaced, old.hash = b.hash
    · obtain ⟨old, hold, heq⟩ := hold
      obtain ⟨_, _, b', _, hb', hrow⟩ := hm.demoted old hold
      obtain rfl : b' = b := some.inj ((heq ▸ hb').symm.trans hfind)
      exact absurd (hkind.symm.trans hrow.1) (by simp)
    · have hsame := hm.untouched b.hash (fun r hr heq => hin ⟨r, hr, heq⟩)
        (fun old hold' heq => hold ⟨old, hold', heq⟩)
      rw [hfind, filter_some_pos (by simpa using hkind)] at hsame
      have hfind₀ := (filter_eq_some_iff.mp hsame.symm).1
      refine .inr ⟨⟨hfind₀, hkind, hheight⟩, fun ⟨hlo, hhi⟩ => ?_⟩
      -- a canonical block at a replaced height, of another hash, is displaced
      obtain ⟨r, hr, hr'⟩ := h.exists_replacement hlo hhi
      exact hold ⟨lockedRow n b, h.mem_displaced.mpr ⟨n, b, r, hr, ⟨hfind₀, hkind, hheight⟩, hr',
        fun heq => hin ⟨r, hr, heq⟩, rfl⟩, rfl⟩

theorem canonicalAt_of_not_replaced
    {n : Int} (hb : db.readModel.CanonicalAt n b)
    (hn : ¬ (ancestor < n ∧ n ≤ target.height)) : db'.readModel.CanonicalAt n b := by
  have hm := h.midway hp
  obtain ⟨hfind, hkind, hheight⟩ := hb
  have hsame := hm.untouched b.hash
    (fun r hr heq => hn (hp.one_height r hr n b ⟨hfind, hkind, hheight⟩ heq.symm ▸ h.height_mem hr))
    (fun old hold heq => by
      obtain ⟨n', b', r, hr, hb', rfl, -, rfl⟩ := h.mem_displaced.mp hold
      have hhash : b'.hash = b.hash := heq
      obtain rfl : b' = b := some.inj ((hhash ▸ hb'.1).symm.trans hfind)
      rw [some.inj (hheight.symm.trans hb'.2.2)] at hn
      exact hn (h.height_mem hr))
  rw [hfind, filter_some_pos (by simpa using hkind)] at hsame
  exact ⟨(filter_eq_some_iff.mp hsame).1, hkind, hheight⟩

theorem canonicalAt_replaced
    (hr : r ∈ input.replacements) :
    ∃ b, db'.readModel.CanonicalAt r.height b ∧ b.hash = blockHash r.header ∧
      IsReplacementRow r b ∧ ∀ b', db'.readModel.CanonicalAt r.height b' → b' = b := by
  obtain ⟨b, hb, hrow⟩ := (h.midway hp).replaced r hr
  have hhash : b.hash = blockHash r.header := Table.key_of_find? hb
  refine ⟨b, ⟨hhash ▸ hb, hrow.1, hrow.2.1⟩, hhash, hrow, fun b' hb' => ?_⟩
  rcases h.canonicalAt_cases hp hb' with ⟨r', hr', hhash', hheight, -⟩ | ⟨-, hnot⟩
  · obtain rfl := h.numbered.eq_of_key_eq hr' hr hheight
    exact some.inj ((hhash' ▸ hb'.1).symm.trans hb)
  · exact absurd (h.height_mem hr) hnot

/-- The canonical block below a replacement is what the replacement extends. -/
theorem hash_eq_prev
    (hr : r ∈ input.replacements)
    (hb : db'.readModel.CanonicalAt (r.height - 1) b) : b.hash = r.header.prevBlockhash := by
  obtain ⟨first', expected, hhead, -, -, hlinked, hexpected, hprev⟩ :=
    validateReplacement_eq_ok.mp h.valid
  obtain rfl : first' = first := some.inj (hhead.symm.trans h.head)
  have hstart := h.first_height
  obtain ⟨rest, hrest⟩ : ∃ rest, input.replacements = first' :: rest :=
    head?_eq_some_iff.mp h.head
  rcases mem_cons.mp (hrest ▸ hr) with rfl | hr'
  · -- below the first replacement is the ancestor, which the transaction found as expected
    rcases h.canonicalAt_cases hp hb with ⟨r', hr', -, hheight, -⟩ | ⟨hb₀, -⟩
    · have := h.height_mem hr'
      omega
    · have hrange := h.height_mem hr
      have hcurrent : (lockedRow (r.height - 1) b).expected ∈ (loadLockedCanonicalRows db.readModel
          ancestor target.height).map (·.expected) :=
        mem_map_of_mem (mem_loadLockedCanonicalRows.mpr
          ⟨_, b, hb₀, by omega, by omega, rfl⟩)
      rw [show _ = _ from ensure_eq_ok.mp h.verified, normalizedExpectedSuffix, mem_orderByKey]
        at hcurrent
      have hmem : (lockedRow (r.height - 1) b).expected ∈
          input.expectedLocal.filter fun row => row.height = ancestor :=
        mem_filter.mpr ⟨(mem_filter.mp hcurrent).1,
          decide_eq_true (show r.height - 1 = ancestor by omega)⟩
      rw [hexpected, mem_singleton] at hmem
      exact (congrArg ExpectedCoreCanonicalRow.hash hmem).trans hprev
  · obtain ⟨c, hc, hheight, hprev'⟩ := exists_rel_of_mem_tail (hrest ▸ hlinked) hr'
    have hc : c ∈ input.replacements := hrest ▸ hc
    obtain ⟨b', -, hhash, -, hunique⟩ := h.canonicalAt_replaced hp hc
    rw [show r.height - 1 = c.height by omega] at hb
    rw [hunique b hb, hhash, hprev']

/-- A displaced block is stale, with the replacement at its height as competitor. -/
theorem demoted
    (hr : r ∈ input.replacements)
    (hb : db.readModel.CanonicalAt r.height b) (hne : blockHash r.header ≠ b.hash) :
    ∃ b', db'.readModel.blocks.find? b.hash = some b' ∧ b'.kind = .stale ∧
      b'.height = some r.height ∧ b'.competitor = some (blockHash r.header) := by
  obtain ⟨r', hr', b', hheight, hb', hrow⟩ := (h.midway hp).demoted (lockedRow r.height b)
    (h.mem_displaced.mpr ⟨r.height, b, r, hr, hb, rfl, hne, rfl⟩)
  obtain rfl := h.numbered.eq_of_key_eq hr' hr hheight
  exact ⟨b', hb', hrow⟩

end Commit

end MergeMiningMonitor
