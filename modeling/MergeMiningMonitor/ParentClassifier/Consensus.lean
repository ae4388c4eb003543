import MergeMiningMonitor.ParentClassifier.Core

/-!
# Parent classifier — Consensus

The verdicts on a header that Core does not know, when Core answers from one tree of headers with an
active chain.

The placement of the candidate's predecessor is its stored height where it is stored as canonical or
stale, and its height on the active chain where it is not stored as placed.  A predecessor that is
stored as an invalid block has none.  A candidate on a placed predecessor is judged by the active block
above that predecessor, which must have its bits, and by the times of the eleven headers that are
linked below it.

Under either policy the verdict is the one of consensus (`verdict_follows_consensus`).  A child of a
block that is stored as invalid has no placement and may still be attested absent
(`Sample.invalid_predecessor_attests_absence`).
-/

namespace MergeMiningMonitor.ParentClassifier

open Sessions List Option

variable {Hash : Type}

/-! ### The tree -/

/-- The headers that Core holds, with its active chain from the genesis block on. -/
structure HeaderTree (blockHash : Header Hash → Hash) where
  header : Hash → Option (Header Hash)
  active : List Hash
  height : Hash → Int
  coinbase : Hash → Except RpcError BlockCoinbase
  /-- A hash determines its header. -/
  hash_header : ∀ h hd, header h = some hd → blockHash hd = h
  active_held : ∀ h ∈ active, ∃ hd, header h = some hd
  active_linked : active.IsChain fun a b => ∃ hd, header b = some hd ∧ hd.prevBlockhash = a
  active_height : ∀ (n : Nat) h, active[n]? = some h → height h = n
  /-- Core's heights are 32-bit. -/
  active_length : active.length ≤ 2147483648

/-- A stored block.  The table holds a height for every kind but unknown (`chk_block_kind_height`). -/
structure StoredBlock extends KnownBlockContext where
  placed : kind ≠ .unknown → btcHeight.isSome

/-- The block is stored as an invalid block at the height. -/
def StoredAsInvalid (stored : Option StoredBlock) (height : Int) : Prop :=
  ∃ block, stored = some block ∧ block.kind = .invalidBlock ∧ block.btcHeight = some height

theorem not_storedAsInvalid_none (height : Int) : ¬ StoredAsInvalid none height := by
  rintro ⟨block, hblock, -⟩
  cases hblock

theorem storedAsInvalid_some {block : StoredBlock} {height : Int} :
    StoredAsInvalid (some block) height ↔
      block.kind = .invalidBlock ∧ block.btcHeight = some height := by
  refine ⟨?_, fun h => ⟨block, rfl, h⟩⟩
  rintro ⟨block', hblock, h⟩
  obtain rfl := some.inj hblock
  exact h

theorem not_storedAsInvalid {block : StoredBlock} (hkind : block.kind ≠ .invalidBlock) (height : Int) :
    ¬ StoredAsInvalid (some block) height := fun h => hkind (storedAsInvalid_some.mp h).1

namespace HeaderTree

variable [DecidableEq Hash] {blockHash : Header Hash → Hash} (tree : HeaderTree blockHash)

/-- A Core that answers from the tree. -/
def source : Source Unit Hash where
  getBlockHash n s := (match tree.active[n]? with
    | some h => .ok h
    | none => .error .outOfRange, s)
  getBlockHeader h s := (match tree.header h with
    | some hd => .ok hd
    | none => .error .notFound, s)
  getBlockHeaderVerbose h s := (match tree.header h with
    | some _ => .ok ⟨tree.height h, if h ∈ tree.active then tree.active.length - tree.height h else -1⟩
    | none => .error .notFound, s)
  getBlockCoinbase h s := (tree.coinbase h, s)

/-- The active block at a height. -/
def activeAt (height : Int) : Option Hash := if height < 0 then none else tree.active[height.toNat]?

/-- The times of so many headers, linked from the given one down. -/
def ancestorTimes : Nat → Hash → Option (List Nat)
  | 0, _ => some []
  | n + 1, h => do
    let hd ← tree.header h
    let times ← ancestorTimes n hd.prevBlockhash
    return hd.time :: times

/-- The height of a block of the active chain. -/
def activeHeight (h : Hash) : Option Int := if h ∈ tree.active then some (tree.height h) else none

/-- The height at which a predecessor is placed. -/
def placement (stored : Option StoredBlock) (prev : Hash) : Option Int :=
  match stored with
  | none => tree.activeHeight prev
  | some block =>
    match block.kind with
    | .canonical => block.btcHeight
    | .stale => block.btcHeight
    | .invalidBlock => none
    | .unknown => tree.activeHeight prev

/-- The active block at the height has the candidate's bits. -/
def Competes (candidate : Header Hash) (height : Int) (c : Hash) : Prop :=
  tree.activeAt height = some c ∧ ∃ hd, tree.header c = some hd ∧ hd.bits = candidate.bits

/-- What consensus says of a candidate on a predecessor with the placement: the height above, the
active block there, and whether the candidate's time is above the median of its eleven ancestors.  It
says nothing unless that block has the candidate's bits and the ancestors are in the tree. -/
def ruling (candidate : Header Hash) (placement : Option Int) : Option (Int × Hash × Bool) := do
  let p ← placement
  let c ← tree.activeAt (p + 1)
  let hd ← tree.header c
  if hd.bits = candidate.bits then
    let times ← tree.ancestorTimes mtpWindow candidate.prevBlockhash
    return (p + 1, c, decide (medianTime times < candidate.time))
  else none

/-- The candidate is attested absent: its predecessor is placed nowhere, or has no active block above,
or is stored as an invalid block whose active sibling of the candidate is absent or has its bits. -/
def Absent (stored : Option StoredBlock) (candidate : Header Hash) : Prop :=
  (tree.placement stored candidate.prevBlockhash = none ∧ ∀ q, ¬ StoredAsInvalid stored q) ∨
  (∃ p, tree.placement stored candidate.prevBlockhash = some p ∧ tree.activeAt (p + 1) = none) ∨
  ∃ q, StoredAsInvalid stored q ∧
    (tree.activeAt (q + 1) = none ∨ ∃ c, tree.Competes candidate (q + 1) c)

end HeaderTree

/-- The verdict is the one of the ruling, and attests an absence under the condition. -/
structure Follows (ruling : Option (Int × Hash × Bool)) (absence : Prop) (v : Verdict Hash) :
    Prop where
  stale_iff : ∀ height c,
    (v.kind = .stale ∧ v.height = some height ∧ v.canonicalCompetitorHash = some c) ↔
      ruling = some (height, c, true)
  invalid_iff : ∀ height,
    (v.kind = .invalidBlock ∧ v.height = some height ∧ v.rejectionReason = some timeBelowMtp) ↔
      ∃ c, ruling = some (height, c, false)
  unknown_iff : v.kind = .unknown ↔ ruling = none
  absence_iff : v.coreAbsenceAttested = true ↔ absence

namespace Follows

variable {height : Int} {c : Hash} {absence : Prop} {v : Verdict Hash}

theorem of_unknown (hkind : v.kind = .unknown) (habsence : v.coreAbsenceAttested = true ↔ absence) :
    Follows none absence v where
  stale_iff _ _ := by simp [hkind]
  invalid_iff _ := by simp [hkind]
  unknown_iff := by simp [hkind]
  absence_iff := habsence

theorem of_stale (hkind : v.kind = .stale) (hheight : v.height = some height)
    (hhash : v.canonicalCompetitorHash = some c) (habsence : v.coreAbsenceAttested = true ↔ absence) :
    Follows (some (height, c, true)) absence v where
  stale_iff _ _ := by simp [hkind, hheight, hhash]
  invalid_iff _ := by simp [hkind]
  unknown_iff := by simp [hkind]
  absence_iff := habsence

theorem of_invalid (hkind : v.kind = .invalidBlock) (hheight : v.height = some height)
    (hreason : v.rejectionReason = some timeBelowMtp)
    (habsence : v.coreAbsenceAttested = true ↔ absence) :
    Follows (some (height, c, false)) absence v where
  stale_iff _ _ := by simp [hkind]
  invalid_iff _ := by simp [hkind, hheight, hreason]
  unknown_iff := by simp [hkind]
  absence_iff := habsence

theorem congr {ruling : Option (Int × Hash × Bool)} {absence' : Prop}
    (h : Follows ruling absence v) (habsence : absence ↔ absence') : Follows ruling absence' v :=
  { h with absence_iff := h.absence_iff.trans habsence }

end Follows

namespace HeaderTree

variable [DecidableEq Hash] {blockHash : Header Hash → Hash} (tree : HeaderTree blockHash)

/-! ### What the lookups return -/

omit [DecidableEq Hash] in
theorem returns_ask {α : Type} {request : Request} {call : Unit → Except RpcError α × Unit}
    {answer : Except RpcError α} (h : (call ()).1 = answer) : Returns (ask request call) answer := by
  intro c
  rw [← h]
  exact ⟨_, rfl⟩

theorem returns_getHeader {h : Hash} {hd : Header Hash} (hheld : tree.header h = some hd)
    (height : Int) :
    ∃ header, Returns (getHeader tree.source h height) (.ok header) ∧ header.hash = h ∧
      header.header = hd := by
  have hask : Returns (ask .header (tree.source.getBlockHeader h)) (.ok hd) :=
    returns_ask (by simp only [source, hheld])
  have hcoinbase : Returns (fetchCoinbase tree.source h) (coinbaseFetch (tree.coinbase h)) :=
    (returns_ask rfl).bind (.pure _)
  exact ⟨_, hask.bind (hcoinbase.bind (.pure _)), rfl, rfl⟩

theorem returns_fetchCompetitor_absent {height : Int} (hnone : tree.activeAt height = none)
    (strict : Bool) : Returns (fetchCompetitor tree.source height strict) .absent := by
  unfold fetchCompetitor
  unfold activeAt at hnone
  split
  · exact .pure _
  · rename_i hnonneg
    rw [if_neg hnonneg] at hnone
    have hask : Returns (ask .height (tree.source.getBlockHash height.toNat)) (.error .outOfRange) :=
      returns_ask (by simp only [source, hnone])
    exact hask.bind (.pure _)

theorem returns_fetchCompetitor_found {height : Int} {c : Hash} {hd : Header Hash}
    (hsome : tree.activeAt height = some c) (hheld : tree.header c = some hd) (strict : Bool) :
    ∃ competitor, Returns (fetchCompetitor tree.source height strict) (.found competitor) ∧
      competitor.hash = c ∧ competitor.header = hd := by
  unfold fetchCompetitor
  unfold activeAt at hsome
  split at hsome
  · cases hsome
  · rename_i hnonneg
    rw [if_neg hnonneg]
    have hask : Returns (ask .height (tree.source.getBlockHash height.toNat)) (.ok c) :=
      returns_ask (by simp only [source, hsome])
    obtain ⟨competitor, hget, hhash, hheader⟩ := tree.returns_getHeader hheld height
    exact ⟨competitor, hask.bind (hget.bind (.pure _)), hhash, hheader⟩

theorem returns_mtpAncestors (candidate : Header Hash) (strict : Bool) (n : Nat) :
    ∀ (expected : Hash) (times : List Nat),
      Returns (mtpAncestors tree.source blockHash candidate strict n expected times)
        (match tree.ancestorTimes n expected with
          | none => .ancestorMissing
          | some rest => .passes (medianTime (times ++ rest) < candidate.time)) := by
  induction n with
  | zero =>
    intro expected times
    simp only [ancestorTimes, append_nil]
    exact .pure _
  | succ n ih =>
    intro expected times
    cases hheld : tree.header expected with
    | none =>
      have hask : Returns (ask .header (tree.source.getBlockHeader expected))
          (.error .notFound) := returns_ask (by simp only [source, hheld])
      rw [ancestorTimes, hheld]
      exact hask.bind (.pure _)
    | some hd =>
      have hask : Returns (ask .header (tree.source.getBlockHeader expected)) (.ok hd) :=
        returns_ask (by simp only [source, hheld])
      refine hask.bind ?_
      dsimp only
      rw [if_pos (tree.hash_header expected hd hheld)]
      have hrest := ih hd.prevBlockhash (times ++ [hd.time])
      rw [ancestorTimes, hheld]
      cases htimes : tree.ancestorTimes n hd.prevBlockhash with
      | none => simpa [htimes] using hrest
      | some rest => simpa [htimes, append_assoc] using hrest

/-! ### Verdicts -/

variable {tree} {candidate : Header Hash}

omit [DecidableEq Hash] in
theorem Competes.header_bits {height : Int} {c : Hash} {hd : Header Hash}
    (h : tree.Competes candidate height c) (hheld : tree.header c = some hd) :
    hd.bits = candidate.bits := by
  obtain ⟨-, hd', hheld', hbits⟩ := h
  rwa [some.inj (hheld.symm.trans hheld')]

omit [DecidableEq Hash] in
theorem nextHeight_of_activeAt {q : Int} {c : Hash} (h : tree.activeAt (q + 1) = some c) :
    nextHeight q = some (q + 1) := by
  unfold activeAt at h
  split at h
  · cases h
  · obtain ⟨hlt, -⟩ := List.getElem?_eq_some_iff.mp h
    have hlength := tree.active_length
    exact if_pos (by omega)

theorem nextHeight_eq {q height : Int} (h : nextHeight q = some height) : height = q + 1 := by
  unfold nextHeight at h
  split at h
  · exact (some.inj h).symm
  · cases h

omit [DecidableEq Hash] in
theorem active_of_activeAt {height : Int} {c : Hash} (h : tree.activeAt height = some c) :
    c ∈ tree.active := by
  unfold activeAt at h
  split at h
  · cases h
  · exact mem_of_getElem? h

variable (tree candidate)

/-- The verdict for a competitor with the candidate's bits, by the check of the median time. -/
def verdictOfCheck (candidate : Header Hash) (height : Int)
    (predecessor : Option (ClassifiedHeader Hash)) (prevKind : BlockKind)
    (competitor : ClassifiedHeader Hash) : MtpCheck → Verdict Hash
  | .passes true =>
    classifyInferredStaleWithCompetitor candidate height predecessor prevKind (some competitor)
  | .passes false =>
    .invalidBlock candidate height (inferredHeightSource prevKind) (some true) timeBelowMtp
  | .ancestorMissing => .unknown candidate
  | .unavailable => .incompleteUnknown candidate

theorem returns_inferred_of_check (predecessor : Option (ClassifiedHeader Hash))
    (prevKind : BlockKind) {q height : Int} {strict : Bool} {competitor : ClassifiedHeader Hash}
    {check : MtpCheck} (hnext : nextHeight q = some height)
    (hfetch : Returns (fetchCompetitor tree.source height strict) (.found competitor))
    (hbits : bitsMatchExpected candidate competitor.header.bits)
    (hcheck : Returns (medianTimePastPasses tree.source blockHash candidate strict) check) :
    Returns (classifyInferredStale tree.source blockHash candidate q predecessor prevKind strict)
      (verdictOfCheck candidate height predecessor prevKind competitor check) := by
  unfold classifyInferredStale
  rw [hnext]
  refine hfetch.bind ?_
  dsimp only
  rw [if_pos hbits]
  refine hcheck.bind ?_
  cases check with
  | passes b => cases b <;> exact .pure _
  | ancestorMissing => exact .pure _
  | unavailable => exact .pure _

theorem competitor_cases (q : Int) (strict : Bool) :
    (tree.activeAt (q + 1) = none ∧ ∀ height, nextHeight q = some height →
      Returns (fetchCompetitor tree.source height strict) .absent) ∨
    ∃ c competitor, tree.activeAt (q + 1) = some c ∧ tree.header c = some competitor.header ∧
      competitor.hash = c ∧ nextHeight q = some (q + 1) ∧
      Returns (fetchCompetitor tree.source (q + 1) strict) (.found competitor) := by
  cases hat : tree.activeAt (q + 1) with
  | none =>
    refine .inl ⟨rfl, fun height hnext => ?_⟩
    obtain rfl := nextHeight_eq hnext
    exact tree.returns_fetchCompetitor_absent hat strict
  | some c =>
    obtain ⟨hd, hheld⟩ := tree.active_held c (active_of_activeAt hat)
    obtain ⟨competitor, hfetch, hhash, rfl⟩ := tree.returns_fetchCompetitor_found hat hheld strict
    exact .inr ⟨c, competitor, rfl, hheld, hhash, tree.nextHeight_of_activeAt hat, hfetch⟩

theorem follows_classifyInferredStale (q : Int) (predecessor : Option (ClassifiedHeader Hash))
    (prevKind : BlockKind) (strict : Bool) :
    ∃ v, Returns
        (classifyInferredStale tree.source blockHash candidate q predecessor prevKind strict) v ∧
      Follows (tree.ruling candidate (some q)) (tree.activeAt (q + 1) = none) v := by
  rcases tree.competitor_cases q strict with
    ⟨hat, habsent⟩ | ⟨c, competitor, hat, hheld, hhash, hnext, hfetch⟩
  · have hruling : tree.ruling candidate (some q) = none := by simp [ruling, hat]
    rw [hruling]
    refine ⟨.coreAbsenceUnknown candidate, ?_, .of_unknown rfl (iff_of_true rfl hat)⟩
    unfold classifyInferredStale
    cases hnext : nextHeight q with
    | none => exact .pure _
    | some height => exact (habsent height hnext).bind (.pure _)
  · have hpresent : false = true ↔ tree.activeAt (q + 1) = none := by simp [hat]
    by_cases hbits : bitsMatchExpected candidate competitor.header.bits
    · have hsame : competitor.header.bits = candidate.bits := (of_decide_eq_true hbits).symm
      have hmtp := tree.returns_mtpAncestors candidate strict mtpWindow candidate.prevBlockhash []
      refine ⟨_, tree.returns_inferred_of_check candidate predecessor prevKind hnext hfetch hbits
        hmtp, ?_⟩
      cases htimes : tree.ancestorTimes mtpWindow candidate.prevBlockhash with
      | none =>
        have hruling : tree.ruling candidate (some q) = none := by
          simp [ruling, htimes]
        rw [hruling]
        exact .of_unknown rfl hpresent
      | some times =>
        have hruling : tree.ruling candidate (some q) =
            some (q + 1, c, decide (medianTime times < candidate.time)) := by
          simp [ruling, hat, hheld, hsame, htimes]
        rw [hruling]
        dsimp only
        rw [nil_append]
        cases decide (medianTime times < candidate.time) with
        | true =>
          rw [verdictOfCheck, classifyInferredStaleWithCompetitor, if_pos hbits]
          exact .of_stale rfl rfl (congrArg some hhash) hpresent
        | false => exact .of_invalid rfl rfl rfl hpresent
    · have hruling : tree.ruling candidate (some q) = none := by
        have hother : competitor.header.bits ≠ candidate.bits := fun h =>
          hbits (decide_eq_true h.symm)
        simp [ruling, hat, hheld, hother]
      rw [hruling]
      refine ⟨.unknown candidate, ?_, .of_unknown rfl hpresent⟩
      unfold classifyInferredStale
      rw [hnext]
      refine hfetch.bind ?_
      dsimp only
      rw [if_neg hbits]
      exact .pure _

/-- A candidate on a predecessor that is stored as an invalid block at the height `q`. -/
theorem follows_classifyInvalidBlockChild (q : Int) (strict : Bool) :
    ∃ v, Returns (classifyInvalidBlockChild tree.source candidate q strict) v ∧
      Follows none (tree.activeAt (q + 1) = none ∨ ∃ c, tree.Competes candidate (q + 1) c) v := by
  unfold classifyInvalidBlockChild
  rcases tree.competitor_cases q strict with
    ⟨hat, habsent⟩ | ⟨c, competitor, hat, hheld, -, hnext, hfetch⟩
  · refine ⟨.coreAbsenceUnknown candidate, ?_, .of_unknown rfl (iff_of_true rfl (.inl hat))⟩
    cases hnext : nextHeight q with
    | none => exact .pure _
    | some height => exact (habsent height hnext).bind (.pure _)
  · rw [hnext]
    by_cases hbits : bitsMatchExpected candidate competitor.header.bits
    · have hcompetes : tree.Competes candidate (q + 1) c :=
        ⟨hat, competitor.header, hheld, (of_decide_eq_true hbits).symm⟩
      refine ⟨.coreAbsenceUnknown candidate, hfetch.bind ?_,
        .of_unknown rfl (iff_of_true rfl (.inr ⟨c, hcompetes⟩))⟩
      dsimp only
      rw [if_pos hbits]
      exact .pure _
    · refine ⟨.unknown candidate, hfetch.bind ?_,
        .of_unknown rfl (iff_of_false Bool.false_ne_true ?_)⟩
      · dsimp only
        rw [if_neg hbits]
        exact .pure _
      · rintro (h | ⟨d, hcompetes⟩)
        · cases hat.symm.trans h
        · obtain rfl := some.inj (hat.symm.trans hcompetes.1)
          exact hbits (decide_eq_true (hcompetes.header_bits hheld).symm)

theorem returns_classifyByPredecessor_off (hoff : candidate.prevBlockhash ∉ tree.active)
    (strict : Bool) :
    Returns (classifyByPredecessor tree.source blockHash candidate strict)
      (.coreAbsenceUnknown candidate) := by
  cases hheld : tree.header candidate.prevBlockhash with
  | none =>
    have hask : Returns (ask .header (tree.source.getBlockHeaderVerbose candidate.prevBlockhash))
        (.error .notFound) := returns_ask (by simp only [source, hheld])
    exact hask.bind (.pure _)
  | some hd =>
    have hask : Returns (ask .header (tree.source.getBlockHeaderVerbose candidate.prevBlockhash))
        (.ok ⟨tree.height candidate.prevBlockhash, -1⟩) :=
      returns_ask (by simp only [source, hheld, if_neg hoff])
    exact hask.bind (.pure _)

theorem follows_classifyByPredecessor_on (hon : candidate.prevBlockhash ∈ tree.active)
    (strict : Bool) :
    ∃ v, Returns (classifyByPredecessor tree.source blockHash candidate strict) v ∧
      Follows (tree.ruling candidate (some (tree.height candidate.prevBlockhash)))
        (tree.activeAt (tree.height candidate.prevBlockhash + 1) = none) v := by
  obtain ⟨hd, hheld⟩ := tree.active_held _ hon
  obtain ⟨n, hn⟩ := List.mem_iff_getElem?.mp hon
  obtain ⟨hlt, -⟩ := List.getElem?_eq_some_iff.mp hn
  have hheight := tree.active_height n _ hn
  have hlength := tree.active_length
  have hask : Returns (ask .header (tree.source.getBlockHeaderVerbose candidate.prevBlockhash))
      (.ok ⟨tree.height candidate.prevBlockhash,
        tree.active.length - tree.height candidate.prevBlockhash⟩) :=
    returns_ask (by simp only [source, hheld, if_pos hon])
  have hi32 : coreHeightToI32 (tree.height candidate.prevBlockhash) =
      some (tree.height candidate.prevBlockhash) := if_pos (by omega)
  obtain ⟨predecessor, hget, -, -⟩ :=
    tree.returns_getHeader hheld (tree.height candidate.prevBlockhash)
  obtain ⟨v, hv, hfollows⟩ := tree.follows_classifyInferredStale candidate
    (tree.height candidate.prevBlockhash) (some predecessor) .canonical strict
  refine ⟨v, hask.bind ?_, hfollows⟩
  dsimp only
  rw [if_neg (by omega), hi32]
  exact hget.bind hv

/-- On a placed predecessor an absence is attested when there is no active block above. -/
theorem absent_iff_of_placed {stored : Option StoredBlock} {q : Int}
    (hplaced : tree.placement stored candidate.prevBlockhash = some q)
    (hvalid : ∀ q, ¬ StoredAsInvalid stored q) :
    tree.activeAt (q + 1) = none ↔ tree.Absent stored candidate := by
  refine ⟨fun h => .inr (.inl ⟨q, hplaced, h⟩), ?_⟩
  rintro (⟨hnone, -⟩ | ⟨q', hq', h⟩ | ⟨q', hinvalid, -⟩)
  · cases hplaced.symm.trans hnone
  · obtain rfl := some.inj (hplaced.symm.trans hq')
    exact h
  · exact absurd hinvalid (hvalid q')

theorem follows_classifyByPredecessor {stored : Option StoredBlock}
    (hplaced : tree.placement stored candidate.prevBlockhash =
      tree.activeHeight candidate.prevBlockhash)
    (hvalid : ∀ q, ¬ StoredAsInvalid stored q) (strict : Bool) :
    ∃ v, Returns (classifyByPredecessor tree.source blockHash candidate strict) v ∧
      Follows (tree.ruling candidate (tree.placement stored candidate.prevBlockhash))
        (tree.Absent stored candidate) v := by
  by_cases hon : candidate.prevBlockhash ∈ tree.active
  · rw [activeHeight, if_pos hon] at hplaced
    obtain ⟨v, hv, hfollows⟩ := tree.follows_classifyByPredecessor_on candidate hon strict
    rw [hplaced]
    exact ⟨v, hv, hfollows.congr (tree.absent_iff_of_placed candidate hplaced hvalid)⟩
  · rw [activeHeight, if_neg hon] at hplaced
    have habsent : tree.Absent stored candidate := .inl ⟨hplaced, hvalid⟩
    rw [hplaced]
    exact ⟨_, tree.returns_classifyByPredecessor_off candidate hon strict,
      .of_unknown rfl (iff_of_true rfl habsent)⟩

theorem follows_classifyCoreUnknown (stored : Option StoredBlock) (strict : Bool) :
    ∃ v, Returns (classifyCoreUnknown tree.source blockHash candidate
        ⟨stored.map StoredBlock.toKnownBlockContext⟩ strict) v ∧
      Follows (tree.ruling candidate (tree.placement stored candidate.prevBlockhash))
        (tree.Absent stored candidate) v := by
  cases stored with
  | none =>
    exact tree.follows_classifyByPredecessor candidate rfl not_storedAsInvalid_none strict
  | some block =>
    obtain ⟨⟨kind, height⟩, hheight⟩ := block
    cases kind with
    | canonical =>
      obtain ⟨q, rfl⟩ := isSome_iff_exists.mp (hheight nofun)
      obtain ⟨v, hv, hfollows⟩ :=
        tree.follows_classifyInferredStale candidate q none .canonical strict
      exact ⟨v, hv, hfollows.congr
        (tree.absent_iff_of_placed candidate rfl (not_storedAsInvalid nofun))⟩
    | stale =>
      obtain ⟨q, rfl⟩ := isSome_iff_exists.mp (hheight nofun)
      obtain ⟨v, hv, hfollows⟩ :=
        tree.follows_classifyInferredStale candidate q none .stale strict
      exact ⟨v, hv, hfollows.congr
        (tree.absent_iff_of_placed candidate rfl (not_storedAsInvalid nofun))⟩
    | invalidBlock =>
      obtain ⟨q, rfl⟩ := isSome_iff_exists.mp (hheight nofun)
      obtain ⟨v, hv, hfollows⟩ := tree.follows_classifyInvalidBlockChild candidate q strict
      have hinvalid : StoredAsInvalid (some ⟨⟨.invalidBlock, some q⟩, hheight⟩) q :=
        storedAsInvalid_some.mpr ⟨rfl, rfl⟩
      refine ⟨v, hv, hfollows.congr ⟨fun h => .inr (.inr ⟨q, hinvalid, h⟩), ?_⟩⟩
      rintro (⟨-, hvalid⟩ | ⟨q', hq', -⟩ | ⟨q', hstored, h⟩)
      · exact absurd hinvalid (hvalid q)
      · cases hq'
      · obtain rfl := some.inj (storedAsInvalid_some.mp hstored).2
        exact h
    | unknown =>
      have hkind : BlockKind.unknown ≠ .invalidBlock := nofun
      exact tree.follows_classifyByPredecessor candidate rfl (not_storedAsInvalid hkind) strict

/-- **Inferred verdicts follow consensus.**  Core answers from one tree of headers, and the candidate
is not in it.  Under either policy the classification returns a verdict, which is the ruling of
consensus on the predecessor's placement: stale at the height above with the active block there as
competitor, invalid there for a time that is not above the median, and unknown without a ruling.  The
absence is attested exactly in the cases of `Absent`. -/
theorem verdict_follows_consensus (tree : HeaderTree blockHash) (candidate : Header Hash)
    (habsent : tree.header (blockHash candidate) = none) (stored : Option StoredBlock)
    (strict : Bool) :
    ∃ v c, classifyParent tree.source blockHash candidate
        (some ⟨stored.map StoredBlock.toKnownBlockContext⟩) strict ⟨(), []⟩ = .ok (v, c) ∧
      Follows (tree.ruling candidate (tree.placement stored candidate.prevBlockhash))
        (tree.Absent stored candidate) v := by
  have hask : Returns (ask .header (tree.source.getBlockHeaderVerbose (blockHash candidate)))
      (.error .notFound) := returns_ask (by simp only [source, habsent])
  obtain ⟨v, hv, hfollows⟩ := tree.follows_classifyCoreUnknown candidate stored strict
  obtain ⟨c, hc⟩ := (hask.bind hv : Returns (classifyParent tree.source blockHash candidate
    (some ⟨stored.map StoredBlock.toKnownBlockContext⟩) strict) v) ⟨(), []⟩
  exact ⟨v, c, hc, hfollows⟩

end HeaderTree

end MergeMiningMonitor.ParentClassifier

namespace MergeMiningMonitor.ParentClassifier.Sample

open HeaderTree

/-- The header at a height of a sample chain, where a nonce is the hash. -/
def linkedHeader (n : Nat) : Header Nat := ⟨1, if n = 0 then 1000 else n - 1, 0, 100 + n, 1, n⟩

/-- A tree that is one chain. -/
def chain (length : Nat) (hlength : length ≤ 2147483648) :
    HeaderTree (Header.nonce : Header Nat → Nat) where
  header h := if h < length then some (linkedHeader h) else none
  active := List.range length
  height h := h
  coinbase _ := .error .pruned
  hash_header h hd hheld := by
    split at hheld
    · rw [← Option.some.inj hheld]
      rfl
    · cases hheld
  active_held h hactive := ⟨linkedHeader h, if_pos (List.mem_range.mp hactive)⟩
  active_linked := by
    refine List.isChain_iff_getElem.mpr fun i hi => ?_
    rw [List.length_range] at hi
    rw [List.getElem_range, List.getElem_range]
    exact ⟨linkedHeader (i + 1), if_pos (by omega), rfl⟩
  active_height n h hat := by
    obtain ⟨-, rfl⟩ := List.getElem?_eq_some_iff.mp hat
    rw [List.getElem_range]
  active_length := by rwa [List.length_range]

/-- A sibling of the block at height 11. -/
def sibling : Header Nat := ⟨1, 10, 7, 200, 1, 50⟩

theorem verdict_follows_consensus_sibling :
    ∃ v c, classifyParent (chain 12 (by decide)).source Header.nonce sibling (some ⟨none⟩) true
        ⟨(), []⟩ = .ok (v, c) ∧
      v.kind = .stale ∧ v.height = some 11 ∧ v.canonicalCompetitorHash = some 11 := by
  obtain ⟨v, c, hrun, hfollows⟩ :=
    verdict_follows_consensus (chain 12 (by decide)) sibling rfl none true
  exact ⟨v, c, hrun, (hfollows.stale_iff 11 11).mpr (by decide)⟩

/-- A child of a block that is stored as invalid at height 0, with the bits of the active block at
height 1. -/
def child : Header Nat := ⟨1, 5, 7, 200, 1, 50⟩

def storedInvalid : StoredBlock := ⟨⟨.invalidBlock, some 0⟩, fun _ => rfl⟩

/-- Its absence is attested, though its predecessor is stored as an invalid block and so has no
placement. -/
theorem invalid_predecessor_attests_absence :
    (chain 2 (by decide)).header child.nonce = none ∧
    (∃ v c, classifyParent (chain 2 (by decide)).source Header.nonce child
        (some ⟨some storedInvalid.toKnownBlockContext⟩) true ⟨(), []⟩ = .ok (v, c) ∧
      v.coreAbsenceAttested = true) ∧
    ¬ (((chain 2 (by decide)).placement (some storedInvalid) child.prevBlockhash = none ∧
          ∀ q, ¬ StoredAsInvalid (some storedInvalid) q) ∨
        ∃ p, (chain 2 (by decide)).placement (some storedInvalid) child.prevBlockhash = some p ∧
          (chain 2 (by decide)).activeAt (p + 1) = none) := by
  refine ⟨rfl, ⟨_, _, rfl, rfl⟩, ?_⟩
  rintro (⟨-, hvalid⟩ | ⟨p, hp, -⟩)
  · exact hvalid 0 ⟨storedInvalid, rfl, rfl, rfl⟩
  · cases hp

end MergeMiningMonitor.ParentClassifier.Sample
