import MergeMiningMonitor.Backbone.Repair

/-!
# Backbone — Cursor

The recovery of a contiguous cursor that lies below the live view and that Core no longer has on
its active chain (`repair_cursor_before_view`).  Core's chain is captured downwards from the
cursor, only as far as the nearest usable anchor (`capture_cursor_recovery_view`), and the planner
and the suffix replacement run on that shorter view.

A recovery repairs the window from that anchor up and leaves what is below as it is
(`recovery_repairs_from_anchor`).  A row can match again above an older conflict; then the older
conflict stays (`older_conflict_survives_recovery`), while the planner on the view of the whole
window would have gone below it.  Without a conflict below the anchor the two views give one
replacement.
-/

namespace MergeMiningMonitor

open Relational Fallible FixedWidth Consecutive Lists ReadModel List Option

variable {Hash : Type}

def liveBackboneWindowStartHeight (tipHeight windowHeights : Int) : Int :=
  max (saturatingSub tipHeight (saturatingSub windowHeights 1)) 0

def coreViewStartHeight (tipHeight windowHeights : Int) : Int :=
  max (saturatingSub (liveBackboneWindowStartHeight tipHeight windowHeights) 1) 0

/-- What Core answers; `none` is a request that fails. -/
structure CoreSource (Hash : Type) where
  activeHash : Int → Option Hash
  blockHeader : Hash → Option (Header Hash)
  blockCoinbase : Hash → Option BlockCoinbase

/-- Why a cursor recovery fails. -/
inductive RepairError (Hash : Type)
  | rpc
  | wrongHeader (height : Int) (actual requested : Hash)
  /-- The cursor's height has no canonical row. -/
  | contiguousCursorRowInvalid (cursor : Int)
  /-- The cursor's height has no complete canonical row. -/
  | contiguousCursorRowIncomplete (cursor : Int)
  | plan (e : RepairPlanError)
  | suffix (e : SuffixError)

inductive CursorRepairOutcome (Hash : Type)
  | notNeeded
  | replan
  | replaced (db : Db Hash)

section Recovery

variable [LinearOrder Hash] (blockHash : Header Hash → Hash) (source : CoreSource Hash)

/-- The loop of `capture_core_view_until`, over the given number of heights: `height` and those below
it, following each header to its predecessor.  The result is in descending order. -/
def captureDescending (stop : CoreViewRow Hash → Bool) :
    Nat → Int → Hash → Except (RepairError Hash) (List (CoreViewRow Hash))
  | 0, _, _ => .ok []
  | n + 1, height, requestedHash => do
    let header ← required (source.blockHeader requestedHash) .rpc
    ensure (blockHash header = requestedHash)
      (.wrongHeader height (blockHash header) requestedHash)
    let row : CoreViewRow Hash := ⟨height, blockHash header, header⟩
    if stop row then return [row]
    else return row :: (← captureDescending stop n (height - 1) header.prevBlockhash)

def captureCoreViewUntil (target : Int × Hash) (viewStart : Int) (stop : CoreViewRow Hash → Bool) :
    Except (RepairError Hash) (List (CoreViewRow Hash)) := do
  let descending ← captureDescending blockHash source stop (target.1 - viewStart + 1).toNat target.1
    target.2
  return descending.reverse

/-- `capture_core_view`: the view of a whole window. -/
def captureCoreView (target : Int × Hash) (windowHeights : Int) :
    Except (RepairError Hash) (List (CoreViewRow Hash)) :=
  captureCoreViewUntil blockHash source target (coreViewStartHeight target.1 windowHeights)
    fun _ => false

/-- `capture_cursor_recovery_view`: stop at the first usable anchor. -/
def captureCursorRecoveryView (target : Int × Hash) (viewStart : Int)
    (localRows : List (LocalCanonicalRow Hash)) :
    Except (RepairError Hash) (List (CoreViewRow Hash)) :=
  captureCoreViewUntil blockHash source target viewStart (usableAnchor localRows)

def cursorRecoveryTargetBeforeView (m : ReadModel Hash) (contiguousCompleteHeight viewStart : Int) :
    Except (RepairError Hash) (Option (Int × Hash)) :=
  if contiguousCompleteHeight < 0 ∨ viewStart ≤ contiguousCompleteHeight then .ok none
  else do
    let rows := loadLocalCanonicalRows m contiguousCompleteHeight contiguousCompleteHeight
    ensure (rows ≠ []) (.contiguousCursorRowInvalid contiguousCompleteHeight)
    ensure (rows.any (·.coinbaseStatus = .complete))
      (.contiguousCursorRowIncomplete contiguousCompleteHeight)
    let activeHash ← required (source.activeHash contiguousCompleteHeight) .rpc
    if rows.map (·.hash) = [activeHash] then return none
    else return some (contiguousCompleteHeight, activeHash)

variable [ToString Hash] (catalogue : Hash → Option InvalidBlock)

/-- `repair_cursor_before_view`.  `target` is the live target; `stableView`, `stable` and the two
validators are the checks that Core still has it and the cursor's block on its active chain. -/
def repairCursorBeforeView (db : Db Hash) (now contiguousCompleteHeight viewStart : Int)
    (windowHeights : Int) (target : Int × Hash)
    (stableView stable validateBefore validateAfter : Except SuffixError Unit) :
    Except (RepairError Hash) (CursorRepairOutcome Hash) := do
  match ← cursorRecoveryTargetBeforeView source db.readModel contiguousCompleteHeight viewStart with
  | none => return .notNeeded
  | some cursorTarget =>
    let cursorViewStart := coreViewStartHeight cursorTarget.1 windowHeights
    let localRows := loadLocalCanonicalRows db.readModel cursorViewStart cursorTarget.1
    let cursorView ← captureCursorRecoveryView blockHash source cursorTarget cursorViewStart
      localRows
    stableView.mapError .suffix
    match planRepair cursorView localRows with
    | .error e => .error (.plan e)
    | .ok .noHashConflict => return .replan
    | .ok (.replaceFrom firstReplacementIndex) => do
      let (db, _) ← (replacePlannedSuffix blockHash source.blockCoinbase catalogue db now
        contiguousCompleteHeight cursorView localRows firstReplacementIndex target stable
        validateBefore validateAfter).mapError .suffix
      return .replaced db

end Recovery

/-! ### The captured rows -/

variable [LinearOrder Hash] {blockHash : Header Hash → Hash} {source : CoreSource Hash}

/-- Core has the view on its active chain, from `start` to `cursor`, and serves its headers. -/
structure Serves (source : CoreSource Hash) (view : CoreView blockHash) (start cursor : Int) :
    Prop where
  first : ∃ c, view.rows.head? = some c ∧ c.height = start
  last : ∃ c, view.rows.getLast? = some c ∧ c.height = cursor ∧ source.activeHash cursor = some c.hash
  header : ∀ c ∈ view.rows, source.blockHeader c.hash = some c.header

variable {view : CoreView blockHash} {db db' : Db Hash} {now cch viewStart windowHeights : Int}
  {stableView stable before after : Except SuffixError Unit} {target : Int × Hash}
  {below above : List (CoreViewRow Hash)}

omit [LinearOrder Hash] in
theorem Serves.height_mem {start cursor : Int}
    (h : Serves source view start cursor) {c : CoreViewRow Hash} (hc : c ∈ view.rows) :
    start ≤ c.height ∧ c.height ≤ cursor := by
  obtain ⟨first, hfirst, rfl⟩ := h.first
  obtain ⟨last, hlast, rfl, -⟩ := h.last
  exact view.numbered.key_mem_Icc hfirst hlast hc

/-- Following the headers of a chain downwards gives the rows of the chain up to the first stop. -/
theorem captureDescending_eq {stop : CoreViewRow Hash → Bool} {rows : List (CoreViewRow Hash)}
    {height : Int} {hash : Hash} (hhash : ∀ c ∈ rows, c.hash = blockHash c.header)
    (hlinked : rows.IsChain fun b a =>
      b.height = a.height + 1 ∧ b.header.prevBlockhash = blockHash a.header)
    (hheader : ∀ c ∈ rows, source.blockHeader c.hash = some c.header)
    (hhead : ∀ c ∈ rows.head?, c.height = height ∧ c.hash = hash) :
    captureDescending blockHash source stop rows.length height hash =
      .ok (untilStop stop rows) := by
  induction rows generalizing height hash with
  | nil => rfl
  | cons c rest ih =>
    obtain ⟨rfl, rfl⟩ := hhead c rfl
    have hc := hhash c mem_cons_self
    have hrest : captureDescending blockHash source stop rest.length (c.height - 1)
        c.header.prevBlockhash = .ok (untilStop stop rest) := by
      refine ih (fun d hd => hhash d (mem_cons_of_mem _ hd)) hlinked.tail
        (fun d hd => hheader d (mem_cons_of_mem _ hd)) fun d hd => ?_
      obtain ⟨tail, rfl⟩ := head?_eq_some_iff.mp hd
      obtain ⟨⟨hheight, hprev⟩, -⟩ := isChain_cons_cons.mp hlinked
      exact ⟨by omega, by rw [hprev, hhash d (by simp)]⟩
    have hrow : (⟨c.height, blockHash c.header, c.header⟩ : CoreViewRow Hash) = c := by rw [← hc]
    rw [length_cons, captureDescending, untilStop]
    refine bind_eq_ok.mpr ⟨c.header, required_eq_ok.mpr (hheader c mem_cons_self),
      bind_eq_ok.mpr ⟨(), ensure_eq_ok.mpr hc.symm, ?_⟩⟩
    simp only [hrow, hrest]
    split <;> rfl

/-- A capture from the last block of a served view is the view, down to its last stop. -/
theorem captureCoreViewUntil_eq {start cursor : Int}
    (h : Serves source view start cursor) {activeHash : Hash}
    (hactive : source.activeHash cursor = some activeHash) (stop : CoreViewRow Hash → Bool) :
    captureCoreViewUntil blockHash source (cursor, activeHash) start stop =
      .ok (untilStop stop view.rows.reverse).reverse := by
  obtain ⟨first, hfirst, rfl⟩ := h.first
  obtain ⟨last, hlast, rfl, hactive'⟩ := h.last
  obtain rfl := some.inj (hactive.symm.trans hactive')
  have hlength : (last.height - first.height + 1).toNat = view.rows.reverse.length := by
    have := view.numbered.key_last hfirst hlast
    rw [length_reverse]
    omega
  have hcapture : captureDescending blockHash source stop view.rows.reverse.length last.height
      last.hash = .ok (untilStop stop view.rows.reverse) := by
    refine captureDescending_eq (fun c hc => view.hash_eq c (mem_reverse.mp hc))
      (isChain_reverse.mpr view.linked) (fun c hc => h.header c (mem_reverse.mp hc))
      fun c hc => ?_
    rw [head?_reverse, hlast] at hc
    obtain rfl := some.inj hc
    exact ⟨rfl, rfl⟩
  rw [captureCoreViewUntil, hlength, hcapture]
  rfl

/-- The part of a view from one of its rows up. -/
def CoreView.suffix (view : CoreView blockHash) {pre : List (CoreViewRow Hash)}
    {anchor : CoreViewRow Hash} {post : List (CoreViewRow Hash)}
    (h : view.rows = pre ++ anchor :: post) : CoreView blockHash where
  rows := anchor :: post
  ne_nil := cons_ne_nil _ _
  hash_eq c hc := view.hash_eq c (h ▸ mem_append_right _ hc)
  linked := IsChain.right_of_append (h ▸ view.linked)
  in_range c hc := view.in_range c (h ▸ mem_append_right _ hc)

/-! ### A recovery -/

/-- A recovery that needs a target has the active block at the cursor as its target. -/
theorem cursorRecoveryTargetBeforeView_eq_some {m : ReadModel Hash} {cursorTarget : Int × Hash}
    (h : cursorRecoveryTargetBeforeView source m cch viewStart = .ok (some cursorTarget)) :
    ∃ activeHash, source.activeHash cch = some activeHash ∧ cursorTarget = (cch, activeHash) := by
  rw [cursorRecoveryTargetBeforeView] at h
  split at h
  · cases h
  · obtain ⟨_, -, h⟩ := bind_eq_ok.mp h
    obtain ⟨_, -, h⟩ := bind_eq_ok.mp h
    obtain ⟨activeHash, hactive, h⟩ := bind_eq_ok.mp h
    refine ⟨activeHash, required_eq_ok.mp hactive, ?_⟩
    split at h
    · cases h
    · cases h
      rfl

variable [ToString Hash] {catalogue : Hash → Option InvalidBlock}

theorem repairCursorBeforeView_eq_replaced
    (h : repairCursorBeforeView blockHash source catalogue db now cch viewStart windowHeights target
      stableView stable before after = .ok (.replaced db')) :
    ∃ activeHash cursorView i summary, source.activeHash cch = some activeHash ∧
      let start := coreViewStartHeight cch windowHeights
      let localRows := loadLocalCanonicalRows db.readModel start cch
      captureCursorRecoveryView blockHash source (cch, activeHash) start localRows =
        .ok cursorView ∧
      planRepair cursorView localRows = .ok (.replaceFrom i) ∧
      replacePlannedSuffix blockHash source.blockCoinbase catalogue db now cch cursorView localRows
        i target stable before after = .ok (db', summary) := by
  obtain ⟨cursorTarget, htarget, h⟩ := bind_eq_ok.mp h
  cases cursorTarget with
  | none => cases h
  | some cursorTarget =>
    obtain ⟨activeHash, hactive, rfl⟩ := cursorRecoveryTargetBeforeView_eq_some htarget
    obtain ⟨cursorView, hview, h⟩ := bind_eq_ok.mp h
    obtain ⟨_, -, h⟩ := bind_eq_ok.mp h
    split at h
    · cases h
    · cases h
    · next i hplan =>
        obtain ⟨⟨db₁, summary⟩, hreplace, h⟩ := bind_eq_ok.mp h
        cases h
        exact ⟨activeHash, cursorView, i, summary, hactive, hview, hplan,
          mapError_eq_ok.mp hreplace⟩

/-- Only the rows from the ancestor up matter to a planned replacement. -/
theorem replacePlannedSuffix_append {blockCoinbase : Hash → Option BlockCoinbase}
    {anchor : CoreViewRow Hash} {localRows : List (LocalCanonicalRow Hash)} :
    replacePlannedSuffix blockHash blockCoinbase catalogue db now cch (below ++ anchor :: above)
      localRows (below.length + 1) target stable before after =
    replacePlannedSuffix blockHash blockCoinbase catalogue db now cch (anchor :: above)
      localRows 1 target stable before after := by
  have hindex : (below ++ anchor :: above)[below.length + 1 - 1]? = (anchor :: above)[1 - 1]? := by
    simp
  rw [replacePlannedSuffix, replacePlannedSuffix, drop_length_succ rfl, hindex, drop_succ_cons,
    drop_zero]

/-- A recovery that replaces has stopped at the nearest usable anchor, and replaces what is above. -/
theorem replaced_from_anchor
    (hserves : Serves source view (coreViewStartHeight cch windowHeights) cch)
    (h : repairCursorBeforeView blockHash source catalogue db now cch viewStart windowHeights target
      stableView stable before after = .ok (.replaced db')) :
    let localRows := loadLocalCanonicalRows db.readModel (coreViewStartHeight cch windowHeights) cch
    ∃ below anchor above summary, view.rows = below ++ anchor :: above ∧
      usableAnchor localRows anchor = true ∧ (∀ c ∈ above, usableAnchor localRows c = false) ∧
      (∃ c ∈ above, conflicts localRows c = true) ∧
      replacePlannedSuffix blockHash source.blockCoinbase catalogue db now cch (anchor :: above)
        localRows 1 target stable before after = .ok (db', summary) := by
  obtain ⟨activeHash, cursorView, i, summary, hactive, hcapture, hplan, hreplace⟩ :=
    repairCursorBeforeView_eq_replaced h
  intro localRows
  rw [captureCursorRecoveryView, captureCoreViewUntil_eq hserves hactive] at hcapture
  obtain rfl := Except.ok.inj hcapture
  rcases none_or_last_stop view.rows with hnone | ⟨below, anchor, above, hview, hanchor, habove⟩
  · -- without an anchor in the window the planner fails
    rw [untilStop_eq_self fun c hc => hnone c (mem_reverse.mp hc), reverse_reverse]
      at hplan
    obtain ⟨pre, anchor, post, hsplit, -, hanchor, -⟩ := planRepair_eq_replaceFrom hplan
    exact absurd hanchor (by simp [hnone anchor (by simp [hsplit])])
  · rw [hview, reverse_untilStop_reverse habove hanchor] at hplan hreplace
    obtain ⟨pre, anchor', post, hsplit, rfl, hanchor', -, hconflict⟩ :=
      planRepair_eq_replaceFrom hplan
    cases pre with
    | nil =>
      obtain ⟨rfl, rfl⟩ := List.cons.inj hsplit
      exact ⟨below, anchor, above, summary, hview, hanchor, habove, hconflict, hreplace⟩
    | cons c pre =>
      obtain ⟨-, rfl⟩ := List.cons.inj hsplit
      exact absurd hanchor' (by simp [habove anchor' (by simp)])

/-- A committed replacement above an anchor of the window repairs the window from the anchor up. -/
theorem Serves.repaired {start : Int} {anchor last : CoreViewRow Hash}
    {summary : CoreSuffixReplacementSummary}
    (h : Serves source view start cch) (hview : view.rows = below ++ anchor :: above)
    (hlast : view.rows.getLast? = some last)
    (hanchor : usableAnchor (loadLocalCanonicalRows db.readModel start cch) anchor = true)
    (habove : above ≠ [])
    (hpromise : ∀ replacements,
      fetchReplacements blockHash source.blockCoinbase above = some replacements →
      ChainPromise blockHash catalogue db.readModel replacements)
    (hreplace : replacePlannedSuffix blockHash source.blockCoinbase catalogue db now cch
      (anchor :: above) (loadLocalCanonicalRows db.readModel start cch) 1 target stable before
      after = .ok (db', summary)) :
    Repaired (anchor :: above) anchor last now db db' := by
  obtain ⟨_, replacements, -, hfetch, -⟩ := replacePlannedSuffix_eq_ok hreplace
  have hsuffix : (view.suffix hview).rows = [] ++ anchor :: above := rfl
  refine repaired_of_replacePlannedSuffix (view.suffix hview) hsuffix ?_ (fun c hc => ?_) hanchor
    habove hfetch (hpromise replacements hfetch) hreplace
  · rwa [hview, getLast?_append_cons] at hlast
  · exact h.height_mem (hview ▸ mem_append_right _ hc)

omit [ToString Hash] in
/-- Among loaded rows, a height without a conflict is one whose canonical blocks have Core's hash. -/
theorem conflicts_load_eq_false {m : ReadModel Hash} {lo hi : Int} {c : CoreViewRow Hash}
    (h : ∀ b, m.CanonicalAt c.height b → b.hash = c.hash) :
    conflicts (loadLocalCanonicalRows m lo hi) c = false := by
  rw [← Bool.not_eq_true, conflicts_eq_true]
  rintro ⟨row, hrow, hheight, hne⟩
  obtain ⟨n, b, hb, -, -, rfl⟩ := mem_loadLocalCanonicalRows.mp hrow
  obtain rfl : n = c.height := hheight
  exact hne (h b hb)

/-- **A recovery repairs its window from the nearest anchor up.**  For every chain of Core and every
local rows in the window that ends at the cursor: a recovery that replaces has found the highest
height of the window with a single, complete row of Core's hash.  Afterwards each height from there
to the cursor has Core's block as its only canonical block, and the canonical blocks below are the
same.

So the window is free of conflicts exactly when there was no conflict below that height, and then
planning over the whole window is the same replacement. -/
theorem recovery_repairs_from_anchor {view : CoreView blockHash} {db db' : Db Hash}
    {now cch viewStart windowHeights : Int} {target : Int × Hash}
    {stableView stable before after : Except SuffixError Unit}
    (hserves : Serves source view (coreViewStartHeight cch windowHeights) cch)
    (hpromise : ∀ rows replacements, rows <:+ view.rows →
      fetchReplacements blockHash source.blockCoinbase rows = some replacements →
      ChainPromise blockHash catalogue db.readModel replacements)
    (h : repairCursorBeforeView blockHash source catalogue db now cch viewStart windowHeights target
      stableView stable before after = .ok (.replaced db')) :
    let localRows := loadLocalCanonicalRows db.readModel (coreViewStartHeight cch windowHeights) cch
    ∃ below anchor above, view.rows = below ++ anchor :: above ∧
      usableAnchor localRows anchor = true ∧ (∀ c ∈ above, usableAnchor localRows c = false) ∧
      (∀ c ∈ anchor :: above, ∃ b, db'.readModel.CanonicalAt c.height b ∧ b.hash = c.hash ∧
        ∀ b', db'.readModel.CanonicalAt c.height b' → b' = b) ∧
      (∀ n, n < anchor.height ∨ cch < n → ∀ b,
        db'.readModel.CanonicalAt n b ↔ db.readModel.CanonicalAt n b) ∧
      ((∀ c ∈ view.rows, ∀ b, db'.readModel.CanonicalAt c.height b → b.hash = c.hash) ↔
        ∀ c ∈ below, ∀ b, db.readModel.CanonicalAt c.height b → b.hash = c.hash) ∧
      ((∀ c ∈ below, ∀ b, db.readModel.CanonicalAt c.height b → b.hash = c.hash) →
        ∀ activeHash, source.activeHash cch = some activeHash →
        captureCoreView blockHash source (cch, activeHash) windowHeights = .ok view.rows ∧
        planRepair view.rows localRows = .ok (.replaceFrom (below.length + 1)) ∧
        ∃ summary, replacePlannedSuffix blockHash source.blockCoinbase catalogue db now cch
          view.rows localRows (below.length + 1) target stable before after =
            .ok (db', summary)) := by
  intro localRows
  obtain ⟨below, anchor, above, summary, hview, hanchor, habove, hconflict, hreplace⟩ :=
    replaced_from_anchor hserves h
  obtain ⟨last, hlast, hcursor, -⟩ := hserves.last
  have hnumbered : Numbered (·.height) (below ++ anchor :: above) := hview ▸ view.numbered
  have hbelow : ∀ c ∈ below, c.height < anchor.height := fun c hc =>
    hnumbered.key_lt_of_append hc
  have hle : ∀ c ∈ anchor :: above, anchor.height ≤ c.height := by
    intro c hc
    rcases mem_cons.mp hc with rfl | hc
    · exact le_rfl
    · exact (hnumbered.suffix.key_head_lt hc).le
  have hrepaired : Repaired (anchor :: above) anchor last now db db' := by
    obtain ⟨c, hc, -⟩ := hconflict
    exact hserves.repaired hview hlast hanchor (ne_nil_of_mem hc)
      (fun replacements => hpromise above replacements ⟨below ++ [anchor], by simp [hview]⟩)
      hreplace
  refine ⟨below, anchor, above, hview, hanchor, habove,
    fun c hc => hrepaired.canonical c hc (hle c hc), fun n hn => hrepaired.outside n (hcursor ▸ hn),
    ⟨fun hall c hc b hb => ?_, fun hbelow' c hc b hb => ?_⟩,
    fun hbelow' activeHash hactive => ⟨?_, ?_, summary, ?_⟩⟩
  · exact hall c (hview ▸ mem_append_left _ hc) b
      ((hrepaired.outside c.height (.inl (hbelow c hc)) b).mpr hb)
  · rw [hview] at hc
    rcases mem_append.mp hc with hc | hc
    · exact hbelow' c hc b ((hrepaired.outside c.height (.inl (hbelow c hc)) b).mp hb)
    · obtain ⟨b₀, -, hhash, hunique⟩ := hrepaired.canonical c hc (hle c hc)
      rw [hunique b hb, hhash]
  · rw [captureCoreView, captureCoreViewUntil_eq hserves hactive,
      untilStop_eq_self fun _ _ => rfl, reverse_reverse]
  · rw [hview]
    exact planRepair_of_split hanchor (fun c hc => conflicts_load_eq_false (hbelow' c hc)) habove
      hconflict
  · rw [hview, replacePlannedSuffix_append]
    exact hreplace

/-! ### A row that matches again above an older conflict -/

section MatchAgain

/-- Core has blocks `8` to `12` at these heights. -/
def coreEightToTwelve : CoreView (@Header.nonce Nat) where
  rows := [⟨8, 8, header 7 8⟩, ⟨9, 9, header 8 9⟩, ⟨10, 10, header 9 10⟩, ⟨11, 11, header 10 11⟩,
    ⟨12, 12, header 11 12⟩]
  ne_nil := by simp
  hash_eq := by simp [header]
  linked := by simp [header]
  in_range := by simp [InI32]

/-- Core with that chain. -/
def servingEightToTwelve : CoreSource Nat where
  activeHash n := some n.toNat
  blockHeader hash := some (header (hash - 1) hash)
  blockCoinbase _ := some ⟨[], [], []⟩

/-- Locally there is block `19` at height `9`, then Core's block `10`, and a fork above it. -/
def matchAgainDb : Db Nat where
  readModel.events := ⟨[evidence 11 10 21, evidence 12 21 22], by decide⟩
  readModel.blocks := ⟨[canonicalBlock 8 7 8, canonicalBlock 10 9 10, canonicalBlock 9 8 19,
    canonicalBlock 11 10 21, canonicalBlock 12 21 22], by decide⟩
  queue := Table.empty
  syncState := some ⟨none, none, 12, none, none, none, none, none, .null⟩

/-- The recovery of the cursor `12`, with a window of four heights and the live view from `26` on. -/
def recoverTwelve : Except (RepairError Nat) (CursorRepairOutcome Nat) :=
  repairCursorBeforeView (@Header.nonce Nat) servingEightToTwelve (fun _ => none) matchAgainDb 0 12
    26 4 (30, 30) (.ok ()) (.ok ()) (.ok ()) (.ok ())

def recoveredDb : Db Nat :=
  match recoverTwelve with
  | .ok (.replaced db) => db
  | _ => matchAgainDb

theorem serves_eightToTwelve :
    Serves servingEightToTwelve coreEightToTwelve (coreViewStartHeight 12 4) 12 where
  first := ⟨_, rfl, rfl⟩
  last := ⟨_, rfl, rfl, rfl⟩
  header := by simp [coreEightToTwelve, servingEightToTwelve]

theorem chainPromise_matchAgainDb {rows : List (CoreViewRow Nat)}
    {replacements : List (CoreCanonicalReplacement Nat)} (hrows : rows <:+ coreEightToTwelve.rows)
    (hfetch : fetchReplacements (@Header.nonce Nat) servingEightToTwelve.blockCoinbase rows =
      some replacements) :
    ChainPromise (@Header.nonce Nat) (fun _ => none) matchAgainDb.readModel replacements := by
  have hrow : ∀ r ∈ replacements, ∃ c ∈ coreEightToTwelve.rows, r.height = c.height ∧
      r.header = c.header := by
    intro r hr
    obtain ⟨c, hc, heq⟩ := exists_mem_of_map_eq (map_fetchReplacements hfetch) hr
    exact ⟨c, hrows.subset hc, Prod.mk.inj heq.symm⟩
  have hnonce : ∀ r ∈ replacements, (r.header.nonce : Int) = r.height ∧ r.height ≤ 12 := by
    intro r hr
    obtain ⟨c, hc, hheight, hheader⟩ := hrow r hr
    rw [hheight, hheader]
    revert c
    simp [coreEightToTwelve, header]
  have hevidence : ∀ k, ∀ e ∈ matchAgainDb.readModel.activeEvents k,
      e.powValidatesBtcTarget = true ∧ (21 : Int) ≤ k := by
    intro k e he
    obtain ⟨he, hk⟩ := mem_filter.mp he
    obtain ⟨hk, -⟩ := Bool.and_eq_true_iff.mp hk
    obtain rfl | rfl : e = evidence 11 10 21 ∨ e = evidence 12 21 22 := by
      simpa [matchAgainDb] using he
    · obtain rfl : 21 = k := of_decide_eq_true hk
      exact ⟨rfl, by decide⟩
    · obtain rfl : 22 = k := of_decide_eq_true hk
      exact ⟨rfl, by decide⟩
  have hvouched : ∀ k, Vouched (fun _ => none) (@Header.nonce Nat) matchAgainDb.readModel k :=
    fun k e he => ⟨(hevidence k e he).1, rfl⟩
  refine ⟨fun r hr n b hb hhash => ?_, fun r hr r' hr' hhash => ?_, fun r _ => hvouched _,
    fun _ b _ => hvouched _, fun r hr e he => ?_⟩
  · have hmem := Table.mem_of_find? hb.1
    have hheight := hb.2.2
    have hr := hnonce r hr
    rw [← hhash] at hr
    simp only [matchAgainDb, mem_cons, not_mem_nil, or_false] at hmem
    rcases hmem with rfl | rfl | rfl | rfl | rfl
    all_goals
      obtain rfl := some.inj hheight
      obtain ⟨hr, hle⟩ := hr
      first
      | exact hr
      | rw [← hr] at hle
        exact absurd hle (by decide)
  · rw [← (hnonce r hr).1, ← (hnonce r' hr').1, hhash]
  · have := (hevidence _ e he).2
    have := hnonce r hr
    omega

/-- The older conflict survives the recovery: block `19` stays canonical at height `9`, where Core
has block `9`.  The plan for the whole window would have started at height `9`. -/
theorem older_conflict_survives_recovery :
    Serves servingEightToTwelve coreEightToTwelve (coreViewStartHeight 12 4) 12 ∧
    (∀ rows replacements, rows <:+ coreEightToTwelve.rows →
      fetchReplacements (@Header.nonce Nat) servingEightToTwelve.blockCoinbase rows =
        some replacements →
      ChainPromise (@Header.nonce Nat) (fun _ => none) matchAgainDb.readModel replacements) ∧
    recoverTwelve = .ok (.replaced recoveredDb) ∧
    (∃ c ∈ coreEightToTwelve.rows, ∃ b, recoveredDb.readModel.CanonicalAt c.height b ∧
      b.hash ≠ c.hash) ∧
    planRepair coreEightToTwelve.rows (loadLocalCanonicalRows matchAgainDb.readModel
      (coreViewStartHeight 12 4) 12) = .ok (.replaceFrom 1) := by
  refine ⟨serves_eightToTwelve, fun _ _ => chainPromise_matchAgainDb, rfl,
    ⟨⟨9, 9, header 8 9⟩, by simp [coreEightToTwelve], canonicalBlock 9 8 19, ⟨rfl, rfl, rfl⟩, ?_⟩,
    rfl⟩
  decide

/-- The recovery repairs the heights from `10` up. -/
theorem fork_above_match_repaired :
    recoverTwelve = .ok (.replaced recoveredDb) ∧
    ∃ b, recoveredDb.readModel.CanonicalAt 12 b ∧ b.hash = 12 ∧
      ∀ b', recoveredDb.readModel.CanonicalAt 12 b' → b' = b := by
  have h : recoverTwelve = .ok (.replaced recoveredDb) := rfl
  obtain ⟨below, anchor, above, hsplit, -, -, hrepaired, -⟩ :=
    recovery_repairs_from_anchor serves_eightToTwelve (fun _ _ => chainPromise_matchAgainDb) h
  have hlast : (⟨12, 12, header 11 12⟩ : CoreViewRow Nat) ∈ anchor :: above := by
    refine mem_of_getLast? ?_
    rw [← getLast?_append_cons, ← hsplit]
    rfl
  exact ⟨h, hrepaired _ hlast⟩

end MatchAgain

end MergeMiningMonitor
