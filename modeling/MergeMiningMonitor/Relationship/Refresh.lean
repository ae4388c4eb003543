import MergeMiningMonitor.Support.Runs
import MergeMiningMonitor.Support.Serial
import MergeMiningMonitor.Relationship.Derivation

/-!
# Relationship — Refresh

Summaries catch up with their inputs (`relationship_summary.rs`, `relationship_queue.rs`).

Writers change the inputs and queue what they affect in one commit: the headers whose own inputs
changed, and the identities whose pool did.  A refresh holds the summary writers' lock, so that there is
at most one; it reads its inputs in five statements, each of which sees every commit so far, and
writes in a sixth.  A drain deletes the queue rows it read when it commits, and only those.  The
expansion of identities is one statement, and does not take the lock.

A torn read is harmless because of what the queue holds meanwhile.  Take a header with a block row.
Either a row that the running refresh did not read still stands for it (`Covered`), or nothing of what
the refresh has read for it has changed since, and its stored summary is right unless the refresh is
about to replace it (`UpToDate`).  Every step keeps this (`step_caughtUp`), and
`summaries_catch_up` is what it says when nothing is queued and no refresh runs.
-/

namespace MergeMiningMonitor.Relationship

open Relational Transition List Option

variable {Hash : Type} [LinearOrder Hash]

/-! ### The queue -/

/-- What a row of `relationship_refresh_queue` asks for. -/
inductive QueueItem (Hash : Type)
  | header (hash : Hash)
  | identity (key : IdentityKey)
deriving DecidableEq

/-- A row of `relationship_refresh_queue`. -/
structure QueueRow (Hash : Type) where
  id : ℕ
  item : QueueItem Hash

/-- The header that a row asks for, if it is not an identity row. -/
def QueueRow.header? (q : QueueRow Hash) : Option Hash :=
  match q.item with
  | .header h => some h
  | .identity _ => none

/-- The queue. -/
abbrev Queue (Hash : Type) := Serial (@QueueRow.id Hash)

/-- Queue rows for some items. -/
def Queue.enqueue (queue : Queue Hash) (items : List (QueueItem Hash)) : Queue Hash :=
  queue.insertAll (fun item id => ⟨id, item⟩) (fun _ _ => rfl) items

/-- `enqueue_relationship_headers`: only headers with a block row are queued. -/
def Queue.enqueueRelationshipHeaders (queue : Queue Hash) (m : Inputs Hash) (hashes : List Hash) :
    Queue Hash :=
  queue.enqueue ((hashes.dedup.filter fun h => (m.blocks h).isSome).map .header)

/-- `EXPAND_IDENTITIES_SQL` -/
def Queue.expandQueuedIdentities (queue : Queue Hash) (m : Inputs Hash) : Queue Hash :=
  let keys := queue.rows.filterMap fun q =>
    match q.item with
    | .header _ => none
    | .identity key => some key
  let headers : Queue Hash := queue.delete fun q => q.header?.isNone
  headers.enqueueRelationshipHeaders m (keys.flatMap m.reached)

/-! ### A refresh -/

/-- How far a refresh is, with what it has read, by header. -/
inductive Phase (Hash : Type)
  | started
  | headers (rows : Hash → Option BlockRow)
  | coinbases (rows : Hash → Option BlockRow) (copies : Hash → List (ℤ × CoinbaseEvidence))
  | children (rows : Hash → Option BlockRow) (copies : Hash → List (ℤ × CoinbaseEvidence))
      (signals : Hash → List StoredDraft)
  | parents (parents : Hash → Option (BlockRow × List StoredDraft))
  | pools (parents : Hash → Option (BlockRow × List StoredDraft)) (poolsBySlug : String → Option ℤ)
  | written (summaries : Hash → Option Summary)

/-- A transaction that refreshes `hashes` and deletes the queue rows `ids`, of which a page of the
sweep or the rebuild has none. -/
structure Refresh (Hash : Type) where
  ids : List ℕ
  hashes : List Hash
  phase : Phase Hash

section Statements

variable (rules : CoinbaseRules) (m : Inputs Hash) (hashes : List Hash)

def loadHeaders (h : Hash) : Option BlockRow := if h ∈ hashes then m.blocks h else none

def loadEventCoinbases (h : Hash) : List (ℤ × CoinbaseEvidence) :=
  if h ∈ hashes then m.eventCoinbases h else []

def loadChildSignals (h : Hash) : List StoredDraft := if h ∈ hashes then m.childSignals h else []

def loadProtocolAccounts (h : Hash) : List StoredDraft :=
  if h ∈ hashes then m.protocolAccounts h else []

/-- `load_snapshot_pools`: nothing is read when no draft names a slug. -/
def loadSnapshotPools (parents : Hash → Option (BlockRow × List StoredDraft)) :
    String → Option ℤ :=
  let namesSnapshotPool := hashes.any fun h =>
    ((parents h).map fun (_, drafts) => drafts.any (·.snapshotSlug.isSome)).getD false
  if namesSnapshotPool then m.pools else fun _ => none

/-- `write_summaries`: only headers that still have a block row are written. -/
def writeSummaries (parents : Hash → Option (BlockRow × List StoredDraft))
    (poolsBySlug : String → Option ℤ) (h : Hash) : Option Summary :=
  if h ∈ hashes ∧ (m.blocks h).isSome then
    (parents h).map fun (row, drafts) => summaryOf row drafts poolsBySlug
  else none

/-- The next statement of `refresh_relationship_summaries`. -/
def Phase.next : Phase Hash → Phase Hash
  | .started =>
    let rows := loadHeaders m hashes
    if hashes.all fun h => (rows h).isNone then .written fun _ => none else .headers rows
  | .headers rows =>
    let incomplete := hashes.filter fun h =>
      ((rows h).map fun row => !row.coinbaseComplete).getD false
    .coinbases rows (loadEventCoinbases m incomplete)
  | .coinbases rows copies =>
    let found := hashes.filter fun h => (rows h).isSome
    .children rows copies (loadChildSignals m found)
  | .children rows copies signals =>
    let found := hashes.filter fun h => (rows h).isSome
    let accounts := loadProtocolAccounts m found
    .parents fun h => (rows h).map fun row =>
      (row, rules.bitcoinDrafts (coinbaseOf row (copies h)) ++ signals h ++ accounts h)
  | .parents ps => .pools ps (loadSnapshotPools m hashes ps)
  | .pools ps poolsBySlug => .written (writeSummaries m hashes ps poolsBySlug)
  | .written summaries => .written summaries

end Statements

/-! ### Interleaving -/

/-- The committed tables, and the refresh that holds the summary writers' lock. -/
structure Database (Hash : Type) where
  inputs : Inputs Hash
  queue : Queue Hash
  /-- `relationship_summary` -/
  stored : Hash → Option Summary
  refresh : Option (Refresh Hash)

inductive Action (Hash : Type)
  /-- A writer commits: the inputs it leaves, and the headers and identities it queues. -/
  | write (inputs : Inputs Hash) (headers : List Hash) (identities : List IdentityKey)
  /-- A drain takes the lock and reads queue rows. -/
  | drain (batchSize : ℕ)
  /-- The sweep or the rebuild takes the lock and reads a page of blocks. -/
  | page (hashes : List Hash)
  /-- The refresh executes its next statement. -/
  | next
  /-- The refresh deletes the queue rows it read, and commits. -/
  | commit
  /-- The refresh fails. -/
  | abort
  /-- `expand_queued_identities` -/
  | expand

/-- The summaries that a refresh has written and not yet committed. -/
def Database.uncommitted (w : Database Hash) (h : Hash) : Option Summary :=
  match w.refresh with
  | some ⟨_, _, .written summaries⟩ => summaries h
  | _ => none

/-- The headers that a refresh may have written and not yet committed. -/
def Database.refreshing (w : Database Hash) : List Hash := (w.refresh.map (·.hashes)).getD []

/-- The queue rows that the refresh will delete. -/
def Database.drained (w : Database Hash) : List ℕ := (w.refresh.map (·.ids)).getD []

variable (rules : CoinbaseRules)

/-- A step.  The summary of a deleted block goes with it, and a block whose summary is being written is
not deleted before that commits. -/
def step (w : Database Hash) : Action Hash → Option (Database Hash)
  | .write m headers identities =>
    if w.refreshing.any fun h => (w.uncommitted h).isSome && (m.blocks h).isNone then none
    else some
      { w with
        inputs := m
        queue := (w.queue.enqueueRelationshipHeaders m headers).enqueue (identities.map .identity)
        stored := fun h => if (m.blocks h).isSome then w.stored h else none }
  | .drain batchSize =>
    if w.refresh.isSome then none
    else
      let rows := ((w.queue.rows.filter (·.header?.isSome)).insertionSort
        fun q r => q.id ≤ r.id).take batchSize
      if rows.isEmpty then some w
      else some { w with refresh := some ⟨rows.map (·.id), rows.filterMap (·.header?), .started⟩ }
  | .page hashes =>
    if w.refresh.isSome then none else some { w with refresh := some ⟨[], hashes, .started⟩ }
  | .next => w.refresh.map fun r =>
    { w with refresh := some { r with phase := r.phase.next rules w.inputs r.hashes } }
  | .commit =>
    match w.refresh with
    | some ⟨ids, _, .written summaries⟩ => some
        { w with
          queue := w.queue.delete fun q => q.id ∈ ids
          stored := fun h => (summaries h).or (w.stored h)
          refresh := none }
    | _ => none
  | .abort => w.refresh.map fun _ => { w with refresh := none }
  | .expand => some { w with queue := w.queue.expandQueuedIdentities w.inputs }

/-- A writer queues the headers whose own inputs it changes and the identities whose pool it changes. -/
def Queues (w : Database Hash) : Action Hash → Prop
  | .write m headers identities =>
    (∀ h, (m.blocks h).isSome → headerInputs rules m h ≠ headerInputs rules w.inputs h →
      h ∈ headers) ∧
    ∀ key, m.identityPool key ≠ w.inputs.identityPool key → key ∈ identities
  | _ => True

/-! ### What a refresh has read -/

/-- What was read for a header is what the inputs say. -/
def Phase.Agrees (m : Inputs Hash) (h : Hash) : Phase Hash → Prop
  | .started => True
  | .headers rows => rows h = m.blocks h
  | .coinbases rows copies =>
    rows h = m.blocks h ∧ ∀ row, m.blocks h = some row → copies h = m.copiesFor h row
  | .children rows copies signals =>
    rows h = m.blocks h ∧ (∀ row, m.blocks h = some row → copies h = m.copiesFor h row) ∧
    signals h = m.childSignals h
  | .parents ps => ps h = m.parent rules h
  | .pools ps poolsBySlug => ps h = m.parent rules h ∧
      ∀ row drafts, m.parent rules h = some (row, drafts) →
        ∀ d ∈ drafts, d.poolIn poolsBySlug = d.poolIn m.pools
  | .written summaries => summaries h = derive rules m h

/-- Nothing is written for other headers. -/
def Phase.Confined (hashes : List Hash) : Phase Hash → Prop
  | .written summaries => ∀ h, h ∉ hashes → summaries h = none
  | _ => True

section Reads

variable {rules} {m m' : Inputs Hash} {hashes : List Hash} {h : Hash} {row : BlockRow}

omit [LinearOrder Hash] in
theorem resolve_loadSnapshotPools {ps : Hash → Option (BlockRow × List StoredDraft)}
    {drafts : List StoredDraft} (hh : h ∈ hashes) (hps : ps h = some (row, drafts))
    {d : StoredDraft} (hd : d ∈ drafts) :
    d.poolIn (loadSnapshotPools m hashes ps) = d.poolIn m.pools := by
  rw [loadSnapshotPools]
  dsimp only
  split
  · rfl
  · next hnone =>
      cases hpool : d.pool with
      | known pool => simp only [StoredDraft.poolIn, SignalDraft.resolvedPool, hpool]
      | snapshot slug =>
        refine absurd (any_eq_true.mpr ⟨h, hh, ?_⟩) hnone
        rw [hps]
        exact any_eq_true.mpr ⟨d, hd, by simp [StoredDraft.snapshotSlug, hpool]⟩

theorem agrees_next {phase : Phase Hash} (hh : h ∈ hashes) (hrow : m.blocks h = some row)
    (hp : phase.Agrees rules m h) : (phase.next rules m hashes).Agrees rules m h := by
  cases phase with
  | started =>
    have hload : loadHeaders m hashes h = m.blocks h := if_pos hh
    rw [Phase.next]
    split
    · next hnone =>
        have := all_eq_true.mp hnone h hh
        simp [hload, hrow] at this
    · exact hload
  | headers rows =>
    refine ⟨hp, fun row' hrow' => ?_⟩
    obtain rfl := some.inj (hrow.symm.trans hrow')
    have hrows : rows h = some row := Eq.trans hp hrow
    cases hcomplete : row.coinbaseComplete <;>
      simp [loadEventCoinbases, Inputs.copiesFor, hh, hrows, hcomplete]
  | coinbases rows copies =>
    have hrows : rows h = some row := hp.1.trans hrow
    exact ⟨hp.1, hp.2, if_pos (by simp [hh, hrows])⟩
  | children rows copies signals =>
    obtain ⟨hrows, hcopies, hsignals⟩ := hp
    have hfound : h ∈ hashes.filter fun h => (rows h).isSome := by simp [hh, hrows, hrow]
    have haccounts : loadProtocolAccounts m (hashes.filter fun h => (rows h).isSome) h =
        m.protocolAccounts h := if_pos hfound
    change (rows h).map _ = _
    rw [Inputs.parent, hrows, hrow, map_some, map_some, hcopies row hrow, hsignals,
      haccounts]
  | parents ps =>
    refine ⟨hp, fun row drafts hparent d hd => ?_⟩
    exact resolve_loadSnapshotPools hh (Eq.trans hp hparent) hd
  | pools ps poolsBySlug =>
    obtain ⟨hps, hpools⟩ := hp
    change writeSummaries m hashes ps poolsBySlug h = _
    rw [writeSummaries, if_pos ⟨hh, by simp [hrow]⟩, hps, derive]
    cases hparent : m.parent rules h with
    | none => rfl
    | some p => exact congrArg some (summaryOf_congr (hpools p.1 p.2 hparent))
  | written summaries => exact hp

/-- What was read stays right as long as nothing that is read for the header changes. -/
theorem agrees_congr {phase : Phase Hash} (hs : SameReads rules m m' h)
    (hp : phase.Agrees rules m h) : phase.Agrees rules m' h := by
  cases phase with
  | started => trivial
  | headers rows => exact Eq.trans hp hs.blocks.symm
  | coinbases rows copies =>
    refine ⟨hp.1.trans hs.blocks.symm, fun row hrow => ?_⟩
    have hrow := hs.blocks ▸ hrow
    exact (hp.2 row hrow).trans (hs.copiesFor hrow).symm
  | children rows copies signals =>
    refine ⟨hp.1.trans hs.blocks.symm, fun row hrow => ?_, hp.2.2.trans hs.childSignals.symm⟩
    have hrow := hs.blocks ▸ hrow
    exact (hp.2.1 row hrow).trans (hs.copiesFor hrow).symm
  | parents ps => exact Eq.trans hp hs.parent.symm
  | pools ps poolsBySlug =>
    refine ⟨hp.1.trans hs.parent.symm, fun row drafts hparent d hd => ?_⟩
    have hparent := hs.parent ▸ hparent
    exact (hp.2 row drafts hparent d hd).trans (hs.resolve hparent hd).symm
  | written summaries => exact Eq.trans hp hs.derive_congr.symm

theorem confined_next {phase : Phase Hash} (hp : phase.Confined hashes) :
    (phase.next rules m hashes).Confined hashes := by
  cases phase with
  | started =>
    rw [Phase.next]
    split
    · exact fun _ _ => rfl
    · trivial
  | pools ps poolsBySlug => exact fun h hh => if_neg fun hand => hh hand.1
  | written summaries => exact hp
  | headers | coinbases | children | parents => trivial

end Reads

/-! ### What every step keeps -/

/-- A queue row asks for a header that names the given identities. -/
def QueueRow.StandsFor (q : QueueRow Hash) (h : Hash) (identities : List IdentityKey) : Prop :=
  match q.item with
  | .header h' => h' = h
  | .identity key => key ∈ identities

/-- A queue row that the running refresh will not delete stands for the header. -/
def Covered (w : Database Hash) (h : Hash) : Prop :=
  ∃ q ∈ w.queue.rows, q.id ∉ w.drained ∧
    q.StandsFor h (headerInputs rules w.inputs h).identities

variable (Right : Option Summary → Option Summary → Prop)

/-- What the running refresh has read for the header is what the inputs say, and the stored summary is
right unless the refresh is about to replace it. -/
structure UpToDate (w : Database Hash) (h : Hash) : Prop where
  reads : ∀ r, w.refresh = some r → h ∈ r.hashes → r.phase.Agrees rules w.inputs h
  stored : (∀ q ∈ w.queue.rows, q.id ∈ w.drained → q.item ≠ .header h) →
    Right (w.stored h) (derive rules w.inputs h)

/-- What is known of the database between two steps. -/
structure CaughtUp (w : Database Hash) : Prop where
  headers : ∀ h, (w.inputs.blocks h).isSome → Covered rules w h ∨ UpToDate rules Right w h
  drained_lt : ∀ i ∈ w.drained, i < w.queue.next
  drained_header : ∀ q ∈ w.queue.rows, q.id ∈ w.drained → ∃ h ∈ w.refreshing, q.item = .header h
  confined : ∀ r, w.refresh = some r → r.phase.Confined r.hashes

section Steps

variable {rules Right} {w w' : Database Hash} {h : Hash}

/-- Where nothing is drained, an up to date header has the right summary. -/
theorem UpToDate.right (hu : UpToDate rules Right w h) (hidle : w.refresh = none) :
    Right (w.stored h) (derive rules w.inputs h) :=
  hu.stored fun q _ hq => by simp [Database.drained, hidle] at hq

/-- When no refresh runs, one may start that has read the queue rows `ids`, whose headers it
refreshes. -/
theorem caughtUp_start (hw : CaughtUp rules Right w) (hidle : w.refresh = none) {ids : List ℕ}
    {hashes : List Hash} (hids : ∀ i ∈ ids, i < w.queue.next)
    (hheader : ∀ q ∈ w.queue.rows, q.id ∈ ids → ∃ h ∈ hashes, q.item = .header h) :
    CaughtUp rules Right { w with refresh := some ⟨ids, hashes, .started⟩ } where
  headers h hblock := by
    rcases hw.headers h hblock with ⟨q, hq, -, hfor⟩ | hu
    · by_cases hid : q.id ∈ ids
      · obtain ⟨h', hh', hitem⟩ := hheader q hq hid
        rw [QueueRow.StandsFor, hitem] at hfor
        obtain rfl : h' = h := hfor
        refine .inr ⟨?_, fun hnone => absurd hitem (hnone q hq hid)⟩
        rintro r ⟨⟩ -
        trivial
      · exact .inl ⟨q, hq, hid, hfor⟩
    · refine .inr ⟨?_, fun _ => hu.right hidle⟩
      rintro r ⟨⟩ -
      trivial
  drained_lt := hids
  drained_header := hheader
  confined := by
    rintro r ⟨⟩
    trivial

theorem caughtUp_next (hw : CaughtUp rules Right w) {r : Refresh Hash} (hr : w.refresh = some r) :
    CaughtUp rules Right
      { w with refresh := some { r with phase := r.phase.next rules w.inputs r.hashes } } := by
  have hdrained : w.drained = r.ids := by rw [Database.drained, hr]; rfl
  have hrefreshing : w.refreshing = r.hashes := by rw [Database.refreshing, hr]; rfl
  refine ⟨fun h hblock => ?_, ?_, ?_, ?_⟩
  · obtain ⟨row, hrow⟩ := isSome_iff_exists.mp hblock
    rcases hw.headers h hblock with ⟨q, hq, hid, hfor⟩ | hu
    · exact .inl ⟨q, hq, hdrained ▸ hid, hfor⟩
    · refine .inr ⟨?_, fun hnone => hu.stored fun q hq hid => hnone q hq (hdrained ▸ hid)⟩
      rintro r' ⟨⟩ hh
      exact agrees_next hh hrow (hu.reads r hr hh)
  · exact hdrained ▸ hw.drained_lt
  · exact hdrained ▸ hrefreshing ▸ hw.drained_header
  · rintro r' ⟨⟩
    exact confined_next (hw.confined r hr)

theorem caughtUp_commit (hrefl : ∀ d, Right d d) (hw : CaughtUp rules Right w) {ids : List ℕ}
    {hashes : List Hash} {summaries : Hash → Option Summary}
    (hr : w.refresh = some ⟨ids, hashes, .written summaries⟩) :
    CaughtUp rules Right
      { w with
        queue := w.queue.delete fun q => q.id ∈ ids
        stored := fun h => (summaries h).or (w.stored h)
        refresh := none } := by
  have hdrained : w.drained = ids := by rw [Database.drained, hr]; rfl
  have hrefreshing : w.refreshing = hashes := by rw [Database.refreshing, hr]; rfl
  refine ⟨fun h hblock => ?_, by simp [Database.drained], by simp [Database.drained], by simp⟩
  rcases hw.headers h hblock with ⟨q, hq, hid, hfor⟩ | hu
  · rw [hdrained] at hid
    exact .inl ⟨q, by simp [hq, hid], by simp [Database.drained], hfor⟩
  · refine .inr ⟨by simp, fun _ => ?_⟩
    change Right ((summaries h).or (w.stored h)) (derive rules w.inputs h)
    by_cases hh : h ∈ hashes
    · have hwritten : summaries h = derive rules w.inputs h := hu.reads _ hr hh
      have hsome : (derive rules w.inputs h).isSome := by
        simpa [derive, Inputs.parent] using hblock
      rw [hwritten, or_of_isSome hsome]
      exact hrefl _
    · have hnone : summaries h = none := hw.confined _ hr h hh
      rw [hnone, none_or]
      refine hu.stored fun q hq hid hitem => hh ?_
      obtain ⟨h', hh', hitem'⟩ := hw.drained_header q hq hid
      cases hitem.symm.trans hitem'
      exact hrefreshing ▸ hh'

theorem caughtUp_abort (hw : CaughtUp rules Right w) :
    CaughtUp rules Right { w with refresh := none } := by
  refine ⟨fun h hblock => ?_, by simp [Database.drained], by simp [Database.drained], by simp⟩
  rcases hw.headers h hblock with ⟨q, hq, -, hfor⟩ | hu
  · exact .inl ⟨q, hq, by simp [Database.drained], hfor⟩
  · by_cases hnone : ∀ q ∈ w.queue.rows, q.id ∈ w.drained → q.item ≠ .header h
    · exact .inr ⟨by simp, fun _ => hu.stored hnone⟩
    · push Not at hnone
      obtain ⟨q, hq, -, hitem⟩ := hnone
      exact .inl ⟨q, hq, by simp [Database.drained], by rw [QueueRow.StandsFor, hitem]⟩

/-- A queue after some rows were added and some deleted. -/
structure Grows (queue queue' : Queue Hash) : Prop where
  next : queue.next ≤ queue'.next
  rows : ∀ q ∈ queue'.rows, q ∈ queue.rows ∨ queue.next ≤ q.id
  headers : ∀ q ∈ queue.rows, ∀ h, q.item = .header h → q ∈ queue'.rows

/-- What may be queued while a refresh runs: it neither reads nor deletes the new rows. -/
theorem CaughtUp.grow (hw : CaughtUp rules Right w) (hgrows : Grows w.queue w'.queue)
    (hrefresh : w'.refresh = w.refresh)
    (hheaders : ∀ h, (w'.inputs.blocks h).isSome → Covered rules w' h ∨ UpToDate rules Right w' h) :
    CaughtUp rules Right w' := by
  have hdrained : w'.drained = w.drained := by rw [Database.drained, Database.drained, hrefresh]
  have hrefreshing : w'.refreshing = w.refreshing := by
    rw [Database.refreshing, Database.refreshing, hrefresh]
  refine ⟨hheaders, fun i hi => ?_, fun q hq hid => ?_, hrefresh ▸ hw.confined⟩
  · exact (hw.drained_lt i (hdrained ▸ hi)).trans_le hgrows.next
  · rw [hdrained] at hid
    rw [hrefreshing]
    rcases hgrows.rows q hq with hq | hq
    · exact hw.drained_header q hq hid
    · exact absurd (hw.drained_lt _ hid) hq.not_gt

/-- A header that was up to date stays so, if nothing that is read for it changed. -/
theorem UpToDate.grow (hw : CaughtUp rules Right w) (hu : UpToDate rules Right w h)
    (hgrows : Grows w.queue w'.queue) (hrefresh : w'.refresh = w.refresh)
    (hsame : SameReads rules w.inputs w'.inputs h) (hstored : w'.stored h = w.stored h) :
    UpToDate rules Right w' h := by
  have hdrained : w'.drained = w.drained := by rw [Database.drained, Database.drained, hrefresh]
  refine ⟨fun r hr hh => agrees_congr hsame (hu.reads r (hrefresh ▸ hr) hh), fun hnone => ?_⟩
  rw [hstored, hsame.derive_congr]
  refine hu.stored fun q hq hid => ?_
  obtain ⟨h', -, hitem⟩ := hw.drained_header q hq hid
  exact hnone q (hgrows.headers q hq h' hitem) (hdrained ▸ hid)

section Enqueue

variable {queue : Queue Hash} {m : Inputs Hash} {hashes : List Hash}

omit [LinearOrder Hash] in
theorem grows_enqueue {items : List (QueueItem Hash)} : Grows queue (queue.enqueue items) where
  next := Serial.next_le_insertAll
  rows _ := Serial.mem_insertAll
  headers _ hq _ _ := Serial.mem_insertAll_of_mem hq

omit [LinearOrder Hash] in
theorem exists_mem_enqueue {items : List (QueueItem Hash)} {item : QueueItem Hash}
    (hitem : item ∈ items) :
    ∃ q ∈ (queue.enqueue items).rows, queue.next ≤ q.id ∧ q.item = item := by
  obtain ⟨n, hn, hrow⟩ : ∃ n, queue.next ≤ n ∧
      (⟨n, item⟩ : QueueRow Hash) ∈ (queue.enqueue items).rows :=
    Serial.exists_mem_insertAll hitem
  exact ⟨_, hrow, hn, rfl⟩

theorem exists_mem_enqueueRelationshipHeaders (hh : h ∈ hashes) (hblock : (m.blocks h).isSome) :
    ∃ q ∈ (queue.enqueueRelationshipHeaders m hashes).rows,
      queue.next ≤ q.id ∧ q.item = .header h :=
  exists_mem_enqueue (mem_map.mpr ⟨h, by simp [hh, hblock], rfl⟩)

theorem grows_expand : Grows queue (queue.expandQueuedIdentities m) where
  next := Serial.next_le_insertAll (t := queue.delete fun q => q.header?.isNone)
  rows q hq := by
    rcases Serial.mem_insertAll hq with hq | hq
    · exact .inl (mem_filter.mp hq).1
    · exact .inr hq
  headers q hq h hitem := by
    refine Serial.mem_insertAll_of_mem (mem_filter.mpr ⟨hq, ?_⟩)
    simp [QueueRow.header?, hitem]

end Enqueue

theorem covered_of_new (hw : CaughtUp rules Right w) (hrefresh : w'.refresh = w.refresh)
    {q : QueueRow Hash} (hq : q ∈ w'.queue.rows) (hnew : w.queue.next ≤ q.id)
    (hfor : q.StandsFor h (headerInputs rules w'.inputs h).identities) : Covered rules w' h := by
  refine ⟨q, hq, fun hid => ?_, hfor⟩
  rw [Database.drained, hrefresh] at hid
  exact absurd (hw.drained_lt _ hid) hnew.not_gt

theorem caughtUp_expand (hw : CaughtUp rules Right w) :
    CaughtUp rules Right { w with queue := w.queue.expandQueuedIdentities w.inputs } := by
  refine hw.grow grows_expand rfl fun h hblock => ?_
  rcases hw.headers h hblock with ⟨q, hq, hid, hfor⟩ | hu
  · rw [QueueRow.StandsFor] at hfor
    split at hfor
    · next h' hitem =>
        exact .inl ⟨q, grows_expand.headers q hq h' hitem, hid, by rwa [QueueRow.StandsFor, hitem]⟩
    · next key hitem =>
        -- the identity row is gone, and a header row has taken its place
        have hreached : h ∈ (w.queue.rows.filterMap fun q =>
            match q.item with
            | .header _ => none
            | .identity key => some key).flatMap w.inputs.reached :=
          mem_flatMap.mpr
            ⟨key, mem_filterMap.mpr ⟨q, hq, by rw [hitem]⟩, mem_reached hfor⟩
        obtain ⟨q', hq', hnew, hitem'⟩ : ∃ q' ∈ (w.queue.expandQueuedIdentities w.inputs).rows,
            w.queue.next ≤ q'.id ∧ q'.item = .header h :=
          exists_mem_enqueueRelationshipHeaders hreached hblock
        exact .inl (covered_of_new hw rfl hq' hnew (by rw [QueueRow.StandsFor, hitem']))
  · exact .inr (hu.grow hw grows_expand rfl ⟨rfl, fun _ _ => rfl⟩ rfl)

omit [LinearOrder Hash] in
theorem Grows.trans {queue queue' queue'' : Queue Hash} (h : Grows queue queue')
    (h' : Grows queue' queue'') : Grows queue queue'' where
  next := h.next.trans h'.next
  rows q hq := by
    rcases h'.rows q hq with hq | hq
    · exact h.rows q hq
    · exact .inr (h.next.trans hq)
  headers q hq hash hitem := h'.headers q (h.headers q hq hash hitem) hash hitem

theorem caughtUp_write (hw : CaughtUp rules Right w) {m : Inputs Hash} {headers : List Hash}
    {identities : List IdentityKey} (hqueues : Queues rules w (.write m headers identities)) :
    CaughtUp rules Right
      { w with
        inputs := m
        queue := (w.queue.enqueueRelationshipHeaders m headers).enqueue (identities.map .identity)
        stored := fun h => if (m.blocks h).isSome then w.stored h else none } := by
  have hgrows : Grows w.queue ((w.queue.enqueueRelationshipHeaders m headers).enqueue
      (identities.map .identity)) := grows_enqueue.trans grows_enqueue
  refine hw.grow hgrows rfl fun h hblock => ?_
  have hblock : (m.blocks h).isSome := hblock
  by_cases hinputs : headerInputs rules m h = headerInputs rules w.inputs h
  · have hbefore : (w.inputs.blocks h).isSome := by
      rw [← show m.blocks h = w.inputs.blocks h from congrArg HeaderInputs.block hinputs]
      exact hblock
    rcases hw.headers h hbefore with ⟨q, hq, hid, hfor⟩ | hu
    · refine .inl ⟨q, Serial.mem_insertAll_of_mem (Serial.mem_insertAll_of_mem hq), hid, ?_⟩
      rwa [hinputs]
    · by_cases hpools : ∀ key ∈ (headerInputs rules w.inputs h).identities,
          m.identityPool key = w.inputs.identityPool key
      · exact .inr (hu.grow hw hgrows rfl ⟨hinputs, hpools⟩ (if_pos hblock))
      · push Not at hpools
        obtain ⟨key, hkey, hne⟩ := hpools
        obtain ⟨q, hq, hnew, hitem⟩ := exists_mem_enqueue
          (mem_map_of_mem (hqueues.2 key hne))
        refine .inl (covered_of_new hw rfl hq (grows_enqueue.next.trans hnew) ?_)
        rw [QueueRow.StandsFor, hitem]
        exact hinputs ▸ hkey
  · obtain ⟨q, hq, hnew, hitem⟩ :=
      exists_mem_enqueueRelationshipHeaders (hqueues.1 h hblock hinputs) hblock
    refine .inl (covered_of_new hw rfl (Serial.mem_insertAll_of_mem hq) hnew ?_)
    rw [QueueRow.StandsFor, hitem]

theorem caughtUp_drain (hw : CaughtUp rules Right w) {batchSize : ℕ}
    (hstep : step rules w (.drain batchSize) = some w') : CaughtUp rules Right w' := by
  rw [step] at hstep
  split at hstep
  · cases hstep
  · next hidle =>
      dsimp only at hstep
      split at hstep
      · obtain rfl := some.inj hstep
        exact hw
      · obtain rfl := some.inj hstep
        have hread : ∀ q ∈ ((w.queue.rows.filter (·.header?.isSome)).insertionSort
            fun q r => q.id ≤ r.id).take batchSize, q ∈ w.queue.rows ∧ q.header?.isSome :=
          fun q hq => by simpa using mem_of_mem_take hq
        refine caughtUp_start hw (by simpa using hidle) (fun i hi => ?_) fun q hq hid => ?_
        · obtain ⟨q, hq, rfl⟩ := mem_map.mp hi
          exact w.queue.ids_lt q (hread q hq).1
        · obtain ⟨q', hq', hid⟩ := mem_map.mp hid
          obtain rfl := w.queue.eq_of_key_eq (hread q' hq').1 hq hid
          obtain ⟨h, hh⟩ := isSome_iff_exists.mp (hread q' hq').2
          refine ⟨h, mem_filterMap.mpr ⟨q', hq', hh⟩, ?_⟩
          rw [QueueRow.header?] at hh
          split at hh
          · next hitem => rw [hitem, some.inj hh]
          · cases hh

/-- Every step of a run in which writers queue what they affect keeps the database caught up. -/
theorem step_caughtUp (hrefl : ∀ d, Right d d) {a : Action Hash} (hw : CaughtUp rules Right w)
    (hqueues : Queues rules w a) (hstep : step rules w a = some w') : CaughtUp rules Right w' := by
  cases a with
  | write m headers identities =>
    rw [step] at hstep
    split at hstep
    · cases hstep
    · obtain rfl := some.inj hstep
      exact caughtUp_write hw hqueues
  | drain batchSize => exact caughtUp_drain hw hstep
  | page hashes =>
    rw [step] at hstep
    split at hstep
    · cases hstep
    · next hidle =>
        obtain rfl := some.inj hstep
        exact caughtUp_start hw (by simpa using hidle) (by simp) (by simp)
  | next =>
    obtain ⟨r, hr, rfl⟩ := map_eq_some_iff.mp hstep
    exact caughtUp_next hw hr
  | commit =>
    rw [step] at hstep
    split at hstep
    · next hr =>
        obtain rfl := some.inj hstep
        exact caughtUp_commit hrefl hw hr
    · cases hstep
  | abort =>
    obtain ⟨r, -, rfl⟩ := map_eq_some_iff.mp hstep
    exact caughtUp_abort hw
  | expand =>
    obtain rfl := some.inj hstep
    exact caughtUp_expand hw

theorem caughtUp_of_idle (hidle : w.refresh = none)
    (hright : ∀ h, (w.inputs.blocks h).isSome → Right (w.stored h) (derive rules w.inputs h)) :
    CaughtUp rules Right w :=
  ⟨fun h hh => .inr ⟨by simp [hidle], fun _ => hright h hh⟩, by simp [Database.drained, hidle],
    by simp [Database.drained, hidle], by simp [hidle]⟩

variable (Right) in
/-- At the end of a run, where nothing is queued and no refresh runs, every header is right. -/
theorem right_of_quiet (hrefl : ∀ d, Right d d) {w₀ : Database Hash} {as : List (Action Hash)}
    (hstart : ∀ h, (w₀.inputs.blocks h).isSome → Right (w₀.stored h) (derive rules w₀.inputs h))
    (hidle₀ : w₀.refresh = none) (hrun : exec (step rules) w₀ as = some w)
    (hqueues : Along (step rules) (Queues rules) w₀ as) (hempty : w.queue.rows = [])
    (hidle : w.refresh = none) (hblock : (w.inputs.blocks h).isSome) :
    Right (w.stored h) (derive rules w.inputs h) := by
  have hcaught : CaughtUp rules Right w :=
    exec_history (J := fun _ w => CaughtUp rules Right w) (caughtUp_of_idle hidle₀ hstart)
      (fun _ _ _ _ _ hw hG hstep => step_caughtUp hrefl hw hG hstep) hrun hqueues
  rcases hcaught.headers h hblock with ⟨q, hq, -⟩ | hu
  · rw [hempty] at hq
    cases hq
  · exact hu.right hidle

end Steps

/-- **Summaries catch up.**  From summaries that are right, whatever writers commit while drains, pages
and expansions run: when nothing is queued and no refresh runs, every stored summary of a header with a
block row is the one derived from the inputs.  If every header had its summary, it still has. -/
theorem summaries_catch_up {w₀ w : Database Hash} {as : List (Action Hash)}
    (hstart : ∀ h σ, (w₀.inputs.blocks h).isSome → w₀.stored h = some σ →
      derive rules w₀.inputs h = some σ)
    (hidle₀ : w₀.refresh = none) (hrun : exec (step rules) w₀ as = some w)
    (hqueues : Along (step rules) (Queues rules) w₀ as) (hempty : w.queue.rows = [])
    (hidle : w.refresh = none) :
    (∀ h σ, (w.inputs.blocks h).isSome → w.stored h = some σ →
      derive rules w.inputs h = some σ) ∧
    ((∀ h, (w₀.inputs.blocks h).isSome → (w₀.stored h).isSome) →
      ∀ h, (w.inputs.blocks h).isSome → (w.stored h).isSome) := by
  constructor
  · intro h σ hblock
    exact right_of_quiet (fun stored derived => ∀ σ, stored = some σ → derived = some σ)
      (fun _ _ hσ => hσ) (fun h hh σ => hstart h σ hh) hidle₀ hrun hqueues hempty hidle hblock σ
  · intro hall h hblock
    have hright : w.stored h = derive rules w.inputs h := by
      refine right_of_quiet Eq (fun _ => rfl) (fun h hh => ?_) hidle₀ hrun hqueues hempty
        hidle hblock
      obtain ⟨σ, hσ⟩ := isSome_iff_exists.mp (hall h hh)
      rw [hσ, hstart h σ hh hσ]
    rw [hright]
    simpa [derive, Inputs.parent] using hblock

/-! ### A torn read -/

namespace Sample

/-- A snapshot that recognizes nothing. -/
def snapshot : CoinbaseRules := ⟨fun _ => none, fun _ => none, fun _ => none, fun _ => []⟩

/-- Header 1, whose child block was paid to an address of the given pool, and whose coinbase declares an
exSat account of pool 7 or none. -/
def inputs (pool : ℤ) (declared : Bool) : Inputs ℕ where
  blocks h := if h = 1 then some ⟨1000, some 5, none, true, none, none⟩ else none
  events := [⟨1, 1, "auxpow:rsk", 1000, none, none, false, ⟨none, none, none⟩⟩]
  attributions := [⟨1, 1, .childBlock, "rsk_miner_address", "aa", none, some 1⟩]
  identities := ⟨[⟨1, pool, ("rsk_miner_address", "aa")⟩, ⟨2, 7, ("exsat_account", "beta.sat")⟩],
    by simp⟩
  commitments := if declared then [⟨1, 0, 1⟩] else []
  scripts := [⟨1, .exsat, some "exsat_account", some "beta.sat"⟩]
  decoderCurrent := true
  pools _ := none

/-- Nothing is queued, and the summary of header 1 is right. -/
def start : Database ℕ where
  inputs := inputs 1 false
  queue := Serial.empty
  stored h := if h = 1 then some ⟨1000, some 5, false, [1]⟩ else none
  refresh := none

/-- The account is declared after a refresh has read the block and the child signals, and the address
gets another pool; that refresh writes the old pool of the one with the pool of the other. -/
def actions : List (Action ℕ) :=
  [.write (inputs 1 false) [1] [], .drain 500, .next, .next, .next,
    .write (inputs 2 false) [] [("rsk_miner_address", "aa")],
    .write (inputs 2 true) [1] [], .next, .next, .next, .commit, .expand,
    .drain 500, .next, .next, .next, .next, .next, .next, .commit]

/-- Only header 1 has a block row. -/
theorem eq_one_of_block {pool : ℤ} {declared : Bool} {h : ℕ}
    (hblock : ((inputs pool declared).blocks h).isSome) : h = 1 := by
  by_contra hne
  simp [inputs, hne] at hblock

/-- A declaration is the header's own. -/
theorem queues_declaration {w : Database ℕ} {pool : ℤ} {declared declared' : Bool}
    (hw : w.inputs = inputs pool declared) :
    Queues snapshot w (.write (inputs pool declared') [1] []) := by
  refine ⟨fun h hblock _ => by simp [eq_one_of_block hblock], fun key hne => absurd ?_ hne⟩
  rw [hw]
  rfl

/-- The pool of an address is the identity's. -/
theorem queues_pool {w : Database ℕ} {pool pool' : ℤ} (hw : w.inputs = inputs pool false) :
    Queues snapshot w (.write (inputs pool' false) [] [("rsk_miner_address", "aa")]) := by
  refine ⟨fun h hblock hne => absurd ?_ hne, fun key hne => ?_⟩
  · rw [hw, eq_one_of_block hblock]
    rfl
  · by_contra hkey
    rw [mem_singleton] at hkey
    refine hne ?_
    rw [hw]
    simp [Inputs.identityPool, inputs, Table.find?, Ne.symm hkey]

theorem queues_actions : Along (step snapshot) (Queues snapshot) start actions := by
  refine ⟨queues_declaration rfl, ?_⟩
  rintro w ⟨⟩
  iterate 4
    refine ⟨trivial, ?_⟩
    rintro w ⟨⟩
  refine ⟨queues_pool rfl, ?_⟩
  rintro w ⟨⟩
  refine ⟨queues_declaration rfl, fun w _ => along_of_forall w fun w a ha => ?_⟩
  iterate 13
    rcases mem_cons.mp ha with rfl | ha
    · trivial
  cases ha

end Sample

/-- The refresh that read some inputs before the changes and some after is made good. -/
theorem torn_read_is_repaired :
    ∃ w, exec (step Sample.snapshot) Sample.start Sample.actions = some w ∧
      w.stored 1 = some ⟨1000, some 5, true, [2, 7]⟩ ∧
      derive Sample.snapshot w.inputs 1 = some ⟨1000, some 5, true, [2, 7]⟩ := by
  obtain ⟨w, hrun, hempty, hidle, hblock, hstored⟩ :
      ∃ w, exec (step Sample.snapshot) Sample.start Sample.actions = some w ∧
        w.queue.rows.isEmpty = true ∧ w.refresh.isNone = true ∧ (w.inputs.blocks 1).isSome ∧
        w.stored 1 = some ⟨1000, some 5, true, [2, 7]⟩ :=
    Fallible.exists_of_any (by decide +kernel)
  refine ⟨w, hrun, hstored, ?_⟩
  refine (summaries_catch_up Sample.snapshot (fun h σ hh hσ => ?_) rfl hrun Sample.queues_actions
    (by simpa using hempty) (by simpa using hidle)).1 1 _ hblock hstored
  obtain rfl := Sample.eq_one_of_block hh
  exact hσ

end MergeMiningMonitor.Relationship
