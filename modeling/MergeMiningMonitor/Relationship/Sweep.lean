import MergeMiningMonitor.Relationship.Refresh

/-!
# Relationship — Sweep

The scheduled sweep of the summaries (`run_relationship_sweep`).  It expands the queued identities,
drains the queue, and then refreshes page after page of blocks.  A summary that a page changes while no
header row is queued for it is counted as drift, that is, as the work of a writer that queued nothing.
The count is a statement of its own, after the page has read its inputs and written.

The count looks for header rows.  A change that is queued as an identity row, after the sweep has
expanded the identities, moves summaries that have no header row: it is counted as drift
(`identity_change_counts_as_drift`).  Nothing else is, because every changed summary is still covered
(`CaughtUp`): a changed header without a header row names an identity that is queued
(`identity_of_unqueued`), and where no page names one the sweep reports nothing
(`sweep_reports_no_drift`).
-/

namespace MergeMiningMonitor.Relationship

open Relational Transition List Option

variable {Hash : Type} [LinearOrder Hash]

/-- Where the sweep is, with how many batches or pages it may still begin. -/
inductive Stage (Hash : Type)
  | started
  | draining (batches : ℕ)
  /-- In the transaction of a batch. -/
  | batch (batches : ℕ)
  | paging (pages : ℕ)
  /-- In the transaction of a page, before its summaries are written. -/
  | page (pages : ℕ) (hashes : List Hash)
  /-- The page is written, with these changes. -/
  | counting (pages : ℕ) (hashes changed : List Hash)
  | counted (pages : ℕ) (hashes : List Hash)
  | finished (passCompleted : Bool)
deriving DecidableEq

/-- The sweep holds the summary writers' lock. -/
def Stage.holdsLock : Stage Hash → Bool
  | .batch _ => true
  | .page .. => true
  | .counting .. => true
  | .counted .. => true
  | _ => false

/-- The sweep is in a page whose summaries it has not counted. -/
def Stage.inPage : Stage Hash → Bool
  | .page .. => true
  | .counting .. => true
  | _ => false

/-- The action is one of the refresh that holds the lock. -/
def Action.ofRefresh : Action Hash → Bool
  | .next => true
  | .commit => true
  | .abort => true
  | _ => false

/-- The refresh has written its summaries. -/
def Database.isWritten (w : Database Hash) : Bool :=
  match w.refresh with
  | some ⟨_, _, .written _⟩ => true
  | _ => false

/-- What `refresh_relationship_summaries` returns: the headers whose summary was inserted or changed. -/
def Database.changed (w : Database Hash) : List Hash :=
  w.refreshing.dedup.filter fun h => (w.uncommitted h).isSome && w.uncommitted h ≠ w.stored h

/-- The headers that no header row of the queue asks for. -/
def Queue.unqueued (queue : Queue Hash) (hashes : List Hash) : List Hash :=
  hashes.filter fun h => queue.rows.all fun q => q.item ≠ .header h

/-- A sweep among the other processes. -/
structure Sweep (Hash : Type) where
  db : Database Hash
  stage : Stage Hash
  /-- `RelationshipSweep::drifted` -/
  drifted : ℕ

inductive SweepAction (Hash : Type)
  /-- A writer, a drain of the follower, a rebuild, or another expansion. -/
  | other (a : Action Hash)
  /-- The next statement of the sweep.  The hashes are what `block_page` reads, where it is that. -/
  | sweep (hashes : List Hash)

namespace Sweep

variable (rules : CoinbaseRules) (pageSize maxPages : ℕ)

/-- A statement of the sweep that changes the tables. -/
def statement (s : Sweep Hash) (a : Action Hash) (stage : Database Hash → Stage Hash) :
    Option (Sweep Hash) :=
  (Relationship.step rules s.db a).map fun db => { s with db, stage := stage db }

/-- `run_relationship_sweep`, one statement at a time.  The drain gives up when the lock is taken; a
page waits for it. -/
def advance (s : Sweep Hash) (hashes : List Hash) : Option (Sweep Hash) :=
  match s.stage with
  | .started => s.statement rules .expand fun _ => .draining maxPages
  | .draining 0 => some { s with stage := .paging maxPages }
  | .draining (n + 1) =>
    if s.db.refresh.isSome then some { s with stage := .paging maxPages }
    else s.statement rules (.drain pageSize) fun db =>
      if db.refresh.isSome then .batch n else .paging maxPages
  | .batch n =>
    if s.db.isWritten then s.statement rules .commit fun _ => .draining n
    else s.statement rules .next fun _ => .batch n
  | .paging 0 => some { s with stage := .finished false }
  | .paging (n + 1) => s.statement rules (.page hashes) fun _ => .page n hashes
  | .page n hashes => s.statement rules .next fun db =>
    if db.isWritten then .counting n hashes db.changed else .page n hashes
  | .counting n hashes changed => some
      { s with
        stage := .counted n hashes
        drifted := s.drifted + (s.db.queue.unqueued changed).length }
  | .counted n hashes => s.statement rules .commit fun _ =>
    if hashes.isEmpty then .finished true else .paging n
  | .finished _ => none

/-- One statement.  The other processes leave a refresh of the sweep alone. -/
def step (s : Sweep Hash) : SweepAction Hash → Option (Sweep Hash)
  | .other a =>
    if s.stage.holdsLock && a.ofRefresh then none else s.statement rules a fun _ => s.stage
  | .sweep hashes => s.advance rules pageSize maxPages hashes

/-- Writers queue what they affect, in the commit that changes it. -/
def Queued (s : Sweep Hash) : SweepAction Hash → Prop
  | .other a => Queues rules s.db a
  | .sweep _ => True

/-- Where the sweep counts, no header of the page names an identity that is queued. -/
def Expanded (s : Sweep Hash) (a : SweepAction Hash) : Prop :=
  ∀ hashes', a = .sweep hashes' → ∀ n hashes changed, s.stage = .counting n hashes changed →
    ∀ q ∈ s.db.queue.rows, ∀ key, q.item = .identity key →
      ∀ h ∈ hashes, key ∉ (headerInputs rules s.db.inputs h).identities

/-! ### What every step keeps -/

/-- What the stage says of the refresh.  What a page changed is not stored before it commits, and the
blocks stay as long. -/
def Sound (s : Sweep Hash) : Prop :=
  match s.stage with
  | .page _ hashes => ∃ phase, s.db.refresh = some ⟨[], hashes, phase⟩ ∧
      ∀ summaries, phase ≠ .written summaries
  | .counting _ hashes changed => ∃ summaries,
      s.db.refresh = some ⟨[], hashes, .written summaries⟩ ∧
      ∀ h ∈ changed, h ∈ hashes ∧ (summaries h).isSome ∧ summaries h ≠ s.db.stored h ∧
        (s.db.inputs.blocks h).isSome
  | _ => True

section Steps

variable {rules pageSize maxPages} {s s' : Sweep Hash} {a : SweepAction Hash}

variable {b : Action Hash} {r : Refresh Hash} {w : Database Hash} {hashes : List Hash}
  {summaries : Hash → Option Summary}

theorem statement_eq_some {stage : Database Hash → Stage Hash}
    (h : s.statement rules b stage = some s') :
    Relationship.step rules s.db b = some s'.db ∧ s'.stage = stage s'.db ∧ s'.drifted = s.drifted := by
  obtain ⟨db, hstep, rfl⟩ := map_eq_some_iff.mp h
  exact ⟨hstep, rfl, rfl⟩

/-- A step leaves the tables alone, or is a step of them in which writers queue what they affect. -/
theorem step_db (h : step rules pageSize maxPages s a = some s') (hqueued : Queued rules s a) :
    s'.db = s.db ∨ ∃ b, Queues rules s.db b ∧ Relationship.step rules s.db b = some s'.db := by
  cases a with
  | other b =>
    rw [step] at h
    split at h
    · cases h
    · exact .inr ⟨b, hqueued, (statement_eq_some h).1⟩
  | sweep hashes =>
    rw [step, advance] at h
    split at h
    · exact .inr ⟨.expand, trivial, (statement_eq_some h).1⟩
    · exact .inl (some.inj h ▸ rfl)
    · split at h
      · exact .inl (some.inj h ▸ rfl)
      · exact .inr ⟨.drain pageSize, trivial, (statement_eq_some h).1⟩
    · split at h
      · exact .inr ⟨.commit, trivial, (statement_eq_some h).1⟩
      · exact .inr ⟨.next, trivial, (statement_eq_some h).1⟩
    · exact .inl (some.inj h ▸ rfl)
    · exact .inr ⟨.page hashes, trivial, (statement_eq_some h).1⟩
    · exact .inr ⟨.next, trivial, (statement_eq_some h).1⟩
    · exact .inl (some.inj h ▸ rfl)
    · exact .inr ⟨.commit, trivial, (statement_eq_some h).1⟩
    · cases h

omit [LinearOrder Hash] in
theorem refreshing_eq (hr : w.refresh = some r) : w.refreshing = r.hashes := by
  rw [Database.refreshing, hr]
  rfl

omit [LinearOrder Hash] in
theorem uncommitted_eq {ids : List ℕ} (hr : w.refresh = some ⟨ids, hashes, .written summaries⟩) :
    w.uncommitted = summaries := by
  funext h
  rw [Database.uncommitted, hr]

omit [LinearOrder Hash] in
theorem isWritten_iff (hr : w.refresh = some r) :
    w.isWritten = true ↔ ∃ summaries, r.phase = .written summaries := by
  rw [Database.isWritten, hr]
  obtain ⟨ids, hashes, phase⟩ := r
  cases phase <;> simp

/-- What other processes do while a refresh runs: they leave it, and what it has written to replace. -/
theorem other_step {w w' : Database Hash}
    (hr : w.refresh = some r) (hb : b.ofRefresh = false) (h : Relationship.step rules w b = some w') :
    w'.refresh = some r ∧ ∀ summaries, r.phase = .written summaries → ∀ k ∈ r.hashes,
      (summaries k).isSome → w'.stored k = w.stored k ∧
        ((w.inputs.blocks k).isSome → (w'.inputs.blocks k).isSome) := by
  cases b with
  | write m headers identities =>
    rw [Relationship.step] at h
    split at h
    · cases h
    · next hkept =>
        obtain rfl := some.inj h
        refine ⟨hr, fun summaries hphase k hk hsome => ?_⟩
        have hwritten : w.refresh = some ⟨r.ids, r.hashes, .written summaries⟩ := hphase ▸ hr
        have hblock : (m.blocks k).isSome := by
          by_contra hnone
          refine hkept (any_eq_true.mpr ⟨k, (refreshing_eq hwritten).symm ▸ hk, ?_⟩)
          rw [uncommitted_eq hwritten, hsome]
          simpa using hnone
        exact ⟨if_pos hblock, fun _ => hblock⟩
  | drain batchSize =>
    rw [Relationship.step, if_pos (by rw [hr]; rfl)] at h
    cases h
  | page hashes =>
    rw [Relationship.step, if_pos (by rw [hr]; rfl)] at h
    cases h
  | next | commit | abort => cases hb
  | expand =>
    obtain rfl := some.inj h
    exact ⟨hr, fun _ _ _ _ _ => ⟨rfl, id⟩⟩

theorem block_of_written {m : Inputs Hash} {phase : Phase Hash}
    (hphase : ∀ summaries, phase ≠ .written summaries)
    (hnext : phase.next rules m hashes = .written summaries) {h : Hash}
    (hsome : (summaries h).isSome) : (m.blocks h).isSome := by
  cases phase with
  | started =>
    rw [Phase.next] at hnext
    split at hnext
    · obtain rfl := Phase.written.inj hnext
      cases hsome
    · cases hnext
  | pools ps poolsBySlug =>
    obtain rfl := Phase.written.inj hnext
    by_contra hnone
    rw [writeSummaries, if_neg fun hand => hnone hand.2] at hsome
    cases hsome
  | written summaries => exact absurd rfl (hphase summaries)
  | headers | coinbases | children | parents => cases hnext

/-- The next statement of a page leaves it unwritten, or writes the changes that are counted. -/
theorem sound_page {n : ℕ} (hstage : s.stage = .page n hashes)
    (hsound : s.Sound) (h : Relationship.step rules s.db .next = some s'.db)
    (hstage' : s'.stage =
      if s'.db.isWritten then .counting n hashes s'.db.changed else .page n hashes) : s'.Sound := by
  rw [Sound, hstage] at hsound
  obtain ⟨phase, hr, hphase⟩ := hsound
  obtain ⟨r, hr', hdb⟩ := map_eq_some_iff.mp h
  obtain rfl := some.inj (hr.symm.trans hr')
  have hrefresh : s'.db.refresh = some ⟨[], hashes, phase.next rules s.db.inputs hashes⟩ := by
    rw [← hdb]
  rw [Sound, hstage']
  by_cases hwritten : s'.db.isWritten = true
  · obtain ⟨summaries, hnext⟩ := (isWritten_iff hrefresh).mp hwritten
    dsimp only at hnext
    rw [hnext] at hrefresh
    rw [if_pos hwritten]
    refine ⟨summaries, hrefresh, fun k hk => ?_⟩
    rw [Database.changed, refreshing_eq hrefresh, uncommitted_eq hrefresh] at hk
    obtain ⟨hmem, hk⟩ := mem_filter.mp hk
    obtain ⟨hsome, hne⟩ := Bool.and_eq_true_iff.mp hk
    refine ⟨mem_dedup.mp hmem, hsome, of_decide_eq_true hne, ?_⟩
    rw [← hdb]
    exact block_of_written hphase hnext hsome
  · rw [if_neg hwritten]
    refine ⟨_, hrefresh, fun summaries hnext => hwritten ?_⟩
    exact (isWritten_iff hrefresh).mpr ⟨summaries, hnext⟩

theorem sound_other (hb : (s.stage.holdsLock && b.ofRefresh) = false)
    (hsound : s.Sound) (h : Relationship.step rules s.db b = some s'.db)
    (hstage : s'.stage = s.stage) : s'.Sound := by
  rw [Sound] at hsound
  rw [Sound, hstage]
  split at hsound
  · next n hashes hpage =>
      obtain ⟨phase, hr, hphase⟩ := hsound
      rw [hpage] at hb
      exact ⟨phase, (other_step hr hb h).1, hphase⟩
  · next n hashes changed hcounting =>
      obtain ⟨summaries, hr, hchanged⟩ := hsound
      rw [hcounting] at hb
      obtain ⟨hr', hkept⟩ := other_step hr hb h
      refine ⟨summaries, hr', fun k hk => ?_⟩
      obtain ⟨hmem, hsome, hne, hblock⟩ := hchanged k hk
      obtain ⟨hstored, hblock'⟩ := hkept summaries rfl k hmem hsome
      exact ⟨hmem, hsome, hstored ▸ hne, hblock' hblock⟩
  · trivial

omit [LinearOrder Hash] in
theorem sound_of_not_inPage (h : s.stage.inPage = false) : s.Sound := by
  rw [Sound]
  split
  · next hstage =>
      rw [hstage] at h
      cases h
  · next hstage =>
      rw [hstage] at h
      cases h
  · trivial

theorem step_sound (h : step rules pageSize maxPages s a = some s') (hsound : s.Sound) :
    s'.Sound := by
  cases a with
  | other b =>
    rw [step] at h
    split at h
    · cases h
    · next hb =>
        obtain ⟨hstep, hstage, -⟩ := statement_eq_some h
        exact sound_other (by simpa using hb) hsound hstep hstage
  | sweep hashes =>
    rw [step, advance] at h
    split at h
    · exact sound_of_not_inPage (by rw [(statement_eq_some h).2.1]; rfl)
    · exact sound_of_not_inPage (by rw [← some.inj h]; rfl)
    · split at h
      · exact sound_of_not_inPage (by rw [← some.inj h]; rfl)
      · exact sound_of_not_inPage (by rw [(statement_eq_some h).2.1]; split <;> rfl)
    · split at h
      · exact sound_of_not_inPage (by rw [(statement_eq_some h).2.1]; rfl)
      · exact sound_of_not_inPage (by rw [(statement_eq_some h).2.1]; rfl)
    · exact sound_of_not_inPage (by rw [← some.inj h]; rfl)
    · obtain ⟨hstep, hstage', -⟩ := statement_eq_some h
      rw [Sound, hstage']
      rw [Relationship.step] at hstep
      split at hstep
      · cases hstep
      · rw [← some.inj hstep]
        exact ⟨.started, rfl, fun summaries hphase => by cases hphase⟩
    · next n hashes hstage =>
        obtain ⟨hstep, hstage', -⟩ := statement_eq_some h
        exact sound_page hstage hsound hstep hstage'
    · exact sound_of_not_inPage (by rw [← some.inj h]; rfl)
    · exact sound_of_not_inPage (by rw [(statement_eq_some h).2.1]; split <;> rfl)
    · cases h

/-- **What drift is.**  A changed header without a header row names an identity that is queued. -/
theorem identity_of_unqueued (hcaught : CaughtUp rules Eq s.db) (hsound : s.Sound) {n : ℕ}
    {hashes changed : List Hash} (hstage : s.stage = .counting n hashes changed) {h : Hash}
    (hh : h ∈ s.db.queue.unqueued changed) :
    h ∈ hashes ∧ ∃ q ∈ s.db.queue.rows, ∃ key, q.item = .identity key ∧
      key ∈ (headerInputs rules s.db.inputs h).identities := by
  obtain ⟨hh, hunqueued⟩ := mem_filter.mp hh
  rw [Sound, hstage] at hsound
  obtain ⟨summaries, hr, hchanged⟩ := hsound
  obtain ⟨hmem, hsome, hne, hblock⟩ := hchanged h hh
  refine ⟨hmem, ?_⟩
  rcases hcaught.headers h hblock with ⟨q, hq, -, hfor⟩ | hu
  · rw [QueueRow.StandsFor] at hfor
    split at hfor
    · next h' hitem =>
        subst hfor
        exact absurd hitem (of_decide_eq_true (all_eq_true.mp hunqueued q hq))
    · next key hitem => exact ⟨q, hq, key, hitem, hfor⟩
  · -- what the page read is still right, and so is what is stored: nothing has changed
    have hwritten : summaries h = derive rules s.db.inputs h := hu.reads _ hr hmem
    have hstored : s.db.stored h = derive rules s.db.inputs h :=
      hu.stored fun q _ hq => by simp [Database.drained, hr] at hq
    exact absurd (hwritten.trans hstored.symm) hne

theorem step_drifted (h : step rules pageSize maxPages s a = some s') :
    s'.drifted = s.drifted ∨ ∃ hashes' n hashes changed, a = .sweep hashes' ∧
      s.stage = .counting n hashes changed ∧
      s'.drifted = s.drifted + (s.db.queue.unqueued changed).length := by
  cases a with
  | other b =>
    rw [step] at h
    split at h
    · cases h
    · exact .inl (statement_eq_some h).2.2
  | sweep hashes =>
    rw [step, advance] at h
    split at h
    · exact .inl (statement_eq_some h).2.2
    · exact .inl (some.inj h ▸ rfl)
    · split at h
      · exact .inl (some.inj h ▸ rfl)
      · exact .inl (statement_eq_some h).2.2
    · split at h
      · exact .inl (statement_eq_some h).2.2
      · exact .inl (statement_eq_some h).2.2
    · exact .inl (some.inj h ▸ rfl)
    · exact .inl (statement_eq_some h).2.2
    · exact .inl (statement_eq_some h).2.2
    · next n hashes' changed hstage =>
        exact .inr ⟨hashes, n, hashes', changed, rfl, hstage, some.inj h ▸ rfl⟩
    · exact .inl (statement_eq_some h).2.2
    · cases h

/-- A count after which no header of the page names a queued identity reports nothing. -/
theorem step_drifted_eq (hcaught : CaughtUp rules Eq s.db) (hsound : s.Sound)
    (hexpanded : Expanded rules s a) (h : step rules pageSize maxPages s a = some s') :
    s'.drifted = s.drifted := by
  rcases step_drifted h with hsame | ⟨hashes', n, hashes, changed, rfl, hstage, hdrifted⟩
  · exact hsame
  · have hnone : s.db.queue.unqueued changed = [] := by
      refine eq_nil_iff_forall_not_mem.mpr fun k hk => ?_
      obtain ⟨hmem, q, hq, key, hitem, hkey⟩ := identity_of_unqueued hcaught hsound hstage hk
      exact hexpanded hashes' rfl n hashes changed hstage q hq key hitem k hmem hkey
    rw [hdrifted, hnone]
    rfl

theorem step_caughtUp (hcaught : CaughtUp rules Eq s.db) (hqueued : Queued rules s a)
    (h : step rules pageSize maxPages s a = some s') : CaughtUp rules Eq s'.db := by
  rcases step_db h hqueued with hsame | ⟨b, hqueues, hstep⟩
  · exact hsame ▸ hcaught
  · exact Relationship.step_caughtUp (fun _ => rfl) hcaught hqueues hstep

end Steps

/-- **The sweep reports no drift.**  From summaries that are right, whatever writers commit while the
sweep, drains and expansions run: if no page is counted while one of its headers names a queued
identity, the sweep reports nothing. -/
theorem sweep_reports_no_drift {s₀ s : Sweep Hash} {as : List (SweepAction Hash)}
    (hright : ∀ h, (s₀.db.inputs.blocks h).isSome →
      s₀.db.stored h = derive rules s₀.db.inputs h)
    (hidle : s₀.db.refresh = none) (hstarted : s₀.stage = .started) (hzero : s₀.drifted = 0)
    (hrun : exec (step rules pageSize maxPages) s₀ as = some s)
    (hqueued : Along (step rules pageSize maxPages) (Queued rules) s₀ as)
    (hexpanded : Along (step rules pageSize maxPages) (Expanded rules) s₀ as) : s.drifted = 0 := by
  have hcaught₀ : CaughtUp rules Eq s₀.db := caughtUp_of_idle hidle hright
  have hsound₀ : s₀.Sound := sound_of_not_inPage (by rw [hstarted]; rfl)
  have hend := exec_history
    (J := fun _ s => CaughtUp rules Eq s.db ∧ s.Sound ∧ s.drifted = 0) ⟨hcaught₀, hsound₀, hzero⟩
    (fun _ s a s' _ hJ hG hstep => ?_) hrun (along_and hqueued hexpanded)
  · exact hend.2.2
  · obtain ⟨hcaught, hsound, hzero⟩ := hJ
    exact ⟨step_caughtUp hcaught hG.1 hstep, step_sound hstep hsound,
      (step_drifted_eq hcaught hsound hG.2 hstep).trans hzero⟩

end Sweep

/-! ### A sample -/

namespace Sweep.Sample

open Relationship.Sample

/-- A sweep that is to start over right summaries. -/
def before : Sweep ℕ := ⟨start, .started, 0⟩

/-- The address gets another pool. -/
def remap : SweepAction ℕ := .other (.write (inputs 2 false) [] [("rsk_miner_address", "aa")])

/-- The statements of a page of the header, and of the page after it, which has none. -/
def pages : List (SweepAction ℕ) := ([1] :: List.replicate 12 []).map .sweep

/-- The sweep expands and drains nothing, the address is mapped anew, and the sweep goes on. -/
def late : List (SweepAction ℕ) := .sweep [] :: .sweep [] :: remap :: pages

/-- The address is mapped anew before the sweep: it is expanded, and the header is drained. -/
def early : List (SweepAction ℕ) := remap :: (List.replicate 10 (.sweep []) ++ pages)

theorem before_right (h : ℕ) (hblock : (before.db.inputs.blocks h).isSome) :
    before.db.stored h = derive snapshot before.db.inputs h := by
  obtain rfl := eq_one_of_block hblock
  rfl

theorem queued_remap {s : Sweep ℕ} (hs : s.db.inputs = inputs 1 false) :
    Queued snapshot s remap := queues_pool hs

/-- The sweep itself is no writer. -/
theorem queued_sweeps {s : Sweep ℕ} {as : List (SweepAction ℕ)}
    (has : as.all fun a => match a with | .sweep _ => true | .other _ => false) :
    Along (step snapshot 500 2) (Queued snapshot) s as := by
  refine along_of_forall s fun s a ha => ?_
  have ha := all_eq_true.mp has a ha
  cases a with
  | other a => cases ha
  | sweep hashes => trivial

/-- **A queued identity counts as drift.**  The writer has queued the identity in the commit that maps
it anew, and the sweep reports the header that it moves. -/
theorem identity_change_counts_as_drift :
    (∀ h, (before.db.inputs.blocks h).isSome →
        before.db.stored h = derive snapshot before.db.inputs h) ∧
      Along (step snapshot 500 2) (Queued snapshot) before late ∧
      ∃ s, exec (step snapshot 500 2) before late = some s ∧ s.stage = .finished true ∧
        s.drifted = 1 := by
  refine ⟨before_right, ?_, Fallible.exists_of_any (by decide +kernel)⟩
  exact along_cons rfl trivial <| along_cons rfl trivial <| along_cons rfl (queued_remap rfl) <|
    queued_sweeps (by decide)

/-- A header is only counted when no identity is queued. -/
theorem expanded_early : Along (step snapshot 500 2) (Expanded snapshot) before early := by
  refine along_of_checked (fun s a => match a, s.stage with
    | .sweep _, .counting .. => s.db.queue.rows.all fun q => q.header?.isSome
    | _, _ => true) ?_ (by decide +kernel)
  rintro s a hcheck hashes' rfl n hashes changed hstage q hq key hitem
  rw [hstage] at hcheck
  have hheader := all_eq_true.mp hcheck q hq
  rw [QueueRow.header?, hitem] at hheader
  cases hheader

/-- What is mapped anew before the sweep expands is not reported. -/
theorem sweep_reports_no_drift_early :
    ∃ s, exec (step snapshot 500 2) before early = some s ∧ s.stage = .finished true ∧
      s.drifted = 0 := by
  obtain ⟨s, hrun, hfinished⟩ : ∃ s, exec (step snapshot 500 2) before early = some s ∧
      s.stage = .finished true := Fallible.exists_of_any (by decide +kernel)
  have hqueued : Along (step snapshot 500 2) (Queued snapshot) before early :=
    along_cons rfl (queued_remap rfl) (queued_sweeps (by decide))
  exact ⟨s, hrun, hfinished, sweep_reports_no_drift snapshot 500 2 before_right rfl rfl rfl hrun
    hqueued expanded_early⟩

end Sweep.Sample

end MergeMiningMonitor.Relationship
