import Mathlib.Data.Prod.Lex
import MergeMiningMonitor.Support.Keyset
import MergeMiningMonitor.CoreSuffix.Queue
import MergeMiningMonitor.SourceHealth.Contribution
import MergeMiningMonitor.HeaderCache.Recheck

/-!
# Header cache — Recheck pages

How a recheck pass goes through its scope (`unknown_reclassify.rs`).  The runner reads a page of
parents, each under its first eligible event by child height and id, queues them as primaries of the
reconcile queue, and moves the cursor to the last event of the page in the same transaction.  A page
without parents acknowledges the pass.  Between these statements other processes write events and
classes.

The cursor goes by events and the scope by parents.  A parent whose events are all after the cursor is
on the next page or after it (`mem_or_after_loadCandidatePage`), so it is reached as long as no write
makes one of its events eligible at or before a place that the pass has reached
(`pass_reaches_candidates`).  A write that does so hides the parent from the rest of the pass
(`lower_event_hides_parent`).
-/

namespace MergeMiningMonitor

open Transition Relational List Option

/-! ### Tables -/

/-- A row of `merge_mining_event`. -/
structure RecheckEvent (Hash : Type) where
  id : Int
  btcParentHeaderHash : Hash
  childHeight : Option Int
  btcParentKind : ParentKind
  powValidatesBtcTarget : Bool
  /-- `revoked_at IS NOT NULL` -/
  revoked : Bool
  /-- The code of the source. -/
  source : String
  /-- The column is an `INTEGER`. -/
  int4 : ∀ h ∈ childHeight, h < 2147483648

namespace RecheckEvent

variable {Hash : Type} (e : RecheckEvent Hash)

/-- `COALESCE(e.child_height::bigint, 2147483648::bigint)` -/
def sortChildHeight : Int := e.childHeight.getD 2147483648

def cursor : Int × Int := (e.sortChildHeight, e.id)

/-- The cursor in the order of `(sort_child_height, id)`. -/
def cursorKey : Int ×ₗ Int := toLex e.cursor

/-- `ORDER BY e.child_height NULLS LAST, e.id` -/
def rowOrder : WithTop Int ×ₗ Int := toLex (e.childHeight.elim ⊤ fun h => h, e.id)

variable {e} {e' : RecheckEvent Hash}

/-- The events of a parent are in the order of their cursors: no height is as high as the one that
stands for none. -/
theorem cursorKey_le_of_rowOrder_le (h : e.rowOrder ≤ e'.rowOrder) : e.cursorKey ≤ e'.cursorKey := by
  have hint := e.int4
  rw [rowOrder, rowOrder, Prod.Lex.toLex_le_toLex] at h
  rw [cursorKey, cursorKey, cursor, cursor, Prod.Lex.toLex_le_toLex, sortChildHeight, sortChildHeight]
  dsimp only at h ⊢
  cases he : e.childHeight with
  | none =>
    cases he' : e'.childHeight with
    | none => simpa [he, he'] using h
    | some n => simp [he, he'] at h
  | some m =>
    cases he' : e'.childHeight with
    | none => exact .inl (hint m he)
    | some n => simpa [he, he'] using h

theorem id_eq_of_cursorKey_eq (h : e.cursorKey = e'.cursorKey) : e.id = e'.id :=
  congrArg (fun key => (ofLex key).2) h

end RecheckEvent

/-- The events, and the classes of the blocks. -/
structure RecheckTables (Hash : Type) where
  events : List (RecheckEvent Hash)
  /-- `block.btc_orphan_class`; a parent without a row has none. -/
  orphanClass : Hash → Option OrphanClass
  ids : (events.map (·.id)).Nodup

/-- What other processes write. -/
inductive RecheckWrite (Hash : Type)
  | insert (e : RecheckEvent Hash)
  | revoke (id : Int)
  | setKind (id : Int) (kind : ParentKind)
  | setOrphanClass (hash : Hash) (orphanClass : Option OrphanClass)

namespace RecheckTables

variable {Hash : Type} [LinearOrder Hash]

/-- Writes to the event with an id. -/
def update (db : RecheckTables Hash) (id : Int) (f : RecheckEvent Hash → RecheckEvent Hash)
    (hf : ∀ e, (f e).id = e.id) : RecheckTables Hash where
  events := db.events.map fun e => if e.id = id then f e else e
  orphanClass := db.orphanClass
  ids := by
    rw [List.map_map]
    refine (List.map_congr_left fun e _ => ?_) ▸ db.ids
    rw [Function.comp_apply]
    split
    · exact (hf e).symm
    · rfl

/-- One write; an insert under an id that is taken fails. -/
def write (db : RecheckTables Hash) : RecheckWrite Hash → Option (RecheckTables Hash)
  | .insert e =>
    if h : e.id ∈ db.events.map (·.id) then none
    else some ⟨e :: db.events, db.orphanClass, nodup_cons.mpr ⟨h, db.ids⟩⟩
  | .revoke id => some (db.update id (fun e => { e with revoked := true }) fun _ => rfl)
  | .setKind id kind => some (db.update id (fun e => { e with btcParentKind := kind }) fun _ => rfl)
  | .setOrphanClass hash orphanClass =>
    some { db with orphanClass := fun h => if h = hash then orphanClass else db.orphanClass h }

variable (db : RecheckTables Hash) (scope : RecheckScope)

/-- The conditions of the candidates. -/
def eligible (e : RecheckEvent Hash) : Bool :=
  e.btcParentKind = .unknown && e.powValidatesBtcTarget && !e.revoked &&
    (scope.orphans || (db.orphanClass e.btcParentHeaderHash).isNone) &&
    scope.sources.all fun sources => e.source ∈ sources

def candidates : List (RecheckEvent Hash) :=
  Keyset.distinctOn RecheckEvent.rowOrder RecheckEvent.btcParentHeaderHash
    (db.events.filter (db.eligible scope))

def loadCandidatePage (cursor : Option (Int × Int)) (pageSize : ℕ) : List (RecheckEvent Hash) :=
  Keyset.page RecheckEvent.cursorKey pageSize (cursor.map toLex) (db.candidates scope)

/-- The parent has an eligible event. -/
def InScope (parent : Hash) : Prop :=
  ∃ e ∈ db.events, db.eligible scope e = true ∧ e.btcParentHeaderHash = parent

/-- The parent has an eligible event at or before a place. -/
def Behind (parent : Hash) (place : Int × Int) : Prop :=
  ∃ e ∈ db.events, db.eligible scope e = true ∧ e.btcParentHeaderHash = parent ∧
    e.cursorKey ≤ toLex place

instance (parent : Hash) : Decidable (db.InScope scope parent) :=
  inferInstanceAs (Decidable (∃ e ∈ db.events, _ ∧ _))

variable {db scope} {parent : Hash}

omit [LinearOrder Hash] in
theorem nodup_map_of_id {κ : Type} {key : RecheckEvent Hash → κ}
    (hkey : ∀ e e', key e = key e' → e.id = e'.id) {rows : List (RecheckEvent Hash)}
    (hrows : rows.Sublist db.events) : (rows.map key).Nodup := by
  have hids : (rows.map (·.id)).Nodup := (hrows.map _).nodup db.ids
  exact (hids.of_map _).map_on fun e he e' he' h => inj_on_of_nodup_map hids he he' (hkey e e' h)

theorem nodup_candidates : ((db.candidates scope).map RecheckEvent.cursorKey).Nodup :=
  nodup_map_of_id (fun _ _ => RecheckEvent.id_eq_of_cursorKey_eq)
    (filter_sublist.trans filter_sublist)

theorem exists_candidate (h : db.InScope scope parent) :
    ∃ r ∈ db.candidates scope, r.btcParentHeaderHash = parent ∧ r ∈ db.events ∧
      db.eligible scope r = true ∧
      ∀ e ∈ db.events, db.eligible scope e = true → e.btcParentHeaderHash = parent →
        r.cursorKey ≤ e.cursorKey := by
  obtain ⟨e, he, heligible, rfl⟩ := h
  obtain ⟨r, hr, hsame⟩ : ∃ r ∈ db.candidates scope, r.btcParentHeaderHash = e.btcParentHeaderHash :=
    Keyset.exists_mem_distinctOn (mem_filter.mpr ⟨he, heligible⟩)
  obtain ⟨hmem, hleast⟩ := Keyset.mem_distinctOn.mp hr
  obtain ⟨hr', hreligible⟩ := mem_filter.mp hmem
  refine ⟨r, hr, hsame, hr', hreligible, fun e' he' heligible' hsame' => ?_⟩
  exact RecheckEvent.cursorKey_le_of_rowOrder_le
    (hleast e' (mem_filter.mpr ⟨he', heligible'⟩) (hsame'.trans hsame.symm))

/-- **A parent that is not behind the cursor is on the page or not behind its end.** -/
theorem mem_or_after_loadCandidatePage {cursor : Option (Int × Int)} {pageSize : ℕ}
    (hsize : 0 < pageSize) (hscope : db.InScope scope parent)
    (hahead : ∀ c ∈ cursor, ¬ db.Behind scope parent c) :
    ∃ last, (db.loadCandidatePage scope cursor pageSize).getLast? = some last ∧
      (parent ∈ (db.loadCandidatePage scope cursor pageSize).map (·.btcParentHeaderHash) ∨
        ¬ db.Behind scope parent last.cursor) := by
  obtain ⟨r, hr, hparent, hmem, heligible, hleast⟩ := exists_candidate hscope
  have hafter : Keyset.after RecheckEvent.cursorKey (cursor.map toLex) r = true := by
    cases cursor with
    | none => rfl
    | some c =>
      refine Keyset.after_some.mpr (not_le.mp fun hle => ?_)
      exact hahead c rfl ⟨r, hmem, heligible, hparent, hle⟩
  obtain ⟨last, hlast, hpage⟩ := Keyset.mem_page_or_last_lt hsize nodup_candidates hr hafter
  refine ⟨last, hlast, hpage.imp (fun h => mem_map.mpr ⟨r, h, hparent⟩) fun hlt => ?_⟩
  rintro ⟨e, he, heligible', hparent', hle⟩
  exact absurd ((hleast e he heligible' hparent').trans hle) (not_le.mpr hlt)

end RecheckTables

/-! ### The machine -/

/-- The state row with the pass of the runner, the tables, the queue, and the page that the runner has
loaded. -/
structure RecheckRun (Hash : Type) where
  recheck : Recheck
  db : RecheckTables Hash
  queue : CoreReconcileQueue Hash
  page : Option (List (RecheckEvent Hash))

inductive RunAction (Hash : Type)
  /-- A trigger or a publication. -/
  | trigger (a : RecheckAction Hash)
  /-- The runner loads the state and binds a pass, when a drain has left the queue empty. -/
  | load
  | loadPage (pageSize : ℕ)
  /-- The runner queues the page it has loaded, or acknowledges the pass. -/
  | finishPage (now : Int)
  /-- Another process, or a drain, commits. -/
  | commit (writes : List (RecheckWrite Hash)) (queue : CoreReconcileQueue Hash)
  /-- The runner ends its lock hold without a further statement. -/
  | crash

def RecheckAction.isTrigger {Hash : Type} : RecheckAction Hash → Bool
  | .schedule .. => true
  | .publish .. => true
  | _ => false

namespace RecheckRun

variable {Hash : Type} [LinearOrder Hash]

/-- `queue_page`: the primaries and the cursor, in one transaction. -/
def queuePage (st : RecheckRun Hash) (generation now : Int) (page : List (RecheckEvent Hash))
    (last : Int × Int) : Option (CacheState × CoreReconcileQueue Hash) := do
  let queue ← st.queue.enqueueCoreReconcileHashes now (page.map (·.btcParentHeaderHash)) false
  let state ← st.recheck.state.persistRecheckCursor generation last
  return (state, queue)

/-- What the runner does with its page.  A transaction that fails is rolled back, and the runner
stops. -/
def finishPage (st : RecheckRun Hash) (pass : RecheckPass) (page : List (RecheckEvent Hash))
    (now : Int) : Option (RecheckRun Hash) :=
  match page.getLast? with
  | none =>
    (Recheck.step st.recheck (.acknowledge : RecheckAction Hash)).map fun recheck =>
      { st with recheck, page := none }
  | some last =>
    match st.queuePage pass.generation now page last.cursor with
    | some queued => some { st with recheck := ⟨queued.1, none⟩, queue := queued.2, page := none }
    | none => some { st with recheck := { st.recheck with runner := none }, page := none }

/-- One committed step. -/
def step (st : RecheckRun Hash) : RunAction Hash → Option (RecheckRun Hash)
  | .trigger a =>
    if a.isTrigger then (Recheck.step st.recheck a).map fun recheck => { st with recheck } else none
  | .load =>
    (Recheck.step st.recheck (.load : RecheckAction Hash)).map fun recheck =>
      { st with recheck, page := none }
  | .loadPage pageSize =>
    if 0 < pageSize then
      st.recheck.runner.map fun pass =>
        { st with page := some (st.db.loadCandidatePage pass.scope pass.cursor pageSize) }
    else none
  | .finishPage now =>
    st.recheck.runner.bind fun pass => st.page.bind fun page => st.finishPage pass page now
  | .commit writes queue =>
    (writes.foldlM RecheckTables.write st.db).map fun db => { st with db, queue }
  | .crash => some { st with recheck := { st.recheck with runner := none }, page := none }

/-- The parents that an action queues as primaries. -/
def queued (st : RecheckRun Hash) : RunAction Hash → Option (List Hash)
  | .finishPage now => do
    let pass ← st.recheck.runner
    let page ← st.page
    let last ← page.getLast?
    let _ ← st.queuePage pass.generation now page last.cursor
    return page.map (·.btcParentHeaderHash)
  | _ => none

/-! ### A pass -/

/-- The places that the pass has reached: its cursor, and the end of the page that is loaded. -/
inductive Reached (st : RecheckRun Hash) : Int × Int → Prop
  | cursor {pass : RecheckPass} {place : Int × Int} (bound : st.recheck.state.pass = some pass)
      (at_cursor : pass.cursor = some place) : Reached st place
  | page {rows : List (RecheckEvent Hash)} {last : RecheckEvent Hash} (loaded : st.page = some rows)
      (at_end : rows.getLast? = some last) : Reached st last.cursor

/-- The action makes no event of the parent eligible at or before a reached place, where there was
none. -/
def KeepsAhead (scope : RecheckScope) (parent : Hash) (st : RecheckRun Hash) (a : RunAction Hash) :
    Prop :=
  ∀ st', step st a = some st' → ∀ place, st.Reached place →
    st'.db.Behind scope parent place → st.db.Behind scope parent place

/-- The run of one pass, from the load that binds it to the state in which an empty page is to
acknowledge it. -/
structure PassRun (pass : RecheckPass) (bound : RecheckRun Hash) (acts : List (RunAction Hash))
    (st : RecheckRun Hash) : Prop where
  starts : ∃ before, before.recheck.state.pass = none ∧ step before .load = some bound ∧
    bound.recheck.state.pass = some pass
  runs : exec step bound acts = some st
  holds : Along step (fun st _ => st.recheck.Holds pass) bound acts
  held : st.recheck.Holds pass
  ends : st.page = some [] ∧ st.recheck.Acknowledges (.acknowledge : RecheckAction Hash)

/-- The parent is not behind what the pass has reached, but for a loaded page that has it. -/
structure Ahead (scope : RecheckScope) (parent : Hash) (st : RecheckRun Hash) : Prop where
  cursor : ∀ pass, st.recheck.state.pass = some pass → ∀ place, pass.cursor = some place →
    ¬ st.db.Behind scope parent place
  page : ∀ rows, st.page = some rows → ∃ last, rows.getLast? = some last ∧
    (parent ∈ rows.map (·.btcParentHeaderHash) ∨ ¬ st.db.Behind scope parent last.cursor)

end RecheckRun

/-- The runner's pass is the bound one, when there is one. -/
def Recheck.Current (st : Recheck) : Prop :=
  ∀ loaded, st.runner = some loaded → ∀ pass, st.state.pass = some pass → pass = loaded

namespace Recheck

variable {Hash : Type}

theorem step_trigger {st st' : Recheck} {a : RecheckAction Hash} (ha : a.isTrigger = true)
    (h : step st a = some st') :
    st'.runner = st.runner ∧ (st'.state.pass = st.state.pass ∨ st'.state.pass = none) := by
  cases a with
  | schedule scope invalidating =>
    obtain rfl := some.inj h
    refine ⟨rfl, ?_⟩
    cases invalidating with
    | false => exact .inl rfl
    | true => exact .inr rfl
  | publish rows previousHorizonHeight horizon shallowReorged overlaps =>
    obtain rfl := some.inj h
    refine ⟨rfl, ?_⟩
    rcases hupdate : updateCacheState rows st.state previousHorizonHeight horizon shallowReorged
      overlaps with ⟨state, update⟩
    obtain ⟨-, ⟨-, -, -, hpass⟩ | ⟨-, -, -, hpass⟩⟩ := updateCacheState_recheck _ _ _ _ _ _ hupdate
    · exact .inl hpass
    · split at hpass
      · exact .inr hpass
      · exact .inl hpass
  | _ => cases ha

/-- What a load does with the pass that is bound: nothing, or the runner takes it. -/
theorem step_load_bound {st st' : Recheck} {pass : RecheckPass} (hpass : st.state.pass = some pass)
    (h : step st (.load : RecheckAction Hash) = some st') :
    st'.state = st.state ∧ ∀ loaded, st'.runner = some loaded → loaded = pass := by
  rw [step, hpass] at h
  split at h
  · obtain rfl := some.inj h
    exact ⟨rfl, fun loaded hloaded => (some.inj hloaded).symm⟩
  · obtain rfl := some.inj h
    exact ⟨rfl, fun loaded hloaded => absurd hloaded.symm (some_ne_none _)⟩

theorem step_load_unbound {st st' : Recheck} {pass : RecheckPass} (hnone : st.state.pass = none)
    (h : step st (.load : RecheckAction Hash) = some st') (hpass : st'.state.pass = some pass) :
    pass.cursor = none ∧ st'.runner = some pass := by
  rw [step, hnone] at h
  split at h
  · obtain rfl := some.inj h
    obtain rfl := some.inj hpass
    exact ⟨rfl, rfl⟩
  · obtain rfl := some.inj h
    rw [hnone] at hpass
    cases hpass

end Recheck

namespace RecheckRun

variable {Hash : Type} [LinearOrder Hash] {st st' : RecheckRun Hash} {a : RunAction Hash}
  {pass : RecheckPass} {parent : Hash}

theorem runner_finishPage {page : List (RecheckEvent Hash)} {now : Int}
    (h : st.finishPage pass page now = some st') : st'.recheck.runner = none := by
  rw [finishPage] at h
  split at h
  · obtain ⟨recheck, hstep, rfl⟩ := map_eq_some_iff.mp h
    obtain ⟨loaded, -, hstep⟩ := bind_eq_some_iff.mp hstep
    exact (some.inj hstep) ▸ rfl
  · split at h
    · exact (some.inj h) ▸ rfl
    · exact (some.inj h) ▸ rfl

theorem step_current (hcurrent : st.recheck.Current) (h : step st a = some st') :
    st'.recheck.Current := by
  cases a with
  | trigger a =>
    rw [step] at h
    split at h
    · next ha =>
        obtain ⟨recheck, hstep, rfl⟩ := map_eq_some_iff.mp h
        obtain ⟨hrunner, hpass⟩ := Recheck.step_trigger ha hstep
        intro loaded hloaded bound hbound
        rcases hpass with hpass | hpass
        · exact hcurrent loaded (hrunner ▸ hloaded) bound (hpass ▸ hbound)
        · rw [hpass] at hbound
          cases hbound
    · cases h
  | load =>
    obtain ⟨recheck, hstep, rfl⟩ := map_eq_some_iff.mp h
    intro loaded hloaded bound hbound
    cases hpass : st.recheck.state.pass with
    | none =>
      have hrunner := (Recheck.step_load_unbound hpass hstep hbound).2
      exact some.inj (hrunner.symm.trans hloaded)
    | some pass =>
      obtain ⟨hstate, hrunner⟩ := Recheck.step_load_bound hpass hstep
      rw [hrunner loaded hloaded]
      dsimp only at hbound
      rw [hstate, hpass] at hbound
      exact (some.inj hbound).symm
  | loadPage pageSize =>
    rw [step] at h
    split at h
    · obtain ⟨loaded, -, rfl⟩ := map_eq_some_iff.mp h
      exact hcurrent
    · cases h
  | finishPage now =>
    obtain ⟨loaded, -, h⟩ := bind_eq_some_iff.mp h
    obtain ⟨rows, -, h⟩ := bind_eq_some_iff.mp h
    intro loaded' hloaded'
    rw [runner_finishPage h] at hloaded'
    cases hloaded'
  | commit writes queue =>
    obtain ⟨db, -, rfl⟩ := map_eq_some_iff.mp h
    exact hcurrent
  | crash =>
    obtain rfl := some.inj h
    exact fun loaded hloaded => nomatch hloaded

/-- **One step.**  A parent that is ahead stays ahead, until a page that has it is queued. -/
theorem step_ahead (hcurrent : st.recheck.Current) (hholds : st.recheck.Holds pass)
    (hscope : st.db.InScope pass.scope parent) (hkeeps : KeepsAhead pass.scope parent st a)
    (hahead : Ahead pass.scope parent st) (h : step st a = some st') :
    Ahead pass.scope parent st' ∨ ∃ parents, st.queued a = some parents ∧ parent ∈ parents := by
  obtain ⟨cursor, hbound⟩ := hholds
  cases a with
  | trigger a =>
    rw [step] at h
    split at h
    · next ha =>
        obtain ⟨recheck, hstep, rfl⟩ := map_eq_some_iff.mp h
        refine .inl ⟨fun pass' hpass' => ?_, hahead.page⟩
        rcases (Recheck.step_trigger ha hstep).2 with hpass | hpass
        · exact hahead.cursor pass' (hpass ▸ hpass')
        · rw [hpass] at hpass'
          cases hpass'
    · cases h
  | load =>
    obtain ⟨recheck, hstep, rfl⟩ := map_eq_some_iff.mp h
    refine .inl ⟨fun pass' hpass' => ?_, fun rows hrows => nomatch hrows⟩
    exact hahead.cursor pass' ((Recheck.step_load_bound hbound hstep).1 ▸ hpass')
  | loadPage pageSize =>
    rw [step] at h
    split at h
    · next hsize =>
        obtain ⟨loaded, hloaded, rfl⟩ := map_eq_some_iff.mp h
        obtain rfl := hcurrent loaded hloaded _ hbound
        refine .inl ⟨hahead.cursor, fun rows hrows => ?_⟩
        obtain rfl := some.inj hrows
        exact RecheckTables.mem_or_after_loadCandidatePage hsize hscope
          (hahead.cursor _ hbound)
    · cases h
  | finishPage now =>
    obtain ⟨loaded, hloaded, h⟩ := bind_eq_some_iff.mp h
    obtain ⟨rows, hrows, h⟩ := bind_eq_some_iff.mp h
    obtain ⟨last, hlast, hparent⟩ := hahead.page rows hrows
    rw [finishPage, hlast] at h
    dsimp only at h
    split at h
    · next row hrow =>
        obtain rfl := some.inj h
        rcases hparent with hparent | hparent
        · refine .inr ⟨rows.map (·.btcParentHeaderHash), ?_, hparent⟩
          simp [queued, hloaded, hrows, hlast, hrow]
        · refine .inl ⟨fun pass' hpass' place hplace => ?_, fun rows hrows => nomatch hrows⟩
          obtain ⟨queue, -, hrow⟩ := bind_eq_some_iff.mp hrow
          obtain ⟨state, hpersist, hrow⟩ := bind_eq_some_iff.mp hrow
          obtain rfl := some.inj hrow
          obtain ⟨bound, -, -, rfl⟩ := CacheState.persistRecheckCursor_eq_some hpersist
          obtain rfl := some.inj hpass'
          obtain rfl := some.inj hplace
          exact hparent
    · obtain rfl := some.inj h
      exact .inl ⟨hahead.cursor, fun rows hrows => nomatch hrows⟩
  | commit writes queue =>
    have hstep := h
    obtain ⟨db, -, rfl⟩ := map_eq_some_iff.mp h
    refine .inl ⟨fun pass' hpass' place hplace hbehind => ?_, fun rows hrows => ?_⟩
    · exact hahead.cursor pass' hpass' place hplace
        (hkeeps _ hstep place (.cursor hpass' hplace) hbehind)
    · obtain ⟨last, hlast, hparent⟩ := hahead.page rows hrows
      refine ⟨last, hlast, hparent.imp_right fun hnot hbehind => ?_⟩
      exact hnot (hkeeps _ hstep last.cursor (.page hrows hlast) hbehind)
  | crash =>
    obtain rfl := some.inj h
    exact .inl ⟨hahead.cursor, fun rows hrows => nomatch hrows⟩

/-- **A pass reaches its candidates.**  A parent that stays in the scope of a pass is queued by a page
of it, when no action of the run makes an event of it eligible at or before a place that the pass has
reached. -/
theorem pass_reaches_candidates {bound : RecheckRun Hash} {acts : List (RunAction Hash)}
    (hpass : PassRun pass bound acts st)
    (hscope : Along step (fun st _ => st.db.InScope pass.scope parent) bound acts)
    (hkeeps : Along step (KeepsAhead pass.scope parent) bound acts) :
    ∃ parents ∈ seen step queued bound acts, parent ∈ parents := by
  obtain ⟨⟨before, hnone, hload, hbound⟩, hrun, hholds, -, ⟨hempty, -⟩⟩ := hpass
  obtain ⟨recheck, hbind, rfl⟩ := map_eq_some_iff.mp hload
  obtain ⟨hcursor, hrunner⟩ := Recheck.step_load_unbound hnone hbind hbound
  have hguard := along_and hholds (along_and hscope hkeeps)
  have hcurrent₀ : recheck.Current := fun loaded hloaded pass' hpass' =>
    (some.inj (hpass'.symm.trans hbound)).trans (some.inj (hrunner.symm.trans hloaded))
  have hahead₀ : Ahead pass.scope parent { before with recheck, page := none } := by
    refine ⟨fun pass' hpass' place hplace => ?_, fun rows hrows => nomatch hrows⟩
    obtain rfl := some.inj (hbound.symm.trans hpass')
    rw [hcursor] at hplace
    cases hplace
  -- The parent is ahead at the end, or a page with it was queued before.
  have hend := exec_history
    (J := fun acts st => (∃ parents ∈ seen step queued { before with recheck, page := none } acts,
      parent ∈ parents) ∨ (st.recheck.Current ∧ Ahead pass.scope parent st))
    (.inr ⟨hcurrent₀, hahead₀⟩) ?_ hrun hguard
  · rcases hend with hqueued | ⟨-, hahead⟩
    · exact hqueued
    · obtain ⟨last, hlast, -⟩ := hahead.page [] hempty
      cases hlast
  · intro acts st a st' hexec hJ hG hstep
    rw [seen_snoc hexec]
    rcases hJ with ⟨parents, hparents, hparent⟩ | ⟨hcurrent, hahead⟩
    · exact .inl ⟨parents, mem_append_left _ hparents, hparent⟩
    · rcases step_ahead hcurrent hG.1 hG.2.1 hG.2.2 hahead hstep with hahead' | ⟨parents, hqueued, hparent⟩
      · exact .inr ⟨step_current hcurrent hstep, hahead'⟩
      · exact .inl ⟨parents, mem_append_right _ (by simp [hqueued]), hparent⟩

end RecheckRun

/-! ### A sample -/

namespace RecheckRun.Sample

/-- An eligible event of a source. -/
def event (id : Int) (parent : ℕ) (height : Option Int) (h : ∀ n ∈ height, n < 2147483648) :
    RecheckEvent ℕ := ⟨id, parent, height, .unknown, true, false, "rsk", h⟩

/-- Parents at the child heights 5 and 10, and a recheck of everything that is to be bound. -/
def before : RecheckRun ℕ where
  recheck := ⟨⟨0, 0, 1, .everything, 0, none, 0⟩, none⟩
  db := ⟨[event 1 100 (some 5) (by decide), event 2 200 (some 10) (by decide)], fun _ => none,
    by decide⟩
  queue := ⟨[], .nil⟩
  page := none

def pass : RecheckPass := ⟨1, .everything, none⟩

/-- The state after the load that binds the pass. -/
def bound : RecheckRun ℕ :=
  { before with recheck := ⟨⟨0, 0, 1, .nothing, 0, some pass, 0⟩, some pass⟩ }

/-- Pages of one parent.  After the first one, a third parent is seen before its place. -/
def quiet : List (RunAction ℕ) :=
  [.loadPage 1, .finishPage 0, .commit [.insert (event 3 300 (some 3) (by decide))] ⟨[], .nil⟩, .load,
    .loadPage 1, .finishPage 0, .load, .loadPage 1]

/-- After the first page, the second parent is also seen at the child height 3. -/
def lowered : List (RunAction ℕ) :=
  [.loadPage 1, .finishPage 0, .commit [.insert (event 3 200 (some 3) (by decide))] ⟨[], .nil⟩, .load,
    .loadPage 1]

theorem keepsAhead_of_db {st st₁ : RecheckRun ℕ} {a : RunAction ℕ} {scope : RecheckScope} {parent : ℕ}
    (h : step st a = some st₁) (hdb : st₁.db = st.db) : KeepsAhead scope parent st a := by
  intro st' h' place _ hbehind
  obtain rfl := some.inj (h.symm.trans h')
  rwa [hdb] at hbehind

/-- An event of another parent, wherever it stands. -/
theorem keepsAhead_insert {st : RecheckRun ℕ} {e : RecheckEvent ℕ} {queue : CoreReconcileQueue ℕ}
    {scope : RecheckScope} {parent : ℕ} (hparent : e.btcParentHeaderHash ≠ parent) :
    KeepsAhead scope parent st (.commit [.insert e] queue) := by
  intro st' h place _ hbehind
  obtain ⟨db, hwrite, rfl⟩ := map_eq_some_iff.mp h
  rw [foldlM_cons, bind_eq_bind, bind_eq_some_iff] at hwrite
  obtain ⟨db', hwrite, hdb⟩ := hwrite
  obtain rfl := some.inj hdb
  rw [RecheckTables.write] at hwrite
  split at hwrite
  · cases hwrite
  · obtain rfl := some.inj hwrite
    obtain ⟨e', he', heligible, hsame, hle⟩ := hbehind
    rcases mem_cons.mp he' with rfl | he'
    · exact absurd hsame hparent
    · exact ⟨e', he', heligible, hsame, hle⟩

/-- The second parent is queued by the second page. -/
theorem pass_reaches_candidates_quiet :
    (∃ st, PassRun pass bound quiet st) ∧ ∃ parents ∈ seen step queued bound quiet, 200 ∈ parents := by
  obtain ⟨st, hpass⟩ : ∃ st, PassRun pass bound quiet st := by
    refine ⟨_, ⟨⟨before, rfl, rfl, rfl⟩, rfl, ?_, ⟨_, rfl⟩, rfl, rfl, _, rfl, _, rfl, rfl⟩⟩
    exact along_cons rfl ⟨_, rfl⟩ <| along_cons rfl ⟨_, rfl⟩ <| along_cons rfl ⟨_, rfl⟩ <|
      along_cons rfl ⟨_, rfl⟩ <| along_cons rfl ⟨_, rfl⟩ <| along_cons rfl ⟨_, rfl⟩ <|
      along_cons rfl ⟨_, rfl⟩ <| along_cons rfl ⟨_, rfl⟩ trivial
  refine ⟨⟨st, hpass⟩, pass_reaches_candidates hpass ?_ ?_⟩
  · exact along_cons rfl (by decide) <| along_cons rfl (by decide) <| along_cons rfl (by decide) <|
      along_cons rfl (by decide) <| along_cons rfl (by decide) <| along_cons rfl (by decide) <|
      along_cons rfl (by decide) <| along_cons rfl (by decide) trivial
  · exact along_cons rfl (keepsAhead_of_db rfl rfl) <| along_cons rfl (keepsAhead_of_db rfl rfl) <|
      along_cons rfl (keepsAhead_insert (by decide)) <| along_cons rfl (keepsAhead_of_db rfl rfl) <|
      along_cons rfl (keepsAhead_of_db rfl rfl) <| along_cons rfl (keepsAhead_of_db rfl rfl) <|
      along_cons rfl (keepsAhead_of_db rfl rfl) <| along_cons rfl (keepsAhead_of_db rfl rfl) trivial

/-- **A lower event hides its parent.**  The second parent is in the scope in every state of the pass,
and no page has it. -/
theorem lower_event_hides_parent :
    ∃ st, PassRun pass bound lowered st ∧
      Along step (fun st _ => st.db.InScope pass.scope 200) bound lowered ∧
      st.db.InScope pass.scope 200 ∧ ∀ parents ∈ seen step queued bound lowered, 200 ∉ parents := by
  refine ⟨_, ⟨⟨before, rfl, rfl, rfl⟩, rfl, ?_, ?_, ?_⟩, ?_, ?_, ?_⟩
  · exact along_cons rfl ⟨_, rfl⟩ <| along_cons rfl ⟨_, rfl⟩ <| along_cons rfl ⟨_, rfl⟩ <|
      along_cons rfl ⟨_, rfl⟩ <| along_cons rfl ⟨_, rfl⟩ trivial
  · exact ⟨_, rfl⟩
  · exact ⟨rfl, rfl, _, rfl, _, rfl, rfl⟩
  · exact along_cons rfl (by decide) <| along_cons rfl (by decide) <| along_cons rfl (by decide) <|
      along_cons rfl (by decide) <| along_cons rfl (by decide) trivial
  · decide
  · decide

end RecheckRun.Sample

end MergeMiningMonitor
