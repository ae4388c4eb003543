import MergeMiningMonitor.Support.Runs
import MergeMiningMonitor.HeaderCache.Snapshot

/-!
# Header cache — Refresh

Refreshes of the header cache as a machine.  Several refreshers run beside each other.  Each loads the
revision, the highest final boundary and the horizon of the cache one after the other, reads Core,
and publishes; only the publication is a transaction.  The revision it loaded first guards the rest:
what it loaded is out of date exactly when the revision is (`Refreshes.Inv.readings`).

What Core and its chains promise is `Promised`.  Along a run that keeps it, every accepted publication
leaves the cache of its own chain and a table that agrees with it, and nothing else changes the cache
(`refreshes_leave_sound_table`).
-/

namespace MergeMiningMonitor

open Relational Fallible FixedWidth Transition HeaderCache List Option

variable {Hash Refresher : Type}

/-- A refresh in progress: what it has loaded so far. -/
structure Reading (Hash : Type) where
  revision : Int
  highestFinal : Option (Option Int)
  priorHorizon : Option (Option (BitcoinCoreHeader Hash))
  snapshot : Option (CoreChain Hash × CacheSnapshot Hash)

/-- The cache, the refreshes in progress, and the publications so far, latest first: the chain that was
read and the horizon. -/
structure Refreshes (Hash Refresher : Type) where
  cache : HeaderCache Hash
  reading : Refresher → Option (Reading Hash)
  published : List (CoreChain Hash × Int)

inductive RefreshAction (Hash Refresher : Type)
  | loadRevision (i : Refresher)
  | loadHighestFinal (i : Refresher)
  | loadPriorHorizon (i : Refresher)
  /-- The reads from Core, the last of them the tip and the horizon once more. -/
  | readCore (i : Refresher) (chain : CoreChain Hash) (live : Bool) (closingTip : Int)
      (closingHorizon : BitcoinCoreHeader Hash)
  | publish (i : Refresher) (queued : Bool)

namespace Refreshes

variable [DecidableEq Hash] [DecidableEq Refresher]

def setReading (st : Refreshes Hash Refresher) (i : Refresher) (r : Option (Reading Hash)) :
    Refreshes Hash Refresher :=
  { st with reading := Function.update st.reading i r }

/-- The chain, the snapshot and the new cache, when the action is a publication that is accepted. -/
def accepted (st : Refreshes Hash Refresher) :
    RefreshAction Hash Refresher → Option (CoreChain Hash × CacheSnapshot Hash × HeaderCache Hash)
  | .publish i queued => do
    let r ← st.reading i
    let read ← r.snapshot
    match replaceBitcoinCoreHeaderCache st.cache queued read.2 with
    | .ok (some (cache, _)) => some (read.1, read.2, cache)
    | _ => none
  | _ => none

/-- One action of `refresh_bitcoin_core_header_cache_snapshot`.  A refresh whose snapshot fails, drifts
or is not accepted ends. -/
def step (st : Refreshes Hash Refresher) :
    RefreshAction Hash Refresher → Option (Refreshes Hash Refresher)
  | .loadRevision i =>
    some (st.setReading i (some ⟨st.cache.state.publicationRevision, none, none, none⟩))
  | .loadHighestFinal i => do
    let r ← st.reading i
    return st.setReading i (some { r with
      highestFinal := some (HeaderCache.highestFinal st.cache.rows), snapshot := none })
  | .loadPriorHorizon i => do
    let r ← st.reading i
    return st.setReading i (some { r with
      priorHorizon := some (loadHorizon st.cache.rows), snapshot := none })
  | .readCore i chain live closingTip closingHorizon => do
    let r ← st.reading i
    let highestFinal ← r.highestFinal
    let priorHorizon ← r.priorHorizon
    let snapshot := (takeSnapshot chain live r.revision highestFinal priorHorizon).filter fun s =>
      cacheSnapshotIsCurrent chain.tip s.horizon closingTip closingHorizon
    return st.setReading i (snapshot.map fun s => { r with snapshot := some (chain, s) })
  | .publish i queued => do
    let r ← st.reading i
    let _ ← r.snapshot
    match st.accepted (.publish i queued) with
    | some (chain, s, cache) =>
      return { st.setReading i none with
        cache, published := (chain, s.horizon.height) :: st.published }
    | none => return st.setReading i none

end Refreshes

/-! ### One publication -/

/-- Two chains with one hash at a height are one chain up to that height. -/
def SameHistory (chain chain' : CoreChain Hash) : Prop :=
  ∀ n, 0 ≤ n → n ≤ chain.tip → n ≤ chain'.tip →
    (chain.header n).blockHash = (chain'.header n).blockHash →
    ∀ k, 0 ≤ k → k ≤ n → chain.header k = chain'.header k

section Publish

variable [DecidableEq Hash] {chain chain₀ : CoreChain Hash} {cache cache' : HeaderCache Hash}
  {s : CacheSnapshot Hash} {n₀ : Int}

/-- **The flag finds every reorganisation.**  When it is down, the previous horizon block is on the
new chain. -/
theorem Published.prior_horizon_hash (h : Published cache s cache')
    (hcached : Cached chain₀ n₀ cache.rows)
    (hs : Snapshots chain (highestFinal cache.rows) (loadHorizon cache.rows) s)
    (hheaders : ∀ k row, cache.rows.find? k = some row → row.isFinal = true →
      row.header = chain.header k)
    (hshallow : s.shallowReorged cache = false) :
    (chain.header n₀).blockHash = (chain₀.header n₀).blockHash := by
  obtain ⟨row, hrow, hheader⟩ := hcached.find?_horizon
  have hshallow' := hshallow
  simp only [CacheSnapshot.shallowReorged, shallowCacheReorged, Bool.or_eq_false_iff] at hshallow'
  obtain ⟨⟨hprior, hreplaced⟩, -⟩ := hshallow'
  rcases (h.horizon_le hcached hshallow).lt_or_eq with hlt | heq
  · -- below the new horizon it was looked up
    have hobserved := hs.prior
    rw [hcached.loadHorizon_eq, observePriorHorizon, filter_some, chain₀.height_eq,
      if_pos (by simpa using hlt), hprior] at hobserved
    obtain ⟨header, hcanonical, hsame⟩ := map_eq_some_iff.mp hobserved
    rw [chain₀.height_eq] at hcanonical
    obtain ⟨-, rfl⟩ := CoreChain.canonicalHeader_eq_some.mp hcanonical
    simpa using hsame
  · rcases hfinal : row.isFinal with _ | _
    · -- at the new horizon it was compared with the snapshot
      have hshallow_row : row.header ∈ previousShallow cache.rows :=
        mem_map_of_mem (mem_filter.mpr ⟨Table.mem_of_find? hrow, by rw [hfinal]; rfl⟩)
      have hsame := any_eq_false.mp hreplaced _ hshallow_row
      rcases hfind : s.incoming.find? fun header => header.height = row.header.height with _ | header
      · have hhorizon := find?_eq_none.mp hfind s.horizon (by simp [CacheSnapshot.incoming])
        rw [hheader, chain₀.height_eq] at hhorizon
        exact absurd heq.symm (by simpa using hhorizon)
      · rw [hfind] at hsame
        have hheader' : header = row.header := by simpa using hsame
        have hchain := hs.mem_incoming (mem_of_find?_eq_some hfind)
        rw [hheader', hheader, chain₀.height_eq] at hchain
        rw [← hchain]
    · rw [← hheaders n₀ row hrow hfinal, hheader]

end Publish

/-! ### Runs -/

namespace Refreshes

variable [DecidableEq Hash]

/-- What is assumed of the chain of an accepted publication: it shares its past with an earlier one
where their hashes agree, and it has every boundary that was a hundred blocks below the horizon of an
earlier one. -/
def Promised (st : Refreshes Hash Refresher) (a : RefreshAction Hash Refresher) : Prop :=
  ∀ chain s cache, st.accepted a = some (chain, s, cache) →
    ∀ earlier ∈ st.published, SameHistory chain earlier.1 ∧
      ∀ e, 0 ≤ e → e % 2016 = 0 → e + 100 ≤ earlier.2 →
        e ≤ chain.tip ∧ chain.header e = earlier.1.header e

/-- No refresh has run. -/
def Fresh (st : Refreshes Hash Refresher) : Prop :=
  st.cache.rows = Table.empty ∧ (∀ i, st.reading i = none) ∧ st.published = []

/-- What a refresh has loaded is of the cache as it is, unless the revision has moved on. -/
structure Loaded (cache : HeaderCache Hash) (r : Reading Hash) : Prop where
  le : r.revision ≤ cache.state.publicationRevision
  highestFinal : r.revision = cache.state.publicationRevision →
    ∀ f ∈ r.highestFinal, f = HeaderCache.highestFinal cache.rows
  priorHorizon : r.revision = cache.state.publicationRevision →
    ∀ p ∈ r.priorHorizon, p = loadHorizon cache.rows
  snapshot : ∀ read ∈ r.snapshot, read.2.expectedRevision = r.revision ∧
    ∃ f ∈ r.highestFinal, ∃ p ∈ r.priorHorizon, Snapshots read.1 f p read.2

/-- The invariant of a run. -/
structure Inv (st : Refreshes Hash Refresher) : Prop where
  readings : ∀ i, ∀ r ∈ st.reading i, Loaded st.cache r
  finals : Finals st.cache.rows
  cached : ∀ last ∈ st.published.head?, Cached last.1 last.2 st.cache.rows
  empty : st.published = [] → st.cache.rows = Table.empty
  covers : ∀ row ∈ st.cache.rows.rows, row.header.blockTime ≤ st.cache.state.horizonTime
  backed : ∀ k row, st.cache.rows.find? k = some row → row.isFinal = true →
    ∃ earlier ∈ st.published, k + 100 ≤ earlier.2 ∧ row.header = earlier.1.header k

variable {st : Refreshes Hash Refresher} {a : RefreshAction Hash Refresher} {s : CacheSnapshot Hash}
  {chain : CoreChain Hash} {cache : HeaderCache Hash}

theorem Fresh.inv (h : st.Fresh) : st.Inv := by
  obtain ⟨hrows, hreading, hpublished⟩ := h
  refine ⟨fun i r hr => ?_, ?_, fun last hlast => ?_, fun _ => hrows, fun row hrow => ?_,
    fun k row hrow => ?_⟩
  · rw [hreading] at hr
    cases hr
  · rw [hrows]
    exact finals_empty
  · rw [hpublished] at hlast
    cases hlast
  · rw [hrows] at hrow
    cases hrow
  · rw [hrows] at hrow
    cases hrow

theorem Inv.of_accepted (hinv : st.Inv) (h : st.accepted a = some (chain, s, cache)) :
    Published st.cache s cache ∧
      Snapshots chain (highestFinal st.cache.rows) (loadHorizon st.cache.rows) s := by
  cases a with
  | publish i queued =>
    obtain ⟨r, hr, h⟩ := bind_eq_some_iff.mp h
    obtain ⟨read, hread, h⟩ := bind_eq_some_iff.mp h
    split at h
    · next hreplace =>
        cases h
        have hpublished := replaceBitcoinCoreHeaderCache_eq_ok hreplace
        have hloaded := hinv.readings i r hr
        obtain ⟨hrevision, f, hf, p, hp, hsnapshot⟩ := hloaded.snapshot read hread
        have hcurrent := hrevision.symm.trans hpublished.revision.symm
        obtain rfl := hloaded.highestFinal hcurrent f hf
        obtain rfl := hloaded.priorHorizon hcurrent p hp
        exact ⟨hpublished, hsnapshot⟩
    · cases h
  | loadRevision i => cases h
  | loadHighestFinal i => cases h
  | loadPriorHorizon i => cases h
  | readCore i chain live closingTip closingHorizon => cases h

theorem Inv.final_header (hinv : st.Inv) (hpromise : st.Promised a)
    (h : st.accepted a = some (chain, s, cache)) (k : Int) (row : HeaderRow Hash)
    (hrow : st.cache.rows.find? k = some row) (hfinal : row.isFinal = true) :
    row.header = chain.header k := by
  obtain ⟨earlier, hearlier, hdepth, hheader⟩ := hinv.backed k row hrow hfinal
  obtain ⟨hpos, hmod⟩ := hinv.finals.boundary k row hrow hfinal
  obtain ⟨-, hstays⟩ := (hpromise chain s cache h earlier hearlier).2 k hpos hmod hdepth
  rw [hheader, hstays]

theorem Inv.cached_of_accepted (hinv : st.Inv) (hpromise : st.Promised a)
    (h : st.accepted a = some (chain, s, cache)) : Cached chain s.horizon.height cache.rows := by
  obtain ⟨hpublished, hsnapshot⟩ := hinv.of_accepted h
  exact cached_of_published hpublished hsnapshot hinv.finals (hinv.final_header hpromise h)

/-- The final rows after an accepted publication were a hundred blocks below a horizon. -/
theorem Inv.backed_of_accepted (hinv : st.Inv) (hpromise : st.Promised a)
    (h : st.accepted a = some (chain, s, cache)) {k : Int} {row : HeaderRow Hash}
    (hrow : cache.rows.find? k = some row) (hfinal : row.isFinal = true) :
    ∃ earlier ∈ (chain, s.horizon.height) :: st.published,
      k + 100 ≤ earlier.2 ∧ row.header = earlier.1.header k := by
  obtain ⟨hpublished, hsnapshot⟩ := hinv.of_accepted h
  obtain ⟨hheader, hcases⟩ :=
    hpublished.row_cases hsnapshot hinv.finals (hinv.final_header hpromise h) hrow
  rcases hcases with hold | ⟨hnew, -⟩ | ⟨-, -, hshallow⟩ | ⟨-, hshallow⟩
  · obtain ⟨row₀, hrow₀, hfinal₀⟩ := hinv.finals.exists_final.mpr ⟨hold.1, hold.2.1, hold.2.2.1⟩
    obtain rfl := some.inj (hrow.symm.trans (hpublished.kept k row₀ hrow₀ hfinal₀))
    obtain ⟨earlier, hearlier, hbacked⟩ := hinv.backed k row hrow₀ hfinal₀
    exact ⟨earlier, mem_cons_of_mem _ hearlier, hbacked⟩
  · refine ⟨_, mem_cons_self, ?_, hheader⟩
    have hle := (mem_epochsFrom.mp hnew).2.1
    have hnext := hinv.finals.nextEpoch_spec.1.trans (mem_epochsFrom.mp hnew).1
    rw [hsnapshot.finalEpochHeight] at hle
    have hsub := hle.trans (daaEpochStart_le _)
    have hrange := hsnapshot.nonneg
    rw [saturatingSub] at hsub
    omega
  · exact absurd hfinal (by rw [hshallow]; decide)
  · exact absurd hfinal (by rw [hshallow]; decide)

theorem Loaded.of_published {cache cache' : HeaderCache Hash}
    {r : Reading Hash} (hloaded : Loaded cache r) (h : Published cache s cache') :
    Loaded cache' r := by
  have hrevision : cache'.state.publicationRevision = cache.state.publicationRevision + 1 := by
    rw [h.state]
    rfl
  have hle := hloaded.le
  exact ⟨by omega, fun heq => by omega, fun heq => by omega, hloaded.snapshot⟩

variable [DecidableEq Refresher]

/-- A step leaves the cache and the publications alone, except for an accepted publication. -/
theorem step_cases {st st' : Refreshes Hash Refresher} (h : st.step a = some st') :
    (st.accepted a = none ∧ st'.cache = st.cache ∧ st'.published = st.published) ∨
      ∃ chain s cache, st.accepted a = some (chain, s, cache) ∧ st'.cache = cache ∧
        st'.published = (chain, s.horizon.height) :: st.published := by
  cases a with
  | publish i queued =>
    obtain ⟨r, -, h⟩ := bind_eq_some_iff.mp h
    obtain ⟨read, -, h⟩ := bind_eq_some_iff.mp h
    split at h
    · next chain s cache haccepted =>
        obtain rfl := some.inj h
        exact .inr ⟨chain, s, cache, haccepted, rfl, rfl⟩
    · next hrefused =>
        obtain rfl := some.inj h
        exact .inl ⟨hrefused, rfl, rfl⟩
  | loadRevision i =>
    obtain rfl := some.inj h
    exact .inl ⟨rfl, rfl, rfl⟩
  | loadHighestFinal i =>
    obtain ⟨r, -, h⟩ := bind_eq_some_iff.mp h
    obtain rfl := some.inj h
    exact .inl ⟨rfl, rfl, rfl⟩
  | loadPriorHorizon i =>
    obtain ⟨r, -, h⟩ := bind_eq_some_iff.mp h
    obtain rfl := some.inj h
    exact .inl ⟨rfl, rfl, rfl⟩
  | readCore i chain live closingTip closingHorizon =>
    obtain ⟨r, -, h⟩ := bind_eq_some_iff.mp h
    obtain ⟨f, -, h⟩ := bind_eq_some_iff.mp h
    obtain ⟨p, -, h⟩ := bind_eq_some_iff.mp h
    obtain rfl := some.inj h
    exact .inl ⟨rfl, rfl, rfl⟩

theorem loaded_setReading {i : Refresher}
    {new : Option (Reading Hash)} (hold : ∀ j, ∀ r ∈ st.reading j, Loaded st.cache r)
    (hnew : ∀ r ∈ new, Loaded st.cache r) (j : Refresher) :
    ∀ r ∈ (st.setReading i new).reading j, Loaded st.cache r := by
  have hreading : (st.setReading i new).reading = Function.update st.reading i new := rfl
  rw [hreading]
  by_cases hj : j = i
  · subst hj
    rwa [Function.update_self]
  · rw [Function.update_of_ne hj]
    exact hold j

/-- What the refreshes have loaded after a step is of the cache before it. -/
theorem step_loaded {st st' : Refreshes Hash Refresher}
    (hold : ∀ j, ∀ r ∈ st.reading j, Loaded st.cache r) (h : st.step a = some st') (j : Refresher) :
    ∀ r ∈ st'.reading j, Loaded st.cache r := by
  cases a with
  | publish i queued =>
    obtain ⟨r, -, h⟩ := bind_eq_some_iff.mp h
    obtain ⟨read, -, h⟩ := bind_eq_some_iff.mp h
    split at h
    · obtain rfl := some.inj h
      exact loaded_setReading hold (fun _ hr => absurd hr (not_mem_none _)) j
    · obtain rfl := some.inj h
      exact loaded_setReading hold (fun _ hr => absurd hr (not_mem_none _)) j
  | loadRevision i =>
    obtain rfl := some.inj h
    refine loaded_setReading hold (fun r hr => ?_) j
    obtain rfl := some.inj hr
    exact ⟨le_rfl, fun _ _ hf => (nomatch hf), fun _ _ hp => (nomatch hp), fun _ hs => (nomatch hs)⟩
  | loadHighestFinal i =>
    obtain ⟨r, hr, h⟩ := bind_eq_some_iff.mp h
    obtain rfl := some.inj h
    have hloaded := hold i r hr
    refine loaded_setReading hold (fun r' hr' => ?_) j
    obtain rfl := some.inj hr'
    exact ⟨hloaded.le, fun _ f hf => (some.inj hf).symm, hloaded.priorHorizon,
      fun _ hs => (nomatch hs)⟩
  | loadPriorHorizon i =>
    obtain ⟨r, hr, h⟩ := bind_eq_some_iff.mp h
    obtain rfl := some.inj h
    have hloaded := hold i r hr
    refine loaded_setReading hold (fun r' hr' => ?_) j
    obtain rfl := some.inj hr'
    exact ⟨hloaded.le, hloaded.highestFinal, fun _ p hp => (some.inj hp).symm,
      fun _ hs => (nomatch hs)⟩
  | readCore i chain live closingTip closingHorizon =>
    obtain ⟨r, hr, h⟩ := bind_eq_some_iff.mp h
    obtain ⟨f, hf, h⟩ := bind_eq_some_iff.mp h
    obtain ⟨p, hp, h⟩ := bind_eq_some_iff.mp h
    obtain rfl := some.inj h
    have hloaded := hold i r hr
    refine loaded_setReading hold (fun r' hr' => ?_) j
    obtain ⟨s, hs, rfl⟩ := map_eq_some_iff.mp hr'
    obtain ⟨htaken, hrevision, -⟩ := takeSnapshot_eq_some (filter_eq_some_iff.mp hs).1
    refine ⟨hloaded.le, hloaded.highestFinal, hloaded.priorHorizon, fun read hread => ?_⟩
    obtain rfl := some.inj hread
    exact ⟨hrevision, f, hf, p, hp, htaken⟩

/-- **A step keeps the invariant**, when the chains keep what they promise. -/
theorem step_inv {st st' : Refreshes Hash Refresher}
    (hinv : st.Inv) (hpromise : st.Promised a) (h : st.step a = some st') : st'.Inv := by
  have hloaded := step_loaded hinv.readings h
  rcases step_cases h with ⟨-, hcache, hlog⟩ | ⟨chain, s, cache, haccepted, hcache, hlog⟩
  · refine ⟨?_, ?_, ?_, ?_, ?_, ?_⟩ <;> rw [hcache]
    · exact hloaded
    · exact hinv.finals
    · rw [hlog]
      exact hinv.cached
    · rw [hlog]
      exact hinv.empty
    · exact hinv.covers
    · rw [hlog]
      exact hinv.backed
  · have hcached := hinv.cached_of_accepted hpromise haccepted
    have hpublished := (hinv.of_accepted haccepted).1
    refine ⟨?_, ?_, ?_, ?_, ?_, ?_⟩ <;> rw [hcache]
    · exact fun j r hr => (hloaded j r hr).of_published hpublished
    · exact hcached.finals
    · rw [hlog]
      intro last hlast
      obtain rfl := some.inj hlast
      exact hcached
    · rw [hlog]
      exact fun hnil => absurd hnil (cons_ne_nil _ _)
    · exact hpublished.horizonTime.1
    · rw [hlog]
      exact fun k row hrow hfinal => hinv.backed_of_accepted hpromise haccepted hrow hfinal

theorem exec_inv {st₀ st : Refreshes Hash Refresher} {acts : List (RefreshAction Hash Refresher)}
    (hfresh : st₀.Fresh) (hrun : exec step st₀ acts = some st)
    (hpromise : Along step Promised st₀ acts) : st.Inv :=
  exec_history (G := Promised) (J := fun _ st => st.Inv) hfresh.inv
    (fun _ _ _ _ _ hinv hG hstep => step_inv hinv hG hstep) hrun hpromise

/-! ### The table after a publication -/

omit [DecidableEq Refresher] in
/-- Without a reorganisation, the new chain has the previous one up to its horizon. -/
theorem Inv.history_kept (hinv : st.Inv) (hpromise : st.Promised a)
    (h : st.accepted a = some (chain, s, cache)) (hshallow : s.shallowReorged st.cache = false)
    {last : CoreChain Hash × Int} (hlast : last ∈ st.published.head?) :
    last.2 ≤ s.horizon.height ∧ ∀ k, 0 ≤ k → k ≤ last.2 → chain.header k = last.1.header k := by
  obtain ⟨hpublished, hsnapshot⟩ := hinv.of_accepted h
  have hcached := hinv.cached last hlast
  have hle := hpublished.horizon_le hcached hshallow
  have hhash := hpublished.prior_horizon_hash hcached hsnapshot (hinv.final_header hpromise h) hshallow
  exact ⟨hle, (hpromise chain s cache h last (mem_of_mem_head? hlast)).1 last.2 hcached.nonneg
    (hle.trans hsnapshot.le_tip) hcached.le_tip hhash⟩

omit [DecidableEq Hash] [DecidableEq Refresher] in
/-- A lookup that was found on a chain is found on every chain with the same past. -/
theorem found_of_history {chain₀ chain : CoreChain Hash} {n₀ n t₀ t h : Int} {bits : UInt32}
    (hle : n₀ ≤ n)
    (hsame : ∀ k, 0 ≤ k → k ≤ n₀ → chain.header k = chain₀.header k)
    (hfound : (chain₀.epochChain.tableOf n₀ t₀).expectedNbits h = .found bits) :
    (chain.epochChain.tableOf n t).expectedNbits h = .found bits := by
  rcases lt_or_ge h 0 with hneg | hpos
  · rw [NbitsTable.expectedNbits_of_neg hneg] at hfound
    cases hfound
  · rw [EpochChain.expectedNbits_tableOf _ hpos] at hfound ⊢
    split at hfound
    · next hlt =>
        obtain rfl := NbitsLookup.found.inj hfound
        have hstart : 0 ≤ daaEpochStart h ∧ daaEpochStart h ≤ n₀ ∧ h < daaEpochStart n + 2016 := by
          simp only [daaEpochStart] at hlt ⊢
          omega
        rw [if_pos hstart.2.2]
        simp only [EpochChain.bits, CoreChain.epochChain, hsame _ hstart.1 hstart.2.1]
    · cases hfound

/-- **Refreshes leave a sound table.**  Along any run of refreshes from an empty cache whose chains
keep what they promise, an action that is not an accepted publication leaves the cache as it was.  An
accepted one leaves rows of its own chain, whose table knows every height up to the horizon.  When it
does not flag a reorganisation, the previous horizon block is on the new chain, and every lookup that
was found before is found as it was. -/
theorem refreshes_leave_sound_table {st₀ st st' : Refreshes Hash Refresher}
    {acts : List (RefreshAction Hash Refresher)} {a : RefreshAction Hash Refresher}
    (hfresh : st₀.Fresh) (hrun : exec step st₀ acts = some st)
    (hpromise : Along step Promised st₀ (acts ++ [a])) (hstep : st.step a = some st') :
    (st.accepted a = none → st'.cache = st.cache) ∧
      ∀ chain s cache, st.accepted a = some (chain, s, cache) → st'.cache = cache ∧
        (∀ row ∈ cache.rows.rows, 0 ≤ row.height ∧ row.height ≤ chain.tip ∧
          row.header = chain.header row.height) ∧
        ∃ table, loadNbitsTable cache = .ok table ∧
          (∀ h, 0 ≤ h → h ≤ s.horizon.height →
            table.expectedNbits h = .found (chain.header (daaEpochStart h)).bits) ∧
          (s.shallowReorged st.cache = false →
            (∀ prior, loadHorizon st.cache.rows = some prior →
              prior.height ≤ chain.tip ∧ chain.header prior.height = prior) ∧
            ∀ old, loadNbitsTable st.cache = .ok old →
              ∀ h bits, old.expectedNbits h = .found bits →
                table.expectedNbits h = .found bits) := by
  obtain ⟨hpast, hpromised, -⟩ := along_append hpromise hrun
  have hinv := exec_inv hfresh hrun hpast
  rcases step_cases hstep with ⟨hnone, hcache, -⟩ | ⟨chain, s, cache, haccepted, hcache, -⟩
  · exact ⟨fun _ => hcache, fun chain s cache h => absurd (hnone.symm.trans h) (by simp)⟩
  refine ⟨fun h => absurd (h.symm.trans haccepted) (by simp), fun chain' s' cache'' h => ?_⟩
  cases haccepted.symm.trans h
  have hcached := hinv.cached_of_accepted hpromised haccepted
  refine ⟨hcache, fun row hrow => ?_, _, loadNbitsTable_of_cached hcached, fun h hpos hle => ?_,
    fun hshallow => ?_⟩
  · have hfind := Table.find?_key hrow
    have hmem := (mem_cachedHeights hcached.nonneg).mp ((hcached.mem row.height).mp ⟨row, hfind⟩)
    exact ⟨hmem.1, hmem.2.1.trans hcached.le_tip, hcached.header _ _ hfind⟩
  · rw [EpochChain.expectedNbits_tableOf _ hpos, if_pos]
    · rfl
    · rw [daaEpochStart]
      omega
  · -- before the first publication there is no horizon and no table
    rcases hlast : st.published.head? with _ | last
    · have hempty := hinv.empty (head?_eq_none_iff.mp hlast)
      rw [loadNbitsTable, hempty]
      refine ⟨fun prior hprior => ?_, fun old hold => ?_⟩
      · cases hprior
      · cases hold
    · have hbefore := hinv.cached last hlast
      obtain ⟨hle, hsame⟩ := hinv.history_kept hpromised haccepted hshallow hlast
      rw [hbefore.loadHorizon_eq, loadNbitsTable_of_cached hbefore]
      refine ⟨fun prior hprior => ?_, fun old hold h bits hfound => ?_⟩
      · obtain rfl := some.inj hprior
        rw [last.1.height_eq]
        exact ⟨hle.trans hcached.le_tip, hsame _ hbefore.nonneg le_rfl⟩
      · obtain rfl := Except.ok.inj hold
        exact found_of_history hle hsame hfound

/-- A chain of Core as it grows. -/
def growing (tip : Int) (hrange : InI32 tip) : CoreChain Nat where
  tip
  header k := ⟨k, k.toNat, 600 * k, 1⟩
  height_eq _ := rfl
  tip_range := hrange

theorem sameHistory_growing {tip tip' : Int} (h : InI32 tip) (h' : InI32 tip') :
    SameHistory (growing tip h) (growing tip' h') :=
  fun _ _ _ _ _ _ _ _ => rfl

def emptyCache : Refreshes Nat Unit where
  cache := ⟨Table.empty, ⟨0, 0, 0, .pendingRows, 0, none, 0⟩⟩
  reading _ := none
  published := []

/-- One refresh, up to its publication. -/
def prepare (chain : CoreChain Nat) : List (RefreshAction Nat Unit) :=
  [.loadRevision (), .loadHighestFinal (), .loadPriorHorizon (),
    .readCore () chain true chain.tip (chain.header chain.tip)]

theorem along_prepare {st : Refreshes Nat Unit} {chain : CoreChain Nat}
    {rest : List (RefreshAction Nat Unit)}
    (h : ∀ st', exec step st (prepare chain) = some st' → Along step Promised st' rest) :
    Along step Promised st (prepare chain ++ rest) := by
  refine ⟨fun _ _ _ h => (nomatch h), fun s₁ h₁ => ⟨fun _ _ _ h => (nomatch h), fun s₂ h₂ =>
    ⟨fun _ _ _ h => (nomatch h), fun s₃ h₃ => ⟨fun _ _ _ h => (nomatch h), fun s₄ h₄ => h s₄ ?_⟩⟩⟩⟩
  exact exec_cons.mpr ⟨s₁, h₁, exec_cons.mpr ⟨s₂, h₂, exec_cons.mpr ⟨s₃, h₃,
    exec_cons.mpr ⟨s₄, h₄, rfl⟩⟩⟩⟩

def firstReady : Refreshes Nat Unit :=
  (exec step emptyCache (prepare (growing 100 (by decide)))).get rfl

def firstPublished : Refreshes Nat Unit := (step firstReady (.publish () false)).get rfl

def secondReady : Refreshes Nat Unit :=
  (exec step firstPublished (prepare (growing 2100 (by decide)))).get rfl

/-- Two refreshes, the second without its publication. -/
def twoRefreshes : List (RefreshAction Nat Unit) :=
  prepare (growing 100 (by decide)) ++ .publish () false :: prepare (growing 2100 (by decide))

theorem promised_twoRefreshes :
    Along step Promised emptyCache (twoRefreshes ++ [.publish () false]) := by
  refine along_prepare fun st hst => ?_
  obtain rfl : firstReady = st := some.inj hst
  refine ⟨fun _ _ _ _ earlier hearlier => (nomatch hearlier), fun st hst => ?_⟩
  obtain rfl : firstPublished = st := some.inj hst
  refine along_prepare fun st hst => ?_
  obtain rfl : secondReady = st := some.inj hst
  refine ⟨fun chain s cache h earlier hearlier => ?_, fun _ _ => trivial⟩
  obtain rfl : growing 2100 (by decide) = chain := congrArg Prod.fst (some.inj h)
  obtain rfl : earlier = (growing 100 (by decide), 100) := mem_singleton.mp hearlier
  refine ⟨sameHistory_growing _ _, fun e _ _ hdepth => ⟨?_, rfl⟩⟩
  have hdepth : e + 100 ≤ 100 := hdepth
  have htip : (growing 2100 (by decide)).tip = 2100 := rfl
  omega

/-- The second refresh finds the first boundary final, and the next one new. -/
theorem second_refresh_leaves_sound_table :
    ∃ st table, exec step emptyCache (twoRefreshes ++ [.publish () false]) = some st ∧
      loadNbitsTable st.cache = .ok table ∧ table.expectedNbits 2050 = .found 1 := by
  have hfresh : emptyCache.Fresh := ⟨rfl, fun _ => rfl, rfl⟩
  have hrun : exec step emptyCache twoRefreshes = some secondReady := rfl
  obtain ⟨-, -, table, htable, hfound, -⟩ :=
    (refreshes_leave_sound_table hfresh hrun promised_twoRefreshes rfl).2 _ _ _ rfl
  exact ⟨_, table, exec_snoc.mpr ⟨secondReady, hrun, rfl⟩, htable,
    hfound 2050 (by decide) (by decide)⟩

end Refreshes

end MergeMiningMonitor
