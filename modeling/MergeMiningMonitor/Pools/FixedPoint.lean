import MergeMiningMonitor.Pools.Settled

/-!
# Pools — FixedPoint

A second run of the reclassification changes nothing, and without `overwrite` no run loses a known pool.

Each phase reads its rows in pages and writes every candidate once, so a phase is one function applied
to every block (`runMainCandidateScan_eq_map`, `reresolveObservationPools_eq_map`).  The theorems are
then about one block.  Its attributions are settled by one plan (`Resolved.after_after`).  Its
observation may be synchronised again with an event whose payouts are upserted again, but the
observation phase brings it back to where it was (`resettle_sync`).

Both halves are in `reclassify_settles`.  It asks for one thing of the rows before a run without
`overwrite`: an event with rows of the legacy child-script source has one outside the payout namespaces.
Otherwise the first run can hand all of them to the payouts, and only the second run fills in the child
script (`second_run_fills_child_script`).
-/

namespace MergeMiningMonitor.Pools

open Relational List Option

variable {seeded : Seeded} {config : ReclassifyPoolsConfig}

/-! ### Updates by event -/

/-- The update planned for a block. -/
def planBlock (seeded : Seeded) (overwrite : Bool) (b : ChildBlock) : Option PlannedUpdate :=
  b.event.bind fun e => planUpdate seeded overwrite e b.observation

variable {b : ChildBlock} {u : PlannedUpdate}

theorem eventId_of_planBlock {overwrite : Bool}
    (h : planBlock seeded overwrite b = some u) : b.eventId = (u.eventId : WithBot ℕ) := by
  obtain ⟨e, he, hu⟩ := bind_eq_some_iff.mp h
  rw [planUpdate_eq] at hu
  split at hu
  · cases hu
  · cases hu
    rw [ChildBlock.eventId, he]
    rfl

theorem perm_addToGroup (groups : List ParentUpdateGroup) (parentHash : AuxPow.Hash32)
    (u : PlannedUpdate) :
    ((addToGroup groups parentHash u).flatMap (·.updates)).Perm
      (groups.flatMap (·.updates) ++ [u]) := by
  induction groups with
  | nil => exact Perm.refl _
  | cons g groups ih =>
    rw [addToGroup]
    split
    · simp only [flatMap_cons, append_assoc]
      exact (perm_append_comm).append_left _
    · simp only [flatMap_cons, append_assoc]
      exact ih.append_left _

theorem perm_planBatchUpdates (seeded : Seeded) (overwrite : Bool) (rows : List ChildBlock) :
    ((planBatchUpdates seeded overwrite rows).flatMap (·.updates)).Perm
      (rows.filterMap (planBlock seeded overwrite)) := by
  induction rows using List.reverseRecOn with
  | nil => exact .refl _
  | append_singleton rows b ih =>
    have hrows := ih.append_right (planBlock seeded overwrite b).toList
    rw [planBatchUpdates] at hrows ⊢
    rw [foldl_append, foldl_cons, foldl_nil, filterMap_append]
    cases he : b.event with
    | none => simpa [planBlock, he] using hrows
    | some e =>
      cases hu : planUpdate seeded overwrite e b.observation with
      | none => simpa [planBlock, he, hu] using hrows
      | some u =>
        dsimp only
        rw [hu]
        refine (perm_addToGroup _ e.btcParentHeaderHash u).trans ?_
        simpa [planBlock, he, hu] using hrows

theorem foldl_applyParentGroup (groups : List ParentUpdateGroup) (blocks : List ChildBlock) :
    groups.foldl applyParentGroup blocks =
      blocks.map fun b => (groups.flatMap (·.updates)).foldl applyUpdate b := by
  have hmap : ∀ (us : List PlannedUpdate) (blocks : List ChildBlock),
      us.foldl (fun blocks u => blocks.map (applyUpdate · u)) blocks =
        blocks.map fun b => us.foldl applyUpdate b := by
    intro us
    induction us with
    | nil => exact fun blocks => (map_id blocks).symm
    | cons u us ih =>
      intro blocks
      rw [List.foldl_cons, ih, List.map_map]
      rfl
  induction groups generalizing blocks with
  | nil => exact (map_id blocks).symm
  | cons g groups ih =>
    rw [List.foldl_cons, ih, applyParentGroup, hmap, List.map_map]
    simp only [flatMap_cons, foldl_append, Function.comp_def]

theorem ids_applyUpdate (b : ChildBlock) (u : PlannedUpdate) :
    (applyUpdate b u).eventId = b.eventId ∧ (applyUpdate b u).observation.id = b.observation.id := by
  unfold applyUpdate
  cases he : b.event with
  | none => exact ⟨rfl, rfl⟩
  | some e =>
    dsimp only
    split
    · exact ⟨by rw [ChildBlock.eventId, ChildBlock.eventId, he]; rfl, rfl⟩
    · exact ⟨rfl, rfl⟩

theorem applyUpdate_of_ne (h : b.eventId ≠ (u.eventId : WithBot ℕ)) : applyUpdate b u = b := by
  unfold applyUpdate
  cases he : b.event with
  | none => rfl
  | some e =>
    dsimp only
    rw [if_neg]
    intro hid
    exact h (by rw [ChildBlock.eventId, he, ← hid]; rfl)

theorem foldl_applyUpdate_of_ne {us : List PlannedUpdate}
    (h : ∀ u ∈ us, b.eventId ≠ (u.eventId : WithBot ℕ)) : us.foldl applyUpdate b = b := by
  induction us with
  | nil => rfl
  | cons u us ih =>
    rw [foldl_cons, applyUpdate_of_ne (h u mem_cons_self)]
    exact ih fun v hv => h v (mem_cons_of_mem _ hv)

theorem foldl_applyUpdate_of_mem {us : List PlannedUpdate}
    (hnodup : (us.map (·.eventId)).Nodup) (hu : u ∈ us)
    (hid : b.eventId = (u.eventId : WithBot ℕ)) : us.foldl applyUpdate b = applyUpdate b u := by
  induction us generalizing b with
  | nil => cases hu
  | cons v us ih =>
    obtain ⟨hv, hnodup⟩ := nodup_cons.mp hnodup
    rw [foldl_cons]
    rcases mem_cons.mp hu with rfl | hu
    · refine foldl_applyUpdate_of_ne fun w hw hwid => hv ?_
      rw [(ids_applyUpdate _ _).1, hid] at hwid
      exact mem_map.mpr ⟨w, hw, (WithBot.coe_injective hwid).symm⟩
    · rw [applyUpdate_of_ne, ih hnodup hu hid]
      rw [hid]
      exact fun h => hv (mem_map.mpr ⟨u, hu, WithBot.coe_injective h⟩)

/-! ### The phases, block by block -/

/-- What the event phase makes of a block. -/
def ChildBlock.reattribute (seeded : Seeded) (config : ReclassifyPoolsConfig) (b : ChildBlock) :
    ChildBlock :=
  if isCandidate config b then (planBlock seeded config.overwrite b).elim b (applyUpdate b) else b

/-- The observation with its pools settled. -/
def PoolObservation.settled (seeded : Seeded) (overwrite : Bool) (o : PoolObservation) :
    PoolObservation :=
  { o with
    childPoolId := settledChildPool seeded o overwrite
    btcParentPoolId := settle o.btcParentPoolId (matchedParentPool seeded o) overwrite }

/-- What the observation phase makes of a block. -/
def ChildBlock.resettle (seeded : Seeded) (config : ReclassifyPoolsConfig) (b : ChildBlock) :
    ChildBlock :=
  if isObservationCandidate config b then
    { b with observation := b.observation.settled seeded config.overwrite } else b

theorem ids_reattribute (b : ChildBlock) :
    (b.reattribute seeded config).eventId = b.eventId ∧
      (b.reattribute seeded config).observation.id = b.observation.id := by
  rw [ChildBlock.reattribute]
  split
  · cases planBlock seeded config.overwrite b with
    | none => exact ⟨rfl, rfl⟩
    | some u => exact ids_applyUpdate b u
  · exact ⟨rfl, rfl⟩

theorem ids_resettle (b : ChildBlock) :
    (b.resettle seeded config).observation.id = b.observation.id ∧
      (b.resettle seeded config).event = b.event := by
  rw [ChildBlock.resettle]
  split <;> exact ⟨rfl, rfl⟩

theorem filter_eventId (blocks : List ChildBlock) :
    (blocks.map ChildBlock.eventId).filter (· ≠ ⊥) =
      ((blocks.filterMap (·.event)).map (·.id)).map (WithBot.some : ℕ → WithBot ℕ) := by
  induction blocks with
  | nil => rfl
  | cons b blocks ih =>
    cases he : b.event with
    | none =>
      have hid : b.eventId = ⊥ := by rw [ChildBlock.eventId, he]; rfl
      rw [map_cons, filter_cons_of_neg (by simp [hid]), filterMap_cons_none he, ih]
    | some e =>
      have hid : b.eventId = WithBot.some e.id := by rw [ChildBlock.eventId, he]; rfl
      have hne : b.eventId ≠ ⊥ := hid ▸ WithBot.coe_ne_bot
      rw [map_cons, filter_cons_of_pos (by simpa using hne),
        filterMap_cons_some he, ih, hid]
      rfl

theorem eq_of_eventId_eq {blocks : List ChildBlock} {b b' : ChildBlock}
    (hnodup : ((blocks.map ChildBlock.eventId).filter (· ≠ ⊥)).Nodup) (hb : b ∈ blocks)
    (hb' : b' ∈ blocks) (hne : b.eventId ≠ ⊥) (h : b.eventId = b'.eventId) : b = b' := by
  rw [List.filter_map] at hnodup
  refine List.inj_on_of_nodup_map hnodup ?_ ?_ h
  · exact mem_filter.mpr ⟨hb, by simpa using hne⟩
  · exact mem_filter.mpr ⟨hb', by simpa [← h] using hne⟩

theorem eventId_ne_bot_of_isCandidate (h : isCandidate config b = true) : b.eventId ≠ ⊥ := by
  unfold isCandidate at h
  cases he : b.event with
  | none => simp [he] at h
  | some e =>
    rw [ChildBlock.eventId, he]
    exact WithBot.coe_ne_bot

/-- At most one update is planned for a block, and it is for the block's event. -/
theorem planned_eventIds_sublist {overwrite : Bool} (rows : List ChildBlock) :
    (((rows.filterMap (planBlock seeded overwrite)).map (·.eventId)).map
      (WithBot.some : ℕ → WithBot ℕ)).Sublist (rows.map ChildBlock.eventId) := by
  induction rows with
  | nil => exact Sublist.refl _
  | cons r rows ih =>
    cases hu : planBlock seeded overwrite r with
    | none =>
      rw [filterMap_cons_none hu]
      exact ih.cons _
    | some u =>
      rw [filterMap_cons_some hu, map_cons (f := ChildBlock.eventId),
        eventId_of_planBlock hu]
      exact ih.cons_cons _

/-- A page's updates, applied to all blocks, change the blocks of the page. -/
theorem applyGroups_eq_map {rows blocks : List ChildBlock}
    (hnodup : ((blocks.map ChildBlock.eventId).filter (· ≠ ⊥)).Nodup)
    (hrows : ∀ r ∈ rows, r ∈ blocks ∧ isCandidate config r = true)
    (hkeys : (rows.map ChildBlock.eventId).Nodup) :
    (planBatchUpdates seeded config.overwrite rows).foldl applyParentGroup blocks =
      blocks.map fun b =>
        if b.eventId ∈ rows.map ChildBlock.eventId then b.reattribute seeded config else b := by
  have hperm := perm_planBatchUpdates seeded config.overwrite rows
  rw [foldl_applyParentGroup]
  generalize (planBatchUpdates seeded config.overwrite rows).flatMap (·.updates) = us at hperm
  -- every update is of a block of the page
  have hfrom : ∀ u ∈ us, ∃ r ∈ rows, planBlock seeded config.overwrite r = some u :=
    fun u hu => mem_filterMap.mp (hperm.mem_iff.mp hu)
  have hids : (us.map (·.eventId)).Nodup := by
    refine ((hperm.map _).nodup_iff).mpr (Nodup.of_map WithBot.some ?_)
    exact Nodup.sublist (planned_eventIds_sublist rows) hkeys
  refine map_congr_left fun b hb => ?_
  by_cases hin : b.eventId ∈ rows.map ChildBlock.eventId
  · obtain ⟨r, hr, hid⟩ := mem_map.mp hin
    obtain ⟨hrb, hcandidate⟩ := hrows r hr
    obtain rfl := eq_of_eventId_eq hnodup hrb hb (eventId_ne_bot_of_isCandidate hcandidate) hid
    simp only [hcandidate, hin, if_true, ChildBlock.reattribute]
    cases hplan : planBlock seeded config.overwrite r with
    | some u =>
      exact foldl_applyUpdate_of_mem hids
        (hperm.mem_iff.mpr (mem_filterMap.mpr ⟨r, hr, hplan⟩)) (eventId_of_planBlock hplan)
    | none =>
      refine foldl_applyUpdate_of_ne fun u hu huid => ?_
      obtain ⟨q, hq, hqu⟩ := hfrom u hu
      have hqr : q = r := inj_on_of_nodup_map hkeys hq hr
        ((eventId_of_planBlock hqu).trans huid.symm)
      rw [hqr, hplan] at hqu
      cases hqu
  · rw [if_neg hin]
    refine foldl_applyUpdate_of_ne fun u hu huid => ?_
    obtain ⟨q, hq, hqu⟩ := hfrom u hu
    exact hin (mem_map.mpr ⟨q, hq, (eventId_of_planBlock hqu).trans huid.symm⟩)

/-- **The event phase is a function of each block.** -/
theorem runMainCandidateScan_eq_map (db : Blocks) :
    runMainCandidateScan seeded config db.blocks = db.blocks.map (·.reattribute seeded config) := by
  have hnodup : ((db.blocks.map ChildBlock.eventId).filter (· ≠ ⊥)).Nodup := by
    rw [filter_eventId]
    exact db.events_nodup.map WithBot.coe_injective
  have hkeys : ((db.blocks.filter (isCandidate config)).map ChildBlock.eventId).Nodup := by
    refine Nodup.sublist ?_ hnodup
    rw [List.filter_map]
    refine Sublist.map _ (monotone_filter_right _ fun b hb => ?_)
    simpa using eventId_ne_bot_of_isCandidate hb
  refine Keyset.scan_eq_map (fun b => (ids_reattribute b).1) (fun b hb => ?_) hkeys config.batchSize_pos
    (fun rows blocks hblocks hrows hrowkeys => ?_) (Nat.lt_succ_self _)
  · rw [ChildBlock.reattribute, if_neg (by simp [hb])]
  · exact applyGroups_eq_map (hblocks ▸ hnodup) hrows hrowkeys

/-! ### The observation phase -/

theorem planObservationPools_eq (seeded : Seeded) (o : PoolObservation) (overwrite : Bool) :
    planObservationPools seeded o overwrite = none ∧ o.settled seeded overwrite = o ∨
    planObservationPools seeded o overwrite =
      some ((o.settled seeded overwrite).childPoolId, (o.settled seeded overwrite).btcParentPoolId) := by
  unfold planObservationPools
  dsimp only
  split
  · exact .inr rfl
  · next h =>
      refine .inl ⟨rfl, ?_⟩
      obtain ⟨hchild, hparent⟩ := Prod.mk.injEq .. ▸ not_not.mp h
      rw [PoolObservation.settled, hchild, hparent]

theorem updateObservationPools_eq_map {rows blocks : List ChildBlock}
    (hnodup : (blocks.map (·.observation.id)).Nodup)
    (hrows : ∀ r ∈ rows, r ∈ blocks ∧ isObservationCandidate config r = true) :
    updateObservationPools (rows.filterMap fun b =>
        (planObservationPools seeded b.observation config.overwrite).map (b.observation, ·)) blocks =
      blocks.map fun b =>
        if b.observation.id ∈ rows.map (·.observation.id) then b.resettle seeded config else b := by
  rw [updateObservationPools]
  refine map_congr_left fun b hb => ?_
  dsimp only
  split
  · next hnone =>
      by_cases hin : b.observation.id ∈ rows.map (·.observation.id)
      · obtain ⟨r, hr, hid⟩ := mem_map.mp hin
        obtain ⟨hrb, hcandidate⟩ := hrows r hr
        obtain rfl : r = b := inj_on_of_nodup_map hnodup hrb hb hid
        rw [if_pos hin, ChildBlock.resettle, if_pos hcandidate]
        rcases planObservationPools_eq seeded r.observation config.overwrite with
          ⟨-, hsame⟩ | hplan
        · rw [hsame]
        · -- the planned update applies, since the row is as it was loaded
          have hu := find?_eq_none.mp hnone _ (mem_filterMap.mpr ⟨r, hr, by rw [hplan]; rfl⟩)
          have hkind : r.observation.kind ≠ .evidence := by
            intro h
            simp [isObservationCandidate, h] at hcandidate
          simp [hkind] at hu
      · rw [if_neg hin]
  · next u hu =>
      -- an update with the id of the block was planned for the block
      obtain ⟨r, hr, hru⟩ := mem_filterMap.mp (mem_of_find?_eq_some hu)
      obtain ⟨pools, hpools, rfl⟩ := map_eq_some_iff.mp hru
      have hid : r.observation.id = b.observation.id := by
        have := find?_some hu
        simp only [Bool.and_eq_true, decide_eq_true_eq] at this
        exact this.1.1.1.1
      obtain ⟨hrb, hcandidate⟩ := hrows r hr
      obtain rfl : r = b := inj_on_of_nodup_map hnodup hrb hb hid
      rw [if_pos (mem_map_of_mem hr), ChildBlock.resettle, if_pos hcandidate]
      rcases planObservationPools_eq seeded r.observation config.overwrite with
        ⟨hnone, -⟩ | hplan
      · rw [hnone] at hpools
        cases hpools
      · rw [some.inj (hpools.symm.trans hplan)]
        rfl

/-- **The observation phase is a function of each block.** -/
theorem reresolveObservationPools_eq_map {blocks : List ChildBlock}
    (hnodup : (blocks.map (·.observation.id)).Nodup) :
    reresolveObservationPools seeded config blocks = blocks.map (·.resettle seeded config) := by
  have hkeys : ((blocks.filter (isObservationCandidate config)).map (·.observation.id)).Nodup :=
    (filter_sublist.map _).nodup hnodup
  refine Keyset.scan_eq_map (fun b => (ids_resettle b).1) (fun b hb => ?_) hkeys config.batchSize_pos
    (fun rows ys hys hrows _ => ?_) (Nat.lt_succ_self _)
  · rw [ChildBlock.resettle, if_neg (by simp [hb])]
  · exact updateObservationPools_eq_map (hys ▸ hnodup) hrows

/-! ### Runs -/

/-- What a run makes of a block. -/
def ChildBlock.reclassify (seeded : Seeded) (config : ReclassifyPoolsConfig) (b : ChildBlock) :
    ChildBlock :=
  (b.reattribute seeded config).resettle seeded config

theorem runReclassifyPools_eq_map (db : Blocks) :
    runReclassifyPools seeded config db.blocks = db.blocks.map (·.reclassify seeded config) := by
  have hids : (db.blocks.map (·.reattribute seeded config)).map (·.observation.id) =
      db.blocks.map (·.observation.id) := by
    rw [List.map_map]
    exact List.map_congr_left fun b _ => (ids_reattribute b).2
  rw [runReclassifyPools, runMainCandidateScan_eq_map,
    reresolveObservationPools_eq_map (hids ▸ db.observations_nodup), List.map_map]
  rfl

theorem ids_reclassify (b : ChildBlock) : (b.reclassify seeded config).eventId = b.eventId ∧
    (b.reclassify seeded config).observation.id = b.observation.id := by
  obtain ⟨hevent, hobservation⟩ : (b.reattribute seeded config).eventId = b.eventId ∧ _ :=
    ids_reattribute b
  refine ⟨?_, (ids_resettle _).1.trans hobservation⟩
  rw [← hevent, ChildBlock.eventId, ChildBlock.eventId, ChildBlock.reclassify, (ids_resettle _).2]

/-- A run, with the ids as they were. -/
def Blocks.reclassify (seeded : Seeded) (config : ReclassifyPoolsConfig) (db : Blocks) : Blocks where
  blocks := runReclassifyPools seeded config db.blocks
  observations_nodup := by
    rw [runReclassifyPools_eq_map, List.map_map]
    exact (List.map_congr_left fun b _ => (ids_reclassify b).2) ▸ db.observations_nodup
  events_nodup := by
    refine List.Nodup.of_map (WithBot.some : ℕ → WithBot ℕ) ?_
    have hids : db.blocks.map (ChildBlock.eventId ∘ ChildBlock.reclassify seeded config) =
        db.blocks.map ChildBlock.eventId := map_congr_left fun b _ => (ids_reclassify b).1
    rw [← filter_eventId, runReclassifyPools_eq_map, List.map_map, hids, filter_eventId]
    exact db.events_nodup.map WithBot.coe_injective

/-! ### One observation -/

theorem settle_settle (stored resolved : Option ℤ) (overwrite : Bool) :
    settle (settle stored resolved overwrite) resolved overwrite = settle stored resolved overwrite := by
  cases stored <;> cases resolved <;> cases overwrite <;> rfl

theorem settle_known {stored : Option ℤ} (resolved : Option ℤ) (h : stored ≠ none) :
    settle stored resolved false = stored := by
  cases stored with
  | none => exact absurd rfl h
  | some pool => cases resolved <;> rfl

theorem settledChildPool_known {o : PoolObservation} (h : o.childPoolId ≠ none) :
    settledChildPool seeded o false = o.childPoolId := by
  unfold settledChildPool
  split
  · exact settle_known _ h
  · exact settle_known _ h
  · rfl

theorem settled_settled (o : PoolObservation) (overwrite : Bool) :
    (o.settled seeded overwrite).settled seeded overwrite = o.settled seeded overwrite := by
  have hchild : settledChildPool seeded (o.settled seeded overwrite) overwrite =
      settledChildPool seeded o overwrite := by
    have hpools : matchedChildPools seeded (o.settled seeded overwrite) =
        matchedChildPools seeded o := rfl
    have hstored : (o.settled seeded overwrite).childPoolId = settledChildPool seeded o overwrite := rfl
    rw [settledChildPool, hpools, hstored]
    rcases hmatched : matchedChildPools seeded o with _ | ⟨pool, _ | ⟨pool', pools⟩⟩
    · simp only [settledChildPool, hmatched, settle_settle]
    · simp only [settledChildPool, hmatched, settle_settle]
    · cases overwrite <;> simp [settledChildPool, hmatched]
  have hparent : settle (o.settled seeded overwrite).btcParentPoolId
      (matchedParentPool seeded (o.settled seeded overwrite)) overwrite =
      (o.settled seeded overwrite).btcParentPoolId := settle_settle _ _ _
  conv_lhs => rw [PoolObservation.settled, hchild, hparent]
  rfl

theorem resettle_resettle (b : ChildBlock) :
    (b.resettle seeded config).resettle seeded config = b.resettle seeded config := by
  conv_lhs => rw [ChildBlock.resettle]
  split
  · next h =>
      by_cases hfirst : isObservationCandidate config b = true
      · rw [ChildBlock.resettle, if_pos hfirst]
        dsimp only
        rw [settled_settled]
      · rw [ChildBlock.resettle, if_neg hfirst] at h
        exact absurd h hfirst
  · rfl

/-- An observation without a pool and with nothing to match stays without one. -/
theorem settledChildPool_of_nothing {o : PoolObservation} (hpool : o.childPoolId = none)
    (hidentities : o.childIdentities = []) (hscript : o.childCoinbaseScript = none)
    (houtputs : o.childCoinbaseOutputs = none ∨ o.sourceCode ∉ childPayoutSourceCodes)
    (overwrite : Bool) : settledChildPool seeded o overwrite = none := by
  have hpayouts : replayChildPayouts seeded o.sourceCode o.childCoinbaseOutputs = some [] := by
    unfold replayChildPayouts
    split
    · next params bytes hparams hbytes =>
        rcases houtputs with h | h
        · rw [h] at hbytes
          cases hbytes
        · exact absurd (paramsForSourceCode_ns hparams).1 h
    · rfl
  have hmatched : matchedChildPools seeded o = [] := by
    rw [matchedChildPools, hidentities, hscript, hpayouts]
    rfl
  rw [settledChildPool, hmatched, hpool]
  rfl

/-- Synchronising an observation does not look at the pools that it has. -/
theorem attributedIdentities_sync (t : Attributions) (o : PoolObservation) :
    attributedIdentities t (syncEventObservationAttribution t o) = attributedIdentities t o := by
  simp only [attributedIdentities, syncEventObservationAttribution]
  generalize (t.rows.filter fun a => a.side = .childBlock && !isBtcNamespace a.ns).map
    (fun a => (a.ns, a.matchedValue)) = attributed
  rw [List.filter_append, List.filter_filter]
  have hattributed : (attributed.filter fun i =>
      i.1 = rskMinerAddressNamespace && !attributed.contains i) = [] := by
    refine List.filter_eq_nil_iff.mpr fun i hi => ?_
    simp [hi]
  simp only [hattributed, Bool.and_self, List.nil_append]

/-- **The observation phase after a second synchronisation.**  The attributed pool that it brings back
is settled as it was the first time. -/
theorem resettle_sync (t : Attributions) (o : PoolObservation) (e : Option PoolEvent) :
    (ChildBlock.mk (syncEventObservationAttribution t
      ((ChildBlock.mk (syncEventObservationAttribution t o) e).resettle seeded config).observation)
        e).resettle seeded config =
      (ChildBlock.mk (syncEventObservationAttribution t o) e).resettle seeded config := by
  have hidentities := attributedIdentities_sync t o
  have hpool : (syncEventObservationAttribution t o).childPoolId = attributedPool t := rfl
  have hlist : (syncEventObservationAttribution t o).childIdentities = attributedIdentities t o := rfl
  generalize syncEventObservationAttribution t o = x at hidentities hpool hlist
  by_cases hx : isObservationCandidate config ⟨x, e⟩ = true
  · -- the parent's pool is settled, the child's is the attributed one again
    have hfirst : (ChildBlock.mk x e).resettle seeded config =
        ⟨x.settled seeded config.overwrite, e⟩ := by
      rw [ChildBlock.resettle, if_pos hx]
    have hsync : syncEventObservationAttribution t (x.settled seeded config.overwrite) =
        { x with btcParentPoolId := (x.settled seeded config.overwrite).btcParentPoolId } := by
      have hids : attributedIdentities t (x.settled seeded config.overwrite) = x.childIdentities :=
        (show _ = attributedIdentities t x from rfl).trans (hidentities.trans hlist.symm)
      rw [syncEventObservationAttribution, hids, ← hpool]
      rfl
    rw [hfirst]
    dsimp only
    rw [hsync]
    generalize hy : ({ x with btcParentPoolId :=
      (x.settled seeded config.overwrite).btcParentPoolId } : PoolObservation) = y
    have hsettled : y.settled seeded config.overwrite = x.settled seeded config.overwrite := by
      have hparent : settle y.btcParentPoolId (matchedParentPool seeded y) config.overwrite =
          (x.settled seeded config.overwrite).btcParentPoolId := by
        rw [← hy]
        exact settle_settle _ _ _
      rw [PoolObservation.settled, hparent, ← hy]
      rfl
    rw [ChildBlock.resettle]
    split
    · dsimp only
      rw [hsettled]
    · next hnot =>
        -- only the parent's pool was missing, so the child's is as it was
        have hchild : settledChildPool seeded x config.overwrite = x.childPoolId := by
          have how : config.overwrite = false := by
            cases h : config.overwrite with
            | false => rfl
            | true =>
              refine absurd ?_ hnot
              rw [← hy]
              simpa [isObservationCandidate, h] using hx
          rw [how]
          by_cases hknown : x.childPoolId = none
          · rw [hknown]
            have hnothing : x.childIdentities = [] ∧ x.childCoinbaseScript = none ∧
                (x.childCoinbaseOutputs = none ∨ x.sourceCode ∉ childPayoutSourceCodes) := by
              rw [← hy] at hnot
              simp only [isObservationCandidate, how, hknown] at hx hnot
              simp only [Bool.and_eq_true, Bool.or_eq_true] at hx hnot
              have hnothing := fun h => hnot ⟨hx.1, .inl (.inr ⟨rfl, h⟩)⟩
              refine ⟨?_, ?_, ?_⟩
              · by_contra h
                exact hnothing (.inl (.inl (by simpa using h)))
              · by_contra h
                exact hnothing (.inl (.inr (isSome_iff_ne_none.mpr h)))
              · by_contra h
                obtain ⟨houtputs, hcode⟩ := not_or.mp h
                exact hnothing (.inr ⟨isSome_iff_ne_none.mpr houtputs, by simpa using hcode⟩)
            exact settledChildPool_of_nothing hknown hnothing.1 hnothing.2.1 hnothing.2.2 _
          · exact settledChildPool_known hknown
        rw [← hy, PoolObservation.settled, hchild]
  · have hfirst : (ChildBlock.mk x e).resettle seeded config = ⟨x, e⟩ := by
      rw [ChildBlock.resettle, if_neg hx]
    have hsync : syncEventObservationAttribution t x = x := by
      rw [syncEventObservationAttribution, hidentities, ← hlist, ← hpool]
    rw [hfirst]
    dsimp only
    rw [hsync, hfirst]

/-! ### One block -/

/-- Nothing is planned for the block in the event phase. -/
def ChildBlock.Unplanned (seeded : Seeded) (config : ReclassifyPoolsConfig) (b : ChildBlock) : Prop :=
  isCandidate config b = true → planBlock seeded config.overwrite b = none

theorem reattribute_of_unplanned (h : b.Unplanned seeded config) :
    b.reattribute seeded config = b := by
  rw [ChildBlock.reattribute]
  split
  · next hcandidate =>
      rw [h hcandidate]
      rfl
  · rfl

/-- The event phase leaves a block alone, or writes what is resolved and synchronises the
observation. -/
theorem reattribute_cases (seeded : Seeded) (config : ReclassifyPoolsConfig) (b : ChildBlock) :
    b.Unplanned seeded config ∨ ∃ e, b.event = some e ∧ b.reattribute seeded config =
      ⟨syncEventObservationAttribution
          ((resolved seeded e b.observation).after config.overwrite e.attributions) b.observation,
        some { e with attributions :=
          (resolved seeded e b.observation).after config.overwrite e.attributions }⟩ := by
  by_cases hcandidate : isCandidate config b = true
  · cases he : b.event with
    | none => exact .inl fun _ => by simp [planBlock, he]
    | some e =>
      have hplan : planBlock seeded config.overwrite b =
          planUpdate seeded config.overwrite e b.observation := by simp [planBlock, he]
      rw [planUpdate_eq] at hplan
      split at hplan
      · exact .inl fun _ => hplan
      · refine .inr ⟨e, rfl, ?_⟩
        rw [ChildBlock.reattribute, if_pos hcandidate, hplan, elim_some, applyUpdate, he]
        exact if_pos rfl
  · exact .inl fun h => absurd h hcandidate

theorem unplanned_resettle (h : b.Unplanned seeded config) :
    (b.resettle seeded config).Unplanned seeded config := by
  rw [ChildBlock.resettle]
  split
  · exact h
  · exact h

/-- **A second run leaves a block as it is.** -/
theorem reclassify_reclassify (hlegacy : config.overwrite = false → ∀ e ∈ b.event,
      Resolved.LegacyOutsidePayouts e.attributions) :
    (b.reclassify seeded config).reclassify seeded config = b.reclassify seeded config := by
  rcases reattribute_cases seeded config b with h | ⟨e, he, hfirst⟩
  · rw [ChildBlock.reclassify, ChildBlock.reclassify, reattribute_of_unplanned h,
      reattribute_of_unplanned (unplanned_resettle h), resettle_resettle]
  · have hsettled := Resolved.after_after (r := resolved seeded e b.observation)
      fun how => hlegacy how e he
    rw [ChildBlock.reclassify, ChildBlock.reclassify, hfirst]
    generalize (resolved seeded e b.observation).after config.overwrite e.attributions = t at hsettled
    rcases reattribute_cases seeded config ((ChildBlock.mk
        (syncEventObservationAttribution t b.observation) (some { e with attributions := t })).resettle
          seeded config) with h | ⟨e', he', hsecond⟩
    · rw [reattribute_of_unplanned h, resettle_resettle]
    · rw [(ids_resettle _).2] at he'
      obtain rfl := some.inj he'
      -- the second plan resolves what the first one did
      have hresolved : resolved seeded { e with attributions := t } ((ChildBlock.mk
          (syncEventObservationAttribution t b.observation) (some { e with attributions := t })).resettle
            seeded config).observation = resolved seeded e b.observation := by
        rw [ChildBlock.resettle]
        split <;> rfl
      rw [hsecond, hresolved]
      dsimp only
      rw [hsettled]
      exact resettle_sync t b.observation _

/-- Without `overwrite` a run keeps the known pools of an event's attributions. -/
theorem known_reclassify {e : PoolEvent} {row : EventPoolAttribution}
    (how : config.overwrite = false) (he : b.event = some e) (hrow : row ∈ e.attributions.rows)
    (hknown : row.poolId ≠ none) :
    ∃ e' ∈ (b.reclassify seeded config).event, e'.id = e.id ∧
      ∃ row' ∈ e'.attributions.rows, row'.key = row.key ∧ row'.poolId ≠ none := by
  rw [ChildBlock.reclassify, (ids_resettle _).2]
  rcases reattribute_cases seeded config b with h | ⟨e', he', hafter⟩
  · rw [reattribute_of_unplanned h]
    exact ⟨e, he, rfl, row, hrow, rfl, hknown⟩
  · obtain rfl := some.inj (he.symm.trans he')
    rw [hafter, how]
    exact ⟨_, rfl, rfl, Resolved.known_after hrow hknown⟩

/-- Without `overwrite` a run keeps the known pools of an observation without an event. -/
theorem observation_known_reclassify (seeded : Seeded) (how : config.overwrite = false)
    (he : b.event = none) :
    (b.observation.childPoolId ≠ none →
      (b.reclassify seeded config).observation.childPoolId = b.observation.childPoolId) ∧
    (b.observation.btcParentPoolId ≠ none →
      (b.reclassify seeded config).observation.btcParentPoolId = b.observation.btcParentPoolId) := by
  have hevent : b.reattribute seeded config = b :=
    reattribute_of_unplanned fun _ => by simp [planBlock, he]
  rw [ChildBlock.reclassify, hevent, ChildBlock.resettle]
  split
  · rw [how]
    exact ⟨settledChildPool_known, settle_known _⟩
  · exact ⟨fun _ => rfl, fun _ => rfl⟩

/-! ### The run -/

/-- **Reclassification settles in one run.**  A second run changes nothing, if without `overwrite` the
legacy child-script source has a row outside the payout namespaces wherever it has one.  And without
`overwrite` every attribution and every observation without an event that had a known pool is still
there and has one. -/
theorem reclassify_settles (seeded : Seeded) (config : ReclassifyPoolsConfig) (db : Blocks) :
    ((config.overwrite = false → ∀ b ∈ db.blocks, ∀ e ∈ b.event,
        Resolved.LegacyOutsidePayouts e.attributions) →
      (db.reclassify seeded config).reclassify seeded config = db.reclassify seeded config) ∧
    (config.overwrite = false → ∀ b ∈ db.blocks, ∃ b' ∈ (db.reclassify seeded config).blocks,
      b'.observation.id = b.observation.id ∧
      (∀ e ∈ b.event, ∀ row ∈ e.attributions.rows, row.poolId ≠ none →
        ∃ e' ∈ b'.event, e'.id = e.id ∧
          ∃ row' ∈ e'.attributions.rows, row'.key = row.key ∧ row'.poolId ≠ none) ∧
      (b.event = none →
        (b.observation.childPoolId ≠ none → b'.observation.childPoolId ≠ none) ∧
        (b.observation.btcParentPoolId ≠ none → b'.observation.btcParentPoolId ≠ none))) := by
  have hrun : (db.reclassify seeded config).blocks = db.blocks.map (·.reclassify seeded config) :=
    runReclassifyPools_eq_map db
  constructor
  · intro hlegacy
    have hblocks : ((db.reclassify seeded config).reclassify seeded config).blocks =
        (db.reclassify seeded config).blocks := by
      change runReclassifyPools seeded config (db.reclassify seeded config).blocks = _
      rw [runReclassifyPools_eq_map, hrun, List.map_map]
      exact map_congr_left fun b hb => reclassify_reclassify fun how e he => hlegacy how b hb e he
    generalize (db.reclassify seeded config).reclassify seeded config = second at hblocks
    generalize db.reclassify seeded config = first at hblocks
    cases second
    cases first
    cases hblocks
    rfl
  · intro how b hb
    rw [hrun]
    refine ⟨b.reclassify seeded config, mem_map_of_mem hb, ?_, ?_, ?_⟩
    · exact (ids_reclassify b).2
    · exact fun e he row hrow hknown => known_reclassify how he hrow hknown
    · intro he
      obtain ⟨hchild, hparent⟩ := observation_known_reclassify seeded how he
      exact ⟨fun h => hchild h ▸ h, fun h => hparent h ▸ h⟩

namespace Sample

/-- A resolver that knows one coinbase script, and a registry that knows one Namecoin address. -/
def registries : Seeded where
  resolveCoinbaseScript script := if script = [1] then some ⟨"pool", .coinbaseTag, "tag"⟩ else none
  resolvePayoutAddresses _ := none
  poolIdsBySlug slug := if slug = "pool" then some 5 else none
  childPayoutIdentities i :=
    if i = (namecoinPayoutAddressNamespace, "address") then some ⟨9, 1, .high⟩ else none
  identityPools _ := none
  outputAddresses _ := none
  publishedParentCoinbaseOutputAddresses _ := []
  outputScripts bytes := some [bytes]
  formatChildScriptAddress _ _ := some "address"

def fillMissing : ReclassifyPoolsConfig := ⟨false, 500, none, by decide⟩

/-- A row of the child side that names no identity. -/
def row (ns matchedValue source : String) (poolId : Option ℤ) : EventPoolAttribution :=
  ⟨.childBlock, ns, "match", matchedValue, poolId, none, source, .high, .empty, fun _ => rfl⟩

def observation : PoolObservation :=
  ⟨1, .evidence, namecoinSourceCode, [], some [1], some [2], none, none, none, none⟩

/-- One Namecoin event with these attributions. -/
def namecoin (attributions : Attributions) : Blocks where
  blocks := [⟨observation, some ⟨1, ⟨List.replicate 32 0, rfl⟩, namecoinSourceCode, false, none, none,
    none, attributions⟩⟩]
  observations_nodup := nodup_singleton _
  events_nodup := nodup_singleton _

/-- The legacy child-script source has a row at a payout address, and another source names the tag. -/
def legacyAtPayout : Attributions where
  rows := [row namecoinPayoutAddressNamespace "address" btcPoolSnapshotLegacyChildScriptSource none,
    row btcCoinbaseTagNamespace "tag" "manual" (some 9)]
  keys_nodup := by decide

/-- The legacy child-script source names the tag. -/
def legacyAtTag : Attributions where
  rows := [row btcCoinbaseTagNamespace "tag" btcPoolSnapshotLegacyChildScriptSource (some 9)]
  keys_nodup := by decide

/-- Pool and source of every attribution. -/
def poolsAndSources (db : Blocks) : List (List (Option ℤ × String)) :=
  db.blocks.map fun b => b.event.elim [] fun e => e.attributions.rows.map fun a => (a.poolId, a.source)

end Sample

/-- The first run hands the only row of the legacy child-script source to the payout address.  The
second one finds no row of that source, writes the child script's pool, and takes over the row of
another source with the same tag. -/
theorem second_run_fills_child_script :
    let first := (Sample.namecoin Sample.legacyAtPayout).reclassify Sample.registries Sample.fillMissing
    Sample.poolsAndSources first =
        [[(some 9, childPayoutRegistrySource), (some 9, "manual")]] ∧
      Sample.poolsAndSources (first.reclassify Sample.registries Sample.fillMissing) =
        [[(some 9, childPayoutRegistrySource), (some 5, btcPoolSnapshotLegacyChildScriptSource)]] := by
  decide +kernel

/-- A run that adds the payout address to an event whose tag is named settles at once. -/
theorem reclassify_settles_with_tag :
    let db := Sample.namecoin Sample.legacyAtTag
    Sample.poolsAndSources (db.reclassify Sample.registries Sample.fillMissing) =
        [[(some 9, btcPoolSnapshotLegacyChildScriptSource), (some 9, childPayoutRegistrySource)]] ∧
      (db.reclassify Sample.registries Sample.fillMissing).reclassify Sample.registries Sample.fillMissing =
        db.reclassify Sample.registries Sample.fillMissing ∧
      ∃ b' ∈ (db.reclassify Sample.registries Sample.fillMissing).blocks,
        b'.observation.id = Sample.observation.id := by
  intro db
  refine ⟨by decide +kernel, ?_, ?_⟩
  · refine (reclassify_settles Sample.registries Sample.fillMissing db).1 fun _ b hb e he _ => ?_
    obtain rfl := mem_singleton.mp hb
    obtain rfl := some.inj he
    exact ⟨_, mem_cons_self, rfl, rfl, by decide⟩
  · obtain ⟨b', hb', hid, -⟩ := (reclassify_settles Sample.registries Sample.fillMissing db).2 rfl _
      mem_cons_self
    exact ⟨b', hb', hid⟩

end MergeMiningMonitor.Pools
