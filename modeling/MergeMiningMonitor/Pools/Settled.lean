import MergeMiningMonitor.Pools.Reclassify

/-!
# Pools — Settled

What one plan of the event phase leaves of an event's attributions, and that a second plan changes
nothing.

What is resolved for an event (`Resolved`) falls into three areas of the key that do not meet: the
parent side, the child side outside the payout namespaces, and the payout namespaces.  In the first two
a plan replaces what one source wrote by one row; in the third it upserts the payouts that are missing
(`find?_after_parent`, `find?_after_child`, `find?_after_payout`).  The one crossing is a row that the
legacy child-script source has in a payout namespace: a payout takes it over, and without `overwrite`
that may make the source look as if it had written nothing.  Without such rows the attributions are
settled after one plan (`after_after`).
-/

namespace MergeMiningMonitor.Pools

open Relational List Option

/-! ### What is resolved -/

/-- What the resolvers give for an event, with what they guarantee. -/
structure Resolved where
  parent : Option EventPoolAttribution
  child : Option EventPoolAttribution
  payouts : List EventPoolAttribution
  parent_written : ∀ a ∈ parent, a.side = .btcParent ∧ a.source = btcPoolSnapshotSource ∧
    a.poolId ≠ none
  child_written : ∀ a ∈ child, a.side = .childBlock ∧
    a.source = btcPoolSnapshotLegacyChildScriptSource ∧ a.poolId ≠ none ∧
    a.ns ∉ childPayoutNamespaces
  payouts_written : ∀ a ∈ payouts, a.side = .childBlock ∧ a.ns ∈ childPayoutNamespaces ∧
    isChildPayoutSource a.source = true
  payouts_nodup : (payouts.map EventPoolAttribution.key).Nodup

section Resolvers

variable {seeded : Seeded}

theorem resolveParentPoolAttributionFromCoinbase_written {script : AuxPow.Bytes}
    {addresses : List String} {a : EventPoolAttribution}
    (h : resolveParentPoolAttributionFromCoinbase seeded script addresses = some a) :
    a.side = .btcParent ∧ a.source = btcPoolSnapshotSource ∧ a.poolId ≠ none := by
  obtain ⟨m, -, hm⟩ := bind_eq_some_iff.mp h
  obtain ⟨poolId, -, rfl⟩ := map_eq_some_iff.mp hm
  exact ⟨rfl, rfl, some_ne_none _⟩

theorem resolveStoredParentPool_written {script outputs : Option AuxPow.Bytes}
    {outputsText : Option String} {a : EventPoolAttribution}
    (h : (resolveStoredParentPool seeded script outputs outputsText).attribution = some a) :
    a.side = .btcParent ∧ a.source = btcPoolSnapshotSource ∧ a.poolId ≠ none := by
  unfold resolveStoredParentPool at h
  dsimp only at h
  split at h
  · next b hb =>
      obtain rfl : b = a := some.inj h
      unfold resolveParentPoolAttributionFromSerializedCoinbaseOutputs at hb
      split at hb
      · next c hc =>
          obtain rfl : c = b := some.inj (some.inj hb)
          exact resolveParentPoolAttributionFromCoinbase_written hc
      · cases outputs with
        | none => cases some.inj hb
        | some bytes =>
          obtain ⟨addresses, -, hc⟩ := map_eq_some_iff.mp hb
          exact resolveParentPoolAttributionFromCoinbase_written hc
  · exact resolveParentPoolAttributionFromCoinbase_written h
  · exact resolveParentPoolAttributionFromCoinbase_written h

theorem resolveChildPoolAttributionFromScript_written {script : Option AuxPow.Bytes}
    {a : EventPoolAttribution} (h : resolveChildPoolAttributionFromScript seeded script = some a) :
    a.side = .childBlock ∧ a.source = btcPoolSnapshotLegacyChildScriptSource ∧ a.poolId ≠ none ∧
      a.ns ∉ childPayoutNamespaces := by
  obtain ⟨m, -, hm⟩ := bind_eq_some_iff.mp h
  obtain ⟨poolId, -, rfl⟩ := map_eq_some_iff.mp hm
  refine ⟨rfl, rfl, some_ne_none _, ?_⟩
  obtain ⟨slug, matchedBy, matchedValue⟩ := m
  cases matchedBy with
  | coinbaseTag => exact (by decide : btcCoinbaseTagNamespace ∉ childPayoutNamespaces)
  | payoutAddress => exact (by decide : btcPayoutAddressNamespace ∉ childPayoutNamespaces)

theorem paramsForSourceCode_ns {sourceCode : String} {params : ChildPayoutParams}
    (h : paramsForSourceCode sourceCode = some params) :
    sourceCode ∈ childPayoutSourceCodes ∧ params.ns ∈ childPayoutNamespaces := by
  unfold paramsForSourceCode at h
  split at h
  · next hcode => cases h; subst hcode; decide
  split at h
  · next hcode => cases h; subst hcode; decide
  split at h
  · next hcode => cases h; subst hcode; decide
  split at h
  · next hcode => cases h; subst hcode; decide
  · cases h

theorem childOutputAddresses_nodup (scripts : List AuxPow.Bytes) (params : ChildPayoutParams) :
    (childOutputAddresses seeded scripts params).Nodup := by
  rw [childOutputAddresses]
  generalize scripts.filterMap (seeded.formatChildScriptAddress params) = found
  suffices h : ∀ kept : List String, kept.Nodup → (found.foldl
      (fun addresses address =>
        if address ∈ addresses then addresses else addresses ++ [address]) kept).Nodup from
    h [] nodup_nil
  induction found with
  | nil => exact fun kept h => h
  | cons address found ih =>
    intro kept hkept
    refine ih _ ?_
    dsimp only
    split
    · exact hkept
    · next hnew => exact nodup_append.mpr ⟨hkept, nodup_singleton _, by
        intro x hx y hy
        rw [mem_singleton.mp hy]
        exact fun h => hnew (h ▸ hx)⟩

theorem replayChildPayouts_written {sourceCode : String} {outputs : Option AuxPow.Bytes}
    {payouts : List EventPoolAttribution}
    (h : replayChildPayouts seeded sourceCode outputs = some payouts) :
    (∀ a ∈ payouts, a.side = .childBlock ∧ a.ns ∈ childPayoutNamespaces ∧
      isChildPayoutSource a.source = true) ∧ (payouts.map EventPoolAttribution.key).Nodup := by
  unfold replayChildPayouts at h
  split at h
  · next params bytes hparams =>
      obtain ⟨scripts, -, rfl⟩ := map_eq_some_iff.mp h
      constructor
      · intro a ha
        obtain ⟨address, -, rfl⟩ := mem_map.mp ha
        refine ⟨rfl, (paramsForSourceCode_ns hparams).2, ?_⟩
        cases seeded.childPayoutIdentities (params.ns, address) with
        | none => exact (by decide : isChildPayoutSource childCoinbaseOutputSource = true)
        | some identity => exact (by decide : isChildPayoutSource childPayoutRegistrySource = true)
      · rw [resolveChildPayoutAttributions, List.map_map]
        refine (childOutputAddresses_nodup scripts params).map fun address address' heq => ?_
        exact congrArg (·.2.2) heq
  · cases h
    exact ⟨fun a ha => absurd ha not_mem_nil, nodup_nil⟩

theorem replayChildPayouts_getD (sourceCode : String) (outputs : Option AuxPow.Bytes) :
    (∀ a ∈ (replayChildPayouts seeded sourceCode outputs).getD [], a.side = .childBlock ∧
      a.ns ∈ childPayoutNamespaces ∧ isChildPayoutSource a.source = true) ∧
    (((replayChildPayouts seeded sourceCode outputs).getD []).map EventPoolAttribution.key).Nodup := by
  cases h : replayChildPayouts seeded sourceCode outputs with
  | none => exact ⟨fun a ha => absurd ha not_mem_nil, nodup_nil⟩
  | some payouts => exact replayChildPayouts_written h

/-- What is resolved for an event and its observation. -/
def resolved (seeded : Seeded) (e : PoolEvent) (o : PoolObservation) : Resolved where
  parent := (resolveStoredParentPool seeded e.btcParentCoinbaseScript e.btcParentCoinbaseOutputs
    e.btcParentCoinbaseOutputsText).attribution
  child := resolveChildPoolAttributionFromScript seeded o.childCoinbaseScript
  payouts := (replayChildPayouts seeded e.sourceCode o.childCoinbaseOutputs).getD []
  parent_written _ h := resolveStoredParentPool_written h
  child_written _ h := resolveChildPoolAttributionFromScript_written h
  payouts_written := (replayChildPayouts_getD _ _).1
  payouts_nodup := (replayChildPayouts_getD _ _).2

end Resolvers

namespace Resolved

variable (r : Resolved) (overwrite : Bool) (t : Attributions)

/-- The parent side is to be written. -/
def parentChanged : Bool :=
  shouldWriteAttribution (existingSourceAttribution t .btcParent btcPoolSnapshotSource) r.parent
    overwrite

/-- The child side is to be written. -/
def childChanged : Bool :=
  shouldWriteAttribution
    (existingSourceAttribution t .childBlock btcPoolSnapshotLegacyChildScriptSource) r.child overwrite

/-- The attributions of the two sides that are to be written. -/
def pending : List EventPoolAttribution :=
  (if r.parentChanged overwrite t then r.parent.toList else []) ++
    (if r.childChanged overwrite t then r.child.toList else [])

/-- The payouts that are to be written. -/
def pendingPayouts : List EventPoolAttribution :=
  r.payouts.filter fun a => shouldWriteChildPayout t a overwrite

/-- The update for an event. -/
def update (eventId : ℕ) : PlannedUpdate where
  eventId
  parentPoolChanged := r.parentChanged overwrite t
  childPoolChanged := r.childChanged overwrite t
  attributions := r.pending overwrite t
  childPayoutAttributions := r.pendingPayouts overwrite t

/-- Nothing is to be written. -/
def unchanged : Bool :=
  !r.parentChanged overwrite t && !r.childChanged overwrite t && (r.pendingPayouts overwrite t).isEmpty

/-- The attributions after the plan. -/
def after : Attributions := (r.update overwrite t 0).apply t

end Resolved

theorem planUpdate_eq (seeded : Seeded) (overwrite : Bool) (e : PoolEvent) (o : PoolObservation) :
    planUpdate seeded overwrite e o =
      if (resolved seeded e o).unchanged overwrite e.attributions then none
      else some ((resolved seeded e o).update overwrite e.attributions e.id) := rfl

/-! ### When something is written -/

section Written

variable {t : Attributions} {a : EventPoolAttribution} {overwrite : Bool}

theorem shouldWrite_rows {rows : List EventPoolAttribution} (hnodup : rows.Nodup)
    (hown : ∀ row ∈ rows, row.side = a.side ∧ row.source = a.source) :
    shouldWriteAttribution ⟨rows.length, if rows.length = 1 then rows.head? else none⟩ (some a)
      overwrite = false ↔ rows ≠ [] ∧ (overwrite = true → ∀ row ∈ rows, row = a) := by
  rcases rows with _ | ⟨row, _ | ⟨row', rows⟩⟩
  · simp [shouldWriteAttribution]
  · -- one row: its columns are those of the resolved attribution when it is that attribution
    obtain ⟨hside, hsource⟩ := hown row mem_cons_self
    cases a
    cases row
    simp_all [shouldWriteAttribution, ExistingSourceAttribution.matches]
    tauto
  · -- two rows are not both the resolved attribution
    have hne : row ≠ row' := fun h => (nodup_cons.mp hnodup).1 (h ▸ mem_cons_self)
    have hnot : ¬ ∀ q ∈ row :: row' :: rows, q = a := fun h =>
      hne ((h row (by simp)).trans (h row' (by simp)).symm)
    simp only [hnot]
    cases overwrite <;> simp [shouldWriteAttribution, ExistingSourceAttribution.matches]

/-- A source of one side is left alone when it wrote something, and under `overwrite` only what is
resolved. -/
theorem shouldWriteAttribution_eq_false {side : PoolAttributionSide} {source : String}
    (hside : a.side = side) (hsource : a.source = source) :
    shouldWriteAttribution (existingSourceAttribution t side source) (some a) overwrite = false ↔
      (∃ row ∈ t.rows, row.side = side ∧ row.source = source) ∧
      (overwrite = true → ∀ row ∈ t.rows, row.side = side → row.source = source → row = a) := by
  subst hside hsource
  refine (shouldWrite_rows (Nodup.filter _ (Nodup.of_map _ t.keys_nodup))
    fun row hrow => by simpa using (mem_filter.mp hrow).2).trans (and_congr ?_ ?_)
  · rw [← length_pos_iff, length_pos_iff_exists_mem]
    simp
  · simp

theorem shouldWriteChildPayout_eq (hside : a.side = .childBlock)
    (hns : a.ns ∈ childPayoutNamespaces) :
    shouldWriteChildPayout t a overwrite =
      ((t.find? a.key).filter fun row => isChildPayoutSource row.source).all
        (replacesPayout a overwrite) := by
  have hrows : (t.rows.find? fun row =>
      isChildPayoutRow row && row.ns = a.ns && row.matchedValue = a.matchedValue) =
      (t.find? a.key).filter fun row => isChildPayoutSource row.source := by
    rw [← t.rows_find?_and]
    congr 1
    funext row
    rw [Bool.eq_iff_iff]
    simp only [isChildPayoutRow, Bool.and_eq_true, decide_eq_true_eq, contains_iff_mem,
      Prod.mk.injEq, hside]
    constructor
    · rintro ⟨⟨⟨⟨hs, -⟩, hp⟩, hn⟩, hv⟩
      exact ⟨hp, hs, hn, hv⟩
    · rintro ⟨hp, hs, hn, hv⟩
      exact ⟨⟨⟨⟨hs, hn ▸ hns⟩, hp⟩, hn⟩, hv⟩
  rw [shouldWriteChildPayout, hrows]

theorem upsertSet_landing (t : Attributions) (a : EventPoolAttribution) :
    upsertSet a ((t.find? a.key).elim a (upsertSet a)) = (t.find? a.key).elim a (upsertSet a) := by
  have hself : upsertSet a a = a := (upsertSet_cases rfl).elim id fun h => h.2.2
  cases hrow : t.find? a.key with
  | none => exact hself
  | some row =>
    rcases upsertSet_cases (Table.key_of_find? hrow).symm with h | ⟨-, -, h⟩
    · simpa only [elim_some, h] using hself
    · simp only [elim_some, h]

/-- A source of one side that a write has settled: the write left what is resolved, or what was
there. -/
theorem shouldWriteAttribution_settled (t' : Attributions) {changed : Bool}
    (hchanged : shouldWriteAttribution (existingSourceAttribution t a.side a.source) (some a)
      overwrite = changed)
    (hwritten : changed = true → a ∈ t'.rows)
    (hkept : changed = false → ∃ row ∈ t'.rows, row.side = a.side ∧ row.source = a.source)
    (honly : ∀ row ∈ t'.rows, row.side = a.side → row.source = a.source →
      row = a ∨ (changed = false ∧ row ∈ t.rows)) :
    shouldWriteAttribution (existingSourceAttribution t' a.side a.source) (some a) overwrite =
      false := by
  rw [shouldWriteAttribution_eq_false rfl rfl]
  cases changed with
  | true =>
    refine ⟨⟨a, hwritten rfl, rfl, rfl⟩, fun _ row hrow hside hsource => ?_⟩
    exact (honly row hrow hside hsource).resolve_right fun h => nomatch h.1
  | false =>
    obtain ⟨-, hall⟩ := (shouldWriteAttribution_eq_false rfl rfl).mp hchanged
    refine ⟨hkept rfl, fun how row hrow hside hsource => ?_⟩
    rcases honly row hrow hside hsource with h | ⟨-, hmem⟩
    · exact h
    · exact hall how row hmem hside hsource

end Written

/-! ### What a plan leaves -/

namespace Resolved

variable {r : Resolved} {overwrite : Bool} {t : Attributions} {a row : EventPoolAttribution}

theorem mem_pending : a ∈ r.pending overwrite t ↔
    (r.parentChanged overwrite t = true ∧ a ∈ r.parent) ∨
      (r.childChanged overwrite t = true ∧ a ∈ r.child) := by
  rw [pending]
  cases r.parentChanged overwrite t <;> cases r.childChanged overwrite t <;> simp

theorem pending_known (ha : a ∈ r.pending overwrite t) : a.poolId ≠ none := by
  rcases mem_pending.mp ha with ⟨-, ha⟩ | ⟨-, ha⟩
  · exact (r.parent_written a ha).2.2
  · exact (r.child_written a ha).2.2.1

theorem pending_nodup : ((r.pending overwrite t).map EventPoolAttribution.key).Nodup := by
  have hsides : ∀ a ∈ r.parent, ∀ b ∈ r.child, a.key ≠ b.key := by
    intro a ha b hb h
    have hside : a.side = b.side := congrArg Prod.fst h
    rw [(r.parent_written a ha).1, (r.child_written b hb).1] at hside
    cases hside
  rw [pending]
  cases hp : r.parent <;> cases hc : r.child <;> split <;> split <;> simp_all

theorem mem_pendingPayouts :
    a ∈ r.pendingPayouts overwrite t ↔ a ∈ r.payouts ∧ shouldWriteChildPayout t a overwrite = true :=
  mem_filter

theorem pendingPayouts_nodup :
    ((r.pendingPayouts overwrite t).map EventPoolAttribution.key).Nodup :=
  (filter_sublist.map _).nodup r.payouts_nodup

variable (r overwrite t) in
/-- The attributions after the deletes. -/
def cleared : Attributions :=
  let t' := if r.parentChanged overwrite t then
    deleteEventPoolAttributionsForSource t .btcParent btcPoolSnapshotSource else t
  if r.childChanged overwrite t then
    deleteEventPoolAttributionsForSource t' .childBlock btcPoolSnapshotLegacyChildScriptSource else t'

theorem mem_cleared : row ∈ (r.cleared overwrite t).rows ↔ row ∈ t.rows ∧
    (r.parentChanged overwrite t = true → row.side = .btcParent →
      row.source ≠ btcPoolSnapshotSource) ∧
    (r.childChanged overwrite t = true → row.side = .childBlock →
      row.source ≠ btcPoolSnapshotLegacyChildScriptSource) := by
  rw [cleared]
  cases r.parentChanged overwrite t <;> cases r.childChanged overwrite t <;>
    simp [deleteEventPoolAttributionsForSource, Table.mem_delete, and_assoc]

theorem deleteStale_cleared :
    deleteStaleEventPoolAttributionsForSources (r.cleared overwrite t) (r.pending overwrite t) =
      r.cleared overwrite t := by
  have hgone : ∀ a ∈ r.pending overwrite t, ∀ row ∈ (r.cleared overwrite t).rows,
      row.side = a.side → row.source ≠ a.source := by
    intro a ha row hrow hside
    obtain ⟨-, hparent, hchild⟩ := mem_cleared.mp hrow
    rcases mem_pending.mp ha with ⟨hchanged, ha⟩ | ⟨hchanged, ha⟩
    · obtain ⟨hs, hsource, -⟩ := r.parent_written a ha
      exact hsource ▸ hparent hchanged (hside.trans hs)
    · obtain ⟨hs, hsource, -⟩ := r.child_written a ha
      exact hsource ▸ hchild hchanged (hside.trans hs)
  rw [deleteStaleEventPoolAttributionsForSources]
  generalize retainedKeys (r.pending overwrite t) = retained
  generalize r.pending overwrite t = attributions at hgone
  induction attributions with
  | nil => rfl
  | cons a attributions ih =>
    rw [map_cons, foldl_cons]
    dsimp only
    rw [Table.delete_eq_self]
    · exact ih fun b hb => hgone b (mem_cons_of_mem _ hb)
    · intro row hrow
      have := hgone a mem_cons_self row hrow
      simp only [Bool.and_eq_false_iff, decide_eq_false_iff_not]
      tauto

theorem after_eq : r.after overwrite t = upsertEventPoolAttributionRows
    (upsertEventPoolAttributionRows (r.cleared overwrite t) (r.pending overwrite t))
    (r.pendingPayouts overwrite t) := by
  conv_rhs => rw [← deleteStale_cleared]
  rfl

theorem pending_key_ne (ha : a ∈ r.payouts) (hrow : row ∈ r.pending overwrite t) : row.key ≠ a.key := by
  obtain ⟨haside, hans, -⟩ := r.payouts_written a ha
  intro h
  rcases mem_pending.mp hrow with ⟨-, hrow⟩ | ⟨-, hrow⟩
  · have hside : row.side = a.side := congrArg Prod.fst h
    rw [(r.parent_written row hrow).1, haside] at hside
    cases hside
  · have hns : row.ns = a.ns := congrArg (·.2.1) h
    exact (r.child_written row hrow).2.2.2 (hns ▸ hans)

variable {attributions : List EventPoolAttribution} {k : PoolAttributionSide × String × String}

theorem find?_upsertRows
    (hnodup : (attributions.map EventPoolAttribution.key).Nodup) (ha : a ∈ attributions) :
    (upsertEventPoolAttributionRows t attributions).find? a.key =
      some ((t.find? a.key).elim a (upsertSet a)) := by
  rw [upsertEventPoolAttributionRows, Table.find?_foldl_upsert upsertSet upsertSet_key _ _ _ hnodup]
  cases hfind : attributions.find? fun b => decide (b.key = a.key) with
  | none => exact absurd (find?_eq_none.mp hfind a ha) (by simp)
  | some b =>
    have hkey : b.key = a.key := by simpa using find?_some hfind
    rw [inj_on_of_nodup_map hnodup (mem_of_find?_eq_some hfind) ha hkey]

theorem find?_upsertRows_of_notMem (hnodup : (attributions.map EventPoolAttribution.key).Nodup)
    (hk : ∀ a ∈ attributions, a.key ≠ k) :
    (upsertEventPoolAttributionRows t attributions).find? k = t.find? k := by
  rw [upsertEventPoolAttributionRows, Table.find?_foldl_upsert upsertSet upsertSet_key _ _ _ hnodup,
    find?_eq_none.mpr fun a ha => by simpa using hk a ha]

theorem mem_after_of_pending (ha : a ∈ r.pending overwrite t) : a ∈ (r.after overwrite t).rows := by
  rw [Table.mem_rows_iff, after_eq, find?_upsertRows_of_notMem pendingPayouts_nodup fun b hb h =>
    pending_key_ne (mem_pendingPayouts.mp hb).1 ha h.symm, find?_upsertRows pending_nodup ha]
  cases hrow : (r.cleared overwrite t).find? a.key with
  | none => rfl
  | some row =>
    exact congrArg some (upsertSet_of_known (Table.key_of_find? hrow).symm (pending_known ha))

theorem find?_after_of_pendingPayouts (ha : a ∈ r.pendingPayouts overwrite t) :
    (r.after overwrite t).find? a.key =
      some (((r.cleared overwrite t).find? a.key).elim a (upsertSet a)) := by
  rw [after_eq, find?_upsertRows pendingPayouts_nodup ha, find?_upsertRows_of_notMem pending_nodup
    fun b hb => pending_key_ne (mem_pendingPayouts.mp ha).1 hb]

theorem find?_after (hpending : ∀ a ∈ r.pending overwrite t, a.key ≠ k)
    (hpayouts : ∀ a ∈ r.pendingPayouts overwrite t, a.key ≠ k) :
    (r.after overwrite t).find? k = (r.cleared overwrite t).find? k := by
  rw [after_eq, find?_upsertRows_of_notMem pendingPayouts_nodup hpayouts,
    find?_upsertRows_of_notMem pending_nodup hpending]

/-- **What a plan leaves is written by it, or was there and was not deleted.** -/
theorem mem_after (hrow : row ∈ (r.after overwrite t).rows) :
    row ∈ r.pending overwrite t ∨ row ∈ r.pendingPayouts overwrite t ∨
      row ∈ (r.cleared overwrite t).rows := by
  by_cases hpending : ∃ a ∈ r.pending overwrite t, a.key = row.key
  · obtain ⟨a, ha, hkey⟩ := hpending
    exact .inl (Table.eq_of_key_eq (mem_after_of_pending ha) hrow hkey ▸ ha)
  by_cases hpayouts : ∃ a ∈ r.pendingPayouts overwrite t, a.key = row.key
  · obtain ⟨a, ha, hkey⟩ := hpayouts
    have hfind := find?_after_of_pendingPayouts ha
    rw [hkey, Table.find?_key hrow, ← hkey] at hfind
    cases hold : (r.cleared overwrite t).find? a.key with
    | none =>
      rw [hold] at hfind
      exact .inr (.inl (some.inj hfind ▸ ha))
    | some old =>
      rw [hold, elim_some] at hfind
      rcases upsertSet_cases (Table.key_of_find? hold).symm with h | ⟨-, -, h⟩
      · exact .inr (.inl (some.inj (hfind.trans (congrArg some h)) ▸ ha))
      · exact .inr (.inr (some.inj (hfind.trans (congrArg some h)) ▸
          Table.mem_of_find? hold))
  · refine .inr (.inr ?_)
    rw [Table.mem_rows_iff, ← find?_after (fun a ha h => hpending ⟨a, ha, h⟩)
      fun a ha h => hpayouts ⟨a, ha, h⟩]
    exact Table.find?_key hrow

/-- A row that is not deleted is there, if nothing is written at its key. -/
theorem mem_after_of_cleared (hrow : row ∈ (r.cleared overwrite t).rows)
    (hpending : ∀ a ∈ r.pending overwrite t, a.key ≠ row.key)
    (hpayouts : ∀ a ∈ r.pendingPayouts overwrite t, a.key ≠ row.key) :
    row ∈ (r.after overwrite t).rows := by
  rw [Table.mem_rows_iff, find?_after hpending hpayouts]
  exact Table.find?_key hrow

/-! ### A second plan -/

theorem parentChanged_after : r.parentChanged overwrite (r.after overwrite t) = false := by
  cases hparent : r.parent with
  | none => simp [parentChanged, hparent, shouldWriteAttribution]
  | some a =>
    obtain ⟨hside, hsource, -⟩ := r.parent_written a hparent
    have hchanged : shouldWriteAttribution (existingSourceAttribution t a.side a.source) (some a)
        overwrite = r.parentChanged overwrite t := by
      rw [parentChanged, hparent, hside, hsource]
    have hsettled := shouldWriteAttribution_settled (r.after overwrite t) hchanged ?_ ?_ ?_
    · rwa [hside, hsource, ← hparent] at hsettled
    · exact fun h => mem_after_of_pending (mem_pending.mpr (.inl ⟨h, hparent⟩))
    · intro h
      obtain ⟨⟨row, hrow, hrowside, hrowsource⟩, -⟩ :=
        (shouldWriteAttribution_eq_false rfl rfl).mp (hchanged.trans h)
      refine ⟨row, mem_after_of_cleared (mem_cleared.mpr ⟨hrow, ?_, ?_⟩) ?_ ?_, hrowside, hrowsource⟩
      · simp [h]
      · simp [hrowside, hside]
      · intro b hb hkey
        have hbside : b.side = row.side := congrArg Prod.fst hkey
        rcases mem_pending.mp hb with ⟨h', -⟩ | ⟨-, hb⟩
        · simp [h] at h'
        · simp [(r.child_written b hb).1, hrowside, hside] at hbside
      · intro b hb hkey
        have hbside : b.side = row.side := congrArg Prod.fst hkey
        simp [(r.payouts_written b (mem_pendingPayouts.mp hb).1).1, hrowside, hside] at hbside
    · intro row hrow hrowside hrowsource
      rcases mem_after hrow with h | h | h
      · rcases mem_pending.mp h with ⟨-, h⟩ | ⟨-, h⟩
        · exact .inl (some.inj (h.symm.trans hparent))
        · simp [(r.child_written row h).1, hside] at hrowside
      · simp [(r.payouts_written row (mem_pendingPayouts.mp h).1).1, hside] at hrowside
      · obtain ⟨hmem, hdeleted, -⟩ := mem_cleared.mp h
        refine .inr ⟨?_, hmem⟩
        by_contra hne
        exact hdeleted (by simpa using hne) (hrowside.trans hside) (hrowsource.trans hsource)

/-- The legacy child-script source has a row outside the payout namespaces, if it has one at all. -/
def LegacyOutsidePayouts (t : Attributions) : Prop :=
  (∃ row ∈ t.rows, row.side = .childBlock ∧ row.source = btcPoolSnapshotLegacyChildScriptSource) →
    ∃ row ∈ t.rows, row.side = .childBlock ∧ row.source = btcPoolSnapshotLegacyChildScriptSource ∧
      row.ns ∉ childPayoutNamespaces

/-- A source that writes payouts is not the legacy child-script source. -/
theorem legacy_ne_of_isChildPayoutSource {source : String} (h : isChildPayoutSource source = true) :
    source ≠ btcPoolSnapshotLegacyChildScriptSource := by
  rintro rfl
  exact absurd h (by decide)

theorem childChanged_after (hlegacy : overwrite = false → LegacyOutsidePayouts t) :
    r.childChanged overwrite (r.after overwrite t) = false := by
  cases hchild : r.child with
  | none => simp [childChanged, hchild, shouldWriteAttribution]
  | some a =>
    obtain ⟨hside, hsource, -, hns⟩ := r.child_written a hchild
    have hchanged : shouldWriteAttribution (existingSourceAttribution t a.side a.source) (some a)
        overwrite = r.childChanged overwrite t := by
      rw [childChanged, hchild, hside, hsource]
    have hsettled := shouldWriteAttribution_settled (r.after overwrite t) hchanged ?_ ?_ ?_
    · rwa [hside, hsource, ← hchild] at hsettled
    · exact fun h => mem_after_of_pending (mem_pending.mpr (.inr ⟨h, hchild⟩))
    · intro h
      -- a row of the source that no payout can take over
      obtain ⟨row, hrow, hrowside, hrowsource, hrowns⟩ : ∃ row ∈ t.rows, row.side = .childBlock ∧
          row.source = btcPoolSnapshotLegacyChildScriptSource ∧ row.ns ∉ childPayoutNamespaces := by
        obtain ⟨⟨row, hrow, hrowside, hrowsource⟩, hall⟩ :=
          (shouldWriteAttribution_eq_false rfl rfl).mp (hchanged.trans h)
        cases how : overwrite with
        | false =>
          exact hlegacy how ⟨row, hrow, hrowside.trans hside, hrowsource.trans hsource⟩
        | true =>
          obtain rfl := hall how row hrow hrowside hrowsource
          exact ⟨row, hrow, hside, hsource, hns⟩
      refine ⟨row, mem_after_of_cleared (mem_cleared.mpr ⟨hrow, ?_, ?_⟩) ?_ ?_,
        hrowside.trans hside.symm, hrowsource.trans hsource.symm⟩
      · simp [hrowside]
      · simp [h]
      · intro b hb hkey
        have hbside : b.side = row.side := congrArg Prod.fst hkey
        rcases mem_pending.mp hb with ⟨-, hb⟩ | ⟨h', -⟩
        · simp [(r.parent_written b hb).1, hrowside] at hbside
        · simp [h] at h'
      · intro b hb hkey
        have hbns : b.ns = row.ns := congrArg (·.2.1) hkey
        exact hrowns (hbns ▸ (r.payouts_written b (mem_pendingPayouts.mp hb).1).2.1)
    · intro row hrow hrowside hrowsource
      rcases mem_after hrow with h | h | h
      · rcases mem_pending.mp h with ⟨-, h⟩ | ⟨-, h⟩
        · simp [(r.parent_written row h).1, hside] at hrowside
        · exact .inl (some.inj (h.symm.trans hchild))
      · exact absurd (hrowsource.trans hsource)
          (legacy_ne_of_isChildPayoutSource (r.payouts_written row (mem_pendingPayouts.mp h).1).2.2)
      · obtain ⟨hmem, -, hdeleted⟩ := mem_cleared.mp h
        refine .inr ⟨?_, hmem⟩
        by_contra hne
        exact hdeleted (by simpa using hne) (hrowside.trans hside) (hrowsource.trans hsource)

/-- A payout that is not written has a row of a payout source, which stays. -/
theorem find?_after_of_not_pending (ha : a ∈ r.payouts)
    (hnot : shouldWriteChildPayout t a overwrite = false) :
    (r.after overwrite t).find? a.key = t.find? a.key := by
  obtain ⟨hside, hns, -⟩ := r.payouts_written a ha
  have hpayouts : ∀ b ∈ r.pendingPayouts overwrite t, b.key ≠ a.key := by
    intro b hb hkey
    obtain ⟨hb, hwrite⟩ := mem_pendingPayouts.mp hb
    rw [inj_on_of_nodup_map r.payouts_nodup hb ha hkey, hnot] at hwrite
    cases hwrite
  rw [find?_after (fun b hb => pending_key_ne ha hb) hpayouts]
  cases hfilter : (t.find? a.key).filter fun row => isChildPayoutSource row.source with
  | none =>
    rw [shouldWriteChildPayout_eq hside hns, hfilter] at hnot
    cases hnot
  | some row =>
    obtain ⟨hrow, hsource⟩ := filter_eq_some_iff.mp hfilter
    have hkey := Table.key_of_find? hrow
    have hrowside : row.side = .childBlock := (congrArg Prod.fst hkey).trans hside
    rw [hrow, ← hkey, ← Table.mem_rows_iff, mem_cleared]
    exact ⟨Table.mem_of_find? hrow, fun _ h => by simp [hrowside] at h,
      fun _ _ => legacy_ne_of_isChildPayoutSource hsource⟩

/-- A payout that is written again finds the row that its upsert leaves. -/
theorem upsertSet_after (ha : a ∈ r.pendingPayouts overwrite (r.after overwrite t)) :
    ∃ row, (r.after overwrite t).find? a.key = some row ∧ upsertSet a row = row := by
  obtain ⟨ha, hwrite⟩ := mem_pendingPayouts.mp ha
  by_cases hfirst : shouldWriteChildPayout t a overwrite = true
  · exact ⟨_, find?_after_of_pendingPayouts (mem_pendingPayouts.mpr ⟨ha, hfirst⟩),
      upsertSet_landing _ _⟩
  · obtain ⟨hside, hns, -⟩ := r.payouts_written a ha
    have hfirst : shouldWriteChildPayout t a overwrite = false := by simpa using hfirst
    rw [shouldWriteChildPayout_eq hside hns, find?_after_of_not_pending ha hfirst,
      ← shouldWriteChildPayout_eq hside hns, hfirst] at hwrite
    cases hwrite

/-- **A second plan changes nothing.** -/
theorem after_after (hlegacy : overwrite = false → LegacyOutsidePayouts t) :
    r.after overwrite (r.after overwrite t) = r.after overwrite t := by
  have hparent : r.parentChanged overwrite (r.after overwrite t) = false := parentChanged_after
  have hchild := childChanged_after (r := r) hlegacy
  have hpending : r.pending overwrite (r.after overwrite t) = [] := by
    simp [pending, hparent, hchild]
  have hcleared : r.cleared overwrite (r.after overwrite t) = r.after overwrite t := by
    simp [cleared, hparent, hchild]
  rw [after_eq, hpending, hcleared]
  have hlands : ∀ a ∈ r.pendingPayouts overwrite (r.after overwrite t),
      ∃ row, (r.after overwrite t).find? a.key = some row ∧ upsertSet a row = row :=
    fun _ => upsertSet_after
  generalize r.pendingPayouts overwrite (r.after overwrite t) = payouts at hlands
  generalize r.after overwrite t = settled at hlands
  change payouts.foldl _ settled = settled
  induction payouts with
  | nil => rfl
  | cons a payouts ih =>
    obtain ⟨row, hrow, hland⟩ := hlands a mem_cons_self
    rw [foldl_cons, Table.upsert_eq_self hrow hland]
    exact ih fun b hb => hlands b (mem_cons_of_mem _ hb)

/-! ### What is known stays known -/

theorem mem_cleared_of_mem (hrow : row ∈ t.rows) : row ∈ (r.cleared false t).rows := by
  have hnone : ∀ {side source} {resolved : Option EventPoolAttribution},
      shouldWriteAttribution (existingSourceAttribution t side source) resolved false = true →
        row.side = side → row.source ≠ source := by
    intro side source resolved hwrite hside hsource
    cases resolved with
    | none => cases hwrite
    | some a =>
      have hcount : (t.rows.filter fun q => q.side = side && q.source = source) = [] := by
        simpa [shouldWriteAttribution, existingSourceAttribution] using hwrite
      exact not_mem_nil (hcount ▸ mem_filter.mpr ⟨hrow, by simp [hside, hsource]⟩)
  exact mem_cleared.mpr ⟨hrow, hnone, hnone⟩

/-- **Without `overwrite` a known pool stays known.** -/
theorem known_after (hrow : row ∈ t.rows) (hknown : row.poolId ≠ none) :
    ∃ row' ∈ (r.after false t).rows, row'.key = row.key ∧ row'.poolId ≠ none := by
  have hcleared := Table.find?_key (mem_cleared_of_mem (r := r) hrow)
  by_cases hpending : ∃ a ∈ r.pending false t, a.key = row.key
  · obtain ⟨a, ha, hkey⟩ := hpending
    exact ⟨a, mem_after_of_pending ha, hkey, pending_known ha⟩
  by_cases hpayouts : ∃ a ∈ r.pendingPayouts false t, a.key = row.key
  · obtain ⟨a, ha, hkey⟩ := hpayouts
    have hfind := find?_after_of_pendingPayouts ha
    rw [hkey, hcleared] at hfind
    exact ⟨upsertSet a row, Table.mem_of_find? hfind, rfl, upsertSet_known hknown⟩
  · exact ⟨row, mem_after_of_cleared (mem_cleared_of_mem hrow) (fun a ha h => hpending ⟨a, ha, h⟩)
      fun a ha h => hpayouts ⟨a, ha, h⟩, rfl, hknown⟩

end Resolved

end MergeMiningMonitor.Pools
