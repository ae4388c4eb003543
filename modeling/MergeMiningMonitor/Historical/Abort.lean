import MergeMiningMonitor.Historical.Drain

/-!
# Historical — Abort

Is the drain safe to abort?  A reconcile that changes a parent calls for a reconcile of everything
that depends on it.  A primary stores what it changed in its row, so its dependents are found again
by whoever drains the row next.  An item of the cascade does not: its dependents wait in memory
only, and the row still stores nothing but the seeds.

So an abort is harmless as long as every item that is waiting depends on a seed
(`aborted_drain_reconciles_dependents`).  An abort after an item further down changed its parent
loses the items that wait because of it: the next drain starts from the seeds, finds that the item
no longer changes anything, and stops there (`abort_strands_second_level_dependent`).
-/

namespace MergeMiningMonitor.Historical.Drain

open Relational Transition List Option

variable {σ Hash : Type} [LinearOrder Hash] (R : Reconciler σ Hash) (budget batchSize : Nat)

/-- The tick reconciles parent `p`, as an item of the cascade, as a primary or in a bulk batch. -/
def Reconciles (s : Drain σ Hash) (a : Act Hash) (p : Hash) : Prop :=
  ∃ mv, a = .tick ∧ s.move R budget batchSize = some mv ∧
    match mv with
    | .bulk parents => p ∈ parents
    | .primary row => row.hash = p
    | .item work => R.parent work = p
    | _ => False

/-- The tick changes a parent that `x` depends on, and an uninterrupted drain goes on to reconcile
`x` for it: a primary changed it, or an item of a cascade that has not visited `x`. -/
def CallsFor (s : Drain σ Hash) (a : Act Hash) (x : ReconcileWork Hash) : Prop :=
  a = .tick ∧
    ((∃ row, s.move R budget batchSize = some (.primary row) ∧
        x ∈ R.dependentsOf (R.reconcile s.readModel row.hash).2) ∨
      ∃ work c, s.move R budget batchSize = some (.item work) ∧ s.cascade = some c ∧
        x ∈ R.dependentsOf (R.reconcile s.readModel (R.parent work)).2 ∧ x ∉ work :: c.visited)

/-- If the step aborts a cascade, whatever waits in memory depends on a seed of the row. -/
def AbortsSeeded (s : Drain σ Hash) (a : Act Hash) : Prop :=
  a = .abort → ∀ c, s.cascade = some c → ∀ x ∈ c.frontier, x ∉ c.visited →
    x ∈ R.dependentsOf c.row.changedHashes

/-- `x` waits in memory. -/
def Waits (s : Drain σ Hash) (x : ReconcileWork Hash) : Prop :=
  ∃ c, s.cascade = some c ∧ x ∈ c.frontier ∧ x ∉ c.visited

/-- `x` depends on a seed of a row whose cascade is not running. -/
def Stored (s : Drain σ Hash) (x : ReconcileWork Hash) : Prop :=
  ∃ h seeds, s.queue.Stores h seeds ∧ x ∈ R.dependentsOf seeds ∧
    ∀ c, s.cascade = some c → c.row.hash ≠ h

/-- The row of the running cascade is in the queue with its seeds. -/
def Backed (s : Drain σ Hash) : Prop :=
  ∀ c, s.cascade = some c → s.queue.Stores c.row.hash c.row.changedHashes

variable {R budget batchSize} {s s' : Drain σ Hash} {a : Act Hash} {x : ReconcileWork Hash}

theorem step_backed (hs : s.step R budget batchSize a = some s') (hb : s.Backed) : s'.Backed := by
  intro c hc
  cases a with
  | tick =>
    obtain ⟨mv, -, hen, rfl⟩ := step_tick R budget batchSize hs
    cases mv with
    | bulk parents => simp [apply, hen.1] at hc
    | primary row => simp [apply, hen.1] at hc
    | openCascade row =>
      obtain rfl := some.inj hc
      exact Queue.stores_of_mem hen.2.1
    | skip work =>
      obtain ⟨c₀, hc₀, rfl⟩ := map_eq_some_iff.mp hc
      exact hb c₀ hc₀
    | item work =>
      obtain ⟨c₀, hc₀, rfl⟩ := map_eq_some_iff.mp hc
      exact hb c₀ hc₀
    | finish => simp [apply] at hc
  | abort =>
    obtain rfl := some.inj hs
    cases hc
  | enqueue now hash =>
    obtain rfl := some.inj hs
    exact Queue.stores_enqueueHistoricalParent (hb c hc) now hash

omit [LinearOrder Hash] in
theorem exists_mem_of_mem_dependentsOf {seeds : List Hash} (h : x ∈ R.dependentsOf seeds) :
    ∃ k, k ∈ seeds := by
  obtain ⟨k, hk, -⟩ := mem_flatMap.mp h
  exact ⟨k, hk⟩

/-- What is stored stays stored, or waits in the cascade that is opened for it. -/
theorem step_stored (hs : s.step R budget batchSize a = some s') (hx : s.Stored R x) :
    s'.Stored R x ∨ s'.Waits x := by
  obtain ⟨h, seeds, hq, hmem, hfree⟩ := hx
  cases a with
  | tick =>
    obtain ⟨mv, -, hen, rfl⟩ := step_tick R budget batchSize hs
    cases mv with
    | bulk parents =>
      obtain ⟨k, hk⟩ := exists_mem_of_mem_dependentsOf hmem
      exact .inl ⟨h, seeds, Queue.stores_completeBulk hq hk parents, hmem, hfree⟩
    | primary row =>
      exact .inl ⟨h, seeds, Queue.stores_persistHistoricalPrimary hq row _, hmem, hfree⟩
    | openCascade row =>
      by_cases hrow : row.hash = h
      · refine .inr ⟨_, rfl, ?_, not_mem_nil⟩
        obtain ⟨r, hr, hrh, hseeds⟩ := hq
        obtain rfl : row = r := Table.eq_of_key_eq hen.2.1 hr (hrow.trans hrh.symm)
        obtain ⟨k, hk, hxk⟩ := mem_flatMap.mp hmem
        exact mem_flatMap.mpr ⟨k, hseeds k hk, hxk⟩
      · refine .inl ⟨h, seeds, hq, hmem, fun c hc => ?_⟩
        obtain rfl := some.inj hc
        exact hrow
    | skip work =>
      refine .inl ⟨h, seeds, hq, hmem, fun c hc => ?_⟩
      obtain ⟨c₀, hc₀, rfl⟩ := map_eq_some_iff.mp hc
      exact hfree c₀ hc₀
    | item work =>
      refine .inl ⟨h, seeds, hq, hmem, fun c hc => ?_⟩
      obtain ⟨c₀, hc₀, rfl⟩ := map_eq_some_iff.mp hc
      exact hfree c₀ hc₀
    | finish =>
      obtain ⟨c, hc, -⟩ := hen
      refine .inl ⟨h, seeds, ?_, hmem, fun c hc => by cases hc⟩
      simpa [apply, hc] using Queue.stores_completeCascade hq (hfree c hc)
  | abort =>
    obtain rfl := some.inj hs
    exact .inl ⟨h, seeds, hq, hmem, fun c hc => by cases hc⟩
  | enqueue now hash =>
    obtain rfl := some.inj hs
    exact .inl ⟨h, seeds, Queue.stores_enqueueHistoricalParent hq now hash, hmem, hfree⟩

/-- What waits goes on waiting until it is reconciled, unless the cascade is aborted; then it is
stored, if it depends on a seed. -/
theorem step_waits (hs : s.step R budget batchSize a = some s') (hb : s.Backed)
    (hseeded : s.AbortsSeeded R a) (hx : s.Waits x) :
    s'.Stored R x ∨ s'.Waits x ∨ s.Reconciles R budget batchSize a (R.parent x) := by
  obtain ⟨c, hc, hf, hv⟩ := hx
  cases a with
  | tick =>
    obtain ⟨mv, hmv, hen, rfl⟩ := step_tick R budget batchSize hs
    cases mv with
    | bulk parents => exact absurd (hc.symm.trans hen.1) (by simp)
    | primary row => exact absurd (hc.symm.trans hen.1) (by simp)
    | openCascade row => exact absurd (hc.symm.trans hen.1) (by simp)
    | skip work =>
      obtain ⟨c', rest, hc', hfr, hvis⟩ := hen
      obtain rfl := some.inj (hc.symm.trans hc')
      have hne : x ≠ work := fun e => hv (e ▸ hvis)
      refine .inr (.inl ⟨{ c with frontier := c.frontier.tail }, by simp [apply, hc], ?_, hv⟩)
      simpa [hfr, hne] using hf
    | item work =>
      obtain ⟨c', rest, hc', hfr, hvis, -⟩ := hen
      obtain rfl := some.inj (hc.symm.trans hc')
      by_cases hxw : x = work
      · subst hxw
        exact .inr (.inr ⟨_, rfl, hmv, rfl⟩)
      · refine .inr (.inl ⟨_, by simp [apply, hc]; rfl, ?_, ?_⟩)
        · refine mem_append_left _ ?_
          simpa [hfr, hxw] using hf
        · simp [hxw, hv]
    | finish =>
      obtain ⟨c', hc', hfr⟩ := hen
      obtain rfl := some.inj (hc.symm.trans hc')
      rw [hfr] at hf
      cases hf
  | abort =>
    obtain rfl := some.inj hs
    exact .inl ⟨c.row.hash, c.row.changedHashes, hb c hc, hseeded rfl c hc x hf hv,
      fun c hc => by cases hc⟩
  | enqueue now hash =>
    obtain rfl := some.inj hs
    exact .inr (.inl ⟨c, hc, hf, hv⟩)

theorem owed_of_callsFor (hs : s.step R budget batchSize a = some s')
    (hcall : s.CallsFor R budget batchSize a x) : s'.Stored R x ∨ s'.Waits x := by
  obtain ⟨rfl, ⟨row, hmv, hmem⟩ | ⟨work, c, hmv, hc, hmem, hv⟩⟩ := hcall
  · obtain ⟨mv, hmv', hen, rfl⟩ := step_tick R budget batchSize hs
    obtain rfl := some.inj (hmv.symm.trans hmv')
    refine .inl ⟨row.hash, _, Queue.persistHistoricalPrimary_stores hen.2.1 hen.2.2 _, hmem,
      fun c hc => ?_⟩
    simp [apply, hen.1] at hc
  · obtain ⟨mv, hmv', -, rfl⟩ := step_tick R budget batchSize hs
    obtain rfl := some.inj (hmv.symm.trans hmv')
    refine .inr ⟨_, by simp [apply, hc]; rfl, ?_, hv⟩
    exact mem_append_right _ (mem_filter.mpr ⟨hmem, by simpa using hv⟩)

/-- **An abort is harmless while all that waits depends on a seed.**  Any dependency graph, any
reconcile function, aborts anywhere in the primaries and the cascade, importers enqueueing in
between: from a state without a cascade in memory, let a tick change a parent that `x` depends on.
If every aborted cascade had only dependents of its row's seeds waiting, then by the time the queue
is empty the parent of `x` has been reconciled after that tick. -/
theorem aborted_drain_reconciles_dependents {s₀ s₁ : Drain σ Hash} {pre post : List (Act Hash)}
    (h₀ : s₀.cascade = none) (hpre : exec (step R budget batchSize) s₀ pre = some s)
    (hs : s.step R budget batchSize a = some s₁) (hcall : s.CallsFor R budget batchSize a x)
    (hpost : exec (step R budget batchSize) s₁ post = some s')
    (hseeded : Along (step R budget batchSize) (fun s a => s.AbortsSeeded R a) s₁ post)
    (hqueue : s'.queue.rows = []) (hcascade : s'.cascade = none) :
    Happens (step R budget batchSize)
      (fun _ s b => s.Reconciles R budget batchSize b (R.parent x)) s₁ post := by
  have hb : s.Backed :=
    exec_history (J := fun _ s => s.Backed) (fun c hc => by rw [h₀] at hc; cases hc)
      (fun _ _ _ _ _ hb _ hs => step_backed hs hb) hpre (along_of_forall _ fun _ _ _ => trivial)
  -- the debt is in the queue or in memory until a tick pays it
  have howed := exec_until
    (J := fun _ s => s.Backed ∧ (s.Stored R x ∨ s.Waits x))
    (D := fun _ s a => s.Reconciles R budget batchSize a (R.parent x))
    ⟨step_backed hs hb, owed_of_callsFor hs hcall⟩
    (fun _ s a s' _ hJ hG hs => by
      obtain ⟨hb, hst | hw⟩ := hJ
      · exact .inl ⟨step_backed hs hb, step_stored hs hst⟩
      · rcases step_waits hs hb hG hw with hst | hw | hdone
        · exact .inl ⟨step_backed hs hb, .inl hst⟩
        · exact .inl ⟨step_backed hs hb, .inr hw⟩
        · exact .inr hdone)
    hpost hseeded
  rcases howed with ⟨-, ⟨h, seeds, ⟨r, hr, -⟩, -⟩ | ⟨c, hc, -⟩⟩ | hdone
  · rw [hqueue] at hr
    cases hr
  · rw [hcascade] at hc
    cases hc
  · exact hdone

/-- Parents `0 → 1 → 2`, each of which changes the first time it is reconciled and never again;
the read model is the list of the parents reconciled so far. -/
def chain : Reconciler (List Nat) Nat where
  eventParent := id
  reconcile m p := if p ∈ m then (m, []) else (p :: m, [p])
  dependents
    | 0 => [.block 1]
    | 1 => [.block 2]
    | _ => []
  provenCanonical _ _ := false
  refreshRollups m _ := m

/-- Parent `0` is queued as a primary. -/
def chainQueued : Drain (List Nat) Nat :=
  ⟨[], ⟨[⟨0, true, [], 1, 0⟩], nodup_singleton _⟩, none⟩

theorem chain_idempotent : chain.Idempotent := by
  intro m p
  by_cases h : p ∈ m <;> simp [chain, h]

/-- Parent `1` has just been reconciled in the cascade of `0` and has changed. -/
def chainMid : Drain (List Nat) Nat :=
  { readModel := [1, 0]
    queue := ⟨[⟨0, false, [0], 2, 0⟩], nodup_singleton _⟩
    cascade := some ⟨⟨0, false, [0], 2, 0⟩, [.block 2], [.block 1], 1⟩ }

/-- An abort right after the cascade was opened: `1` waits because of the seed `0`, and the next
drain reconciles it. -/
theorem chain_abort_before_first_item :
    ∃ s₁ : Drain (List Nat) Nat, chainQueued.step chain 10 10 .tick = some s₁ ∧
      Happens (step chain 10 10) (fun _ s b => s.Reconciles chain 10 10 b 1) s₁
        [.tick, .abort, .tick, .tick, .tick, .tick] := by
  refine ⟨_, rfl, aborted_drain_reconciles_dependents (x := .block 1) rfl
    (show exec (step chain 10 10) chainQueued [] = some _ from rfl)
    (show chainQueued.step chain 10 10 .tick = some _ from rfl)
    ⟨rfl, .inl ⟨_, rfl, mem_singleton_self _⟩⟩ rfl ?_ rfl rfl⟩
  refine ⟨nofun, fun _ hopen => ?_⟩
  obtain rfl := some.inj hopen
  refine ⟨fun _ c hc x hx _ => ?_, fun _ habort => ?_⟩
  · obtain rfl := some.inj hc
    exact hx
  · obtain rfl := some.inj habort
    exact along_of_forall _ fun _ b hb ha => absurd hb (by simp [ha])

/-- **An abort strands a second-level dependent.**  The cascade of `0` has reconciled `1`, which
changed, so `2` waits in memory; an uninterrupted drain reconciles it next.  After an abort the
drain runs again until the queue is empty and never reconciles `2`. -/
theorem abort_strands_second_level_dependent :
    chain.Idempotent ∧ ∃ s done lost : Drain (List Nat) Nat,
      exec (step chain 10 10) chainQueued [.tick, .tick] = some s ∧
      s.CallsFor chain 10 10 .tick (.block 2) ∧ s.step chain 10 10 .tick = some chainMid ∧
      (exec (step chain 10 10) chainMid [.tick, .tick] = some done ∧ done.queue.rows = [] ∧
        done.cascade = none ∧ chainMid.Reconciles chain 10 10 .tick 2) ∧
      exec (step chain 10 10) chainMid [.abort, .tick, .tick, .tick] = some lost ∧
      lost.queue.rows = [] ∧ lost.cascade = none ∧
      ¬ Happens (step chain 10 10) (fun _ s b => s.Reconciles chain 10 10 b 2) chainMid
        [.abort, .tick, .tick, .tick] := by
  refine ⟨chain_idempotent, _, _, _, rfl, ⟨rfl, .inr ⟨.block 1, _, rfl, rfl, ?_, ?_⟩⟩, rfl,
    ⟨rfl, rfl, rfl, ⟨.item (.block 2), rfl, rfl, rfl⟩⟩, rfl, rfl, rfl, ?_⟩
  · exact mem_singleton_self _
  · decide
  · rintro ⟨mid, b, rest, sᵦ, hsplit, hexec, mv, rfl, hmv, hp⟩
    -- after the abort the loop reopens the cascade, reconciles `1` in vain and finishes
    rcases mid with _ | ⟨_, _ | ⟨_, _ | ⟨_, _ | ⟨_, mid⟩⟩⟩⟩
    · cases hsplit
    · cases hsplit
      obtain rfl := some.inj hexec
      obtain rfl := some.inj hmv
      exact hp
    · cases hsplit
      obtain rfl := some.inj hexec
      obtain rfl := some.inj hmv
      cases hp
    · cases hsplit
      obtain rfl := some.inj hexec
      obtain rfl := some.inj hmv
      exact hp
    · simp at hsplit

end MergeMiningMonitor.Historical.Drain
