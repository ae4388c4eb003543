import Mathlib.Data.List.Perm.Subperm
import MergeMiningMonitor.Relationship.Derivation

/-!
# Relationship — Signals

What `finish` lists, for pools of any type, as the block page and the stored summary share it.  Drafts
are listed once for each kind, source, namespace and value, and the one that stays is the first,
whatever pool the others name.  So a known pool is lost if every draft that names it comes after
another one of its key (`known_pool_shadowed`).  `never_shadowed_iff` says when no order of the drafts
can lose one: every known pool is the miner's, or the one that all drafts of some key name.
-/

namespace MergeMiningMonitor.Relationship

open List

variable {P : Type}

/-! ### The pools that are listed -/

section Pools

variable {signalPool : SignalPool P}

/-- The pools so far are known and distinct. -/
structure Listed (signalPool : SignalPool P) (pools : List P) : Prop where
  known : ∀ pool ∈ pools, (signalPool.poolId pool).isSome
  distinct : (pools.map signalPool.poolId).Nodup

theorem Listed.addPool {pools : List P} (h : Listed signalPool pools) (pool : P) :
    Listed signalPool (addPool signalPool pools pool) ∧ ∀ id,
      some id ∈ (Relationship.addPool signalPool pools pool).map signalPool.poolId ↔
        some id ∈ pools.map signalPool.poolId ∨ signalPool.poolId pool = some id := by
  rw [Relationship.addPool]
  cases hid : signalPool.poolId pool with
  | none => exact ⟨h, fun id => by simp⟩
  | some found =>
    dsimp only
    split
    · next hseen =>
        obtain ⟨seen, hseen, heq⟩ := any_eq_true.mp hseen
        have hmem : some found ∈ pools.map signalPool.poolId :=
          mem_map.mpr ⟨seen, hseen, of_decide_eq_true heq⟩
        refine ⟨h, fun id => ⟨.inl, ?_⟩⟩
        rintro (hin | heq)
        · exact hin
        · exact heq ▸ hmem
    · next hnew =>
        have hnot : some found ∉ pools.map signalPool.poolId := by
          intro hin
          obtain ⟨seen, hseen, heq⟩ := mem_map.mp hin
          exact hnew (any_eq_true.mpr ⟨seen, hseen, decide_eq_true heq⟩)
        refine ⟨⟨fun q hq => ?_, ?_⟩, fun id => ?_⟩
        · rcases mem_append.mp hq with hq | hq
          · exact h.known q hq
          · rw [mem_singleton.mp hq, hid]
            rfl
        · rw [map_append, map_singleton, hid]
          refine nodup_append.mpr ⟨h.distinct, nodup_singleton _, fun a ha b hb heq => ?_⟩
          exact hnot (mem_singleton.mp hb ▸ heq ▸ ha)
        · rw [map_append, map_singleton, hid, mem_append, mem_singleton, eq_comm]

theorem listed_foldl (added pools : List P) (h : Listed signalPool pools) :
    Listed signalPool (added.foldl (Relationship.addPool signalPool) pools) ∧ ∀ id,
      some id ∈ (added.foldl (Relationship.addPool signalPool) pools).map signalPool.poolId ↔
        some id ∈ pools.map signalPool.poolId ∨ ∃ pool ∈ added, signalPool.poolId pool = some id := by
  induction added generalizing pools with
  | nil => exact ⟨h, fun id => by simp⟩
  | cons pool added ih =>
    obtain ⟨hlisted, hmem⟩ := h.addPool pool
    obtain ⟨hdone, hdoneMem⟩ := ih _ hlisted
    refine ⟨hdone, fun id => ?_⟩
    rw [foldl_cons, hdoneMem, hmem, or_assoc, exists_mem_cons_iff]

theorem Listed.two_iff {pools : List P} (h : Listed signalPool pools) :
    1 < pools.length ↔ ∃ a b, a ≠ b ∧ some a ∈ pools.map signalPool.poolId ∧
      some b ∈ pools.map signalPool.poolId := by
  constructor
  · intro hlength
    match pools, h with
    | p :: q :: rest, h =>
      obtain ⟨a, ha⟩ := Option.isSome_iff_exists.mp (h.known p mem_cons_self)
      obtain ⟨b, hb⟩ := Option.isSome_iff_exists.mp (h.known q (mem_cons_of_mem _ mem_cons_self))
      refine ⟨a, b, ?_, by simp [ha], by simp [hb]⟩
      rintro rfl
      have := (nodup_cons.mp h.distinct).1
      exact this (by simp [ha, hb])
  · rintro ⟨a, b, hne, ha, hb⟩
    have hpair : [some a, some b].Nodup := by simpa using hne
    have hsub : [some a, some b] ⊆ pools.map signalPool.poolId := by simp [ha, hb]
    have := (hpair.subperm hsub).length_le
    rw [length_map] at this
    exact this

end Pools

/-! ### The drafts that are kept -/

/-- The draft comes before all others of its key. -/
def IsFirst (drafts : List (SignalDraft P)) (d : SignalDraft P) : Prop :=
  ∃ before after, drafts = before ++ d :: after ∧ d.key ∉ before.map SignalDraft.key

variable {drafts : List (SignalDraft P)} {d : SignalDraft P}

theorem mem_firstOfKey {seen : List SignalKey} :
    d ∈ firstOfKey seen drafts ↔ d.key ∉ seen ∧ IsFirst drafts d := by
  induction drafts generalizing seen with
  | nil =>
    rw [firstOfKey]
    constructor
    · exact fun h => absurd h not_mem_nil
    · rintro ⟨-, before, after, heq, -⟩
      exact absurd heq (by simp)
  | cons e drafts ih =>
    have hcons : IsFirst (e :: drafts) d ↔ d = e ∨ (d.key ≠ e.key ∧ IsFirst drafts d) := by
      constructor
      · rintro ⟨before, after, heq, hkey⟩
        cases before with
        | nil => exact .inl (List.cons.inj heq).1.symm
        | cons b before =>
          obtain ⟨rfl, rfl⟩ := List.cons.inj heq
          rw [map_cons, mem_cons, not_or] at hkey
          exact .inr ⟨hkey.1, before, after, rfl, hkey.2⟩
      · rintro (rfl | ⟨hne, before, after, rfl, hkey⟩)
        · exact ⟨[], drafts, rfl, not_mem_nil⟩
        · refine ⟨e :: before, after, rfl, ?_⟩
          rw [map_cons, mem_cons, not_or]
          exact ⟨hne, hkey⟩
    rw [firstOfKey, hcons]
    split
    · next hseen =>
        rw [ih]
        refine and_congr_right fun hd => ⟨fun h => .inr ⟨fun heq => hd (heq ▸ hseen), h⟩, ?_⟩
        rintro (rfl | ⟨-, h⟩)
        · exact absurd hseen hd
        · exact h
    · next hseen =>
        rw [mem_cons, ih, mem_cons, not_or]
        constructor
        · rintro (rfl | ⟨⟨hne, hd⟩, h⟩)
          · exact ⟨hseen, .inl rfl⟩
          · exact ⟨hd, .inr ⟨hne, h⟩⟩
        · rintro ⟨hd, rfl | ⟨hne, h⟩⟩
          · exact .inl rfl
          · exact .inr ⟨⟨hne, hd⟩, h⟩

theorem exists_isFirst (hd : d ∈ drafts) : ∃ e ∈ drafts, e.key = d.key ∧ IsFirst drafts e := by
  induction drafts with
  | nil => exact absurd hd not_mem_nil
  | cons f drafts ih =>
    by_cases hkey : f.key = d.key
    · exact ⟨f, mem_cons_self, hkey, [], drafts, rfl, not_mem_nil⟩
    · rcases mem_cons.mp hd with rfl | hd
      · exact absurd rfl hkey
      · obtain ⟨e, he, hekey, before, after, heq, hnew⟩ := ih hd
        refine ⟨e, mem_cons_of_mem _ he, hekey, f :: before, after, by rw [heq]; rfl, ?_⟩
        rw [map_cons, mem_cons, not_or]
        exact ⟨fun h => hkey (h.symm.trans hekey), hnew⟩

/-! ### When no known pool is shadowed -/

section Shadow

variable (signalPool : SignalPool P) (poolsBySlug : String → Option P) (bitcoinMinerPool : P)

/-- The id of a draft's pool. -/
def SignalDraft.poolId (d : SignalDraft P) : Option ℤ :=
  signalPool.poolId (d.resolvedPool signalPool poolsBySlug)

/-- The known pool is named by the miner or by a draft. -/
def Named (drafts : List (SignalDraft P)) (id : ℤ) : Prop :=
  signalPool.poolId bitcoinMinerPool = some id ∨ ∃ d ∈ drafts, d.poolId signalPool poolsBySlug = some id

/-- The ids of the pools that are listed. -/
def listedIds (drafts : List (SignalDraft P)) : List (Option ℤ) :=
  (finish signalPool poolsBySlug bitcoinMinerPool drafts).pools.map signalPool.poolId

/-- **No known pool is shadowed**: the pools are the distinct known pools that are named, two of them
make the summary mixed, and another order of the drafts gives the same. -/
structure NeverShadowed (drafts : List (SignalDraft P)) : Prop where
  known : ∀ pool ∈ (finish signalPool poolsBySlug bitcoinMinerPool drafts).pools,
    (signalPool.poolId pool).isSome
  distinct : (listedIds signalPool poolsBySlug bitcoinMinerPool drafts).Nodup
  listed : ∀ id, some id ∈ listedIds signalPool poolsBySlug bitcoinMinerPool drafts ↔
    Named signalPool poolsBySlug bitcoinMinerPool drafts id
  mixed : (finish signalPool poolsBySlug bitcoinMinerPool drafts).mixed = true ↔
    ∃ a b, a ≠ b ∧ Named signalPool poolsBySlug bitcoinMinerPool drafts a ∧
      Named signalPool poolsBySlug bitcoinMinerPool drafts b
  order : ∀ drafts' : List (SignalDraft P), drafts'.Perm drafts →
    (∀ id, some id ∈ listedIds signalPool poolsBySlug bitcoinMinerPool drafts' ↔
      some id ∈ listedIds signalPool poolsBySlug bitcoinMinerPool drafts) ∧
    (finish signalPool poolsBySlug bitcoinMinerPool drafts').mixed =
      (finish signalPool poolsBySlug bitcoinMinerPool drafts).mixed

/-- Every known pool of a draft is the miner's, or the one that all drafts of some key name. -/
def Unambiguous (drafts : List (SignalDraft P)) : Prop :=
  ∀ d ∈ drafts, ∀ id, d.poolId signalPool poolsBySlug = some id →
    signalPool.poolId bitcoinMinerPool = some id ∨
    ∃ e ∈ drafts, ∀ f ∈ drafts, f.key = e.key → f.poolId signalPool poolsBySlug = some id

variable {signalPool poolsBySlug bitcoinMinerPool}

theorem listed_finish (drafts : List (SignalDraft P)) :
    Listed signalPool (finish signalPool poolsBySlug bitcoinMinerPool drafts).pools :=
  (listed_foldl _ [] ⟨fun _ h => absurd h not_mem_nil, nodup_nil⟩).1

theorem mem_listedIds {id : ℤ} :
    some id ∈ listedIds signalPool poolsBySlug bitcoinMinerPool drafts ↔
      signalPool.poolId bitcoinMinerPool = some id ∨
        ∃ d, IsFirst drafts d ∧ d.poolId signalPool poolsBySlug = some id := by
  rw [listedIds, finish,
    (listed_foldl _ [] ⟨fun _ h => absurd h not_mem_nil, nodup_nil⟩).2]
  simp only [map_nil, not_mem_nil, false_or, exists_mem_cons_iff, map_map, mem_map]
  refine or_congr_right ⟨?_, ?_⟩
  · rintro ⟨pool, ⟨d, hd, rfl⟩, hid⟩
    exact ⟨d, (mem_firstOfKey.mp hd).2, hid⟩
  · rintro ⟨d, hd, hid⟩
    exact ⟨_, ⟨d, mem_firstOfKey.mpr ⟨not_mem_nil, hd⟩, rfl⟩, hid⟩

theorem IsFirst.mem (h : IsFirst drafts d) : d ∈ drafts := by
  obtain ⟨before, after, rfl, -⟩ := h
  exact mem_append_right _ mem_cons_self

theorem mixed_iff : (finish signalPool poolsBySlug bitcoinMinerPool drafts).mixed = true ↔
      ∃ a b, a ≠ b ∧ some a ∈ listedIds signalPool poolsBySlug bitcoinMinerPool drafts ∧
        some b ∈ listedIds signalPool poolsBySlug bitcoinMinerPool drafts := by
  rw [listedIds, ← (listed_finish drafts).two_iff]
  exact decide_eq_true_iff

theorem Named.perm {drafts' : List (SignalDraft P)} (h : drafts'.Perm drafts) (id : ℤ) :
    Named signalPool poolsBySlug bitcoinMinerPool drafts' id ↔
      Named signalPool poolsBySlug bitcoinMinerPool drafts id := by
  simp only [Named, h.mem_iff]

theorem Unambiguous.perm {drafts' : List (SignalDraft P)} (h : drafts'.Perm drafts)
    (hone : Unambiguous signalPool poolsBySlug bitcoinMinerPool drafts) :
    Unambiguous signalPool poolsBySlug bitcoinMinerPool drafts' := by
  simpa only [Unambiguous, h.mem_iff] using hone

theorem Unambiguous.listed
    (hone : Unambiguous signalPool poolsBySlug bitcoinMinerPool drafts) (id : ℤ) :
    some id ∈ listedIds signalPool poolsBySlug bitcoinMinerPool drafts ↔
      Named signalPool poolsBySlug bitcoinMinerPool drafts id := by
  rw [mem_listedIds]
  constructor
  · rintro (hminer | ⟨d, hd, hid⟩)
    · exact .inl hminer
    · exact .inr ⟨d, hd.mem, hid⟩
  · rintro (hminer | ⟨d, hd, hid⟩)
    · exact .inl hminer
    · rcases hone d hd id hid with hminer | ⟨e, he, hall⟩
      · exact .inl hminer
      · obtain ⟨f, hf, hkey, hfirst⟩ := exists_isFirst he
        exact .inr ⟨f, hfirst, hall f hf hkey⟩

/-- If every key has a draft that does not name the pool, these can come first. -/
theorem not_listed_of_last {id : ℤ} (hminer : signalPool.poolId bitcoinMinerPool ≠ some id)
    (hall : ∀ e ∈ drafts, ∃ f ∈ drafts, f.key = e.key ∧ f.poolId signalPool poolsBySlug ≠ some id) :
    some id ∉ listedIds signalPool poolsBySlug bitcoinMinerPool
      (drafts.filter (fun d => d.poolId signalPool poolsBySlug ≠ some id) ++
        drafts.filter fun d => d.poolId signalPool poolsBySlug = some id) := by
  rw [mem_listedIds]
  rintro (h | ⟨d, ⟨before, after, heq, hkey⟩, hid⟩)
  · exact hminer h
  · have hd : d ∈ drafts := by
      have hmem : d ∈ before ++ d :: after := mem_append_right _ mem_cons_self
      rw [← heq] at hmem
      rcases mem_append.mp hmem with hmem | hmem <;> exact (mem_filter.mp hmem).1
    obtain ⟨f, hf, hfkey, hfid⟩ := hall d hd
    have hffirst : f ∈ drafts.filter (fun d => d.poolId signalPool poolsBySlug ≠ some id) :=
      mem_filter.mpr ⟨hf, decide_eq_true hfid⟩
    -- `d` is in the second part, so all of the first part comes before it
    rcases append_eq_append_iff.mp heq with ⟨more, hbefore, -⟩ | ⟨more, hfirst, hrest⟩
    · exact hkey (mem_map.mpr ⟨f, hbefore ▸ mem_append_left _ hffirst, hfkey⟩)
    · cases more with
      | nil =>
        rw [append_nil] at hfirst
        exact hkey (mem_map.mpr ⟨f, hfirst ▸ hffirst, hfkey⟩)
      | cons c more =>
        obtain ⟨rfl, -⟩ := List.cons.inj hrest
        have hin : d ∈ drafts.filter (fun d => d.poolId signalPool poolsBySlug ≠ some id) :=
          hfirst ▸ mem_append_right _ mem_cons_self
        exact of_decide_eq_true (mem_filter.mp hin).2 hid

/-- **When a known pool is never shadowed.** -/
theorem never_shadowed_iff (drafts : List (SignalDraft P)) :
    NeverShadowed signalPool poolsBySlug bitcoinMinerPool drafts ↔
      Unambiguous signalPool poolsBySlug bitcoinMinerPool drafts := by
  constructor
  · intro h d hd id hid
    by_contra hnot
    rw [not_or] at hnot
    have hall : ∀ e ∈ drafts, ∃ f ∈ drafts, f.key = e.key ∧ f.poolId signalPool poolsBySlug ≠ some id := by
      intro e he
      by_contra hnone
      exact hnot.2 ⟨e, he, fun f hf hkey => by_contra fun hne => hnone ⟨f, hf, hkey, hne⟩⟩
    have hperm : (drafts.filter (fun d => d.poolId signalPool poolsBySlug ≠ some id) ++
        drafts.filter fun d => d.poolId signalPool poolsBySlug = some id).Perm drafts := by
      have := filter_append_perm
        (fun d : SignalDraft P => decide (d.poolId signalPool poolsBySlug = some id)) drafts
      refine (perm_append_comm.trans (Perm.of_eq ?_)).trans this
      congr 1
      exact filter_congr fun d _ => by simp
    refine not_listed_of_last hnot.1 hall ?_
    rw [(h.order _ hperm).1, h.listed]
    exact .inr ⟨d, hd, hid⟩
  · intro hone
    refine ⟨(listed_finish drafts).known, (listed_finish drafts).distinct, hone.listed, ?_,
      fun drafts' hperm => ?_⟩
    · simp only [mixed_iff, hone.listed]
    · have hsame : ∀ id, some id ∈ listedIds signalPool poolsBySlug bitcoinMinerPool drafts' ↔
          some id ∈ listedIds signalPool poolsBySlug bitcoinMinerPool drafts := by
        intro id
        rw [(hone.perm hperm).listed, hone.listed, Named.perm hperm]
      refine ⟨hsame, ?_⟩
      rw [Bool.eq_iff_iff, mixed_iff, mixed_iff]
      simp only [hsame]

end Shadow

namespace Sample

/-- An address without a pool, and then the same address with one. -/
def shadowing : List StoredDraft :=
  [.child "rsk" "rsk_address" "a" none, .child "rsk" "rsk_address" "a" (some 2)]

end Sample

/-- The miner's pool is 1, and a draft names pool 2, but only the miner's pool is listed.  In the other
order both are. -/
theorem known_pool_shadowed :
    Named storedPool (fun _ => none) (some 1) Sample.shadowing 1 ∧
      Named storedPool (fun _ => none) (some 1) Sample.shadowing 2 ∧
      listedIds storedPool (fun _ => none) (some 1) Sample.shadowing = [some 1] ∧
      (finish storedPool (fun _ => none) (some 1) Sample.shadowing).mixed = false ∧
      listedIds storedPool (fun _ => none) (some 1) Sample.shadowing.reverse = [some 1, some 2] ∧
      (finish storedPool (fun _ => none) (some 1) Sample.shadowing.reverse).mixed = true := by
  refine ⟨.inl rfl, .inr ⟨_, mem_cons_of_mem _ mem_cons_self, rfl⟩, ?_⟩
  decide

end MergeMiningMonitor.Relationship
