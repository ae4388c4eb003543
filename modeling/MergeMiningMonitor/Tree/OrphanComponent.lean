import MergeMiningMonitor.Support.Forest
import MergeMiningMonitor.Navigator.Pages
import MergeMiningMonitor.ReadModel.Rows

/-!
# Tree — Orphan component

The blocks that are loaded for an anchor without a height (`load_orphan_component`): a breadth-first
search along the predecessor links, in both directions, over the unknown blocks of the requested
classes, which gives up at `ORPHAN_COMPONENT_CAP` members.

Every member is linked to the anchor through members (`Grown`), so the members have one root
(`Grown.exists_unique_root`), whether the cap was hit or not.  If it was not, the members are the
component of the anchor (`mem_loadOrphanComponent`).
-/

namespace MergeMiningMonitor.Tree

open Relational Forest List Option
open Navigator (ClassFilter)

variable {Hash : Type} [DecidableEq Hash]

/-- `BlockRow`, as the search and the placement read it. -/
structure OrphanBlock (Hash : Type) where
  hash : Hash
  prevHash : Hash
  kind : ParentKind
  powValidated : Bool
  btcOrphanClass : Option OrphanClass
  headerTime : ℤ
deriving DecidableEq

/-- The table `block`, by hash. -/
abbrev OrphanBlocks (Hash : Type) := Table fun b : OrphanBlock Hash => b.hash

/-- The condition of the search on the block alone. -/
def inClass (filter : ClassFilter) (b : OrphanBlock Hash) : Bool :=
  b.kind = .unknown && b.powValidated && filter.accepts b.btcOrphanClass

/-- One block is the predecessor of the other. -/
def Adjacent (b c : OrphanBlock Hash) : Prop := b.prevHash = c.hash ∨ b.hash = c.prevHash

/-- The query of the search.  It has no order, so the rows of each frontier come in any order. -/
structure ComponentQuery (blocks : OrphanBlocks Hash) (filter : ClassFilter) where
  rows : List (OrphanBlock Hash) → List (OrphanBlock Hash)
  mem_rows : ∀ frontier b, b ∈ rows frontier ↔ b ∈ blocks.rows ∧ inClass filter b = true ∧
    (b.prevHash ∈ frontier.map (·.hash) ∨ b.hash ∈ frontier.map (·.prevHash))

def orphanComponentCap : ℕ := 128

/-- What one round leaves: the members, the next frontier, and whether the cap was hit. -/
structure Round (Hash : Type) where
  members : List (OrphanBlock Hash)
  next : List (OrphanBlock Hash)
  capped : Bool

/-- The loop over the rows of one query. -/
def addCandidates : List (OrphanBlock Hash) → List (OrphanBlock Hash) → List (OrphanBlock Hash) → Round Hash
  | members, next, [] => ⟨members, next, false⟩
  | members, next, cand :: rest =>
    if cand.hash ∈ members.map (·.hash) then addCandidates members next rest
    else if orphanComponentCap ≤ members.length then ⟨members, next, true⟩
    else addCandidates (members ++ [cand]) (next ++ [cand]) rest

section Load

variable {blocks : OrphanBlocks Hash} {filter : ClassFilter} (query : ComponentQuery blocks filter)

/-- The loop over the frontiers. -/
def loadRounds : ℕ → List (OrphanBlock Hash) → List (OrphanBlock Hash) → List (OrphanBlock Hash) × Bool
  | 0, members, _ => (members, false)
  | _ + 1, members, [] => (members, false)
  | fuel + 1, members, b :: frontier =>
    let round := addCandidates members [] (query.rows (b :: frontier))
    if round.capped then (round.members, true) else loadRounds fuel round.members round.next

/-- `load_orphan_component`.  Every round but the last adds a member, so the cap bounds their number. -/
def loadOrphanComponent (anchor : OrphanBlock Hash) : List (OrphanBlock Hash) × Bool :=
  loadRounds query orphanComponentCap [anchor] [anchor]

end Load

/-- `parent_in_set`: the predecessors that are members. -/
def parentInSet (members : List (OrphanBlock Hash)) (hash : Hash) : Option Hash :=
  ((members.filter fun m => m.prevHash ∈ members.map (·.hash)).reverse.find?
    fun m => m.hash = hash).map (·.prevHash)

/-- The blocks of the search: those in the classes, and the anchor. -/
def eligible (blocks : OrphanBlocks Hash) (filter : ClassFilter) (anchor : OrphanBlock Hash) :
    List (OrphanBlock Hash) :=
  blocks.rows.filter fun b => inClass filter b || b.hash = anchor.hash

/-! ### Links between members -/

section Links

variable {members : List (OrphanBlock Hash)} (hdistinct : (members.map (·.hash)).Nodup)
include hdistinct

theorem parentInSet_eq_some {a b : Hash} :
    parentInSet members a = some b ↔ ∃ m ∈ members, m.hash = a ∧ m.prevHash = b ∧
      b ∈ members.map (·.hash) := by
  rw [parentInSet, map_eq_some_iff]
  constructor
  · rintro ⟨m, hm, rfl⟩
    obtain ⟨hmem, hprev⟩ := mem_filter.mp (mem_reverse.mp (mem_of_find?_eq_some hm))
    exact ⟨m, hmem, by simpa using find?_some hm, rfl, of_decide_eq_true hprev⟩
  · rintro ⟨m, hm, rfl, rfl, hprev⟩
    have hin : m ∈ (members.filter fun m => m.prevHash ∈ members.map (·.hash)).reverse :=
      mem_reverse.mpr (mem_filter.mpr ⟨hm, decide_eq_true hprev⟩)
    have hsome := find?_isSome (p := fun n : OrphanBlock Hash => decide (n.hash = m.hash)) |>.mpr
      ⟨m, hin, decide_eq_true rfl⟩
    obtain ⟨n, hn⟩ := isSome_iff_exists.mp hsome
    have hnmem := (mem_filter.mp (mem_reverse.mp (mem_of_find?_eq_some hn))).1
    have hhash : n.hash = m.hash := by simpa using find?_some hn
    exact ⟨n, hn, by rw [inj_on_of_nodup_map hdistinct hnmem hm hhash]⟩

theorem parentInSet_eq_none {m : OrphanBlock Hash} (hm : m ∈ members) :
    parentInSet members m.hash = none ↔ m.prevHash ∉ members.map (·.hash) := by
  constructor
  · intro hnone hprev
    have := (parentInSet_eq_some hdistinct).mpr ⟨m, hm, rfl, rfl, hprev⟩
    rw [hnone] at this
    cases this
  · intro hprev
    by_contra hsome
    obtain ⟨b, hb⟩ := ne_none_iff_exists'.mp hsome
    obtain ⟨n, hn, hhash, rfl, hin⟩ := (parentInSet_eq_some hdistinct).mp hb
    exact hprev (inj_on_of_nodup_map hdistinct hn hm hhash ▸ hin)

theorem parentInSet_members (a b : Hash) (h : parentInSet members a = some b) :
    a ∈ members.map (·.hash) ∧ b ∈ members.map (·.hash) := by
  obtain ⟨m, hm, rfl, -, hb⟩ := (parentInSet_eq_some hdistinct).mp h
  exact ⟨mem_map_of_mem hm, hb⟩

theorem parentInSet_mono {more : List (OrphanBlock Hash)} (hmore : (more.map (·.hash)).Nodup)
    (hsub : ∀ m ∈ members, m ∈ more) (a b : Hash) (h : parentInSet members a = some b) :
    parentInSet more a = some b := by
  obtain ⟨m, hm, rfl, rfl, hprev⟩ := (parentInSet_eq_some hdistinct).mp h
  obtain ⟨q, hq, hqhash⟩ := mem_map.mp hprev
  exact (parentInSet_eq_some hmore).mpr ⟨m, hsub m hm, rfl, rfl, mem_map.mpr ⟨q, hsub q hq, hqhash⟩⟩

theorem connected_of_adjacent {b c : OrphanBlock Hash} (hb : b ∈ members) (hc : c ∈ members)
    (h : Adjacent b c) : Connected (parentInSet members) c.hash b.hash := by
  rcases h with h | h
  · exact .symm _ _ (.rel _ _ ((parentInSet_eq_some hdistinct).mpr ⟨b, hb, rfl, h, mem_map_of_mem hc⟩))
  · exact .rel _ _ ((parentInSet_eq_some hdistinct).mpr ⟨c, hc, rfl, h.symm, mem_map_of_mem hb⟩)

end Links

/-! ### One round -/

/-- What a round adds. -/
structure RoundAdds (members cands : List (OrphanBlock Hash)) (round : Round Hash)
    (added : List (OrphanBlock Hash)) : Prop where
  appended : round.members = members ++ added
  from_cands : ∀ b ∈ added, b ∈ cands
  distinct : (members.map (·.hash)).Nodup → (round.members.map (·.hash)).Nodup
  bounded : members.length ≤ orphanComponentCap → round.members.length ≤ orphanComponentCap
  all : round.capped = false → ∀ b ∈ cands, b.hash ∈ round.members.map (·.hash)

theorem addCandidates_spec (members next cands : List (OrphanBlock Hash)) :
    ∃ added, (addCandidates members next cands).next = next ++ added ∧
      RoundAdds members cands (addCandidates members next cands) added := by
  induction cands generalizing members next with
  | nil =>
    exact ⟨[], (append_nil _).symm, (append_nil _).symm, fun _ h => absurd h not_mem_nil, id, id,
      fun _ _ h => absurd h not_mem_nil⟩
  | cons cand rest ih =>
    rw [addCandidates]
    split
    · next hold =>
        obtain ⟨added, hnext, h⟩ := ih members next
        refine ⟨added, hnext, h.appended, fun b hb => mem_cons_of_mem _ (h.from_cands b hb), h.distinct,
          h.bounded, fun hcapped b hb => ?_⟩
        rcases mem_cons.mp hb with rfl | hb
        · rw [h.appended, map_append]
          exact mem_append_left _ hold
        · exact h.all hcapped b hb
    · next hnew =>
        split
        · exact ⟨[], (append_nil _).symm, (append_nil _).symm, fun _ h => absurd h not_mem_nil, id,
            id, fun h => nomatch h⟩
        · next hroom =>
            obtain ⟨added, hnext, h⟩ := ih (members ++ [cand]) (next ++ [cand])
            refine ⟨cand :: added, by rw [hnext, append_assoc]; rfl, ?_, fun b hb => ?_,
              fun hdistinct => ?_, fun _ => ?_, fun hcapped b hb => ?_⟩
            · rw [h.appended, append_assoc]
              rfl
            · rcases mem_cons.mp hb with rfl | hb
              · exact mem_cons_self
              · exact mem_cons_of_mem _ (h.from_cands b hb)
            · refine h.distinct ?_
              rw [map_append]
              refine nodup_append.mpr ⟨hdistinct, nodup_singleton _, fun a ha b hb heq => ?_⟩
              obtain rfl : b = cand.hash := mem_singleton.mp hb
              exact hnew (heq ▸ ha)
            · refine h.bounded ?_
              rw [length_append, length_singleton]
              omega
            · rcases mem_cons.mp hb with rfl | hb
              · rw [h.appended]
                simp
              · exact h.all hcapped b hb

/-! ### The search -/

/-- The members so far: blocks of the search, each once, and each linked to the anchor through
members. -/
structure Grown (pool : List (OrphanBlock Hash)) (anchor : OrphanBlock Hash)
    (members : List (OrphanBlock Hash)) : Prop where
  from_pool : ∀ m ∈ members, m ∈ pool
  distinct : (members.map (·.hash)).Nodup
  anchor_mem : anchor ∈ members
  connected : ∀ m ∈ members, Connected (parentInSet members) anchor.hash m.hash

/-- All blocks next to the member are members. -/
def Surrounded (pool members : List (OrphanBlock Hash)) (m : OrphanBlock Hash) : Prop :=
  ∀ b ∈ pool, Adjacent b m → b.hash ∈ members.map (·.hash)

section Search

variable {blocks : OrphanBlocks Hash} {filter : ClassFilter} {anchor : OrphanBlock Hash}

theorem mem_eligible {b : OrphanBlock Hash} (hanchor : anchor ∈ blocks.rows) :
    b ∈ eligible blocks filter anchor ↔ b = anchor ∨ (b ∈ blocks.rows ∧ inClass filter b = true) := by
  rw [eligible, mem_filter, Bool.or_eq_true, decide_eq_true_eq]
  constructor
  · rintro ⟨hb, hclass | hhash⟩
    · exact .inr ⟨hb, hclass⟩
    · exact .inl (Table.eq_of_key_eq hb hanchor hhash)
  · rintro (rfl | ⟨hb, hclass⟩)
    · exact ⟨hanchor, .inr rfl⟩
    · exact ⟨hb, .inl hclass⟩

theorem nodup_eligible (blocks : OrphanBlocks Hash) (filter : ClassFilter) (anchor : OrphanBlock Hash) :
    ((eligible blocks filter anchor).map (·.hash)).Nodup :=
  Sublist.nodup (Sublist.map _ filter_sublist) blocks.keys_nodup

omit [DecidableEq Hash] in
theorem mem_query (query : ComponentQuery blocks filter) {frontier : List (OrphanBlock Hash)}
    {b : OrphanBlock Hash} :
    b ∈ query.rows frontier ↔ (b ∈ blocks.rows ∧ inClass filter b = true) ∧
      ∃ m ∈ frontier, Adjacent b m := by
  rw [query.mem_rows, and_assoc]
  refine and_congr_right fun _ => and_congr_right fun _ => ?_
  simp only [List.mem_map, Adjacent]
  constructor
  · rintro (⟨m, hm, h⟩ | ⟨m, hm, h⟩)
    · exact ⟨m, hm, .inl h.symm⟩
    · exact ⟨m, hm, .inr h.symm⟩
  · rintro ⟨m, hm, h | h⟩
    · exact .inl ⟨m, hm, h.symm⟩
    · exact .inr ⟨m, hm, h.symm⟩

variable (hanchor : anchor ∈ blocks.rows) (query : ComponentQuery blocks filter)
include hanchor

theorem Grown.addCandidates {members frontier added : List (OrphanBlock Hash)} {round : Round Hash}
    (h : Grown (eligible blocks filter anchor) anchor members) (hfrontier : ∀ b ∈ frontier, b ∈ members)
    (hadds : RoundAdds members (query.rows frontier) round added) :
    Grown (eligible blocks filter anchor) anchor round.members := by
  have hdistinct := hadds.distinct h.distinct
  have hold : ∀ m ∈ members, m ∈ round.members := fun m hm => hadds.appended ▸ mem_append_left _ hm
  have hconnected : ∀ m ∈ members, Connected (parentInSet round.members) anchor.hash m.hash := fun m hm =>
    (h.connected m hm).of_fewer (parentInSet_mono h.distinct hdistinct hold)
  refine ⟨fun m hm => ?_, hdistinct, hold _ h.anchor_mem, fun m hm => ?_⟩
  · rcases mem_append.mp (hadds.appended ▸ hm) with hm | hm
    · exact h.from_pool m hm
    · exact (mem_eligible hanchor).mpr (.inr ((mem_query query).mp (hadds.from_cands m hm)).1)
  · rcases mem_append.mp (hadds.appended ▸ hm) with hm' | hm'
    · exact hconnected m hm'
    · obtain ⟨-, q, hq, hadjacent⟩ := (mem_query query).mp (hadds.from_cands m hm')
      exact .trans _ _ _ (hconnected q (hfrontier q hq))
        (connected_of_adjacent hdistinct hm (hold q (hfrontier q hq)) hadjacent)

/-- **The search.**  Its members are linked, and all blocks next to them are members unless the cap was
hit. -/
theorem loadRounds_spec (fuel : ℕ) (members frontier : List (OrphanBlock Hash))
    (hgrown : Grown (eligible blocks filter anchor) anchor members)
    (hfrontier : ∀ b ∈ frontier, b ∈ members) (hcap : members.length ≤ orphanComponentCap)
    (hfuel : frontier ≠ [] → orphanComponentCap + 1 ≤ members.length + fuel)
    (hdone : ∀ m ∈ members, m ∈ frontier ∨ Surrounded (eligible blocks filter anchor) members m) :
    Grown (eligible blocks filter anchor) anchor (loadRounds query fuel members frontier).1 ∧
      ((loadRounds query fuel members frontier).2 = false →
        ∀ m ∈ (loadRounds query fuel members frontier).1,
          Surrounded (eligible blocks filter anchor) (loadRounds query fuel members frontier).1 m) := by
  induction fuel generalizing members frontier with
  | zero =>
    cases frontier with
    | nil => exact ⟨hgrown, fun _ m hm => (hdone m hm).resolve_left not_mem_nil⟩
    | cons b frontier => exact absurd (hfuel (cons_ne_nil _ _)) (by omega)
  | succ fuel ih =>
    cases frontier with
    | nil => exact ⟨hgrown, fun _ m hm => (hdone m hm).resolve_left not_mem_nil⟩
    | cons b frontier =>
      obtain ⟨added, hnext, hadds⟩ := addCandidates_spec members [] (query.rows (b :: frontier))
      have hgrown' := hgrown.addCandidates hanchor query hfrontier hadds
      rw [loadRounds]
      split
      · exact ⟨hgrown', fun h => nomatch h⟩
      · next hcapped =>
          rw [Bool.not_eq_true] at hcapped
          rw [nil_append] at hnext
          have hold : ∀ h ∈ members.map (·.hash),
              h ∈ (Tree.addCandidates members [] (query.rows (b :: frontier))).members.map (·.hash) := by
            intro h hh
            rw [hadds.appended, map_append]
            exact mem_append_left _ hh
          refine ih _ _ hgrown' (fun c hc => ?_) (hadds.bounded hcap) (fun hne => ?_) fun m hm => ?_
          · rw [hadds.appended]
            exact mem_append_right _ (hnext ▸ hc)
          · have := hfuel (cons_ne_nil _ _)
            have hpos := length_pos_iff.mpr (hnext ▸ hne)
            rw [hadds.appended, length_append]
            omega
          · rw [hnext]
            rw [hadds.appended] at hm
            rcases mem_append.mp hm with hm | hm
            · refine .inr ?_
              intro c hc hadjacent
              rcases hdone m hm with hin | hsurrounded
              · rcases (mem_eligible hanchor).mp hc with rfl | hrow
                · exact hold _ (mem_map_of_mem hgrown.anchor_mem)
                · exact hadds.all hcapped c ((mem_query query).mpr ⟨hrow, m, hin, hadjacent⟩)
              · exact hold _ (hsurrounded c hc hadjacent)
            · exact .inl hm

theorem loadOrphanComponent_spec :
    Grown (eligible blocks filter anchor) anchor (loadOrphanComponent query anchor).1 ∧
      ((loadOrphanComponent query anchor).2 = false → ∀ m ∈ (loadOrphanComponent query anchor).1,
        Surrounded (eligible blocks filter anchor) (loadOrphanComponent query anchor).1 m) := by
  have hstart : Grown (eligible blocks filter anchor) anchor [anchor] := by
    refine ⟨fun m hm => ?_, nodup_singleton _, mem_cons_self, fun m hm => ?_⟩
    · exact (mem_eligible hanchor).mpr (.inl (mem_singleton.mp hm))
    · rw [mem_singleton.mp hm]
      exact .refl _
  refine loadRounds_spec hanchor query _ _ _ hstart (fun b hb => hb) (show 1 ≤ 128 by decide)
    (fun _ => show 128 + 1 ≤ 1 + 128 by decide) fun m hm => ?_
  exact .inl hm

end Search

/-! ### The members -/

section Members

variable {pool : List (OrphanBlock Hash)} {anchor : OrphanBlock Hash} {members : List (OrphanBlock Hash)}
  (hgrown : Grown pool anchor members) (hdistinct : (pool.map (·.hash)).Nodup)
  (hacyclic : Acyclic (parentInSet pool))
include hgrown hdistinct hacyclic

theorem Grown.acyclic : Acyclic (parentInSet members) :=
  hacyclic.of_fewer (parentInSet_mono hgrown.distinct hdistinct hgrown.from_pool)

/-- **The members have one root**, and it is above every member. -/
theorem Grown.exists_unique_root : ∃ root ∈ members, root.prevHash ∉ members.map (·.hash) ∧
    (∀ m ∈ members, m.prevHash ∉ members.map (·.hash) → m = root) ∧
    ∀ m ∈ members, RootOf (parentInSet members) m.hash root.hash := by
  have hacyclic' := hgrown.acyclic hdistinct hacyclic
  have hmembers : ∀ a b, parentInSet members a = some b → b ∈ members.map (·.hash) := fun a b h =>
    (parentInSet_members hgrown.distinct a b h).2
  obtain ⟨r, hr⟩ := exists_rootOf hmembers hacyclic' anchor.hash
  have hrmem : r ∈ members.map (·.hash) := by
    obtain ⟨n, hn⟩ := hr.1
    cases n with
    | zero => exact some.inj hn ▸ mem_map_of_mem hgrown.anchor_mem
    | succ n =>
      have hlast : ancestor (parentInSet members) (n + 1) anchor.hash = _ := ancestor_add n 1 anchor.hash
      rw [hn] at hlast
      obtain ⟨c, -, hc⟩ := bind_eq_some_iff.mp hlast.symm
      obtain ⟨b, hb, hrb⟩ := bind_eq_some_iff.mp hc
      exact some.inj hrb ▸ hmembers c b hb
  obtain ⟨root, hroot, rfl⟩ := mem_map.mp hrmem
  have hall : ∀ m ∈ members, RootOf (parentInSet members) m.hash root.hash := by
    intro m hm
    obtain ⟨r', hr', hmr'⟩ := (connected_iff_rootOf hmembers hacyclic').mp (hgrown.connected m hm)
    exact hr.unique hr' ▸ hmr'
  refine ⟨root, hroot, (parentInSet_eq_none hgrown.distinct hroot).mp hr.2, fun m hm hprev => ?_, hall⟩
  have hnone := (parentInSet_eq_none hgrown.distinct hm).mpr hprev
  exact inj_on_of_nodup_map hgrown.distinct hm hroot ((RootOf.of_root hnone).unique (hall m hm))

omit hacyclic in
/-- **With no cap the members are the component.** -/
theorem Grown.mem_iff (hdone : ∀ m ∈ members, Surrounded pool members m) (hash : Hash) :
    hash ∈ members.map (·.hash) ↔ Connected (parentInSet pool) anchor.hash hash := by
  constructor
  · intro hmem
    obtain ⟨m, hm, rfl⟩ := mem_map.mp hmem
    exact (hgrown.connected m hm).of_fewer (parentInSet_mono hgrown.distinct hdistinct hgrown.from_pool)
  · intro hconnected
    refine (hconnected.iff (s := fun h => h ∈ members.map (·.hash)) fun a b hab => ?_).mp
      (mem_map_of_mem hgrown.anchor_mem)
    obtain ⟨c, hc, rfl, rfl, hprev⟩ := (parentInSet_eq_some hdistinct).mp hab
    obtain ⟨p, hp, hphash⟩ := mem_map.mp hprev
    constructor
    · intro hmem
      obtain ⟨m, hm, hhash⟩ := mem_map.mp hmem
      obtain rfl := inj_on_of_nodup_map hdistinct (hgrown.from_pool m hm) hc hhash
      exact hphash ▸ hdone m hm p hp (.inr hphash)
    · intro hmem
      obtain ⟨m, hm, hhash⟩ := mem_map.mp hmem
      exact hdone m hm c hc (.inl hhash.symm)

end Members

end MergeMiningMonitor.Tree
