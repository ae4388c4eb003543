import MergeMiningMonitor.Backbone.Repair

/-!
# Backbone — Prefix

The contiguous cursor of the backbone sync.  It is meant to describe a prefix of heights that each
have a single complete canonical row, hash-linked to the one below (`SoundPrefix`).  Two writers
move it.  `advance_contiguous_complete_prefix` walks upwards row by row; a suffix replacement jumps
over the heights it replaced.

The walk ends at the greatest sound height (`advanceLoop_spec`), and a committed replacement whose
ancestor is in the prefix leaves a sound prefix up to its target (`Commit.soundPrefix`).  Both
together are `cursor_describes_prefix`.
-/

namespace MergeMiningMonitor

open Relational Fallible Consecutive ReadModel List Option

variable {Hash : Type} [LinearOrder Hash]

namespace ReadModel

/-- Height `n` has a single canonical row; it is complete, and linked to the row below. -/
def SoundAt (m : ReadModel Hash) (n : Int) : Prop :=
  ∃ b, m.CanonicalAt n b ∧ (∀ b', m.CanonicalAt n b' → b' = b) ∧ b.coinbaseStatus = .complete ∧
    (n ≠ 0 → ∀ b', m.CanonicalAt (n - 1) b' → b.prevHash = b'.hash)

/-- The heights from `0` to `h` are a linked chain of complete canonical rows. -/
def SoundPrefix (m : ReadModel Hash) (h : Int) : Prop :=
  ∀ n, 0 ≤ n → n ≤ h → m.SoundAt n

end ReadModel

/-- One canonical row at a height. -/
structure CanonicalHeightRow (Hash : Type) where
  hash : Hash
  prevHash : Hash
  coinbaseStatus : CoreCoinbaseStatus

variable (m : ReadModel Hash)

def loadCanonicalRowsAtHeight (height : Int) : List (CanonicalHeightRow Hash) :=
  (m.canonicalBetween height height).map fun r => ⟨r.2.hash, r.2.prevHash, r.2.coinbaseStatus⟩

/-- The row after the prefix up to `height`, if it extends the prefix: one iteration of the loop of
`advance_contiguous_complete_prefix`. -/
def nextInPrefix (nextHeight : Int) (anchorHash : Option Hash) : Option Hash :=
  match loadCanonicalRowsAtHeight m nextHeight with
  | [row] =>
    if row.coinbaseStatus ≠ .complete then none
    else if nextHeight ≠ 0 ∧ anchorHash ≠ some row.prevHash then none
    else some row.hash
  | _ => none

/-- The loop of `advance_contiguous_complete_prefix`.  The number is how often `newHeight` can be
incremented without an overflow. -/
def advanceLoop : Nat → Int → Option Hash → Int
  | 0, newHeight, _ => newHeight
  | n + 1, newHeight, anchorHash =>
    match nextInPrefix m (newHeight + 1) anchorHash with
    | some hash => advanceLoop n (newHeight + 1) (some hash)
    | none => newHeight

/-- The height at which `advance_contiguous_complete_prefix` ends. -/
def advancedHeight (contiguousCompleteHeight : Int) : Int :=
  let loop := advanceLoop m (2147483647 - contiguousCompleteHeight).toNat contiguousCompleteHeight
  if 0 ≤ contiguousCompleteHeight then
    match loadCanonicalRowsAtHeight m contiguousCompleteHeight with
    | [row] =>
      if row.coinbaseStatus ≠ .complete then contiguousCompleteHeight else loop (some row.hash)
    | _ => contiguousCompleteHeight
  else loop none

/-- `advance_contiguous_complete_prefix`, on the cursor in memory and the row of the database, which
keeps the greater cursor. -/
def advanceContiguousCompletePrefix (db : Db Hash) (contiguousCompleteHeight : Int) :
    Db Hash × Int :=
  let newHeight := advancedHeight db.readModel contiguousCompleteHeight
  if contiguousCompleteHeight < newHeight then
    ({ db with syncState := db.syncState.map fun row =>
        { row with contiguousCompleteHeight := max row.contiguousCompleteHeight newHeight } },
      newHeight)
  else (db, contiguousCompleteHeight)

/-! ### The rows at one height -/

variable {m} {n : Int} {anchorHash : Option Hash}

/-- A height has a single loaded row exactly when it has a single canonical block. -/
theorem loadCanonicalRowsAtHeight_eq_singleton {row : CanonicalHeightRow Hash} :
    loadCanonicalRowsAtHeight m n = [row] ↔ ∃ b, m.CanonicalAt n b ∧
      (∀ b', m.CanonicalAt n b' → b' = b) ∧ row = ⟨b.hash, b.prevHash, b.coinbaseStatus⟩ := by
  have hmem : ∀ r, r ∈ m.canonicalBetween n n ↔ r.1 = n ∧ m.CanonicalAt n r.2 := by
    rintro ⟨k, b⟩
    rw [mem_canonicalBetween]
    constructor
    · rintro ⟨hb, hlo, hhi⟩
      obtain rfl : k = n := le_antisymm hhi hlo
      exact ⟨rfl, hb⟩
    · rintro ⟨rfl, hb⟩
      exact ⟨hb, le_rfl, le_rfl⟩
  constructor
  · intro h
    obtain ⟨r, hr, rfl⟩ := map_eq_singleton_iff.mp h
    obtain ⟨-, hb⟩ := (hmem r).mp (by simp [hr])
    refine ⟨r.2, hb, fun b' hb' => ?_, rfl⟩
    have hmem' : ((n, b') : Int × Block Hash) ∈ m.canonicalBetween n n := (hmem _).mpr ⟨rfl, hb'⟩
    rw [hr, mem_singleton] at hmem'
    rw [← hmem']
  · rintro ⟨b, hb, hunique, rfl⟩
    refine map_eq_singleton_iff.mpr ⟨(n, b), ?_, rfl⟩
    refine perm_singleton.mp ((perm_ext_iff_of_nodup (m.nodup_canonicalBetween n n)
      (nodup_singleton _)).mpr fun r => ?_)
    rw [hmem, mem_singleton]
    constructor
    · rintro ⟨hr, hb'⟩
      exact Prod.ext hr (hunique _ hb')
    · rintro rfl
      exact ⟨rfl, hb⟩

theorem nextInPrefix_eq_some {k : Hash} :
    nextInPrefix m n anchorHash = some k ↔ ∃ b, m.CanonicalAt n b ∧
      (∀ b', m.CanonicalAt n b' → b' = b) ∧ b.coinbaseStatus = .complete ∧
      (n ≠ 0 → anchorHash = some b.prevHash) ∧ b.hash = k := by
  constructor
  · intro h
    rw [nextInPrefix] at h
    split at h
    · next row hrows =>
        obtain ⟨b, hb, hunique, rfl⟩ := loadCanonicalRowsAtHeight_eq_singleton.mp hrows
        split_ifs at h with hcomplete hlinked
        exact ⟨b, hb, hunique, not_not.mp hcomplete,
          fun hn => by_contra fun hne => hlinked ⟨hn, hne⟩, some.inj h⟩
    · cases h
  · rintro ⟨b, hb, hunique, hcomplete, hlinked, rfl⟩
    rw [nextInPrefix, loadCanonicalRowsAtHeight_eq_singleton.mpr ⟨b, hb, hunique, rfl⟩]
    simp only
    rw [if_neg (not_not.mpr hcomplete), if_neg fun h => h.2 (hlinked h.1)]

/-! ### The walk -/

/-- The walk has come to `n`, and `anchorHash` is the hash of the row there. -/
def AnchoredAt (m : ReadModel Hash) (n : Int) (anchorHash : Option Hash) : Prop :=
  0 ≤ n → ∃ b, m.CanonicalAt n b ∧ anchorHash = some b.hash

theorem ReadModel.SoundPrefix.succ (h : m.SoundPrefix n)
    (h' : m.SoundAt (n + 1)) : m.SoundPrefix (n + 1) := by
  intro k hk hk'
  rcases hk'.eq_or_lt with rfl | hlt
  · exact h'
  · exact h k hk (by omega)

theorem nextInPrefix_isSome
    (hn : -1 ≤ n) (hsound : m.SoundPrefix n) (hanchor : AnchoredAt m n anchorHash) :
    (∃ k, nextInPrefix m (n + 1) anchorHash = some k) ↔ m.SoundAt (n + 1) := by
  constructor
  · rintro ⟨k, h⟩
    obtain ⟨b, hb, hunique, hcomplete, hlinked, -⟩ := nextInPrefix_eq_some.mp h
    refine ⟨b, hb, hunique, hcomplete, fun hne b' hb' => ?_⟩
    rw [add_sub_cancel_right] at hb'
    obtain ⟨b₀, hb₀, rfl⟩ := hanchor (by omega)
    obtain ⟨b₁, -, hunique₁, -⟩ := hsound n (by omega) le_rfl
    rw [hunique₁ b' hb', ← hunique₁ b₀ hb₀]
    exact (some.inj (hlinked hne)).symm
  · rintro ⟨b, hb, hunique, hcomplete, hlinked⟩
    refine ⟨b.hash, nextInPrefix_eq_some.mpr ⟨b, hb, hunique, hcomplete, fun hne => ?_, rfl⟩⟩
    obtain ⟨b₀, hb₀, rfl⟩ := hanchor (by omega)
    rw [hlinked hne b₀ (by rwa [add_sub_cancel_right])]

theorem le_advanceLoop (m : ReadModel Hash) (fuel : Nat) (n : Int) (anchorHash : Option Hash) :
    n ≤ advanceLoop m fuel n anchorHash := by
  induction fuel generalizing n anchorHash with
  | zero => exact le_rfl
  | succ fuel ih =>
    rw [advanceLoop]
    split
    · exact (by omega : n ≤ n + 1).trans (ih _ _)
    · exact le_rfl

theorem advanceLoop_spec {fuel : Nat}
    (hn : -1 ≤ n) (hfuel : n + fuel = 2147483647) (hsound : m.SoundPrefix n)
    (hanchor : AnchoredAt m n anchorHash) :
    m.SoundPrefix (advanceLoop m fuel n anchorHash) ∧
      advanceLoop m fuel n anchorHash ≤ 2147483647 ∧
      ∀ k ≤ 2147483647, m.SoundPrefix k → k ≤ advanceLoop m fuel n anchorHash := by
  induction fuel generalizing n anchorHash with
  | zero => exact ⟨hsound, by simp [advanceLoop]; omega, fun k hk _ => by simp [advanceLoop]; omega⟩
  | succ fuel ih =>
    have hnext := nextInPrefix_isSome hn hsound hanchor
    rw [advanceLoop]
    split
    · next k hk =>
        obtain ⟨b, hb, -, -, -, rfl⟩ := nextInPrefix_eq_some.mp hk
        exact ih (by omega) (by push_cast at hfuel; omega) (hsound.succ (hnext.mp ⟨_, hk⟩))
          fun _ => ⟨b, hb, rfl⟩
    · next hnone =>
        refine ⟨hsound, by omega, fun k hk hk' => ?_⟩
        by_contra hlt
        obtain ⟨k', hk'⟩ := hnext.mpr (hk' (n + 1) (by omega) (by omega))
        rw [hnone] at hk'
        cases hk'

theorem le_advancedHeight (m : ReadModel Hash) (n : Int) : n ≤ advancedHeight m n := by
  rw [advancedHeight]
  split
  · split
    · split
      · exact le_rfl
      · exact le_advanceLoop _ _ _ _
    · exact le_rfl
  · exact le_advanceLoop _ _ _ _

theorem advancedHeight_spec (hn : -1 ≤ n) (hn' : n ≤ 2147483647) (hsound : m.SoundPrefix n) :
    m.SoundPrefix (advancedHeight m n) ∧ advancedHeight m n ≤ 2147483647 ∧
      ∀ k ≤ 2147483647, m.SoundPrefix k → k ≤ advancedHeight m n := by
  have hfuel : n + ((2147483647 - n).toNat : Int) = 2147483647 := by omega
  rcases lt_or_ge n 0 with hneg | hpos
  · rw [advancedHeight, if_neg (by omega)]
    exact advanceLoop_spec hn hfuel hsound fun h => absurd h (by omega)
  · obtain ⟨b, hb, hunique, hcomplete, -⟩ := hsound n hpos le_rfl
    have hloop := advanceLoop_spec hn hfuel hsound fun _ => ⟨b, hb, rfl⟩
    rw [advancedHeight, if_pos hpos, loadCanonicalRowsAtHeight_eq_singleton.mpr ⟨b, hb, hunique, rfl⟩]
    simpa only [hcomplete, ne_eq, not_true_eq_false, if_false] using hloop

theorem advanceContiguousCompletePrefix_snd (db : Db Hash) (cursor : Int) :
    (advanceContiguousCompletePrefix db cursor).2 = advancedHeight db.readModel cursor := by
  rw [advanceContiguousCompletePrefix]
  split
  · rfl
  · exact le_antisymm (le_advancedHeight _ _) (by omega)

theorem advanceContiguousCompletePrefix_readModel (db : Db Hash) (cursor : Int) :
    (advanceContiguousCompletePrefix db cursor).1.readModel = db.readModel := by
  rw [advanceContiguousCompletePrefix]
  split <;> rfl

/-- The cursor of the database follows the one in memory and never goes down. -/
theorem advanceContiguousCompletePrefix_syncState {db : Db Hash} {cursor : Int}
    {row : SyncStateRow Hash} (h : db.syncState = some row) :
    ∃ row', (advanceContiguousCompletePrefix db cursor).1.syncState = some row' ∧
      row.contiguousCompleteHeight ≤ row'.contiguousCompleteHeight ∧
      (row.contiguousCompleteHeight = cursor →
        row'.contiguousCompleteHeight = (advanceContiguousCompletePrefix db cursor).2) := by
  rw [advanceContiguousCompletePrefix]
  split
  · next hlt =>
      refine ⟨_, by rw [h]; rfl, le_max_left _ _, fun hrow => ?_⟩
      exact max_eq_right (hrow ▸ hlt.le)
  · exact ⟨row, h, le_rfl, id⟩

/-! ### The jump -/

variable [ToString Hash] {blockHash : Header Hash → Hash} {catalogue : Hash → Option InvalidBlock}

namespace Commit

variable {db db' : Db Hash} {now ancestor : Int} {input : CoreSuffixReplacementInput Hash}
  {first target : CoreCanonicalReplacement Hash} {plan : SuffixMutationPlan Hash}
  {row row' : SyncStateRow Hash} {pending : ReplacementPending Hash}
  (h : Commit blockHash catalogue db db' now ancestor input first target plan row row' pending)
include h

theorem contiguousCompleteHeight_eq : row'.contiguousCompleteHeight =
      if ancestor ≤ row.contiguousCompleteHeight then target.height
      else row.contiguousCompleteHeight := by
  obtain ⟨e, -, rfl⟩ := SyncStateRow.markReplacementPending_eq_ok h.marked
  exact h.cursor

variable (hp : ChainPromise blockHash catalogue db.readModel input.replacements)
include hp

theorem canonicalAt_iff_of_le {n : Int} (hn : n ≤ ancestor) {b : Block Hash} :
    db'.readModel.CanonicalAt n b ↔ db.readModel.CanonicalAt n b := by
  constructor
  · intro hb
    rcases h.canonicalAt_cases hp hb with ⟨r, hr, -, rfl, -⟩ | ⟨hb, -⟩
    · have := h.height_mem hr
      omega
    · exact hb
  · exact fun hb => h.canonicalAt_of_not_replaced hp hb (by omega)

theorem soundAt_of_le {n : Int} (hn : n ≤ ancestor) (hsound : db.readModel.SoundAt n) :
    db'.readModel.SoundAt n := by
  obtain ⟨b, hb, hunique, hcomplete, hlinked⟩ := hsound
  refine ⟨b, (h.canonicalAt_iff_of_le hp hn).mpr hb,
    fun b' hb' => hunique b' ((h.canonicalAt_iff_of_le hp hn).mp hb'), hcomplete,
    fun hne b' hb' => hlinked hne b' ((h.canonicalAt_iff_of_le hp (by omega)).mp hb')⟩

theorem soundAt_replaced {r : CoreCanonicalReplacement Hash} (hr : r ∈ input.replacements) :
    db'.readModel.SoundAt r.height := by
  obtain ⟨b, hb, -, hrow, hunique⟩ := h.canonicalAt_replaced hp hr
  obtain ⟨-, -, hprev, hcomplete⟩ := hrow
  exact ⟨b, hb, hunique, hcomplete, fun _ b' hb' => by rw [hprev, h.hash_eq_prev hp hr hb']⟩

/-- A replacement that starts in a sound prefix leaves a sound prefix up to the new cursor. -/
theorem soundPrefix
    (hsound : db.readModel.SoundPrefix (min ancestor row.contiguousCompleteHeight)) :
    db'.readModel.SoundPrefix row'.contiguousCompleteHeight := by
  intro n hn hn'
  rw [h.contiguousCompleteHeight_eq] at hn'
  rcases le_or_gt n ancestor with hle | hlt
  · refine h.soundAt_of_le hp hle (hsound n hn (le_min hle ?_))
    split at hn'
    · next hanc => exact hle.trans hanc
    · exact hn'
  · have htarget : n ≤ target.height := by
      split at hn'
      · exact hn'
      · omega
    obtain ⟨r, hr, rfl⟩ := h.exists_replacement hlt htarget
    exact h.soundAt_replaced hp hr

end Commit

/-- **The contiguous cursor describes a real prefix.**  From a cursor with a sound prefix, the advance
ends at the greatest height with a sound prefix.  It never lowers the cursor, in memory or in the
database, and the database keeps a cursor with a sound prefix.

A committed suffix replacement with a sound prefix up to its ancestor or the cursor, whichever is
lower, has a sound prefix up to the new cursor; and the new cursor is not below the old one, when
the target is not. -/
theorem cursor_describes_prefix (blockHash : Header Hash → Hash)
    (catalogue : Hash → Option InvalidBlock) (db : Db Hash) :
    (∀ cursor, -1 ≤ cursor → cursor ≤ 2147483647 →
      let advanced := advanceContiguousCompletePrefix db cursor
      advanced.1.readModel = db.readModel ∧
      (db.readModel.SoundPrefix cursor →
        db.readModel.SoundPrefix advanced.2 ∧ advanced.2 ≤ 2147483647 ∧
        ∀ h ≤ 2147483647, db.readModel.SoundPrefix h → h ≤ advanced.2) ∧
      cursor ≤ advanced.2 ∧
      ∀ row, db.syncState = some row → ∃ row', advanced.1.syncState = some row' ∧
        row.contiguousCompleteHeight ≤ row'.contiguousCompleteHeight ∧
        (row.contiguousCompleteHeight = cursor → row'.contiguousCompleteHeight = advanced.2)) ∧
    ∀ now cursor ancestor (input : CoreSuffixReplacementInput Hash) target before after db' summary,
      ChainPromise blockHash catalogue db.readModel input.replacements →
      replaceCoreCanonicalSuffixValidated blockHash catalogue db now cursor ancestor input before
        after = .ok (db', summary) →
      input.replacements.getLast? = some target → cursor ≤ target.height →
      db.readModel.SoundPrefix (min ancestor cursor) →
      ∃ row', db'.syncState = some row' ∧
        db'.readModel.SoundPrefix row'.contiguousCompleteHeight ∧
        cursor ≤ row'.contiguousCompleteHeight := by
  constructor
  · intro cursor hcursor hcursor' advanced
    have hadvanced : advanced.2 = advancedHeight db.readModel cursor :=
      advanceContiguousCompletePrefix_snd db cursor
    refine ⟨advanceContiguousCompletePrefix_readModel db cursor, fun hsound => ?_, ?_,
      fun row hrow => advanceContiguousCompletePrefix_syncState hrow⟩
    · rw [hadvanced]
      exact advancedHeight_spec hcursor hcursor' hsound
    · rw [hadvanced]
      exact le_advancedHeight _ _
  · intro now cursor ancestor input target before after db' summary hp h htarget hle hsound
    obtain ⟨first, target', plan, row, row', pending, rfl, hcommit⟩ :=
      replaceCoreCanonicalSuffixValidated_eq_ok h
    obtain rfl : target = target' := some.inj (htarget.symm.trans hcommit.last)
    refine ⟨row', hcommit.syncState', hcommit.soundPrefix hp hsound, ?_⟩
    rw [hcommit.contiguousCompleteHeight_eq]
    split
    · exact hle
    · exact le_rfl

/-! ### A fork after the first block -/

section Fork

/-- Block `1` is at height `0`, and block `12` extends it. -/
def forkAfterGenesis : Db Nat where
  readModel.events := Table.empty
  readModel.blocks := ⟨[canonicalBlock 0 0 1, canonicalBlock 1 1 12], by decide⟩
  queue := Table.empty
  syncState := some ⟨none, none, 0, none, none, none, none, none, .null⟩

/-- Core has block `2` above block `1`. -/
def replaceTwelve : CoreSuffixReplacementInput Nat where
  expectedLocal := [⟨0, 1, 0⟩, ⟨1, 12, 1⟩]
  replacements := [⟨1, header 1 2, ⟨[], [], []⟩⟩]
  pendingSyncTarget := none

theorem canonicalAt_forkAfterGenesis {n : Int} {b : Block Nat}
    (h : forkAfterGenesis.readModel.CanonicalAt n b) :
    (n = 0 ∧ b = canonicalBlock 0 0 1) ∨ (n = 1 ∧ b = canonicalBlock 1 1 12) := by
  obtain ⟨hb, -, hheight⟩ := h
  have hmem : b = canonicalBlock 0 0 1 ∨ b = canonicalBlock 1 1 12 := by
    simpa [forkAfterGenesis] using Table.mem_of_find? hb
  rcases hmem with rfl | rfl
  · exact .inl ⟨(some.inj hheight).symm, rfl⟩
  · exact .inr ⟨(some.inj hheight).symm, rfl⟩

theorem soundPrefix_forkAfterGenesis : forkAfterGenesis.readModel.SoundPrefix 0 := by
  intro n hn hn'
  obtain rfl : n = 0 := le_antisymm hn' hn
  refine ⟨canonicalBlock 0 0 1, ⟨rfl, rfl, rfl⟩, fun b' hb' => ?_, rfl, fun h => absurd rfl h⟩
  rcases canonicalAt_forkAfterGenesis hb' with ⟨-, rfl⟩ | ⟨h, -⟩
  · rfl
  · cases h

theorem chainPromise_forkAfterGenesis : ChainPromise (@Header.nonce Nat) (fun _ => none)
    forkAfterGenesis.readModel replaceTwelve.replacements where
  one_height r hr n b hb hhash := by
    obtain rfl := mem_singleton.mp hr
    rcases canonicalAt_forkAfterGenesis hb with ⟨rfl, rfl⟩ | ⟨rfl, rfl⟩ <;> cases hhash
  one_height_replaced := by simp [replaceTwelve]
  vouched r _ e he := nomatch he
  vouched_canonical _ b _ e he := nomatch he
  extends_prev r _ e he := nomatch he

/-- The advance walks over block `12`; a replacement of it jumps to its target. -/
theorem fork_after_genesis_stays_sound :
    forkAfterGenesis.readModel.SoundPrefix (advanceContiguousCompletePrefix forkAfterGenesis 0).2 ∧
    ∃ db' summary row',
      replaceCoreCanonicalSuffixValidated (@Header.nonce Nat) (fun _ => none) forkAfterGenesis 0 0 0
        replaceTwelve (.ok ()) (.ok ()) = .ok (db', summary) ∧
      db'.syncState = some row' ∧ db'.readModel.SoundPrefix row'.contiguousCompleteHeight ∧
      0 ≤ row'.contiguousCompleteHeight := by
  have hmain := cursor_describes_prefix (@Header.nonce Nat) (fun _ => none) forkAfterGenesis
  obtain ⟨-, hadvance, -⟩ := hmain.1 0 (by decide) (by decide)
  obtain ⟨db', summary, h⟩ : ∃ db' summary,
      replaceCoreCanonicalSuffixValidated (@Header.nonce Nat) (fun _ => none) forkAfterGenesis 0 0 0
        replaceTwelve (.ok ()) (.ok ()) = .ok (db', summary) := ⟨_, _, rfl⟩
  obtain ⟨row', hrow'⟩ := hmain.2 0 0 0 replaceTwelve _ _ _ db' summary chainPromise_forkAfterGenesis
    h rfl (by decide) soundPrefix_forkAfterGenesis
  exact ⟨(hadvance soundPrefix_forkAfterGenesis).1, db', summary, row', h, hrow'⟩

end Fork

end MergeMiningMonitor
