import MergeMiningMonitor.Support.Lists
import MergeMiningMonitor.Support.CompactSize
import MergeMiningMonitor.AuxPow.Commitment

/-!
# Hathor — Reconstruct

A Hathor block keeps of its Bitcoin parent only the two ends of the header, the two ends of the coinbase
and the Merkle path (`hathor/auxpow.rs`).  The middle of the coinbase is a hash of the child, of its
funds and its graph, and the middle of the header is the Merkle root above the coinbase.  Where the
funds end is not transmitted: every split is tried until one gives a header with the expected hash.

* `reconstructFromBlobs_complete`: the parts of a block are found again, at the split they were
  joined at.
* `reconstructFromBlobs_binding`: for one aux blob and one hash there is one pair of funds and graph.

`reconstruction_is_complete_and_binding` states the two together.  Both rest on
`parentHeader_binding`: under SHA-256 without collisions among the strings that are hashed
(`hashInputs`), a header determines funds and graph.
-/

namespace MergeMiningMonitor.Hathor

open Slices Fallible Readers Merkle Lists List Option
open AuxPow (Bytes Hash32 Header pairBytes pairBytes_injective)

def hathMagic : Bytes := [0x48, 0x61, 0x74, 0x68]

structure HathorAuxPow where
  head36 : { l : Bytes // l.length = 36 }
  cbHead : Bytes
  cbTail : Bytes
  /-- Siblings in display order. -/
  merklePath : List Hash32
  tail12 : { l : Bytes // l.length = 12 }
deriving DecidableEq

structure HathorReconstruction where
  header : Header
  fullCoinbase : Bytes
  fundsGraphSplit : Nat
  fundsGraphLen : Nat
deriving DecidableEq

inductive HathorError
  | blobTooLarge (length : Nat)
  | unexpectedEnd
  | pathTooDeep (count : Nat)
  | trailingBytes
  | auxPowNotFound
  | prefixTooLarge (length : Nat)
  | prefixTooSmall
  | markerMissing
  | noSplit
deriving DecidableEq

/-! ### The aux blob -/

abbrev Cursor := Reader UInt8 HathorError

def Cursor.take (n : Nat) : Cursor { l : Bytes // l.length = n } := takeExact n .unexpectedEnd

def Cursor.readVarint : Cursor Nat := CompactSize.compactSize .unexpectedEnd

def Cursor.takeHash : Cursor Hash32 := do
  let bytes ← Cursor.take 32
  return .ofArray bytes

/-- The fields of the aux blob. -/
def readHathorAuxPow : Cursor HathorAuxPow := do
  let head36 ← Cursor.take 36
  let cbHeadLen ← Cursor.readVarint
  let cbHead ← Cursor.take cbHeadLen
  let cbTailLen ← Cursor.readVarint
  let cbTail ← Cursor.take cbTailLen
  let merkleCount ← Cursor.readVarint
  check (merkleCount ≤ 32) (.pathTooDeep merkleCount)
  let merklePath ← times Cursor.takeHash merkleCount
  let tail12 ← Cursor.take 12
  return ⟨head36, cbHead.1, cbTail.1, merklePath.1, tail12⟩

def parseHathorAuxPow (blob : Bytes) : Except HathorError HathorAuxPow := do
  ensure (blob.length ≤ 16 * 1024) (.blobTooLarge blob.length)
  let (aux, rest) ← readHathorAuxPow blob
  ensure (rest = []) .trailingBytes
  return aux

/-! ### The search -/

def findSubsequence (haystack needle : Bytes) : Option Nat :=
  if needle = [] ∨ haystack.length < needle.length then none else findSubslice haystack needle

def fundsGraphFromRaw (raw auxPow : Bytes) : Except HathorError Bytes := do
  let idx ← required (findSubsequence raw auxPow) .auxPowNotFound
  let fundsGraph := raw.take idx
  ensure (fundsGraph.length ≤ 64 * 1024) (.prefixTooLarge fundsGraph.length)
  ensure (2 ≤ fundsGraph.length) .prefixTooSmall
  return fundsGraph

def verifyCommitmentMarker (cbHead : Bytes) : Except HathorError Unit :=
  ensure (4 ≤ cbHead.length ∧ cbHead.drop (cbHead.length - 4) = hathMagic) .markerMissing

section Hashing

variable (sha : Bytes → Hash32)

/-- `sha256d` -/
def dsha (bytes : Bytes) : Hash32 := sha (sha bytes).bytes

/-- `assemble_btc_header`: 80 bytes always are a header. -/
def assembleBtcHeader (aux : HathorAuxPow) (fundsGraph : Bytes) (split : Nat) : Header × Bytes :=
  let pair := (sha (fundsGraph.take split)).bytes ++ (sha (fundsGraph.drop split)).bytes
  let abh := (dsha sha pair).reverse
  let fullCoinbase := aux.cbHead ++ (abh.bytes ++ aux.cbTail)
  let cur := aux.merklePath.foldl (fun cur sib => dsha sha (cur.bytes ++ sib.reverse.bytes))
    (dsha sha fullCoinbase)
  (⟨aux.head36.1 ++ (cur.bytes ++ aux.tail12.1), by
    rw [length_append, length_append, aux.head36.2, cur.size, aux.tail12.2]⟩, fullCoinbase)

/-- One turn of the loop over the splits. -/
def trySplit (aux : HathorAuxPow) (fundsGraph : Bytes) (expectedBlockHash : Hash32) (split : Nat) :
    Option HathorReconstruction :=
  let (header, fullCoinbase) := assembleBtcHeader sha aux fundsGraph split
  if dsha sha header.bytes = expectedBlockHash then
    some ⟨header, fullCoinbase, split, fundsGraph.length⟩
  else none

def reconstructBtcHeader (aux : HathorAuxPow) (fundsGraph : Bytes) (expectedBlockHash : Hash32) :
    Except HathorError HathorReconstruction := do
  verifyCommitmentMarker aux.cbHead
  ensure (fundsGraph.length ≤ 64 * 1024) (.prefixTooLarge fundsGraph.length)
  required ((List.range' 2 (fundsGraph.length - 2)).findSome?
    (trySplit sha aux fundsGraph expectedBlockHash)) .noSplit

def reconstructFromBlobs (raw auxPow : Bytes) (expectedBlockHash : Hash32) :
    Except HathorError HathorReconstruction := do
  let aux ← parseHathorAuxPow auxPow
  let fundsGraph ← fundsGraphFromRaw raw auxPow
  reconstructBtcHeader sha aux fundsGraph expectedBlockHash

/-! ### RFC 0006 -/

/-- What the parent's coinbase commits to. -/
def auxBlockHash (funds graph : Bytes) : Hash32 := dsha sha (pairBytes (sha funds) (sha graph))

/-- The parent's coinbase. -/
def parentCoinbase (aux : HathorAuxPow) (funds graph : Bytes) : Bytes :=
  aux.cbHead ++ ((auxBlockHash sha funds graph).reverse.bytes ++ aux.cbTail)

/-- The Merkle root above the coinbase, which is the left-most transaction. -/
def parentMerkleRoot (aux : HathorAuxPow) (funds graph : Bytes) : Hash32 :=
  fold (dsha sha) pairBytes (dsha sha (parentCoinbase sha aux funds graph))
    (aux.merklePath.map Hash32.reverse) 0

/-- The parent's header. -/
def parentHeader (aux : HathorAuxPow) (funds graph : Bytes) : Header :=
  ⟨aux.head36.1 ++ ((parentMerkleRoot sha aux funds graph).bytes ++ aux.tail12.1), by
    rw [length_append, length_append, aux.head36.2, aux.tail12.2, Hash32.size]⟩

/-- What is hashed twice on the way from funds and graph to the hash of the header. -/
def doubleInputs (aux : HathorAuxPow) (funds graph : Bytes) : List Bytes :=
  pairBytes (sha funds) (sha graph) :: parentCoinbase sha aux funds graph ::
    (parentHeader sha aux funds graph).bytes ::
    foldInputs (dsha sha) pairBytes (dsha sha (parentCoinbase sha aux funds graph))
      (aux.merklePath.map Hash32.reverse) 0

/-- The strings that SHA-256 is applied to, from funds and graph to the hash of the header. -/
def hashInputs (aux : HathorAuxPow) (funds graph : Bytes) : List Bytes :=
  funds :: graph :: (doubleInputs sha aux funds graph).flatMap fun x => [x, (sha x).bytes]

end Hashing

variable {sha : Bytes → Hash32}

theorem noCollision_dsha {xs ys : List Bytes}
    (h : NoCollision sha (xs.flatMap fun x => [x, (sha x).bytes])
      (ys.flatMap fun y => [y, (sha y).bytes])) : NoCollision (dsha sha) xs ys := by
  have mem_twice : ∀ {zs : List Bytes} {z : Bytes}, z ∈ zs →
      z ∈ zs.flatMap (fun x => [x, (sha x).bytes]) ∧
        (sha z).bytes ∈ zs.flatMap (fun x => [x, (sha x).bytes]) := by
    intro zs z hz
    exact ⟨mem_flatMap.mpr ⟨z, hz, mem_cons_self⟩,
      mem_flatMap.mpr ⟨z, hz, mem_cons_of_mem _ mem_cons_self⟩⟩
  intro x hx y hy heq
  have hinner : (sha x).bytes = (sha y).bytes := h _ (mem_twice hx).2 _ (mem_twice hy).2 heq
  exact h _ (mem_twice hx).1 _ (mem_twice hy).1 (Hash32.ext hinner)

/-- **The hash of the parent binds funds and graph**, for one aux blob. -/
theorem parentHeader_binding {aux : HathorAuxPow} {funds graph funds' graph' : Bytes}
    (hfree : NoCollision sha (hashInputs sha aux funds graph) (hashInputs sha aux funds' graph'))
    (hhash : dsha sha (parentHeader sha aux funds graph).bytes =
      dsha sha (parentHeader sha aux funds' graph').bytes) : funds = funds' ∧ graph = graph' := by
  have hdouble : NoCollision (dsha sha) (doubleInputs sha aux funds graph)
      (doubleInputs sha aux funds' graph') := by
    refine noCollision_dsha fun x hx y hy => hfree x ?_ y ?_
    · exact mem_cons_of_mem _ (mem_cons_of_mem _ hx)
    · exact mem_cons_of_mem _ (mem_cons_of_mem _ hy)
  -- From the header down: root, coinbase, commitment, and the two inner hashes.
  have hheader : (parentHeader sha aux funds graph).bytes = (parentHeader sha aux funds' graph').bytes :=
    hdouble _ (by simp [doubleInputs]) _ (by simp [doubleInputs]) hhash
  have hroot : parentMerkleRoot sha aux funds graph = parentMerkleRoot sha aux funds' graph' := by
    have htail := append_cancel_left hheader
    exact Hash32.ext (append_cancel_right htail)
  have hcoinbase : parentCoinbase sha aux funds graph = parentCoinbase sha aux funds' graph' := by
    refine hdouble _ (by simp [doubleInputs]) _ (by simp [doubleInputs]) ?_
    refine (fold_binding pairBytes_injective rfl ?_ hroot).1
    intro x hx y hy
    exact hdouble x (by simp [doubleInputs, hx]) y (by simp [doubleInputs, hy])
  have hcommitment : auxBlockHash sha funds graph = auxBlockHash sha funds' graph' := by
    have htail := append_cancel_left hcoinbase
    exact Hash32.reverse_injective (Hash32.ext (append_cancel_right htail))
  have hpair : pairBytes (sha funds) (sha graph) = pairBytes (sha funds') (sha graph') :=
    hdouble _ (by simp [doubleInputs]) _ (by simp [doubleInputs]) hcommitment
  obtain ⟨hfunds, hgraph⟩ := pairBytes_injective hpair
  exact ⟨hfree _ (by simp [hashInputs]) _ (by simp [hashInputs]) hfunds,
    hfree _ (by simp [hashInputs]) _ (by simp [hashInputs]) hgraph⟩

theorem assembleBtcHeader_eq (aux : HathorAuxPow) (fundsGraph : Bytes) (split : Nat) :
    assembleBtcHeader sha aux fundsGraph split =
      (parentHeader sha aux (fundsGraph.take split) (fundsGraph.drop split),
        parentCoinbase sha aux (fundsGraph.take split) (fundsGraph.drop split)) := by
  have hroot : aux.merklePath.foldl (fun cur sib => dsha sha (pairBytes cur sib.reverse))
      (dsha sha (parentCoinbase sha aux (fundsGraph.take split) (fundsGraph.drop split))) =
      parentMerkleRoot sha aux (fundsGraph.take split) (fundsGraph.drop split) := by
    rw [parentMerkleRoot, fold_zero_eq_foldl, foldl_map]
  refine Prod.ext (Header.ext ?_) rfl
  exact congrArg (fun root : Hash32 => aux.head36.1 ++ (root.bytes ++ aux.tail12.1)) hroot

theorem trySplit_eq_some {aux : HathorAuxPow} {fundsGraph : Bytes} {expected : Hash32} {split : Nat}
    {r : HathorReconstruction} :
    trySplit sha aux fundsGraph expected split = some r ↔
      dsha sha (parentHeader sha aux (fundsGraph.take split) (fundsGraph.drop split)).bytes = expected ∧
        r = ⟨parentHeader sha aux (fundsGraph.take split) (fundsGraph.drop split),
          parentCoinbase sha aux (fundsGraph.take split) (fundsGraph.drop split), split,
          fundsGraph.length⟩ := by
  rw [trySplit, assembleBtcHeader_eq]
  dsimp only
  split
  · next h => rw [Option.some.injEq, and_iff_right h, eq_comm]
  · next h => exact iff_of_false (by simp) fun hboth => h hboth.1

/-! ### What is accepted -/

/-- The funds of a reconstruction, within the raw block. -/
def HathorReconstruction.funds (r : HathorReconstruction) (raw : Bytes) : Bytes :=
  (raw.take r.fundsGraphLen).take r.fundsGraphSplit

/-- The graph of a reconstruction, within the raw block. -/
def HathorReconstruction.graph (r : HathorReconstruction) (raw : Bytes) : Bytes :=
  (raw.take r.fundsGraphLen).drop r.fundsGraphSplit

theorem fundsGraphFromRaw_eq_ok {raw auxPow fundsGraph : Bytes}
    (h : fundsGraphFromRaw raw auxPow = .ok fundsGraph) : raw.take fundsGraph.length = fundsGraph := by
  obtain ⟨idx, -, h⟩ := bind_eq_ok.mp h
  obtain ⟨_, -, h⟩ := bind_eq_ok.mp h
  obtain ⟨_, -, h⟩ := bind_eq_ok.mp h
  obtain rfl := Except.ok.inj h
  rw [length_take, ← take_take, take_length]

/-- An accepted block has the parent of its funds and its graph, with the expected hash. -/
theorem reconstructFromBlobs_eq_ok {raw auxPow : Bytes} {expected : Hash32} {r : HathorReconstruction}
    (h : reconstructFromBlobs sha raw auxPow expected = .ok r) :
    ∃ aux, parseHathorAuxPow auxPow = .ok aux ∧
      r.header = parentHeader sha aux (r.funds raw) (r.graph raw) ∧
      r.fullCoinbase = parentCoinbase sha aux (r.funds raw) (r.graph raw) ∧
      dsha sha (parentHeader sha aux (r.funds raw) (r.graph raw)).bytes = expected := by
  obtain ⟨aux, haux, h⟩ := bind_eq_ok.mp h
  obtain ⟨fundsGraph, hinitial, h⟩ := bind_eq_ok.mp h
  obtain ⟨_, -, h⟩ := bind_eq_ok.mp h
  obtain ⟨_, -, h⟩ := bind_eq_ok.mp h
  obtain ⟨split, -, htry⟩ := exists_of_findSome?_eq_some (required_eq_ok.mp h)
  obtain ⟨hhash, rfl⟩ := trySplit_eq_some.mp htry
  refine ⟨aux, haux, ?_⟩
  simp only [HathorReconstruction.funds, HathorReconstruction.graph, fundsGraphFromRaw_eq_ok hinitial]
  exact ⟨trivial, trivial, hhash⟩

/-! ### Aux blobs -/

/-- The bytes are those of the aux blob, with any widths of its lengths. -/
def Encodes (aux : HathorAuxPow) (blob : Bytes) : Prop :=
  ∃ headLen tailLen count, CompactSize.Encodes aux.cbHead.length headLen ∧
    CompactSize.Encodes aux.cbTail.length tailLen ∧ CompactSize.Encodes aux.merklePath.length count ∧
    blob = aux.head36.1 ++ (headLen ++ (aux.cbHead ++ (tailLen ++ (aux.cbTail ++ (count ++
      (aux.merklePath.flatMap Hash32.bytes ++ aux.tail12.1))))))

/-- An aux blob within the limits, whose coinbase head ends in the marker. -/
structure WellFormed (aux : HathorAuxPow) (blob : Bytes) : Prop where
  encodes : Encodes aux blob
  size : blob.length ≤ 16 * 1024
  depth : aux.merklePath.length ≤ 32
  marker : ∃ head, aux.cbHead = head ++ hathMagic

theorem Cursor.read_take (l rest : Bytes) : Cursor.take l.length (l ++ rest) = .ok (⟨l, rfl⟩, rest) :=
  read_takeExact.mpr rfl

theorem Cursor.read_takeHash (hash : Hash32) (rest : Bytes) :
    Cursor.takeHash (hash.bytes ++ rest) = .ok (hash, rest) :=
  read_bind.mpr ⟨⟨hash.bytes, hash.size⟩, rest, read_takeExact.mpr rfl, rfl⟩

theorem parseHathorAuxPow_of_wellFormed {aux : HathorAuxPow} {blob : Bytes} (h : WellFormed aux blob) :
    parseHathorAuxPow blob = .ok aux := by
  obtain ⟨headLen, tailLen, count, hhead, htail, hcount, hblob⟩ := h.encodes
  have hread : readHathorAuxPow blob = .ok (aux, []) := by
    rw [hblob]
    refine read_bind.mpr ⟨aux.head36, _, read_takeExact.mpr rfl, ?_⟩
    refine read_bind.mpr ⟨_, _, CompactSize.read_compactSize hhead _, ?_⟩
    refine read_bind.mpr ⟨_, _, Cursor.read_take _ _, ?_⟩
    refine read_bind.mpr ⟨_, _, CompactSize.read_compactSize htail _, ?_⟩
    refine read_bind.mpr ⟨_, _, Cursor.read_take _ _, ?_⟩
    refine read_bind.mpr ⟨_, _, CompactSize.read_compactSize hcount _, ?_⟩
    refine read_bind.mpr ⟨(), _, read_check.mpr ⟨h.depth, rfl⟩, ?_⟩
    refine read_bind.mpr ⟨_, _, read_times Cursor.read_takeHash _ _, ?_⟩
    exact read_bind.mpr ⟨aux.tail12, [], read_takeExact.mpr (append_nil _).symm, rfl⟩
  exact bind_eq_ok.mpr ⟨(), ensure_eq_ok.mpr h.size,
    bind_eq_ok.mpr ⟨_, hread, bind_eq_ok.mpr ⟨(), ensure_eq_ok.mpr rfl, rfl⟩⟩⟩

theorem verifyCommitmentMarker_of_wellFormed {aux : HathorAuxPow} {blob : Bytes}
    (h : WellFormed aux blob) : verifyCommitmentMarker aux.cbHead = .ok () := by
  obtain ⟨head, hhead⟩ := h.marker
  have hlength : aux.cbHead.length = head.length + 4 := by rw [hhead, length_append]; rfl
  refine ensure_eq_ok.mpr ⟨by omega, ?_⟩
  rw [hlength, Nat.add_sub_cancel, hhead, drop_left]

theorem WellFormed.ne_nil {aux : HathorAuxPow} {blob : Bytes} (h : WellFormed aux blob) : blob ≠ [] := by
  obtain ⟨headLen, tailLen, count, -, -, -, hblob⟩ := h.encodes
  refine ne_nil_of_length_pos ?_
  rw [hblob, length_append, aux.head36.2]
  omega

/-- The aux blob is found where it was put, when it does not stand earlier. -/
theorem fundsGraphFromRaw_append {fundsGraph auxPow : Bytes} (hne : auxPow ≠ [])
    (hsmall : 2 ≤ fundsGraph.length) (hlarge : fundsGraph.length ≤ 64 * 1024)
    (hfirst : ∀ j < fundsGraph.length, ¬ OccursAt auxPow (fundsGraph ++ auxPow) j) :
    fundsGraphFromRaw (fundsGraph ++ auxPow) auxPow = .ok fundsGraph := by
  have hfind : findSubsequence (fundsGraph ++ auxPow) auxPow = some fundsGraph.length := by
    have hlength : ¬ (auxPow = [] ∨ (fundsGraph ++ auxPow).length < auxPow.length) := by
      rw [length_append]
      rintro (hnil | hlt)
      · exact hne hnil
      · omega
    rw [findSubsequence, if_neg hlength, findSubslice_eq_some hne]
    refine ⟨?_, hfirst⟩
    rw [OccursAt, drop_left]
  refine bind_eq_ok.mpr ⟨_, required_eq_ok.mpr hfind, ?_⟩
  rw [take_left]
  exact bind_eq_ok.mpr ⟨(), ensure_eq_ok.mpr hlarge, bind_eq_ok.mpr ⟨(), ensure_eq_ok.mpr hsmall, rfl⟩⟩

/-- The parts of a block are found again, at the split they were joined at. -/
theorem reconstructFromBlobs_complete {aux : HathorAuxPow} {auxPow funds graph : Bytes}
    (haux : WellFormed aux auxPow) (hfunds : 2 ≤ funds.length) (hgraph : 1 ≤ graph.length)
    (hlarge : (funds ++ graph).length ≤ 64 * 1024)
    (hfirst : ∀ j < (funds ++ graph).length, ¬ OccursAt auxPow (funds ++ graph ++ auxPow) j)
    (hfree : ∀ split, 2 ≤ split → split < (funds ++ graph).length →
      NoCollision sha (hashInputs sha aux ((funds ++ graph).take split) ((funds ++ graph).drop split))
        (hashInputs sha aux funds graph)) :
    reconstructFromBlobs sha (funds ++ graph ++ auxPow) auxPow
        (dsha sha (parentHeader sha aux funds graph).bytes) =
      .ok ⟨parentHeader sha aux funds graph, parentCoinbase sha aux funds graph, funds.length,
        (funds ++ graph).length⟩ := by
  have hlength : (funds ++ graph).length = funds.length + graph.length := length_append
  refine bind_eq_ok.mpr ⟨aux, parseHathorAuxPow_of_wellFormed haux, ?_⟩
  refine bind_eq_ok.mpr ⟨funds ++ graph,
    fundsGraphFromRaw_append haux.ne_nil (by omega) hlarge hfirst, ?_⟩
  refine bind_eq_ok.mpr ⟨(), verifyCommitmentMarker_of_wellFormed haux, ?_⟩
  refine bind_eq_ok.mpr ⟨(), ensure_eq_ok.mpr hlarge, required_eq_ok.mpr ?_⟩
  have hmem : ∀ split, split ∈ List.range' 2 ((funds ++ graph).length - 2) ↔
      2 ≤ split ∧ split < (funds ++ graph).length := by
    intro split
    rw [mem_range'_1]
    omega
  refine findSome?_of_unique ((hmem funds.length).mpr (by omega)) ?_ ?_
  · rw [trySplit_eq_some, take_left, drop_left]
    exact ⟨rfl, rfl⟩
  · intro split hsplit hsome
    obtain ⟨hlow, hhigh⟩ := (hmem split).mp hsplit
    obtain ⟨r, hr⟩ := isSome_iff_exists.mp hsome
    obtain ⟨hhash, -⟩ := trySplit_eq_some.mp hr
    obtain ⟨htake, -⟩ := parentHeader_binding (hfree split hlow hhigh) hhash
    rw [← htake, length_take_of_le hhigh.le]

/-- For one aux blob and one hash there is one pair of funds and graph. -/
theorem reconstructFromBlobs_binding {auxPow raw raw' : Bytes} {expected : Hash32}
    {r r' : HathorReconstruction} (h : reconstructFromBlobs sha raw auxPow expected = .ok r)
    (h' : reconstructFromBlobs sha raw' auxPow expected = .ok r')
    (hfree : ∀ aux, parseHathorAuxPow auxPow = .ok aux →
      NoCollision sha (hashInputs sha aux (r.funds raw) (r.graph raw))
        (hashInputs sha aux (r'.funds raw') (r'.graph raw'))) :
    r.funds raw = r'.funds raw' ∧ r.graph raw = r'.graph raw' ∧ r.fullCoinbase = r'.fullCoinbase := by
  obtain ⟨aux, haux, -, hcoinbase, hhash⟩ := reconstructFromBlobs_eq_ok h
  obtain ⟨aux', haux', -, hcoinbase', hhash'⟩ := reconstructFromBlobs_eq_ok h'
  obtain rfl : aux = aux' := Except.ok.inj (haux.symm.trans haux')
  obtain ⟨hfunds, hgraph⟩ := parentHeader_binding (hfree aux haux) (hhash.trans hhash'.symm)
  refine ⟨hfunds, hgraph, ?_⟩
  rw [hcoinbase, hcoinbase', hfunds, hgraph]

/-- **Reconstruction is complete and binding.** -/
theorem reconstruction_is_complete_and_binding :
    (∀ (aux : HathorAuxPow) (auxPow funds graph : Bytes), WellFormed aux auxPow → 2 ≤ funds.length →
      1 ≤ graph.length → (funds ++ graph).length ≤ 64 * 1024 →
      (∀ j < (funds ++ graph).length, ¬ OccursAt auxPow (funds ++ graph ++ auxPow) j) →
      (∀ split, 2 ≤ split → split < (funds ++ graph).length →
        NoCollision sha (hashInputs sha aux ((funds ++ graph).take split) ((funds ++ graph).drop split))
          (hashInputs sha aux funds graph)) →
      reconstructFromBlobs sha (funds ++ graph ++ auxPow) auxPow
          (dsha sha (parentHeader sha aux funds graph).bytes) =
        .ok ⟨parentHeader sha aux funds graph, parentCoinbase sha aux funds graph, funds.length,
          (funds ++ graph).length⟩) ∧
    (∀ (auxPow raw raw' : Bytes) (expected : Hash32) (r r' : HathorReconstruction),
      reconstructFromBlobs sha raw auxPow expected = .ok r →
      reconstructFromBlobs sha raw' auxPow expected = .ok r' →
      (∀ aux, parseHathorAuxPow auxPow = .ok aux →
        NoCollision sha (hashInputs sha aux (r.funds raw) (r.graph raw))
          (hashInputs sha aux (r'.funds raw') (r'.graph raw'))) →
      r.funds raw = r'.funds raw' ∧ r.graph raw = r'.graph raw' ∧
        r.fullCoinbase = r'.fullCoinbase) :=
  ⟨fun _ _ _ _ => reconstructFromBlobs_complete, fun _ _ _ _ _ _ => reconstructFromBlobs_binding⟩

/-! ### A sample -/

namespace Sample

open AuxPow.Sample

/-- A parent with one transaction, whose coinbase script is the marker and the child. -/
def aux : HathorAuxPow where
  head36 := ⟨toLeBytes 4 2 ++ List.replicate 32 0, rfl⟩
  cbHead := coinbaseHead 36 ++ hathMagic
  cbTail := coinbaseTail
  merklePath := []
  tail12 := ⟨toLeBytes 4 1700000000 ++ toLeBytes 4 0x1f00ffff ++ toLeBytes 4 0, rfl⟩

def blob (aux : HathorAuxPow) : Bytes :=
  aux.head36.1 ++ UInt8.ofNat aux.cbHead.length :: aux.cbHead ++ UInt8.ofNat aux.cbTail.length ::
    aux.cbTail ++ 0 :: aux.tail12.1

def auxPow : Bytes := blob aux

def funds : Bytes := [1, 2]

def graph : Bytes := [3, 4]

def reconstruction : HathorReconstruction :=
  ⟨parentHeader sha256 aux funds graph, parentCoinbase sha256 aux funds graph, 2, 4⟩

theorem wellFormed : WellFormed aux auxPow where
  encodes := ⟨[46], [19], [0], .one (by decide), .one (by decide), .one (by decide), rfl⟩
  size := by decide
  depth := by decide
  marker := ⟨coinbaseHead 36, rfl⟩

end Sample

open AuxPow.Sample (sha256) in
/-- The sample is reconstructed at the first of its two splits, and bytes after it change nothing. -/
theorem sample_is_reconstructed :
    reconstructFromBlobs sha256 (Sample.funds ++ Sample.graph ++ Sample.auxPow) Sample.auxPow
      (dsha sha256 (parentHeader sha256 Sample.aux Sample.funds Sample.graph).bytes) =
      .ok Sample.reconstruction ∧
    Sample.reconstruction.funds (Sample.funds ++ Sample.graph ++ Sample.auxPow) =
      Sample.reconstruction.funds (Sample.funds ++ Sample.graph ++ Sample.auxPow ++ [8]) := by
  obtain ⟨hcomplete, hbinding⟩ := @reconstruction_is_complete_and_binding sha256
  have hfree : ∀ split < 4, 2 ≤ split →
      NoCollision sha256
        (hashInputs sha256 Sample.aux ((Sample.funds ++ Sample.graph).take split)
          ((Sample.funds ++ Sample.graph).drop split))
        (hashInputs sha256 Sample.aux Sample.funds Sample.graph) := by
    unfold NoCollision
    decide +kernel
  have hfirst : ∀ j < 4, ¬ OccursAt Sample.auxPow (Sample.funds ++ Sample.graph ++ Sample.auxPow) j := by
    unfold OccursAt
    decide +kernel
  have hfound := hcomplete Sample.aux Sample.auxPow Sample.funds Sample.graph Sample.wellFormed
    (by decide) (by decide) (by decide) hfirst (fun split hlow hhigh => hfree split hhigh hlow)
  have hlonger : reconstructFromBlobs sha256
      (Sample.funds ++ Sample.graph ++ Sample.auxPow ++ [8]) Sample.auxPow
      (dsha sha256 (parentHeader sha256 Sample.aux Sample.funds Sample.graph).bytes) =
      .ok Sample.reconstruction := by decide +kernel
  refine ⟨hfound, (hbinding _ _ _ _ _ _ hfound hlonger ?_).1⟩
  intro aux haux
  obtain rfl := Except.ok.inj ((parseHathorAuxPow_of_wellFormed Sample.wellFormed).symm.trans haux)
  exact hfree 2 (by decide) (by decide)

end MergeMiningMonitor.Hathor
