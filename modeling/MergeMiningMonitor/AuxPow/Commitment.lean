import MergeMiningMonitor.Support.Fallible
import MergeMiningMonitor.Support.Sha256
import MergeMiningMonitor.Support.Merkle

/-!
# AuxPoW — Commitment

A merge-mined block is committed to by the coinbase of its parent (`auxpow/verify.rs`,
`auxpow/qbit.rs`).  The coinbase script holds the root of a tree of child blocks, the size of the tree
and a nonce; the nonce and the id of the child chain say at which leaf the child stands.  There are
three verifiers, which differ in the byte order of the leaf and in how the root is found.

What each of them accepts is an equivalence (`verifyAuxpowCommitment_eq_ok`,
`verifyClassicAuxpowCommitment_eq_ok`, `verifyQbitProof_eq_ok`) with one shape of commitment,
`CommitsAt`.  `sha256d` is a parameter throughout.
-/

namespace MergeMiningMonitor.AuxPow

open Slices Fallible List

abbrev Bytes := List UInt8

/-- A digest, in wire order. -/
@[ext]
structure Hash32 where
  bytes : Bytes
  size : bytes.length = 32
deriving DecidableEq

namespace Hash32

/-- The digest of an array of 32 bytes. -/
def ofArray (bytes : { l : Bytes // l.length = 32 }) : Hash32 := ⟨bytes.1, bytes.2⟩

/-- The digest in the opposite byte order. -/
def reverse (h : Hash32) : Hash32 := ⟨h.bytes.reverse, by rw [length_reverse, h.size]⟩

theorem reverse_injective : Function.Injective reverse := fun _ _ h =>
  Hash32.ext (List.reverse_injective (congrArg bytes h))

end Hash32

/-- A block header, as its 80 bytes. -/
@[ext]
structure Header where
  bytes : Bytes
  size : bytes.length = 80
deriving DecidableEq

/-- The number in the four bytes at a position. -/
def u32At (bytes : Bytes) (pos : Nat) : UInt32 := UInt32.ofNat (ofLeBytes ((bytes.drop pos).take 4))

namespace Header

variable (header : Header)

/-- The bits of the version. -/
def version : UInt32 := u32At header.bytes 0

def merkleRoot : Hash32 :=
  ⟨(header.bytes.drop 36).take 32, by rw [length_take, length_drop, header.size]; rfl⟩

def bits : UInt32 := u32At header.bytes 72

end Header

structure TxOut where
  value : UInt64
  scriptPubkey : Bytes
deriving DecidableEq

/-- Siblings from the leaf up to the root, and on which side each of them stands. -/
structure MerkleBranch where
  hashes : List Hash32
  index : Int32
deriving DecidableEq

structure AuxpowProof where
  hashBlock : Hash32
  coinbaseBranch : MerkleBranch
  chainBranch : MerkleBranch
deriving DecidableEq

structure ParsedAuxpowBlock where
  childHeader : Header
  childHeight : Option Int
  childCoinbaseTxid : Option Hash32
  childCoinbaseScript : Option Bytes
  childCoinbaseOutputs : List TxOut
  parentHeader : Header
  proof : AuxpowProof
  parentCoinbaseTxid : Hash32
  parentCoinbaseScript : Bytes
  parentCoinbaseOutputs : List TxOut
  auxpowBytes : Bytes
deriving DecidableEq

/-- A Qbit proof as it is read, with the cap of its chain branch. -/
structure QbitRawAuxpow where
  coinbaseTxid : Hash32
  coinbaseScript : Bytes
  coinbaseOutputs : List TxOut
  coinbaseBranch : MerkleBranch
  chainBranch : MerkleBranch
  parentHeader : Header
  chain_cap : chainBranch.hashes.length ≤ 30
deriving DecidableEq

/-- Why a commitment is not accepted. -/
inductive CommitmentError
  | magicAbsent
  | multipleMagic
  | truncated
  | chainBranchTooDeep (branchLen : Nat)
  | treeSize (treeSize : UInt32) (branchLen : Nat)
  | negativeCoinbaseIndex
  | negativeChainIndex
  | coinbaseNotFirst (index : Int32)
  | chainSlot (chainIndex expectedSlot chainId : UInt32)
  | chainIndexOutsideTree (index : Int32)
  | coinbaseRoot
  | chainRoot
  | commitmentMissing
  | markerNotBeforeCommitment
  | markerlessCommitmentTooLate
  | truncatedFooter
deriving DecidableEq

def auxpowMagic : Bytes := [0xfa, 0xbe, 0x6d, 0x6d]

/-- `1u32 << branch_len` -/
def treeWidth (branchLen : Nat) : UInt32 := 1 <<< UInt32.ofNat branchLen

def auxpowExpectedIndex (nonce chainId : UInt32) (branchLen : Nat) : UInt32 :=
  let rand := nonce * 1103515245 + 12345
  let rand := rand + chainId
  let rand := rand * 1103515245 + 12345
  rand % treeWidth branchLen

/-- `read_commitment_footer`: the tree size and the nonce after the root. -/
def readCommitmentFooter (script : Bytes) (displayRoot : Hash32) :
    Except CommitmentError (UInt32 × UInt32) := do
  let rootPos ← required (findSubslice script displayRoot.bytes) .commitmentMissing
  match findSubslice script auxpowMagic with
  | some marker => do
    ensure (findSubslice (script.drop (marker + 1)) auxpowMagic = none) .multipleMagic
    ensure (marker + auxpowMagic.length = rootPos) .markerNotBeforeCommitment
    ensure (rootPos + 40 ≤ script.length) .truncatedFooter
    return (u32At script (rootPos + 32), u32At script (rootPos + 36))
  | none => do
    ensure (rootPos ≤ 20) .markerlessCommitmentTooLate
    ensure (rootPos + 40 ≤ script.length) .truncatedFooter
    return (u32At script (rootPos + 32), u32At script (rootPos + 36))

section Verifiers

variable (sha256d : Bytes → Hash32)

/-- What `sha256d_pair` hashes. -/
def pairBytes (left right : Hash32) : Bytes := left.bytes ++ right.bytes

/-- `sha256d_pair` -/
def sha256dPair (left right : Hash32) : Hash32 := sha256d (pairBytes left right)

def foldMerkleBranch (leaf : Hash32) (branch : MerkleBranch) : Hash32 :=
  (branch.hashes.foldl (fun (acc, index) sibling =>
    (if index &&& 1 = 1 then sha256dPair sha256d sibling acc else sha256dPair sha256d acc sibling,
      index >>> 1)) (leaf, branch.index.toUInt32)).1

/-- `verify_auxpow_commitment`, of Elastos, which reverses the leaf and the root. -/
def verifyAuxpowCommitment (parsed : ParsedAuxpowBlock) (childBlockHash : Hash32) (chainId : UInt32) :
    Except CommitmentError Unit := do
  let script := parsed.parentCoinbaseScript
  let markers := occurrences auxpowMagic script
  let magicPos ← required markers.head? .magicAbsent
  ensure (markers.tail = []) .multipleMagic
  let after := magicPos + auxpowMagic.length
  ensure (after + 40 ≤ script.length) .truncated
  let auxMerkleRoot := (script.drop after).take 32
  let treeSize := u32At script (after + 32)
  let nonce := u32At script (after + 36)
  let branchLen := parsed.proof.chainBranch.hashes.length
  ensure (branchLen < 32) (.chainBranchTooDeep branchLen)
  ensure (treeSize = treeWidth branchLen) (.treeSize treeSize branchLen)
  ensure (0 ≤ parsed.proof.coinbaseBranch.index) .negativeCoinbaseIndex
  ensure (0 ≤ parsed.proof.chainBranch.index) .negativeChainIndex
  ensure (parsed.proof.coinbaseBranch.index = 0) (.coinbaseNotFirst parsed.proof.coinbaseBranch.index)
  let expectedSlot := auxpowExpectedIndex nonce chainId branchLen
  let chainIndex := parsed.proof.chainBranch.index.toUInt32
  ensure (chainIndex = expectedSlot) (.chainSlot chainIndex expectedSlot chainId)
  ensure (foldMerkleBranch sha256d parsed.parentCoinbaseTxid parsed.proof.coinbaseBranch =
    parsed.parentHeader.merkleRoot) .coinbaseRoot
  let chainRoot := foldMerkleBranch sha256d childBlockHash.reverse parsed.proof.chainBranch
  ensure (chainRoot.bytes = auxMerkleRoot.reverse) .chainRoot

def verifyClassicAuxpowCommitment (parsed : ParsedAuxpowBlock) (childBlockHash : Hash32)
    (chainId : UInt32) : Except CommitmentError Unit := do
  let branchLen := parsed.proof.chainBranch.hashes.length
  ensure (branchLen ≤ 30) (.chainBranchTooDeep branchLen)
  ensure (parsed.proof.coinbaseBranch.index = 0) (.coinbaseNotFirst parsed.proof.coinbaseBranch.index)
  ensure (0 ≤ parsed.proof.chainBranch.index) .negativeChainIndex
  ensure (foldMerkleBranch sha256d parsed.parentCoinbaseTxid parsed.proof.coinbaseBranch =
    parsed.parentHeader.merkleRoot) .coinbaseRoot
  let displayRoot := (foldMerkleBranch sha256d childBlockHash parsed.proof.chainBranch).reverse
  let (treeSize, nonce) ← readCommitmentFooter parsed.parentCoinbaseScript displayRoot
  ensure (treeSize = treeWidth branchLen) (.treeSize treeSize branchLen)
  let expectedSlot := auxpowExpectedIndex nonce chainId branchLen
  let chainIndex := parsed.proof.chainBranch.index.toUInt32
  ensure (chainIndex = expectedSlot) (.chainSlot chainIndex expectedSlot chainId)

def qbitAuxpowChainId : UInt32 := 47

def verifyQbitProof (childHeader : Header) (auxpow : QbitRawAuxpow) : Except CommitmentError Unit := do
  ensure (auxpow.coinbaseBranch.index = 0) (.coinbaseNotFirst auxpow.coinbaseBranch.index)
  let chainLen := auxpow.chainBranch.hashes.length
  let chainIndex := auxpow.chainBranch.index
  ensure (0 ≤ chainIndex ∧ chainIndex.toInt < 2 ^ chainLen) (.chainIndexOutsideTree chainIndex)
  ensure (foldMerkleBranch sha256d auxpow.coinbaseTxid auxpow.coinbaseBranch =
    auxpow.parentHeader.merkleRoot) .coinbaseRoot
  let chainRoot := foldMerkleBranch sha256d (sha256d childHeader.bytes) auxpow.chainBranch
  let (treeSize, nonce) ← readCommitmentFooter auxpow.coinbaseScript chainRoot.reverse
  ensure (treeSize = treeWidth chainLen) (.treeSize treeSize chainLen)
  let expectedSlot := auxpowExpectedIndex nonce qbitAuxpowChainId chainLen
  ensure (chainIndex.toUInt32 = expectedSlot)
    (.chainSlot chainIndex.toUInt32 expectedSlot qbitAuxpowChainId)

end Verifiers

/-! ### Arithmetic of the slot -/

theorem toNat_treeWidth {k : Nat} (hk : k < 32) : (treeWidth k).toNat = 2 ^ k := by
  have hshift : (UInt32.ofNat k).toNat % 32 = k := by
    rw [UInt32.toNat_ofNat_of_lt' (hk.trans (by decide))]
    exact Nat.mod_eq_of_lt hk
  rw [treeWidth, UInt32.toNat_shiftLeft, hshift, UInt32.toNat_one, Nat.one_shiftLeft]
  exact Nat.mod_eq_of_lt (Nat.pow_lt_pow_right (by decide) hk)

theorem treeWidth_inj {j k : Nat} (hj : j < 32) (hk : k < 32) (h : treeWidth j = treeWidth k) :
    j = k := by
  refine Nat.pow_right_injective (le_refl 2) ?_
  exact (toNat_treeWidth hj).symm.trans ((congrArg UInt32.toNat h).trans (toNat_treeWidth hk))

theorem auxpowExpectedIndex_lt (nonce chainId : UInt32) {k : Nat} (hk : k < 32) :
    (auxpowExpectedIndex nonce chainId k).toNat < 2 ^ k := by
  rw [auxpowExpectedIndex, UInt32.toNat_mod, toNat_treeWidth hk]
  exact Nat.mod_lt _ (Nat.two_pow_pos k)

theorem toInt_of_toUInt32_lt {index : Int32} (h : index.toUInt32.toNat < 2 ^ 31) :
    index.toInt = index.toUInt32.toNat :=
  BitVec.toInt_eq_toNat_of_lt (by
    rw [Nat.pow_succ', Nat.mul_lt_mul_left (by decide)]
    exact h)

theorem nonneg_of_toUInt32_lt {index : Int32} (h : index.toUInt32.toNat < 2 ^ 31) : 0 ≤ index := by
  rw [Int32.le_iff_toInt_le, toInt_of_toUInt32_lt h]
  exact Int.natCast_nonneg _

/-! ### Folding -/

theorem pairBytes_injective : Function.Injective2 pairBytes := by
  intro a a' b b' h
  obtain ⟨hleft, hright⟩ := append_inj h (a.size.trans a'.size.symm)
  exact ⟨Hash32.ext hleft, Hash32.ext hright⟩

section Specs

variable {sha256d : Bytes → Hash32}

theorem foldMerkleBranch_eq (leaf : Hash32) (branch : MerkleBranch) :
    foldMerkleBranch sha256d leaf branch =
      Merkle.fold sha256d pairBytes leaf branch.hashes branch.index.toUInt32.toNat := by
  obtain ⟨hashes, index⟩ := branch
  rw [foldMerkleBranch]
  generalize index.toUInt32 = i
  induction hashes generalizing leaf i with
  | nil => rfl
  | cons s ss ih =>
    have hbit : i &&& 1 = 1 ↔ i.toNat % 2 = 1 := by
      rw [← UInt32.toNat_inj, UInt32.toNat_and]
      exact Iff.of_eq (congrArg (· = 1) (Nat.and_one_is_mod _))
    have hnext : (i >>> 1).toNat = i.toNat / 2 := by
      rw [UInt32.toNat_shiftRight]
      exact Nat.shiftRight_eq_div_pow _ 1
    rw [foldl_cons, Merkle.fold, ih, hnext]
    simp only [hbit, sha256dPair, apply_ite sha256d]

/-! ### What a script commits to -/

variable (sha256d) in
/-- The coinbase is the first transaction under the parent header. -/
def CoinbaseFirst (txid : Hash32) (branch : MerkleBranch) (parentHeader : Header) : Prop :=
  branch.index = 0 ∧ foldMerkleBranch sha256d txid branch = parentHeader.merkleRoot

variable (sha256d) in
/-- At a position the script holds the reversed root of the leaf's branch, the size of the tree and the
nonce that gives the leaf's slot. -/
structure CommitsAt (script : Bytes) (chainId : UInt32) (pos : Nat) (leaf : Hash32)
    (branch : MerkleBranch) : Prop where
  fits : pos + 40 ≤ script.length
  root : OccursAt (foldMerkleBranch sha256d leaf branch).reverse.bytes script pos
  treeSize : u32At script (pos + 32) = treeWidth branch.hashes.length
  slot : branch.index.toUInt32 =
    auxpowExpectedIndex (u32At script (pos + 36)) chainId branch.hashes.length

theorem auxpowMagic_ne_nil : auxpowMagic ≠ [] := cons_ne_nil _ _

theorem Hash32.bytes_ne_nil (h : Hash32) : h.bytes ≠ [] :=
  ne_nil_of_length_pos (h.size.symm ▸ by decide)

theorem Hash32.occursAt_iff {h : Hash32} {script : Bytes} {pos : Nat} :
    OccursAt h.bytes script pos ↔ h.bytes = (script.drop pos).take 32 := by
  rw [OccursAt, prefix_iff_eq_take, h.size]

section Once

variable {script : Bytes} {m : Nat} (honce : occurrences auxpowMagic script = [m])

include honce

theorem findSubslice_magic : findSubslice script auxpowMagic = some m := by
  obtain ⟨hhere, honly⟩ := (occurrences_eq_singleton auxpowMagic_ne_nil).mp honce
  exact (findSubslice_eq_some auxpowMagic_ne_nil).mpr
    ⟨hhere, fun j hj hoccurs => hj.ne (honly j hoccurs)⟩

theorem findSubslice_magic_after : findSubslice (script.drop (m + 1)) auxpowMagic = none := by
  obtain ⟨-, honly⟩ := (occurrences_eq_singleton auxpowMagic_ne_nil).mp honce
  refine (findSubslice_eq_none auxpowMagic_ne_nil).mpr fun j hoccurs => ?_
  rw [OccursAt, drop_drop] at hoccurs
  have hsame := honly _ hoccurs
  omega

/-- With one marker the footer is read right after it, at the first place of the root. -/
theorem readCommitmentFooter_eq_ok {displayRoot : Hash32} {treeSize nonce : UInt32} :
    readCommitmentFooter script displayRoot = .ok (treeSize, nonce) ↔
      findSubslice script displayRoot.bytes = some (m + 4) ∧ m + 4 + 40 ≤ script.length ∧
        u32At script (m + 4 + 32) = treeSize ∧ u32At script (m + 4 + 36) = nonce := by
  rw [readCommitmentFooter, findSubslice_magic honce]
  simp only [bind_eq_ok, required_eq_ok, ensure_eq_ok, findSubslice_magic_after honce,
    exists_const, true_and]
  constructor
  · rintro ⟨pos, hroot, rfl, hfits, hfooter⟩
    obtain ⟨rfl, rfl⟩ := Prod.mk.inj (Except.ok.inj hfooter)
    exact ⟨hroot, hfits, rfl, rfl⟩
  · rintro ⟨hroot, hfits, rfl, rfl⟩
    exact ⟨_, hroot, rfl, hfits, rfl⟩

theorem readCommitmentFooter_commitsAt {leaf : Hash32} {branch : MerkleBranch} {chainId : UInt32} :
    (∃ footer, readCommitmentFooter script (foldMerkleBranch sha256d leaf branch).reverse = .ok footer ∧
      footer.1 = treeWidth branch.hashes.length ∧
      branch.index.toUInt32 = auxpowExpectedIndex footer.2 chainId branch.hashes.length) ↔
    CommitsAt sha256d script chainId (m + 4) leaf branch ∧
      ∀ j < m + 4, ¬ OccursAt (foldMerkleBranch sha256d leaf branch).reverse.bytes script j := by
  constructor
  · rintro ⟨⟨treeSize, nonce⟩, hread, hsize, hslot⟩
    obtain ⟨hroot, hfits, rfl, rfl⟩ := (readCommitmentFooter_eq_ok honce).mp hread
    obtain ⟨hhere, hfirst⟩ := (findSubslice_eq_some (Hash32.bytes_ne_nil _)).mp hroot
    exact ⟨⟨hfits, hhere, hsize, hslot⟩, hfirst⟩
  · rintro ⟨⟨hfits, hhere, hsize, hslot⟩, hfirst⟩
    exact ⟨_, (readCommitmentFooter_eq_ok honce).mpr
      ⟨(findSubslice_eq_some (Hash32.bytes_ne_nil _)).mpr ⟨hhere, hfirst⟩, hfits, rfl, rfl⟩,
      hsize, hslot⟩

/-- **What the Elastos verifier accepts.** -/
theorem verifyAuxpowCommitment_eq_ok {parsed : ParsedAuxpowBlock} {child : Hash32} {chainId : UInt32}
    (hscript : parsed.parentCoinbaseScript = script) :
    verifyAuxpowCommitment sha256d parsed child chainId = .ok () ↔
      parsed.proof.chainBranch.hashes.length < 32 ∧ 0 ≤ parsed.proof.chainBranch.index ∧
        CoinbaseFirst sha256d parsed.parentCoinbaseTxid parsed.proof.coinbaseBranch
          parsed.parentHeader ∧
        CommitsAt sha256d script chainId (m + 4) child.reverse parsed.proof.chainBranch := by
  subst hscript
  have hroot : ∀ (r : Hash32) (l : Bytes), r.bytes = l.reverse ↔ r.reverse.bytes = l :=
    fun r l => by rw [Hash32.reverse, reverse_eq_iff]
  simp only [verifyAuxpowCommitment, honce, bind_eq_ok, required_eq_ok, ensure_eq_ok, exists_const,
    head?_cons, tail_cons, true_and, Option.some.injEq, exists_eq_left', hroot,
    ← Hash32.occursAt_iff]
  constructor
  · rintro ⟨hfits, hdepth, hsize, -, hindex, hfirst, hslot, hcoinbase, hchain⟩
    exact ⟨hdepth, hindex, ⟨hfirst, hcoinbase⟩, hfits, hchain, hsize, hslot⟩
  · rintro ⟨hdepth, hindex, ⟨hfirst, hcoinbase⟩, hfits, hchain, hsize, hslot⟩
    exact ⟨hfits, hdepth, hsize, hfirst ▸ Int32.le_refl _, hindex, hfirst, hslot, hcoinbase, hchain⟩

/-- **What the classic verifier accepts.** -/
theorem verifyClassicAuxpowCommitment_eq_ok {parsed : ParsedAuxpowBlock} {child : Hash32}
    {chainId : UInt32} (hscript : parsed.parentCoinbaseScript = script) :
    verifyClassicAuxpowCommitment sha256d parsed child chainId = .ok () ↔
      parsed.proof.chainBranch.hashes.length ≤ 30 ∧ 0 ≤ parsed.proof.chainBranch.index ∧
        CoinbaseFirst sha256d parsed.parentCoinbaseTxid parsed.proof.coinbaseBranch
          parsed.parentHeader ∧
        CommitsAt sha256d script chainId (m + 4) child parsed.proof.chainBranch ∧
        ∀ j < m + 4,
          ¬ OccursAt (foldMerkleBranch sha256d child parsed.proof.chainBranch).reverse.bytes script j
        := by
  subst hscript
  rw [← readCommitmentFooter_commitsAt honce]
  simp only [verifyClassicAuxpowCommitment, bind_eq_ok, ensure_eq_ok, exists_const]
  constructor
  · rintro ⟨hdepth, hfirst, hindex, hcoinbase, hfooter⟩
    exact ⟨hdepth, hindex, ⟨hfirst, hcoinbase⟩, hfooter⟩
  · rintro ⟨hdepth, hindex, ⟨hfirst, hcoinbase⟩, hfooter⟩
    exact ⟨hdepth, hfirst, hindex, hcoinbase, hfooter⟩

/-- **What the Qbit verifier accepts.** -/
theorem verifyQbitProof_eq_ok {childHeader : Header} {auxpow : QbitRawAuxpow}
    (hscript : auxpow.coinbaseScript = script) :
    verifyQbitProof sha256d childHeader auxpow = .ok () ↔
      (0 ≤ auxpow.chainBranch.index ∧
        auxpow.chainBranch.index.toInt < 2 ^ auxpow.chainBranch.hashes.length) ∧
        CoinbaseFirst sha256d auxpow.coinbaseTxid auxpow.coinbaseBranch auxpow.parentHeader ∧
        CommitsAt sha256d script qbitAuxpowChainId (m + 4) (sha256d childHeader.bytes)
          auxpow.chainBranch ∧
        ∀ j < m + 4, ¬ OccursAt (foldMerkleBranch sha256d (sha256d childHeader.bytes)
          auxpow.chainBranch).reverse.bytes script j := by
  subst hscript
  rw [← readCommitmentFooter_commitsAt honce]
  simp only [verifyQbitProof, bind_eq_ok, ensure_eq_ok, exists_const]
  constructor
  · rintro ⟨hfirst, hindex, hcoinbase, hfooter⟩
    exact ⟨hindex, ⟨hfirst, hcoinbase⟩, hfooter⟩
  · rintro ⟨hindex, ⟨hfirst, hcoinbase⟩, hfooter⟩
    exact ⟨hfirst, hindex, hcoinbase, hfooter⟩

end Once

end Specs

/-! ### A sample -/

namespace Sample

def sha256 (bytes : Bytes) : Hash32 := ⟨Sha256.digest bytes, Sha256.length_digest bytes⟩

def sha256d (bytes : Bytes) : Hash32 := sha256 (sha256 bytes).bytes

def hash (b : UInt8) : Hash32 := ⟨List.replicate 32 b, length_replicate⟩

def outputs : List TxOut := [⟨5000000000, [0x51]⟩]

/-- What comes before the script of a serialized coinbase. -/
def coinbaseHead (scriptLength : UInt8) : Bytes :=
  toLeBytes 4 1 ++ [1] ++ List.replicate 32 0 ++ List.replicate 4 0xff ++ [scriptLength]

/-- What comes after it. -/
def coinbaseTail : Bytes :=
  List.replicate 4 0xff ++ [1] ++ toLeBytes 8 5000000000 ++ [1, 0x51] ++ toLeBytes 4 0

/-- A serialized coinbase with a script of 44 bytes. -/
def coinbase (script : Bytes) : Bytes := coinbaseHead 44 ++ (script ++ coinbaseTail)

/-- The header of a block with one transaction. -/
def headerOf (version : Nat) (script : Bytes) (nonce : Nat) : Header where
  bytes := toLeBytes 4 version ++ (hash 0).bytes ++ (sha256d (coinbase script)).bytes ++
    toLeBytes 4 1700000000 ++ toLeBytes 4 0x1f00ffff ++ toLeBytes 4 nonce
  size := by
    simp only [length_append, length_toLeBytes, Hash32.size]

/-- A child's coinbase script, at height 500. -/
def childScript : Bytes := [2, 0xf4, 0x01] ++ List.replicate 41 0

/-- A child with chain id 1. -/
def header : Header := headerOf 0x00010100 childScript 0

def childHash : Hash32 := sha256d header.bytes

def chainBranch : MerkleBranch := ⟨[hash 0], 1⟩

/-- A commitment to a tree of two leaves, at nonce 0, with the child second. -/
def script (child : Header) : Bytes :=
  auxpowMagic ++ (foldMerkleBranch sha256d (sha256d child.bytes) chainBranch).reverse.bytes ++
    toLeBytes 4 2 ++ toLeBytes 4 0

def parentHeader (child : Header) (nonce : Nat) : Header := headerOf 2 (script child) nonce

/-- A block whose parent has one transaction. -/
def block (hashBlock : Hash32) : ParsedAuxpowBlock where
  childHeader := header
  childHeight := none
  childCoinbaseTxid := none
  childCoinbaseScript := none
  childCoinbaseOutputs := []
  parentHeader := parentHeader header 0
  proof := ⟨hashBlock, ⟨[], 0⟩, chainBranch⟩
  parentCoinbaseTxid := sha256d (coinbase (script header))
  parentCoinbaseScript := script header
  parentCoinbaseOutputs := outputs
  auxpowBytes := []

def qbitProof (outputs : List TxOut) : QbitRawAuxpow where
  coinbaseTxid := sha256d (coinbase (script header))
  coinbaseScript := script header
  coinbaseOutputs := outputs
  coinbaseBranch := ⟨[], 0⟩
  chainBranch := chainBranch
  parentHeader := parentHeader header 0
  chain_cap := by decide

end Sample

end MergeMiningMonitor.AuxPow
