import MergeMiningMonitor.Support.CompactSize
import MergeMiningMonitor.AuxPow.Commitment

/-!
# AuxPoW — Wire

The readers of the proofs on the wire (`auxpow/reader.rs`, `auxpow/qbit.rs`).  A `CAuxPow` record is the
parent's coinbase, a block hash, two Merkle branches and the parent's header; a Qbit record has no block
hash, branches whose length is one capped byte, and a coinbase in the encoding without witnesses.

Transactions and blocks are decoded by rust-bitcoin, which is a parameter (`RustBitcoin`) with the laws
that are asked of it.  Both records are read locally (`local_readAuxpow`, `local_readQbitAuxpow`), in
spite of the checks that look at the bytes to come.
-/

namespace MergeMiningMonitor.AuxPow

open Slices Fallible Readers

/-- What is used of rust-bitcoin, with its transactions as `Tx`. -/
structure RustBitcoin (Tx : Type) where
  /-- `deserialize_partial::<Transaction>`: the transaction, and how many bytes it took. -/
  deserializePartial : Bytes → Option (Tx × Nat)
  /-- `deserialize::<Block>` -/
  deserializeBlock : Bytes → Option (Header × List Tx)
  /-- The script of each input. -/
  inputScripts : Tx → List Bytes
  outputs : Tx → List TxOut
  isCoinbase : Tx → Bool
  /-- The serialization without witnesses, which `compute_txid` hashes. -/
  serializeNoWitness : Tx → Bytes
  /-- `Target::from_compact`, as a number. -/
  fromCompact : UInt32 → Nat
  consumed_le : ∀ {bytes tx n}, deserializePartial bytes = some (tx, n) → n ≤ bytes.length
  /-- A transaction depends only on the bytes it took. -/
  partial_local : ∀ {bytes tx n}, deserializePartial bytes = some (tx, n) →
    ∀ other, deserializePartial (bytes.take n ++ other) = some (tx, n)
  coinbase_input : ∀ {tx}, isCoinbase tx = true → (inputScripts tx).length = 1
  /-- A block starts with its header. -/
  block_header : ∀ {bytes header txs}, deserializeBlock bytes = some (header, txs) →
    header.bytes = bytes.take 80
  /-- The serialization holds the scripts of the inputs and the outputs. -/
  serialize_inj : ∀ {tx tx'}, serializeNoWitness tx = serializeNoWitness tx' →
    inputScripts tx = inputScripts tx' ∧ outputs tx = outputs tx'

/-- Why a block or a proof is not accepted. -/
inductive ParseError
  | shorterThanHeader
  | unexpectedEnd
  | transaction
  | branchCount (count : Nat)
  | noTransactions
  | missingTransactions
  | notAuxpowVersion
  | tooManyBytes (length : Nat)
  | trailingBytes
  | requestedHash
  | parentNotCoinbase
  | childChainId
  | parentChainId
  | childBlock
  | childMerkleRoot
  | childNotCoinbase
  | childWithoutInputs
  | childHeight
  | childHeaderMismatch
  | commitment (e : CommitmentError)
  | parentWork
  | qbitVersion (version : UInt32)
  | qbitChainId (chainId : UInt32)
  | qbitTarget
  | qbitWork
  | witnessEncoding
  | heightRange
  /-- `QbitProofError`: the proof itself is at fault. -/
  | qbitProof (e : ParseError)
deriving DecidableEq

structure ParsedTransaction where
  txid : Hash32
  isCoinbase : Bool
  firstInputScript : Option Bytes
  outputs : List TxOut
deriving DecidableEq

structure ParsedAuxpow where
  coinbaseTx : ParsedTransaction
  hashBlock : Hash32
  coinbaseBranch : MerkleBranch
  chainBranch : MerkleBranch
  parentHeader : Header
deriving DecidableEq

/-- A reader of bytes.  Its state is the remaining slice. -/
abbrev ByteReader := Reader UInt8 ParseError

/-! ### The cursor -/

def readArray (n : Nat) : ByteReader { l : Bytes // l.length = n } := takeExact n .unexpectedEnd

def readU8 : ByteReader UInt8 := CompactSize.byte .unexpectedEnd

def readI32 : ByteReader Int32 := do
  let n ← CompactSize.le 4 .unexpectedEnd
  return ⟨UInt32.ofNat n⟩

def readHash : ByteReader Hash32 := do
  let bytes ← readArray 32
  return .ofArray bytes

/-- `parse_header` of the next 80 bytes.  Every 80 bytes are a header. -/
def readHeader : ByteReader Header := do
  let bytes ← readArray 80
  return ⟨bytes.1, bytes.2⟩

/-- `read_varint`, whose u64 always fits a usize of 64 bits. -/
def readVarint : ByteReader Nat := CompactSize.compactSize .unexpectedEnd

/-! ### Records -/

section Records

variable {Tx : Type} (sha256d : Bytes → Hash32) (rust : RustBitcoin Tx)

def computeTxid (tx : Tx) : Hash32 := sha256d (rust.serializeNoWitness tx)

/-- A transaction off the front of the remaining slice. -/
def deserializeNext : ByteReader Tx := fun input => do
  let (tx, consumed) ← required (rust.deserializePartial input) .transaction
  let (_, rest) ← readArray consumed input
  return (tx, rest)

def readTransaction : ByteReader ParsedTransaction := do
  let tx ← deserializeNext rust
  return ⟨computeTxid sha256d rust tx, rust.isCoinbase tx, (rust.inputScripts tx).head?,
    rust.outputs tx⟩

def readMerkleBranch : ByteReader (List Hash32) := do
  let count ← readVarint
  lookahead (fun remaining => count ≤ remaining.length / 32) (.branchCount count)
  let hashes ← times readHash count
  return hashes.1

def readAuxpow : ByteReader ParsedAuxpow := do
  let coinbaseTx ← readTransaction sha256d rust
  let hashBlock ← readHash
  let coinbaseHashes ← readMerkleBranch
  let coinbaseIndex ← readI32
  let chainHashes ← readMerkleBranch
  let chainIndex ← readI32
  let parentHeader ← readHeader
  return ⟨coinbaseTx, hashBlock, ⟨coinbaseHashes, coinbaseIndex⟩, ⟨chainHashes, chainIndex⟩,
    parentHeader⟩

/-- `read_qbit_branch`: the branch has no more hashes than the cap. -/
def readQbitBranch (cap : Nat) : ByteReader { hashes : List Hash32 // hashes.length ≤ cap } := do
  let count ← readU8
  if h : count.toNat ≤ cap then do
    let hashes ← times readHash count.toNat
    return ⟨hashes.1, hashes.2.trans_le h⟩
  else throw (.branchCount count.toNat)

/-- The rest of `read_qbit_auxpow`, after its check of the encoding. -/
def readQbitRecord : ByteReader QbitRawAuxpow := do
  let tx ← deserializeNext rust
  check (rust.isCoinbase tx = true) .parentNotCoinbase
  let coinbaseHashes ← readQbitBranch 31
  let coinbaseIndex ← readI32
  let chainHashes ← readQbitBranch 30
  let chainIndex ← readI32
  let parentHeader ← readHeader
  -- A coinbase has one input, so the default script is never taken.
  return {
    coinbaseTxid := computeTxid sha256d rust tx
    coinbaseScript := (rust.inputScripts tx).headD []
    coinbaseOutputs := rust.outputs tx
    coinbaseBranch := ⟨coinbaseHashes.1, coinbaseIndex⟩
    chainBranch := ⟨chainHashes.1, chainIndex⟩
    parentHeader
    chain_cap := chainHashes.2 }

/-- `read_qbit_auxpow`: the fifth byte of a transaction with witnesses is zero. -/
def readQbitAuxpow : ByteReader QbitRawAuxpow := do
  lookahead (fun remaining => remaining[4]? ≠ some 0) .witnessEncoding
  readQbitRecord sha256d rust

end Records

/-! ### Locality -/

theorem local_readI32 : Local 4 readI32 := (CompactSize.local_le 4).bind fun _ => Local.pure _

theorem local_readHash : Local 32 readHash := (Local.takeExact).bind fun _ => Local.pure _

theorem local_readHeader : Local 80 readHeader := (Local.takeExact).bind fun _ => Local.pure _

theorem local_readMerkleBranch : Local 1 readMerkleBranch := by
  refine CompactSize.local_compactSize.bind fun count => Local.mono ?_ (Nat.zero_le (count * 32 + 0))
  refine Local.lookahead_bind ((local_readHash.times count).bind fun hashes => Local.pure _) ?_
  intro used rest other hlength _
  rw [Nat.le_div_iff_mul_le (by decide), List.length_append]
  omega

theorem local_readQbitBranch (cap : Nat) : Local 1 (readQbitBranch cap) := by
  refine CompactSize.local_byte.bind (n := 0) fun count => ?_
  split_ifs
  · exact ((local_readHash.times _).bind fun _ => Local.pure _).mono (Nat.zero_le _)
  · exact Local.throw

section Records

variable {Tx : Type} {sha256d : Bytes → Hash32} {rust : RustBitcoin Tx}

theorem read_deserializeNext {input rest : Bytes} {tx : Tx} :
    deserializeNext rust input = .ok (tx, rest) ↔
      ∃ used, input = used ++ rest ∧ rust.deserializePartial input = some (tx, used.length) := by
  simp only [deserializeNext, bind_eq_ok, required_eq_ok, readArray, Prod.exists, read_takeExact]
  constructor
  · rintro ⟨tx', n, hpartial, used, mid, rfl, hresult⟩
    obtain ⟨rfl, rfl⟩ := Prod.mk.inj (Except.ok.inj hresult)
    exact ⟨used.1, rfl, used.2.symm ▸ hpartial⟩
  · rintro ⟨used, rfl, hpartial⟩
    exact ⟨tx, used.length, hpartial, ⟨used, rfl⟩, rest, rfl, rfl⟩

theorem local_deserializeNext : Local 0 (deserializeNext rust) := by
  intro input tx rest hread
  obtain ⟨used, rfl, hpartial⟩ := read_deserializeNext.mp hread
  refine ⟨used, rfl, Nat.zero_le _, fun other => read_deserializeNext.mpr ⟨used, rfl, ?_⟩⟩
  have hlocal := rust.partial_local hpartial other
  rwa [List.take_left] at hlocal

theorem local_readTransaction : Local 0 (readTransaction sha256d rust) :=
  local_deserializeNext.bind fun _ => Local.pure _

/-- **A `CAuxPow` record depends only on its own bytes.** -/
theorem local_readAuxpow : Local 0 (readAuxpow sha256d rust) :=
  Local.mono (local_readTransaction.bind fun _ => local_readHash.bind fun _ =>
    local_readMerkleBranch.bind fun _ => local_readI32.bind fun _ => local_readMerkleBranch.bind fun _ =>
    local_readI32.bind fun _ => local_readHeader.bind fun _ => Local.pure _) (Nat.zero_le _)

theorem local_readQbitRecord : Local 5 (readQbitRecord sha256d rust) :=
  Local.mono (local_deserializeNext.bind fun _ => Local.check.bind fun _ =>
    (local_readQbitBranch 31).bind fun _ => local_readI32.bind fun _ =>
    (local_readQbitBranch 30).bind fun _ => local_readI32.bind fun _ => local_readHeader.bind fun _ =>
    Local.pure _) (by decide)

/-- **A Qbit record depends only on its own bytes**: it is long enough to hold the byte that tells its
encoding. -/
theorem local_readQbitAuxpow : Local 5 (readQbitAuxpow sha256d rust) := by
  refine Local.lookahead_bind local_readQbitRecord ?_
  intro used rest other hlength hbyte
  rw [List.getElem?_append_left (by omega)] at hbyte ⊢
  exact hbyte

end Records

/-! ### A sample -/

namespace Sample

def qbitHeader : Header := headerOf 0x2005e100 childScript 0

/-- The coinbases of the two parents and of the children. -/
inductive Tx
  | parent
  | qbitParent
  | child
deriving DecidableEq

def Tx.script : Tx → Bytes
  | .parent => Sample.script header
  | .qbitParent => Sample.script qbitHeader
  | .child => childScript

def Tx.serialize (tx : Tx) : Bytes := coinbase tx.script

theorem Tx.length_serialize (tx : Tx) : tx.serialize.length = 105 := by
  have hscript : tx.script.length = 44 := by
    cases tx with
    | child => rfl
    | _ =>
      simp only [script, Sample.script, auxpowMagic, List.length_append, List.length_cons,
        List.length_nil, length_toLeBytes, Hash32.size]
  simp only [serialize, coinbase, coinbaseHead, coinbaseTail, List.length_append, List.length_cons,
    List.length_nil, List.length_replicate, length_toLeBytes, hscript]

theorem Tx.of_find {txs : List Tx} {bytes : Bytes} {tx : Tx} {n : Nat}
    (h : (txs.find? fun tx => tx.serialize = bytes.take 105).map (·, 105) = some (tx, n)) :
    tx.serialize = bytes.take 105 ∧ n = 105 := by
  obtain ⟨found, hfind, heq⟩ := Option.map_eq_some_iff.mp h
  obtain ⟨rfl, rfl⟩ := Prod.mk.inj heq
  exact ⟨by simpa using List.find?_some hfind, rfl⟩

/-- rust-bitcoin on these coinbases. -/
def rust : RustBitcoin Tx where
  deserializePartial bytes :=
    ([Tx.parent, .qbitParent, .child].find? fun tx => tx.serialize = bytes.take 105).map (·, 105)
  deserializeBlock bytes :=
    if h : 80 ≤ bytes.length ∧ bytes.drop 80 = 1 :: Tx.child.serialize then
      some (⟨bytes.take 80, List.length_take_of_le h.1⟩, [.child]) else none
  inputScripts tx := [tx.script]
  outputs _ := outputs
  isCoinbase _ := true
  serializeNoWitness := Tx.serialize
  fromCompact bits := bits.toNat % 2 ^ 24 * 256 ^ (bits.toNat / 2 ^ 24 - 3)
  consumed_le := by
    intro bytes tx n h
    obtain ⟨htake, rfl⟩ := Tx.of_find h
    have hlength := congrArg List.length htake
    rw [Tx.length_serialize, List.length_take] at hlength
    omega
  partial_local := by
    intro bytes tx n h other
    obtain ⟨htake, rfl⟩ := Tx.of_find h
    have hcut : (bytes.take 105 ++ other).take 105 = bytes.take 105 := by
      rw [← htake]
      exact List.take_left' tx.length_serialize
    rwa [hcut]
  coinbase_input _ := rfl
  block_header := by
    intro bytes header txs h
    split at h
    · cases h
      rfl
    · cases h
  serialize_inj h :=
    ⟨congrArg ([·]) (List.append_cancel_right (List.append_cancel_left h)), rfl⟩

end Sample

end MergeMiningMonitor.AuxPow
