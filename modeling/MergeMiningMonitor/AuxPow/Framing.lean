import MergeMiningMonitor.AuxPow.Wire

/-!
# AuxPoW — Framing

What is written reads back.  A proof is stored between other bytes, so its reader has to find where the
proof ends: the encoding of a record reads as the record with any bytes after it, which are left, and no
part of the encoding that is cut short reads as anything (`proof_readers_frame`).

The records are those a reader can be given: a `CAuxPow` record whose branch lengths fit the count, and
a Qbit record whose branches keep to the caps and whose coinbase is written without witnesses.
Transactions are written by rust-bitcoin's serializer, with the law that the deserializer inverts it
(`Serializer`); that a transaction cut short is refused follows from `RustBitcoin.partial_local`.
-/

namespace MergeMiningMonitor.AuxPow

open Slices Readers List

/-- What is used of rust-bitcoin's writer of transactions. -/
structure Serializer {Tx : Type} (rust : RustBitcoin Tx) where
  /-- `serialize::<Transaction>`: with witnesses, for a transaction that has some. -/
  serialize : Tx → Bytes
  inverts : ∀ tx, rust.deserializePartial (serialize tx) = some (tx, (serialize tx).length)
  /-- After the four bytes of the version comes the number of inputs. -/
  input_count : ∀ tx, (rust.inputScripts tx).length = 1 → (rust.serializeNoWitness tx)[4]? = some 1

/-! ### Records and their encodings -/

/-- A `CAuxPow` value.  The branches have as many hashes as a count of eight bytes can say. -/
structure AuxpowRecord (Tx : Type) where
  coinbaseTx : Tx
  hashBlock : Hash32
  coinbaseBranch : MerkleBranch
  chainBranch : MerkleBranch
  parentHeader : Header
  coinbase_count : coinbaseBranch.hashes.length < 256 ^ 8
  chain_count : chainBranch.hashes.length < 256 ^ 8

/-- A Qbit proof: a coinbase without witnesses, and branches within the caps. -/
structure QbitRecord {Tx : Type} {rust : RustBitcoin Tx} (writer : Serializer rust) where
  coinbaseTx : Tx
  coinbaseBranch : MerkleBranch
  chainBranch : MerkleBranch
  parentHeader : Header
  is_coinbase : rust.isCoinbase coinbaseTx = true
  no_witness : writer.serialize coinbaseTx = rust.serializeNoWitness coinbaseTx
  coinbase_cap : coinbaseBranch.hashes.length ≤ 31
  chain_cap : chainBranch.hashes.length ≤ 30

def encodeI32 (i : Int32) : Bytes := toLeBytes 4 i.toUInt32.toNat

def encodeHashes (hashes : List Hash32) : Bytes := hashes.flatMap Hash32.bytes

/-- A branch after its number of hashes in the variable width. -/
def encodeMerkleBranch (hashes : List Hash32) : Bytes :=
  CompactSize.encode hashes.length ++ encodeHashes hashes

/-- A branch after its number of hashes in one byte. -/
def encodeQbitBranch (hashes : List Hash32) : Bytes :=
  [UInt8.ofNat hashes.length] ++ encodeHashes hashes

section Encodings

variable {Tx : Type} {rust : RustBitcoin Tx} (writer : Serializer rust)

/-- A `CAuxPow` on the wire. -/
def encodeAuxpow (x : AuxpowRecord Tx) : Bytes :=
  writer.serialize x.coinbaseTx ++ (x.hashBlock.bytes ++
    (encodeMerkleBranch x.coinbaseBranch.hashes ++ (encodeI32 x.coinbaseBranch.index ++
    (encodeMerkleBranch x.chainBranch.hashes ++ (encodeI32 x.chainBranch.index ++
    x.parentHeader.bytes)))))

/-- A Qbit proof on the wire. -/
def encodeQbitAuxpow (x : QbitRecord writer) : Bytes :=
  writer.serialize x.coinbaseTx ++ (encodeQbitBranch x.coinbaseBranch.hashes ++
    (encodeI32 x.coinbaseBranch.index ++ (encodeQbitBranch x.chainBranch.hashes ++
    (encodeI32 x.chainBranch.index ++ x.parentHeader.bytes))))

variable (sha256d : Bytes → Hash32) (rust)

/-- What the reader keeps of a `CAuxPow`: of the transaction its id, the first script and the
outputs. -/
def AuxpowRecord.parsed (x : AuxpowRecord Tx) : ParsedAuxpow where
  coinbaseTx := ⟨computeTxid sha256d rust x.coinbaseTx, rust.isCoinbase x.coinbaseTx,
    (rust.inputScripts x.coinbaseTx).head?, rust.outputs x.coinbaseTx⟩
  hashBlock := x.hashBlock
  coinbaseBranch := x.coinbaseBranch
  chainBranch := x.chainBranch
  parentHeader := x.parentHeader

variable {rust writer}

/-- What the reader keeps of a Qbit proof. -/
def QbitRecord.parsed (x : QbitRecord writer) : QbitRawAuxpow where
  coinbaseTxid := computeTxid sha256d rust x.coinbaseTx
  coinbaseScript := (rust.inputScripts x.coinbaseTx).headD []
  coinbaseOutputs := rust.outputs x.coinbaseTx
  coinbaseBranch := x.coinbaseBranch
  chainBranch := x.chainBranch
  parentHeader := x.parentHeader
  chain_cap := x.chain_cap

end Encodings

/-! ### Parts -/

theorem reads_readI32 (i : Int32) : Reads readI32 (encodeI32 i) i := by
  have hle : Reads (CompactSize.le 4 ParseError.unexpectedEnd) (encodeI32 i) i.toUInt32.toNat :=
    CompactSize.read_le i.toUInt32.toNat_lt
  have hi : (⟨UInt32.ofNat i.toUInt32.toNat⟩ : Int32) = i :=
    congrArg Int32.ofUInt32 UInt32.ofNat_toNat
  have hread := hle.bind_pure fun n => (⟨UInt32.ofNat n⟩ : Int32)
  rwa [hi] at hread

theorem reads_readHash (hash : Hash32) : Reads readHash hash.bytes hash :=
  (Reads.takeExact ⟨hash.bytes, hash.size⟩).bind_pure fun bytes => (⟨bytes.1, bytes.2⟩ : Hash32)

theorem reads_readHeader (header : Header) : Reads readHeader header.bytes header :=
  (Reads.takeExact ⟨header.bytes, header.size⟩).bind_pure fun bytes => (⟨bytes.1, bytes.2⟩ : Header)

theorem reads_hashes (hashes : List Hash32) :
    Reads (times readHash hashes.length) (encodeHashes hashes) ⟨hashes, rfl⟩ :=
  Reads.times reads_readHash hashes

theorem length_encodeHashes (hashes : List Hash32) :
    (encodeHashes hashes).length = hashes.length * 32 := by
  induction hashes with
  | nil => rfl
  | cons hash hashes ih =>
    rw [encodeHashes] at ih ⊢
    rw [flatMap_cons, length_append, hash.size, ih, length_cons]
    omega

theorem reads_readMerkleBranch {hashes : List Hash32} (h : hashes.length < 256 ^ 8) :
    Reads readMerkleBranch (encodeMerkleBranch hashes) hashes := by
  have hcount : Reads readVarint (CompactSize.encode hashes.length) hashes.length :=
    CompactSize.read_compactSize (CompactSize.encodes_encode h)
  refine hcount.bind (Reads.lookahead_bind ?_ ((reads_hashes hashes).bind_pure Subtype.val))
  intro rest
  rw [Nat.le_div_iff_mul_le (by decide), length_append, length_encodeHashes]
  omega

theorem reads_readQbitBranch {cap : Nat} {hashes : List Hash32} (hcap : cap < 256)
    (h : hashes.length ≤ cap) : Reads (readQbitBranch cap) (encodeQbitBranch hashes) ⟨hashes, h⟩ := by
  have hbyte : (UInt8.ofNat hashes.length).toNat = hashes.length :=
    UInt8.toNat_ofNat_of_lt' (h.trans_lt hcap)
  refine Reads.bind (CompactSize.read_byte _) ?_
  rw [dif_pos (hbyte.le.trans h)]
  intro rest
  refine read_bind.mpr ⟨⟨hashes, hbyte.symm⟩, rest, ?_, rfl⟩
  have htimes := reads_hashes hashes rest
  -- The count of the reader is the byte as a number.
  have hcast : ∀ {n : Nat} (hn : hashes.length = n),
      times readHash n (encodeHashes hashes ++ rest) = .ok (⟨hashes, hn⟩, rest) := by
    rintro n rfl
    exact htimes
  exact hcast hbyte.symm

/-! ### Whole records -/

section Frames

variable {Tx : Type} {sha256d : Bytes → Hash32} {rust : RustBitcoin Tx} (writer : Serializer rust)

theorem reads_deserializeNext (tx : Tx) : Reads (deserializeNext rust) (writer.serialize tx) tx := by
  intro rest
  refine read_deserializeNext.mpr ⟨writer.serialize tx, rfl, ?_⟩
  have hlocal := rust.partial_local (writer.inverts tx) rest
  rwa [take_length] at hlocal

theorem reads_readAuxpow (x : AuxpowRecord Tx) :
    Reads (readAuxpow sha256d rust) (encodeAuxpow writer x) (x.parsed rust sha256d) :=
  ((reads_deserializeNext writer x.coinbaseTx).bind_pure _).bind <|
    (reads_readHash x.hashBlock).bind <|
    (reads_readMerkleBranch x.coinbase_count).bind <|
    (reads_readI32 x.coinbaseBranch.index).bind <|
    (reads_readMerkleBranch x.chain_count).bind <|
    (reads_readI32 x.chainBranch.index).bind <|
    (reads_readHeader x.parentHeader).bind_pure _

theorem reads_readQbitRecord (x : QbitRecord writer) :
    Reads (readQbitRecord sha256d rust) (encodeQbitAuxpow writer x) (x.parsed sha256d) :=
  (reads_deserializeNext writer x.coinbaseTx).bind <| Reads.check_bind x.is_coinbase <|
    (reads_readQbitBranch (by decide) x.coinbase_cap).bind <|
    (reads_readI32 x.coinbaseBranch.index).bind <|
    (reads_readQbitBranch (by decide) x.chain_cap).bind <|
    (reads_readI32 x.chainBranch.index).bind <|
    (reads_readHeader x.parentHeader).bind_pure _

theorem fifth_byte (x : QbitRecord writer) : (writer.serialize x.coinbaseTx)[4]? = some 1 := by
  rw [x.no_witness]
  exact writer.input_count x.coinbaseTx (rust.coinbase_input x.is_coinbase)

theorem reads_readQbitAuxpow (x : QbitRecord writer) :
    Reads (readQbitAuxpow sha256d rust) (encodeQbitAuxpow writer x) (x.parsed sha256d) := by
  refine Reads.lookahead_bind ?_ (reads_readQbitRecord writer x)
  intro rest
  have hbyte := fifth_byte writer x
  have hlong : 4 < (writer.serialize x.coinbaseTx).length := (List.getElem?_eq_some_iff.mp hbyte).1
  rw [encodeQbitAuxpow, append_assoc, getElem?_append_left hlong, hbyte]
  decide

end Frames

/-- **The proof readers are exact framings.**  The encoding of a record reads as the record and leaves
what follows it, and every strict prefix of the encoding is refused. -/
theorem proof_readers_frame {Tx : Type} (sha256d : Bytes → Hash32) (rust : RustBitcoin Tx)
    (writer : Serializer rust) :
    (∀ x : AuxpowRecord Tx,
      Frames (readAuxpow sha256d rust) (encodeAuxpow writer x) (x.parsed rust sha256d)) ∧
    ∀ x : QbitRecord writer,
      Frames (readQbitAuxpow sha256d rust) (encodeQbitAuxpow writer x) (x.parsed sha256d) :=
  ⟨fun x => local_readAuxpow.frames (reads_readAuxpow writer x),
    fun x => local_readQbitAuxpow.frames (reads_readQbitAuxpow writer x)⟩

/-! ### A sample -/

namespace Sample

def writer : Serializer rust where
  serialize := Tx.serialize
  inverts := by
    intro tx
    cases tx <;> decide +kernel
  input_count _ _ := rfl

def record : AuxpowRecord Tx :=
  ⟨.parent, hash 0, ⟨[], 0⟩, chainBranch, parentHeader header 0, by decide, by decide⟩

def qbitRecord : QbitRecord writer :=
  ⟨.qbitParent, ⟨[], 0⟩, chainBranch, parentHeader qbitHeader 0, rfl, rfl, by decide,
    (qbitProof []).chain_cap⟩

/-- A record reads back before another byte, and not without its last one. -/
theorem proof_readers_frame_byte :
    readAuxpow sha256d rust (encodeAuxpow writer record ++ [5]) =
        .ok (record.parsed rust sha256d, [5]) ∧
      ∃ e, readQbitAuxpow sha256d rust (encodeQbitAuxpow writer qbitRecord).dropLast = .error e := by
  obtain ⟨hclassic, hqbit⟩ := proof_readers_frame sha256d rust writer
  refine ⟨(hclassic record).reads [5], (hqbit qbitRecord).fails _ (List.dropLast_prefix _) ?_⟩
  decide +kernel

end Sample

end MergeMiningMonitor.AuxPow
