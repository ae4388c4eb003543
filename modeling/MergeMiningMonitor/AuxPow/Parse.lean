import MergeMiningMonitor.AuxPow.Wire

/-!
# AuxPoW — Parse

The parsers of captured blocks (`auxpow/mod.rs`, `auxpow/classic.rs`, `auxpow/qbit.rs`).  A classic
block and a Qbit block carry the proof between the header and the transactions; a header blob ends with
the proof, and an Elastos blob is the proof alone.  Each of them keeps the bytes of the proof.

A parser that authenticates the child's body cuts the proof out, decodes the header and the transactions
as one block and checks the transactions against the header (`parseChildBlockCoinbaseWithHeight`).
-/

namespace MergeMiningMonitor.AuxPow

open Slices Fallible List

/-! ### Heights and targets -/

def parseCoinbaseHeight (scriptSig : Bytes) : Option Int :=
  let byteLen := (scriptSig.headD 0).toNat
  if scriptSig.length < 2 then none
  else if ¬(1 ≤ byteLen ∧ byteLen ≤ 4) ∨ scriptSig.length < 1 + byteLen then none
  else
    let height : Int32 := ⟨UInt32.ofNat (ofLeBytes ((scriptSig.drop 1).take byteLen))⟩
    if 0 ≤ height then some height.toInt else none

/-- `parse_bip34_height` -/
def parseBip34Height (scriptSig : Bytes) : Option Int :=
  (parseCoinbaseHeight scriptSig).filter (· ≤ 2000000)

/-- `parse_child_bip34_height` -/
def parseChildBip34Height (scriptSig : Bytes) : Option Int :=
  (parseCoinbaseHeight scriptSig).filter fun _ =>
    scriptSig.getD (scriptSig.headD 0).toNat 0 &&& 0x80 = 0

def isMetBy (target : Nat) (hash : Hash32) : Prop := ofLeBytes hash.bytes ≤ target

instance (target : Nat) (hash : Hash32) : Decidable (isMetBy target hash) :=
  inferInstanceAs (Decidable (_ ≤ _))

section Parsers

variable {Tx : Type} (sha256d : Bytes → Hash32) (rust : RustBitcoin Tx)

def wellFormedCompactTarget (bits : UInt32) : Option Nat :=
  let exponent := bits >>> 24
  let mantissa := bits &&& 0x007fffff
  let sign := bits &&& 0x00800000 ≠ 0
  if sign ∨ mantissa = 0 ∨ exponent = 0 ∨ 32 < exponent then none else some (rust.fromCompact bits)

def validatesTarget (hash : Hash32) (bits : UInt32) : Prop :=
  ∃ target ∈ wellFormedCompactTarget rust bits, isMetBy target hash

instance (hash : Hash32) (bits : UInt32) : Decidable (validatesTarget rust hash bits) :=
  inferInstanceAs (Decidable (∃ target ∈ wellFormedCompactTarget rust bits, isMetBy target hash))

/-! ### The child's body -/

@[ext]
structure ParsedChildBlockCoinbase where
  childHeader : Header
  childHeight : Option Int
  childCoinbaseTxid : Hash32
  childCoinbaseScript : Bytes
  childCoinbaseOutputs : List TxOut
deriving DecidableEq

def checkMerkleRoot (header : Header) (txs : List Tx) : Prop :=
  Merkle.rootWithin sha256d pairBytes txs.length (txs.map (computeTxid sha256d rust)) =
    some header.merkleRoot

instance (header : Header) (txs : List Tx) : Decidable (checkMerkleRoot sha256d rust header txs) :=
  inferInstanceAs (Decidable (_ = _))

def parseChildBlockCoinbaseWithHeight (raw : Bytes) (heightParser : Bytes → Option Int) :
    Except ParseError ParsedChildBlockCoinbase := do
  let (header, txs) ← required (rust.deserializeBlock raw) .childBlock
  ensure (checkMerkleRoot sha256d rust header txs) .childMerkleRoot
  let coinbase ← required txs.head? .noTransactions
  ensure (rust.isCoinbase coinbase = true) .childNotCoinbase
  let script ← required (rust.inputScripts coinbase).head? .childWithoutInputs
  return ⟨header, heightParser script, computeTxid sha256d rust coinbase, script,
    rust.outputs coinbase⟩

/-! ### Classic blocks -/

inductive ParsedNamecoinBlock
  | nonAuxpow (header : Header)
  | auxpow (block : ParsedAuxpowBlock)
deriving DecidableEq

structure ChildCoinbase where
  height : Option Int
  txid : Option Hash32
  script : Option Bytes
  outputs : List TxOut

def ChildCoinbase.absent : ChildCoinbase := ⟨none, none, none, []⟩

def assembleAuxpowBlock (childHeader : Header) (child : ChildCoinbase) (auxpow : ParsedAuxpow)
    (auxpowBytes : Bytes) : ParsedAuxpowBlock where
  childHeader := childHeader
  childHeight := child.height
  childCoinbaseTxid := child.txid
  childCoinbaseScript := child.script
  childCoinbaseOutputs := child.outputs
  parentHeader := auxpow.parentHeader
  proof := ⟨auxpow.hashBlock, auxpow.coinbaseBranch, auxpow.chainBranch⟩
  parentCoinbaseTxid := auxpow.coinbaseTx.txid
  parentCoinbaseScript := auxpow.coinbaseTx.firstInputScript.getD []
  parentCoinbaseOutputs := auxpow.coinbaseTx.outputs
  auxpowBytes := auxpowBytes

def versionAuxpow : UInt32 := 0x100

/-- `read_classic_prefix`: the header, and the proof with the offset of the transactions. -/
def readClassicPrefix (raw : Bytes) : Except ParseError (Header × Option (ParsedAuxpow × Nat)) := do
  ensure (80 ≤ raw.length) .shorterThanHeader
  let (header, rest) ← readHeader raw
  if header.version &&& versionAuxpow = 0 then return (header, none)
  else do
    let (proof, rest) ← readAuxpow sha256d rust rest
    return (header, some (proof, raw.length - rest.length))

def parseNamecoinBlock (raw : Bytes) : Except ParseError ParsedNamecoinBlock := do
  match ← readClassicPrefix sha256d rust raw with
  | (childHeader, none) => return .nonAuxpow childHeader
  | (childHeader, some (auxpow, auxpowEnd)) => do
    let (_, rest) ← readArray auxpowEnd raw
    ensure (rest ≠ []) .missingTransactions
    let (txCount, rest) ← readVarint rest
    ensure (0 < txCount) .noTransactions
    let (coinbase, _) ← readTransaction sha256d rust rest
    let child := ⟨coinbase.firstInputScript.bind parseBip34Height, some coinbase.txid,
      coinbase.firstInputScript, coinbase.outputs⟩
    return .auxpow (assembleAuxpowBlock childHeader child auxpow ((raw.take auxpowEnd).drop 80))

def attachChildBlockCoinbase (parsed : ParsedAuxpowBlock) (child : ParsedChildBlockCoinbase) :
    Except ParseError ParsedAuxpowBlock := do
  ensure (sha256d parsed.childHeader.bytes = sha256d child.childHeader.bytes) .childHeaderMismatch
  return { parsed with
    childHeight := parsed.childHeight <|> child.childHeight
    childCoinbaseTxid := some child.childCoinbaseTxid
    childCoinbaseScript := some child.childCoinbaseScript
    childCoinbaseOutputs := child.childCoinbaseOutputs }

def parseVerifiedClassicBlock (raw : Bytes) (requestedHash : Hash32) (requestedHeight : Int)
    (chainId : UInt32) : Except ParseError ParsedNamecoinBlock := do
  let (header, proof) ← readClassicPrefix sha256d rust raw
  ensure (sha256d header.bytes = requestedHash) .requestedHash
  match proof with
  | none => return .nonAuxpow header
  | some (auxpow, bodyOffset) => do
    ensure (auxpow.coinbaseTx.isCoinbase = true) .parentNotCoinbase
    ensure (header.version >>> 16 = chainId) .childChainId
    ensure (auxpow.parentHeader.version >>> 16 ≠ chainId) .parentChainId
    let child ← parseChildBlockCoinbaseWithHeight sha256d rust (raw.take 80 ++ raw.drop bodyOffset)
      parseChildBip34Height
    ensure (child.childHeight = some requestedHeight) .childHeight
    let block ← attachChildBlockCoinbase sha256d
      (assembleAuxpowBlock header .absent auxpow ((raw.take bodyOffset).drop 80)) child
    (verifyClassicAuxpowCommitment sha256d block requestedHash chainId).mapError .commitment
    ensure (validatesTarget rust (sha256d block.parentHeader.bytes) block.childHeader.bits) .parentWork
    return .auxpow block

/-! ### Proofs without a body -/

def parseAuxpowHeaderBlob (raw : Bytes) : Except ParseError ParsedAuxpowBlock := do
  ensure (80 ≤ raw.length) .shorterThanHeader
  let (childHeader, rest) ← readHeader raw
  ensure (childHeader.version &&& versionAuxpow ≠ 0) .notAuxpowVersion
  let (auxpow, rest) ← readAuxpow sha256d rust rest
  return assembleAuxpowBlock childHeader .absent auxpow ((raw.take (raw.length - rest.length)).drop 80)

def parseElastosAuxpow (childHeader : Header) (auxpowBlob : Bytes) :
    Except ParseError ParsedAuxpowBlock := do
  ensure (auxpowBlob.length ≤ 4096) (.tooManyBytes auxpowBlob.length)
  let (auxpow, rest) ← readAuxpow sha256d rust auxpowBlob
  ensure (rest = []) .trailingBytes
  return assembleAuxpowBlock childHeader .absent auxpow auxpowBlob

/-! ### Qbit blocks -/

structure ParsedQbitAuxpow where
  childHeader : Header
  parentHeader : Header
  parentCoinbaseTxid : Hash32
  parentCoinbaseScript : Bytes
  parentCoinbaseOutputs : List TxOut
  coinbaseBranch : MerkleBranch
  chainBranch : MerkleBranch
  auxpowBytes : Bytes
deriving DecidableEq

inductive ParsedQbitBlock
  | direct (header : Header)
  | auxpow (proof : ParsedQbitAuxpow)
deriving DecidableEq

structure ParsedQbitAuxpowBlock where
  proof : ParsedQbitAuxpow
  coinbase : ParsedChildBlockCoinbase
deriving DecidableEq

/-- `qbit_version_gate`: whether the block is merge-mined. -/
def qbitVersionGate (version height : UInt32) : Except ParseError Bool := do
  ensure (0 < height → 4 ≤ version ∧ version < 0x80000000) (.qbitVersion version)
  let shaped := version &&& 0xE0000000 = 0x20000000
  ensure (shaped ∨ version &&& 0xFFFFFF00 = 0) (.qbitVersion version)
  ensure (¬shaped ∨ version &&& 0x00001E00 = 0) (.qbitVersion version)
  let merged := shaped ∧ version &&& 0x100 ≠ 0
  let chainId := (version >>> 13) &&& 0xFFFF
  ensure (merged → chainId = qbitAuxpowChainId) (.qbitChainId chainId)
  return merged

/-- `qbit_child_target`, at most `qbit_pow_limit`. -/
def qbitChildTarget (bits : UInt32) : Except ParseError Nat :=
  required ((wellFormedCompactTarget rust bits).filter fun target => target ≠ 0 ∧ target ≤ 2 ^ 240 - 1)
    .qbitTarget

def parseQbitExtendedHeader (raw : Bytes) (childHeight : UInt32) :
    Except ParseError ParsedQbitBlock := do
  ensure (80 ≤ raw.length) .shorterThanHeader
  let (childHeader, rest) ← readHeader raw
  let merged ← qbitVersionGate childHeader.version childHeight
  let childTarget ← qbitChildTarget rust childHeader.bits
  if merged then do
    let (auxpow, rest) ← (readQbitAuxpow sha256d rust rest).mapError .qbitProof
    ensure (rest = []) (.qbitProof .trailingBytes)
    (verifyQbitProof sha256d childHeader auxpow).mapError fun e => .qbitProof (.commitment e)
    ensure (isMetBy childTarget (sha256d auxpow.parentHeader.bytes)) .qbitWork
    return .auxpow {
      childHeader
      parentHeader := auxpow.parentHeader
      parentCoinbaseTxid := auxpow.coinbaseTxid
      parentCoinbaseScript := auxpow.coinbaseScript
      parentCoinbaseOutputs := auxpow.coinbaseOutputs
      coinbaseBranch := auxpow.coinbaseBranch
      chainBranch := auxpow.chainBranch
      auxpowBytes := (raw.take (raw.length - rest.length)).drop 80 }
  else do
    ensure (rest = []) .trailingBytes
    ensure (isMetBy childTarget (sha256d childHeader.bytes)) .qbitWork
    return .direct childHeader

def qbitExtendedHeaderPrefix (raw : Bytes) (childHeight : UInt32) : Except ParseError Bytes := do
  ensure (80 ≤ raw.length) .shorterThanHeader
  let (childHeader, rest) ← readHeader raw
  let merged ← qbitVersionGate childHeader.version childHeight
  if merged then do
    let (_, rest) ← (readQbitAuxpow sha256d rust rest).mapError .qbitProof
    return raw.take (raw.length - rest.length)
  else return raw.take 80

def parseQbitBlock (raw : Bytes) (childHeight : UInt32) :
    Except ParseError (Option ParsedQbitAuxpowBlock) := do
  let extended ← qbitExtendedHeaderPrefix sha256d rust raw childHeight
  match ← parseQbitExtendedHeader sha256d rust extended childHeight with
  | .direct _ => return none
  | .auxpow proof => do
    let coinbase ← parseChildBlockCoinbaseWithHeight sha256d rust
      (raw.take 80 ++ raw.drop extended.length) parseChildBip34Height
    ensure (childHeight.toNat < 2 ^ 31) .heightRange
    ensure (coinbase.childHeight = some (childHeight.toNat : Int)) .childHeight
    return some ⟨proof, coinbase⟩

end Parsers

/-! ### A sample -/

namespace Sample

def branches (child : Header) (nonce : Nat) : Bytes :=
  [0] ++ toLeBytes 4 0 ++ [1] ++ (hash 0).bytes ++ toLeBytes 4 1 ++ (parentHeader child nonce).bytes

def proof (nonce : Nat) : ParsedAuxpow :=
  ⟨⟨sha256d (coinbase (script header)), true, some (script header), outputs⟩, hash 0, ⟨[], 0⟩,
    chainBranch, parentHeader header nonce⟩

def proofBytes (nonce : Nat) : Bytes :=
  coinbase (script header) ++ (hash 0).bytes ++ branches header nonce

/-- The transactions of the child: one coinbase. -/
def body : Bytes := 1 :: coinbase childScript

/-- A block with a header, a proof and one transaction. -/
def raw (nonce : Nat) : Bytes := header.bytes ++ proofBytes nonce ++ body

def capture (nonce : Nat) : ParsedAuxpowBlock :=
  assembleAuxpowBlock header
    ⟨some 500, some (sha256d (coinbase childScript)), some childScript, outputs⟩ (proof nonce)
    (proofBytes nonce)

/-- What is captured of a proof without a body. -/
def bareCapture (nonce : Nat) : ParsedAuxpowBlock :=
  assembleAuxpowBlock header .absent (proof nonce) (proofBytes nonce)

def qbitProofBytes (nonce : Nat) : Bytes := coinbase (script qbitHeader) ++ branches qbitHeader nonce

def qbitCapture (nonce : Nat) : ParsedQbitAuxpow :=
  ⟨qbitHeader, parentHeader qbitHeader nonce, sha256d (coinbase (script qbitHeader)),
    script qbitHeader, outputs, ⟨[], 0⟩, chainBranch, qbitProofBytes nonce⟩

def qbitRaw (nonce : Nat) : Bytes := qbitHeader.bytes ++ qbitProofBytes nonce ++ body

def qbitBlock (nonce : Nat) : ParsedQbitAuxpowBlock :=
  ⟨qbitCapture nonce,
    ⟨qbitHeader, some 500, sha256d (coinbase childScript), childScript, outputs⟩⟩

end Sample

end MergeMiningMonitor.AuxPow
