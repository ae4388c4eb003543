import MergeMiningMonitor.AuxPow.Parse

/-!
# AuxPoW — Stored

A capture keeps the bytes of its proof, and a later reader decodes them again (`auxpow/decode.rs`, the
end of `auxpow/qbit.rs`).  The parsers cut the bytes out at four different offsets; what they keep is
in each case exactly one record, which reads back to the proof that was captured (`Captured`).

`stored_proofs_decode_to_capture` says what the decoders make of it.
-/

namespace MergeMiningMonitor.AuxPow

open Fallible Readers List Option

structure AuxMerkleBranchDetail where
  index : UInt32
  siblings : List Hash32
deriving DecidableEq

structure AuxpowProofDetail where
  slotIndex : UInt32
  parentHeaderHash : Hash32
  hashBlock : Hash32
  coinbaseBranch : AuxMerkleBranchDetail
  blockchainBranch : AuxMerkleBranchDetail
deriving DecidableEq

structure QbitProofDetail where
  slotIndex : UInt32
  parentHeaderHash : Hash32
  coinbaseBranch : AuxMerkleBranchDetail
  blockchainBranch : AuxMerkleBranchDetail
deriving DecidableEq

/-- `u32::try_from` of an index -/
def tryIndex (index : Int32) : Option UInt32 := if 0 ≤ index then some index.toUInt32 else none

section Decoders

variable {Tx : Type} (sha256d : Bytes → Hash32) (rust : RustBitcoin Tx)

def decodeAuxpowProof (auxMerkleProof : Bytes) : Option AuxpowProofDetail := do
  let (auxpow, rest) ← (readAuxpow sha256d rust auxMerkleProof).toOption
  if rest ≠ [] then none
  else do
    let slotIndex ← tryIndex auxpow.chainBranch.index
    let coinbaseIndex ← tryIndex auxpow.coinbaseBranch.index
    return {
      slotIndex
      parentHeaderHash := sha256d auxpow.parentHeader.bytes
      hashBlock := auxpow.hashBlock
      coinbaseBranch := ⟨coinbaseIndex, auxpow.coinbaseBranch.hashes⟩
      blockchainBranch := ⟨slotIndex, auxpow.chainBranch.hashes⟩ }

def decodeQbitAuxpowProof (auxMerkleProof : Bytes) : Option QbitProofDetail := do
  let (auxpow, rest) ← (readQbitAuxpow sha256d rust auxMerkleProof).toOption
  if rest ≠ [] then none
  else do
    let slotIndex ← tryIndex auxpow.chainBranch.index
    let coinbaseIndex ← tryIndex auxpow.coinbaseBranch.index
    return {
      slotIndex
      parentHeaderHash := sha256d auxpow.parentHeader.bytes
      coinbaseBranch := ⟨coinbaseIndex, auxpow.coinbaseBranch.hashes⟩
      blockchainBranch := ⟨slotIndex, auxpow.chainBranch.hashes⟩ }

/-- The bytes of a block are one record, and the block has the proof and the parent of the record. -/
def Captured (block : ParsedAuxpowBlock) : Prop :=
  ∃ auxpow, readAuxpow sha256d rust block.auxpowBytes = .ok (auxpow, []) ∧
    block.proof = ⟨auxpow.hashBlock, auxpow.coinbaseBranch, auxpow.chainBranch⟩ ∧
    block.parentHeader = auxpow.parentHeader

/-- The decoder's result on the bytes of a block is what was captured. -/
structure DecodesToCapture (block : ParsedAuxpowBlock) : Prop where
  isSome_iff : (decodeAuxpowProof sha256d rust block.auxpowBytes).isSome ↔
    0 ≤ block.proof.coinbaseBranch.index ∧ 0 ≤ block.proof.chainBranch.index
  detail : ∀ detail, decodeAuxpowProof sha256d rust block.auxpowBytes = some detail →
    detail.hashBlock = block.proof.hashBlock ∧
    detail.parentHeaderHash = sha256d block.parentHeader.bytes ∧
    detail.coinbaseBranch.siblings = block.proof.coinbaseBranch.hashes ∧
    detail.blockchainBranch.siblings = block.proof.chainBranch.hashes ∧
    (detail.coinbaseBranch.index.toNat : Int) = block.proof.coinbaseBranch.index.toInt ∧
    (detail.blockchainBranch.index.toNat : Int) = block.proof.chainBranch.index.toInt ∧
    detail.slotIndex = detail.blockchainBranch.index

/-- The decoder returns what a Qbit proof was captured with. -/
def QbitDecodesToCapture (proof : ParsedQbitAuxpow) : Prop :=
  ∃ detail, decodeQbitAuxpowProof sha256d rust proof.auxpowBytes = some detail ∧
    detail.parentHeaderHash = sha256d proof.parentHeader.bytes ∧
    detail.coinbaseBranch.siblings = proof.coinbaseBranch.hashes ∧
    detail.blockchainBranch.siblings = proof.chainBranch.hashes ∧
    (detail.coinbaseBranch.index.toNat : Int) = proof.coinbaseBranch.index.toInt ∧
    (detail.blockchainBranch.index.toNat : Int) = proof.chainBranch.index.toInt ∧
    detail.slotIndex = detail.blockchainBranch.index

end Decoders

/-! ### Slices of the wire -/

theorem tryIndex_eq_some {index : Int32} {i : UInt32} :
    tryIndex index = some i ↔ 0 ≤ index ∧ index.toUInt32 = i := by
  rw [tryIndex]
  split
  · next h => rw [Option.some.injEq, and_iff_right h]
  · next h => exact iff_of_false (by simp) fun hboth => h hboth.1

theorem toNat_toUInt32 {index : Int32} (h : 0 ≤ index) : (index.toUInt32.toNat : Int) = index.toInt := by
  have hint : (0 : Int) ≤ index.toBitVec.toInt := Int32.le_iff_toInt_le.mp h
  have hbound := index.toBitVec.isLt
  change (index.toBitVec.toNat : Int) = index.toBitVec.toInt
  rw [BitVec.toInt_eq_toNat_cond] at hint ⊢
  split at hint <;> omega

variable {header : Header} {auxpow : ParsedAuxpow} {childHeader : Header} {raw : Bytes}
  {block : ParsedAuxpowBlock} {childHeight : UInt32} {proof : ParsedQbitAuxpow}

theorem readHeader_eq_ok {raw rest : Bytes} :
    readHeader raw = .ok (header, rest) ↔ raw = header.bytes ++ rest := by
  rw [readHeader, read_bind]
  constructor
  · rintro ⟨bytes, mid, hread, hheader⟩
    obtain ⟨rfl, rfl⟩ := read_pure.mp hheader
    exact read_takeExact.mp hread
  · intro hraw
    exact ⟨⟨header.bytes, header.size⟩, rest, read_takeExact.mpr hraw, rfl⟩

/-- After a header, the bytes up to where a reader stopped are what it took. -/
theorem drop_take_eq {raw rest rest' : Bytes} (hraw : raw = header.bytes ++ rest) :
    (raw.take (raw.length - rest'.length)).drop 80 = rest.take (rest.length - rest'.length) := by
  have hdrop : raw.drop 80 = rest := hraw ▸ drop_left' header.size
  have hlength : raw.length = 80 + rest.length := by rw [hraw, length_append, header.size]
  rw [drop_take, hdrop, hlength]
  congr 1
  omega

variable {Tx : Type} {sha256d : Bytes → Hash32} {rust : RustBitcoin Tx}

theorem readAuxpow_cut {raw rest rest' : Bytes}
    (hraw : raw = header.bytes ++ rest) (h : readAuxpow sha256d rust rest = .ok (auxpow, rest')) :
    readAuxpow sha256d rust ((raw.take (raw.length - rest'.length)).drop 80) = .ok (auxpow, []) := by
  rw [drop_take_eq hraw]
  exact local_readAuxpow.eq_ok_exact h

theorem captured_assemble {child : ChildCoinbase}
    {bytes : Bytes} (h : readAuxpow sha256d rust bytes = .ok (auxpow, [])) :
    Captured sha256d rust (assembleAuxpowBlock childHeader child auxpow bytes) :=
  ⟨auxpow, h, rfl, rfl⟩

/-! ### What the parsers keep -/

theorem readClassicPrefix_eq_ok {bodyOffset : Nat}
    (h : readClassicPrefix sha256d rust raw = .ok (header, some (auxpow, bodyOffset))) :
    ∃ rest rest', raw = header.bytes ++ rest ∧ readAuxpow sha256d rust rest = .ok (auxpow, rest') ∧
      bodyOffset = raw.length - rest'.length := by
  obtain ⟨-, -, h⟩ := bind_eq_ok.mp h
  obtain ⟨⟨header', rest⟩, hheader, h⟩ := bind_eq_ok.mp h
  dsimp only at h
  split at h
  · cases h
  · obtain ⟨⟨auxpow', rest'⟩, hauxpow, h⟩ := bind_eq_ok.mp h
    cases h
    exact ⟨rest, rest', readHeader_eq_ok.mp hheader, hauxpow, rfl⟩

theorem captured_parseNamecoinBlock
    (h : parseNamecoinBlock sha256d rust raw = .ok (.auxpow block)) : Captured sha256d rust block := by
  obtain ⟨⟨header, proof⟩, hinitial, h⟩ := bind_eq_ok.mp h
  cases proof with
  | none => cases h
  | some proof =>
    obtain ⟨auxpow, auxpowEnd⟩ := proof
    obtain ⟨rest, rest', hraw, hauxpow, rfl⟩ := readClassicPrefix_eq_ok hinitial
    obtain ⟨⟨_, body⟩, -, h⟩ := bind_eq_ok.mp h
    obtain ⟨_, -, h⟩ := bind_eq_ok.mp h
    obtain ⟨⟨txCount, txs⟩, -, h⟩ := bind_eq_ok.mp h
    obtain ⟨_, -, h⟩ := bind_eq_ok.mp h
    obtain ⟨⟨coinbase, _⟩, -, h⟩ := bind_eq_ok.mp h
    cases h
    exact captured_assemble (readAuxpow_cut hraw hauxpow)

theorem captured_parseAuxpowHeaderBlob
    (h : parseAuxpowHeaderBlob sha256d rust raw = .ok block) : Captured sha256d rust block := by
  obtain ⟨-, -, h⟩ := bind_eq_ok.mp h
  obtain ⟨⟨header, rest⟩, hheader, h⟩ := bind_eq_ok.mp h
  obtain ⟨-, -, h⟩ := bind_eq_ok.mp h
  obtain ⟨⟨auxpow, rest'⟩, hauxpow, h⟩ := bind_eq_ok.mp h
  cases h
  exact captured_assemble (readAuxpow_cut (readHeader_eq_ok.mp hheader) hauxpow)

theorem captured_parseElastosAuxpow {blob : Bytes}
    (h : parseElastosAuxpow sha256d rust childHeader blob = .ok block) :
    Captured sha256d rust block := by
  obtain ⟨-, -, h⟩ := bind_eq_ok.mp h
  obtain ⟨⟨auxpow, rest⟩, hauxpow, h⟩ := bind_eq_ok.mp h
  obtain ⟨_, hempty, h⟩ := bind_eq_ok.mp h
  obtain rfl := ensure_eq_ok.mp hempty
  cases h
  exact captured_assemble hauxpow

theorem attachChildBlockCoinbase_eq_ok {parsed block : ParsedAuxpowBlock}
    {child : ParsedChildBlockCoinbase} (h : attachChildBlockCoinbase sha256d parsed child = .ok block) :
    sha256d parsed.childHeader.bytes = sha256d child.childHeader.bytes ∧
      block = { parsed with
        childHeight := parsed.childHeight <|> child.childHeight
        childCoinbaseTxid := some child.childCoinbaseTxid
        childCoinbaseScript := some child.childCoinbaseScript
        childCoinbaseOutputs := child.childCoinbaseOutputs } := by
  obtain ⟨_, hhash, h⟩ := bind_eq_ok.mp h
  exact ⟨ensure_eq_ok.mp hhash, (Except.ok.inj h).symm⟩

/-- An accepted classic block has the requested hash, an authenticated body and the proof that follows
its header. -/
theorem parseVerifiedClassicBlock_eq_ok {requestedHash : Hash32} {requestedHeight : Int}
    {chainId : UInt32}
    (h : parseVerifiedClassicBlock sha256d rust raw requestedHash requestedHeight chainId =
      .ok (.auxpow block)) :
    ∃ header auxpow bodyOffset child,
      readClassicPrefix sha256d rust raw = .ok (header, some (auxpow, bodyOffset)) ∧
      sha256d header.bytes = requestedHash ∧
      parseChildBlockCoinbaseWithHeight sha256d rust (raw.take 80 ++ raw.drop bodyOffset)
        parseChildBip34Height = .ok child ∧
      child.childHeight = some requestedHeight ∧
      attachChildBlockCoinbase sha256d
        (assembleAuxpowBlock header .absent auxpow ((raw.take bodyOffset).drop 80)) child = .ok block := by
  obtain ⟨⟨header, proof⟩, hinitial, h⟩ := bind_eq_ok.mp h
  obtain ⟨_, hhash, h⟩ := bind_eq_ok.mp h
  cases proof with
  | none => cases h
  | some proof =>
    obtain ⟨auxpow, bodyOffset⟩ := proof
    obtain ⟨_, -, h⟩ := bind_eq_ok.mp h
    obtain ⟨_, -, h⟩ := bind_eq_ok.mp h
    obtain ⟨_, -, h⟩ := bind_eq_ok.mp h
    obtain ⟨child, hchild, h⟩ := bind_eq_ok.mp h
    obtain ⟨_, hheight, h⟩ := bind_eq_ok.mp h
    obtain ⟨block', hattach, h⟩ := bind_eq_ok.mp h
    obtain ⟨_, -, h⟩ := bind_eq_ok.mp h
    obtain ⟨_, -, h⟩ := bind_eq_ok.mp h
    cases h
    exact ⟨header, auxpow, bodyOffset, child, hinitial, ensure_eq_ok.mp hhash, hchild,
      ensure_eq_ok.mp hheight, hattach⟩

theorem captured_parseVerifiedClassicBlock {requestedHash : Hash32}
    {requestedHeight : Int} {chainId : UInt32}
    (h : parseVerifiedClassicBlock sha256d rust raw requestedHash requestedHeight chainId =
      .ok (.auxpow block)) : Captured sha256d rust block := by
  obtain ⟨header, auxpow, bodyOffset, child, hinitial, -, -, -, hattach⟩ :=
    parseVerifiedClassicBlock_eq_ok h
  obtain ⟨rest, rest', hraw, hauxpow, rfl⟩ := readClassicPrefix_eq_ok hinitial
  obtain ⟨-, rfl⟩ := attachChildBlockCoinbase_eq_ok hattach
  exact ⟨auxpow, readAuxpow_cut hraw hauxpow, rfl, rfl⟩

/-! ### Decoding -/

theorem decodeAuxpowProof_eq_some {bytes : Bytes} {detail : AuxpowProofDetail} :
    decodeAuxpowProof sha256d rust bytes = some detail ↔
      ∃ auxpow, readAuxpow sha256d rust bytes = .ok (auxpow, []) ∧
        0 ≤ auxpow.chainBranch.index ∧ 0 ≤ auxpow.coinbaseBranch.index ∧
        detail = {
          slotIndex := auxpow.chainBranch.index.toUInt32
          parentHeaderHash := sha256d auxpow.parentHeader.bytes
          hashBlock := auxpow.hashBlock
          coinbaseBranch := ⟨auxpow.coinbaseBranch.index.toUInt32, auxpow.coinbaseBranch.hashes⟩
          blockchainBranch := ⟨auxpow.chainBranch.index.toUInt32, auxpow.chainBranch.hashes⟩ } := by
  constructor
  · intro h
    obtain ⟨⟨auxpow, rest⟩, hread, h⟩ := bind_eq_some_iff.mp h
    dsimp only at h
    split at h
    · cases h
    · next hempty =>
        obtain ⟨slot, hslot, h⟩ := bind_eq_some_iff.mp h
        obtain ⟨coinbase, hcoinbase, h⟩ := bind_eq_some_iff.mp h
        obtain ⟨hchain, rfl⟩ := tryIndex_eq_some.mp hslot
        obtain ⟨hfirst, rfl⟩ := tryIndex_eq_some.mp hcoinbase
        have hread := toOption_eq_some hread
        rw [not_not.mp hempty] at hread
        exact ⟨auxpow, hread, hchain, hfirst, (some.inj h).symm⟩
  · rintro ⟨auxpow, hread, hchain, hfirst, rfl⟩
    rw [decodeAuxpowProof, hread]
    refine bind_eq_some_iff.mpr ⟨(auxpow, []), rfl, ?_⟩
    dsimp only
    rw [if_neg (not_not.mpr rfl)]
    exact bind_eq_some_iff.mpr ⟨_, tryIndex_eq_some.mpr ⟨hchain, rfl⟩,
      bind_eq_some_iff.mpr ⟨_, tryIndex_eq_some.mpr ⟨hfirst, rfl⟩, rfl⟩⟩

theorem Captured.decodes (h : Captured sha256d rust block) :
    DecodesToCapture sha256d rust block := by
  obtain ⟨auxpow, hread, hproof, hparent⟩ := h
  refine ⟨?_, ?_⟩
  · rw [isSome_iff_exists, hproof]
    constructor
    · rintro ⟨detail, hdetail⟩
      obtain ⟨auxpow', hread', hchain, hfirst, -⟩ := decodeAuxpowProof_eq_some.mp hdetail
      obtain ⟨rfl, -⟩ := Prod.mk.inj (Except.ok.inj (hread.symm.trans hread'))
      exact ⟨hfirst, hchain⟩
    · rintro ⟨hfirst, hchain⟩
      exact ⟨_, decodeAuxpowProof_eq_some.mpr ⟨auxpow, hread, hchain, hfirst, rfl⟩⟩
  · intro detail hdetail
    obtain ⟨auxpow', hread', hchain, hfirst, rfl⟩ := decodeAuxpowProof_eq_some.mp hdetail
    obtain ⟨rfl, -⟩ := Prod.mk.inj (Except.ok.inj (hread.symm.trans hread'))
    rw [hproof, hparent]
    exact ⟨rfl, rfl, rfl, rfl, toNat_toUInt32 hfirst, toNat_toUInt32 hchain, rfl⟩

theorem decodeQbitAuxpowProof_of_read {bytes : Bytes} {auxpow : QbitRawAuxpow}
    (hread : readQbitAuxpow sha256d rust bytes = .ok (auxpow, []))
    (hchain : 0 ≤ auxpow.chainBranch.index) (hfirst : 0 ≤ auxpow.coinbaseBranch.index) :
    decodeQbitAuxpowProof sha256d rust bytes = some {
      slotIndex := auxpow.chainBranch.index.toUInt32
      parentHeaderHash := sha256d auxpow.parentHeader.bytes
      coinbaseBranch := ⟨auxpow.coinbaseBranch.index.toUInt32, auxpow.coinbaseBranch.hashes⟩
      blockchainBranch := ⟨auxpow.chainBranch.index.toUInt32, auxpow.chainBranch.hashes⟩ } := by
  rw [decodeQbitAuxpowProof, hread]
  refine bind_eq_some_iff.mpr ⟨(auxpow, []), rfl, ?_⟩
  dsimp only
  rw [if_neg (not_not.mpr rfl)]
  exact bind_eq_some_iff.mpr ⟨_, tryIndex_eq_some.mpr ⟨hchain, rfl⟩,
    bind_eq_some_iff.mpr ⟨_, tryIndex_eq_some.mpr ⟨hfirst, rfl⟩, rfl⟩⟩

/-! ### Qbit proofs -/

theorem verifyQbitProof_indices {auxpow : QbitRawAuxpow}
    (h : verifyQbitProof sha256d childHeader auxpow = .ok ()) :
    auxpow.coinbaseBranch.index = 0 ∧ 0 ≤ auxpow.chainBranch.index := by
  obtain ⟨_, hfirst, h⟩ := bind_eq_ok.mp h
  obtain ⟨_, hchain, -⟩ := bind_eq_ok.mp h
  exact ⟨ensure_eq_ok.mp hfirst, (ensure_eq_ok.mp hchain).1⟩

theorem parseQbitExtendedHeader_eq_ok
    (h : parseQbitExtendedHeader sha256d rust raw childHeight = .ok (.auxpow proof)) :
    ∃ auxpow, raw = proof.childHeader.bytes ++ proof.auxpowBytes ∧
      qbitVersionGate proof.childHeader.version childHeight = .ok true ∧
      readQbitAuxpow sha256d rust proof.auxpowBytes = .ok (auxpow, []) ∧
      verifyQbitProof sha256d proof.childHeader auxpow = .ok () ∧
      proof.parentHeader = auxpow.parentHeader ∧ proof.coinbaseBranch = auxpow.coinbaseBranch ∧
      proof.chainBranch = auxpow.chainBranch := by
  obtain ⟨_, -, h⟩ := bind_eq_ok.mp h
  obtain ⟨⟨childHeader, rest⟩, hheader, h⟩ := bind_eq_ok.mp h
  obtain ⟨merged, hgate, h⟩ := bind_eq_ok.mp h
  obtain ⟨childTarget, -, h⟩ := bind_eq_ok.mp h
  have hraw := readHeader_eq_ok.mp hheader
  cases merged with
  | false =>
    obtain ⟨_, -, h⟩ := bind_eq_ok.mp h
    obtain ⟨_, -, h⟩ := bind_eq_ok.mp h
    cases h
  | true =>
    obtain ⟨⟨auxpow, rest'⟩, hauxpow, h⟩ := bind_eq_ok.mp h
    obtain ⟨_, hempty, h⟩ := bind_eq_ok.mp h
    obtain ⟨_, hverify, h⟩ := bind_eq_ok.mp h
    obtain ⟨_, -, h⟩ := bind_eq_ok.mp h
    obtain rfl := ensure_eq_ok.mp hempty
    cases h
    have hbytes : (raw.take (raw.length - 0)).drop 80 = rest := by
      rw [Nat.sub_zero, take_length, hraw, drop_left' childHeader.size]
    refine ⟨auxpow, ?_, hgate, ?_, mapError_eq_ok.mp hverify, rfl, rfl, rfl⟩
    · exact hraw.trans (congrArg _ hbytes.symm)
    · exact hbytes.symm ▸ mapError_eq_ok.mp hauxpow

/-- An accepted extended header is found again at the front of any block that starts with it. -/
theorem qbitExtendedHeaderPrefix_append
    (h : parseQbitExtendedHeader sha256d rust raw childHeight = .ok (.auxpow proof)) (suffix : Bytes) :
    qbitExtendedHeaderPrefix sha256d rust (raw ++ suffix) childHeight = .ok raw := by
  obtain ⟨auxpow, hraw, hgate, hread, -⟩ := parseQbitExtendedHeader_eq_ok h
  have hheader : readHeader (raw ++ suffix) = .ok (proof.childHeader, proof.auxpowBytes ++ suffix) :=
    readHeader_eq_ok.mpr (by rw [hraw, append_assoc])
  have hrecord : readQbitAuxpow sha256d rust (proof.auxpowBytes ++ suffix) = .ok (auxpow, suffix) := by
    have happend := local_readQbitAuxpow.eq_ok_append hread suffix
    rwa [length_nil, Nat.sub_zero, take_length] at happend
  have hlong : 80 ≤ (raw ++ suffix).length := by
    rw [hraw, length_append, length_append, proof.childHeader.size]
    omega
  refine bind_eq_ok.mpr ⟨(), ensure_eq_ok.mpr hlong, bind_eq_ok.mpr ⟨_, hheader, ?_⟩⟩
  refine bind_eq_ok.mpr ⟨true, hgate, bind_eq_ok.mpr ⟨_, mapError_eq_ok.mpr hrecord, ?_⟩⟩
  dsimp only
  rw [length_append, Nat.add_sub_cancel, take_left]
  rfl

theorem parseQbitExtendedHeader_decodes
    (h : parseQbitExtendedHeader sha256d rust raw childHeight = .ok (.auxpow proof)) :
    QbitDecodesToCapture sha256d rust proof := by
  obtain ⟨auxpow, -, -, hread, hverify, hparent, hcoinbase, hchain⟩ := parseQbitExtendedHeader_eq_ok h
  obtain ⟨hfirst, hslot⟩ := verifyQbitProof_indices hverify
  have hzero : 0 ≤ auxpow.coinbaseBranch.index := hfirst ▸ Int32.le_refl _
  refine ⟨_, decodeQbitAuxpowProof_of_read hread hslot hzero, ?_⟩
  rw [hparent, hcoinbase, hchain]
  exact ⟨rfl, rfl, rfl, toNat_toUInt32 hzero, toNat_toUInt32 hslot, rfl⟩

/-- **Stored proofs decode to what was captured.** -/
theorem stored_proofs_decode_to_capture :
    (∀ (raw : Bytes) (block : ParsedAuxpowBlock),
      parseNamecoinBlock sha256d rust raw = .ok (.auxpow block) →
      DecodesToCapture sha256d rust block) ∧
    (∀ (raw : Bytes) (requestedHash : Hash32) (requestedHeight : Int) (chainId : UInt32)
      (block : ParsedAuxpowBlock),
      parseVerifiedClassicBlock sha256d rust raw requestedHash requestedHeight chainId =
        .ok (.auxpow block) → DecodesToCapture sha256d rust block) ∧
    (∀ (raw : Bytes) (block : ParsedAuxpowBlock), parseAuxpowHeaderBlob sha256d rust raw = .ok block →
      DecodesToCapture sha256d rust block) ∧
    (∀ (childHeader : Header) (auxpowBlob : Bytes) (block : ParsedAuxpowBlock),
      parseElastosAuxpow sha256d rust childHeader auxpowBlob = .ok block →
      DecodesToCapture sha256d rust block) ∧
    (∀ (raw : Bytes) (childHeight : UInt32) (proof : ParsedQbitAuxpow),
      parseQbitExtendedHeader sha256d rust raw childHeight = .ok (.auxpow proof) →
      (∀ suffix, qbitExtendedHeaderPrefix sha256d rust (raw ++ suffix) childHeight = .ok raw) ∧
        QbitDecodesToCapture sha256d rust proof) :=
  ⟨fun _ _ h => (captured_parseNamecoinBlock h).decodes,
    fun _ _ _ _ _ h => (captured_parseVerifiedClassicBlock h).decodes,
    fun _ _ h => (captured_parseAuxpowHeaderBlob h).decodes,
    fun _ _ _ h => (captured_parseElastosAuxpow h).decodes,
    fun _ _ _ h => ⟨qbitExtendedHeaderPrefix_append h, parseQbitExtendedHeader_decodes h⟩⟩

/-- Each of the parsers captures the sample, and its bytes decode to it. -/
theorem sample_proofs_decode_to_capture :
    parseNamecoinBlock Sample.sha256d Sample.rust (Sample.raw 7713) = .ok (.auxpow (Sample.capture 7713)) ∧
    parseVerifiedClassicBlock Sample.sha256d Sample.rust (Sample.raw 7713) Sample.childHash 500 1 =
      .ok (.auxpow (Sample.capture 7713)) ∧
    parseAuxpowHeaderBlob Sample.sha256d Sample.rust (Sample.raw 7713) = .ok (Sample.bareCapture 7713) ∧
    parseElastosAuxpow Sample.sha256d Sample.rust Sample.header (Sample.proofBytes 7713) =
      .ok (Sample.bareCapture 7713) ∧
    DecodesToCapture Sample.sha256d Sample.rust (Sample.capture 7713) ∧
    DecodesToCapture Sample.sha256d Sample.rust (Sample.bareCapture 7713) ∧
    QbitDecodesToCapture Sample.sha256d Sample.rust (Sample.qbitCapture 15512) := by
  have hdecode := @stored_proofs_decode_to_capture _ Sample.sha256d Sample.rust
  have hnamecoin : parseNamecoinBlock Sample.sha256d Sample.rust (Sample.raw 7713) =
      .ok (.auxpow (Sample.capture 7713)) := by decide +kernel
  have hclassic : parseVerifiedClassicBlock Sample.sha256d Sample.rust (Sample.raw 7713) Sample.childHash
      500 1 = .ok (.auxpow (Sample.capture 7713)) := by decide +kernel
  have hblob : parseAuxpowHeaderBlob Sample.sha256d Sample.rust (Sample.raw 7713) =
      .ok (Sample.bareCapture 7713) := by decide +kernel
  have helastos : parseElastosAuxpow Sample.sha256d Sample.rust Sample.header (Sample.proofBytes 7713) =
      .ok (Sample.bareCapture 7713) := by decide +kernel
  have hqbit : parseQbitExtendedHeader Sample.sha256d Sample.rust
      (Sample.qbitHeader.bytes ++ Sample.qbitProofBytes 15512) 500 =
        .ok (.auxpow (Sample.qbitCapture 15512)) := by
    decide +kernel
  exact ⟨hnamecoin, hclassic, hblob, helastos, hdecode.2.1 _ _ _ _ _ hclassic,
    hdecode.2.2.2.1 _ _ _ helastos, (hdecode.2.2.2.2 _ _ _ hqbit).2⟩

end MergeMiningMonitor.AuxPow
