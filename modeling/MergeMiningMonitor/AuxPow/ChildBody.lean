import MergeMiningMonitor.AuxPow.Stored

/-!
# AuxPoW — ChildBody

The node that serves a block cannot alter what is captured of the child.  The header is bound by its
hash, and the coinbase by the Merkle root in the header.  A Merkle root does not bind the list of
transactions: a last transaction that stands alone is joined with itself, so lists of different lengths
share a root.  The first leaf is bound all the same, since it reaches the root by a left-most fold
(`Merkle.exists_leftmost_fold`), and such a fold binds its leaf whatever its length
(`Merkle.leftmost_binding`).

`child_evidence_is_unalterable` is the result, for classic and for Qbit blocks.  Freedom from collisions
is asked of the headers and of the strings that are hashed for the two bodies (`bodyInputs`).
-/

namespace MergeMiningMonitor.AuxPow

open Fallible Merkle List

section Inputs

variable {Tx : Type} (sha256d : Bytes → Hash32) (rust : RustBitcoin Tx)

/-- What is hashed to check the transactions of a block: they, and the nodes above them. -/
def bodyInputs (bytes : Bytes) : List Bytes :=
  match rust.deserializeBlock bytes with
  | none => []
  | some (_, txs) =>
    txs.map rust.serializeNoWitness ++
      rootInputs sha256d pairBytes txs.length (txs.map (computeTxid sha256d rust))

/-- The child block in the bytes of a classic block: the proof is cut out. -/
def classicChildBytes (raw : Bytes) : Bytes :=
  match readClassicPrefix sha256d rust raw with
  | .ok (_, some (_, bodyOffset)) => raw.take 80 ++ raw.drop bodyOffset
  | _ => []

/-- The child block in the bytes of a Qbit block. -/
def qbitChildBytes (raw : Bytes) (childHeight : UInt32) : Bytes :=
  match qbitExtendedHeaderPrefix sha256d rust raw childHeight with
  | .ok extended => raw.take 80 ++ raw.drop extended.length
  | .error _ => []

end Inputs

variable {Tx : Type} {sha256d : Bytes → Hash32} {rust : RustBitcoin Tx}

variable {child : ParsedChildBlockCoinbase} {heightParser : Bytes → Option Int}

theorem parseChildBlockCoinbaseWithHeight_eq_ok {bytes : Bytes}
    (h : parseChildBlockCoinbaseWithHeight sha256d rust bytes heightParser = .ok child) :
    ∃ coinbase txs, rust.deserializeBlock bytes = some (child.childHeader, coinbase :: txs) ∧
      checkMerkleRoot sha256d rust child.childHeader (coinbase :: txs) ∧
      child.childHeight = heightParser child.childCoinbaseScript ∧
      child.childCoinbaseTxid = computeTxid sha256d rust coinbase ∧
      (rust.inputScripts coinbase).head? = some child.childCoinbaseScript ∧
      child.childCoinbaseOutputs = rust.outputs coinbase := by
  obtain ⟨⟨header, txs⟩, hblock, h⟩ := bind_eq_ok.mp h
  obtain ⟨_, hroot, h⟩ := bind_eq_ok.mp h
  obtain ⟨coinbase, hfirst, h⟩ := bind_eq_ok.mp h
  obtain ⟨_, -, h⟩ := bind_eq_ok.mp h
  obtain ⟨script, hscript, h⟩ := bind_eq_ok.mp h
  cases h
  obtain ⟨rest, rfl⟩ := head?_eq_some_iff.mp (required_eq_ok.mp hfirst)
  exact ⟨coinbase, rest, required_eq_ok.mp hblock, ensure_eq_ok.mp hroot, rfl, rfl,
    required_eq_ok.mp hscript, rfl⟩

/-- The header of an authenticated body is the header that the body was put after. -/
theorem childHeader_eq {header : Header} {raw rest body : Bytes}
    (h : parseChildBlockCoinbaseWithHeight sha256d rust (raw.take 80 ++ body) heightParser = .ok child)
    (hraw : raw = header.bytes ++ rest) : child.childHeader.bytes = header.bytes := by
  obtain ⟨coinbase, txs, hblock, -⟩ := parseChildBlockCoinbaseWithHeight_eq_ok h
  have htake : raw.take 80 = header.bytes := hraw ▸ take_left' header.size
  rw [rust.block_header hblock, htake, take_left' header.size]

/-- The way of the coinbase to the root is hashed when the body is checked. -/
theorem mem_bodyInputs {coinbase : Tx} {txs : List Tx} {path : List Hash32} {x : Bytes}
    (hinputs : ∀ y ∈ foldInputs sha256d pairBytes (computeTxid sha256d rust coinbase) path 0,
      y ∈ rootInputs sha256d pairBytes (coinbase :: txs).length
        ((coinbase :: txs).map (computeTxid sha256d rust)))
    (hx : x ∈ rust.serializeNoWitness coinbase ::
      foldInputs sha256d pairBytes (computeTxid sha256d rust coinbase) path 0) :
    x ∈ (coinbase :: txs).map rust.serializeNoWitness ++
      rootInputs sha256d pairBytes (coinbase :: txs).length
        ((coinbase :: txs).map (computeTxid sha256d rust)) := by
  rcases mem_cons.mp hx with rfl | hx
  · exact mem_append_left _ mem_cons_self
  · exact mem_append_right _ (hinputs x hx)

theorem childCoinbase_binding (hnode : ∀ tx left right, rust.serializeNoWitness tx ≠ pairBytes left right)
    {bytes bytes' : Bytes} {child child' : ParsedChildBlockCoinbase}
    (h : parseChildBlockCoinbaseWithHeight sha256d rust bytes heightParser = .ok child)
    (h' : parseChildBlockCoinbaseWithHeight sha256d rust bytes' heightParser = .ok child')
    (hfree : NoCollision sha256d (bodyInputs sha256d rust bytes) (bodyInputs sha256d rust bytes'))
    (hheader : child.childHeader = child'.childHeader) : child = child' := by
  obtain ⟨coinbase, txs, hblock, hroot, hheight, htxid, hscript, houtputs⟩ :=
    parseChildBlockCoinbaseWithHeight_eq_ok h
  obtain ⟨coinbase', txs', hblock', hroot', hheight', htxid', hscript', houtputs'⟩ :=
    parseChildBlockCoinbaseWithHeight_eq_ok h'
  simp only [bodyInputs, hblock, hblock'] at hfree
  -- Only the left-most path of the two trees is compared: the lists may differ elsewhere.
  obtain ⟨path, hfold, hinputs⟩ := exists_leftmost_fold hroot
  obtain ⟨path', hfold', hinputs'⟩ := exists_leftmost_fold hroot'
  have hserialized : rust.serializeNoWitness coinbase = rust.serializeNoWitness coinbase' := by
    refine leftmost_binding pairBytes_injective (hnode coinbase) (hnode coinbase') ?_
      (hfold.trans ((congrArg Header.merkleRoot hheader).trans hfold'.symm))
    intro x hx y hy
    exact hfree x (mem_bodyInputs hinputs hx) y (mem_bodyInputs hinputs' hy)
  obtain ⟨hscripts, houts⟩ := rust.serialize_inj hserialized
  have hsame : child.childCoinbaseScript = child'.childCoinbaseScript :=
    Option.some.inj (hscript.symm.trans ((congrArg List.head? hscripts).trans hscript'))
  refine ParsedChildBlockCoinbase.ext hheader ?_ ?_ hsame ?_
  · rw [hheight, hheight', hsame]
  · rw [htxid, htxid', computeTxid, computeTxid, hserialized]
  · rw [houtputs, houtputs', houts]

/-- The body of an accepted classic block is authenticated under the requested hash. -/
theorem parseVerifiedClassicBlock_body {raw : Bytes} {requestedHash : Hash32} {requestedHeight : Int}
    {chainId : UInt32} {block : ParsedAuxpowBlock}
    (h : parseVerifiedClassicBlock sha256d rust raw requestedHash requestedHeight chainId =
      .ok (.auxpow block)) :
    ∃ child, parseChildBlockCoinbaseWithHeight sha256d rust (classicChildBytes sha256d rust raw)
        parseChildBip34Height = .ok child ∧
      sha256d child.childHeader.bytes = requestedHash ∧ block.childHeader = child.childHeader ∧
      block.childHeight = child.childHeight ∧
      block.childCoinbaseTxid = some child.childCoinbaseTxid ∧
      block.childCoinbaseScript = some child.childCoinbaseScript ∧
      block.childCoinbaseOutputs = child.childCoinbaseOutputs := by
  obtain ⟨header, auxpow, bodyOffset, child, hinitial, hhash, hchild, -, hattach⟩ :=
    parseVerifiedClassicBlock_eq_ok h
  obtain ⟨rest, -, hraw, -, -⟩ := readClassicPrefix_eq_ok hinitial
  obtain ⟨-, rfl⟩ := attachChildBlockCoinbase_eq_ok hattach
  have hsame : header = child.childHeader := Header.ext (childHeader_eq hchild hraw).symm
  refine ⟨child, ?_, hsame ▸ hhash, hsame, rfl, rfl, rfl, rfl⟩
  rw [classicChildBytes, hinitial]
  exact hchild

theorem qbitExtendedHeaderPrefix_prefix {raw extended : Bytes} {childHeight : UInt32}
    (h : qbitExtendedHeaderPrefix sha256d rust raw childHeight = .ok extended) : extended <+: raw := by
  obtain ⟨_, -, h⟩ := bind_eq_ok.mp h
  obtain ⟨⟨childHeader, rest⟩, -, h⟩ := bind_eq_ok.mp h
  obtain ⟨merged, -, h⟩ := bind_eq_ok.mp h
  cases merged with
  | false => exact Except.ok.inj h ▸ take_prefix _ _
  | true =>
    obtain ⟨⟨auxpow, rest'⟩, -, h⟩ := bind_eq_ok.mp h
    exact Except.ok.inj h ▸ take_prefix _ _

/-- The body of an accepted Qbit block is authenticated under the header of its proof. -/
theorem parseQbitBlock_body {raw : Bytes} {childHeight : UInt32} {block : ParsedQbitAuxpowBlock}
    (h : parseQbitBlock sha256d rust raw childHeight = .ok (some block)) :
    parseChildBlockCoinbaseWithHeight sha256d rust (qbitChildBytes sha256d rust raw childHeight)
      parseChildBip34Height = .ok block.coinbase ∧
      block.coinbase.childHeader = block.proof.childHeader := by
  obtain ⟨extended, hinitial, h⟩ := bind_eq_ok.mp h
  obtain ⟨parsed, hparsed, h⟩ := bind_eq_ok.mp h
  cases parsed with
  | direct header => cases h
  | auxpow proof =>
    obtain ⟨coinbase, hcoinbase, h⟩ := bind_eq_ok.mp h
    obtain ⟨_, -, h⟩ := bind_eq_ok.mp h
    obtain ⟨_, -, h⟩ := bind_eq_ok.mp h
    cases h
    obtain ⟨body, hraw⟩ := qbitExtendedHeaderPrefix_prefix hinitial
    obtain ⟨auxpow, hextended, -⟩ := parseQbitExtendedHeader_eq_ok hparsed
    rw [hextended, append_assoc] at hraw
    refine ⟨?_, Header.ext (childHeader_eq hcoinbase hraw.symm)⟩
    rw [qbitChildBytes, hinitial]
    exact hcoinbase

/-- **Evidence of the child cannot be altered by who serves it.**  Two accepted blocks under one header
hash give the same child, whatever else they differ in. -/
theorem child_evidence_is_unalterable
    (hnode : ∀ tx left right, rust.serializeNoWitness tx ≠ pairBytes left right) :
    (∀ (requestedHash : Hash32) (requestedHeight : Int) (chainId : UInt32) (raw raw' : Bytes)
      (block block' : ParsedAuxpowBlock),
      parseVerifiedClassicBlock sha256d rust raw requestedHash requestedHeight chainId =
        .ok (.auxpow block) →
      parseVerifiedClassicBlock sha256d rust raw' requestedHash requestedHeight chainId =
        .ok (.auxpow block') →
      NoCollision sha256d [block.childHeader.bytes] [block'.childHeader.bytes] →
      NoCollision sha256d (bodyInputs sha256d rust (classicChildBytes sha256d rust raw))
        (bodyInputs sha256d rust (classicChildBytes sha256d rust raw')) →
      block.childHeader = block'.childHeader ∧
        block.childCoinbaseTxid = block'.childCoinbaseTxid ∧
        block.childCoinbaseScript = block'.childCoinbaseScript ∧
        block.childCoinbaseOutputs = block'.childCoinbaseOutputs ∧
        block.childHeight = block'.childHeight) ∧
    (∀ (childHeight : UInt32) (raw raw' : Bytes) (block block' : ParsedQbitAuxpowBlock),
      parseQbitBlock sha256d rust raw childHeight = .ok (some block) →
      parseQbitBlock sha256d rust raw' childHeight = .ok (some block') →
      sha256d block.proof.childHeader.bytes = sha256d block'.proof.childHeader.bytes →
      NoCollision sha256d [block.proof.childHeader.bytes] [block'.proof.childHeader.bytes] →
      NoCollision sha256d (bodyInputs sha256d rust (qbitChildBytes sha256d rust raw childHeight))
        (bodyInputs sha256d rust (qbitChildBytes sha256d rust raw' childHeight)) →
      block.proof.childHeader = block'.proof.childHeader ∧
        block.coinbase.childCoinbaseTxid = block'.coinbase.childCoinbaseTxid ∧
        block.coinbase.childCoinbaseScript = block'.coinbase.childCoinbaseScript ∧
        block.coinbase.childCoinbaseOutputs = block'.coinbase.childCoinbaseOutputs ∧
        block.coinbase.childHeight = block'.coinbase.childHeight) := by
  refine ⟨?_, ?_⟩
  · intro requestedHash requestedHeight chainId raw raw' block block' h h' hheader hfree
    obtain ⟨child, hchild, hhash, hsame, hheight, htxid, hscript, houtputs⟩ :=
      parseVerifiedClassicBlock_body h
    obtain ⟨child', hchild', hhash', hsame', hheight', htxid', hscript', houtputs'⟩ :=
      parseVerifiedClassicBlock_body h'
    have heq : block.childHeader = block'.childHeader := by
      refine Header.ext (hheader _ mem_cons_self _ mem_cons_self ?_)
      rw [hsame, hsame', hhash, hhash']
    obtain rfl := childCoinbase_binding hnode hchild hchild' hfree (hsame ▸ hsame' ▸ heq)
    exact ⟨heq, htxid.trans htxid'.symm, hscript.trans hscript'.symm, houtputs.trans houtputs'.symm,
      hheight.trans hheight'.symm⟩
  · intro childHeight raw raw' block block' h h' hhash hheader hfree
    obtain ⟨hchild, hsame⟩ := parseQbitBlock_body h
    obtain ⟨hchild', hsame'⟩ := parseQbitBlock_body h'
    have heq : block.proof.childHeader = block'.proof.childHeader :=
      Header.ext (hheader _ mem_cons_self _ mem_cons_self hhash)
    have hcoinbase := childCoinbase_binding hnode hchild hchild' hfree
      (hsame.trans (heq.trans hsame'.symm))
    exact ⟨heq, by rw [hcoinbase], by rw [hcoinbase], by rw [hcoinbase], by rw [hcoinbase]⟩

/-- Two samples with different proofs, classic and Qbit, agree on the child. -/
theorem sample_evidence_is_unalterable :
    (Sample.capture 7713).childCoinbaseScript = (Sample.capture 62831).childCoinbaseScript ∧
    (Sample.qbitBlock 15512).coinbase.childCoinbaseTxid =
      (Sample.qbitBlock 31721).coinbase.childCoinbaseTxid := by
  have hnode : ∀ tx left right, Sample.rust.serializeNoWitness tx ≠ pairBytes left right := by
    intro tx left right h
    have hlength := tx.length_serialize.symm.trans (congrArg List.length h)
    rw [pairBytes, length_append, left.size, right.size] at hlength
    omega
  have hbound := @child_evidence_is_unalterable _ Sample.sha256d _ hnode
  refine ⟨(hbound.1 Sample.childHash 500 1 (Sample.raw 7713) (Sample.raw 62831) (Sample.capture 7713)
    (Sample.capture 62831) (by decide +kernel) (by decide +kernel) ?_ ?_).2.2.1,
    (hbound.2 500 (Sample.qbitRaw 15512) (Sample.qbitRaw 31721) (Sample.qbitBlock 15512)
    (Sample.qbitBlock 31721) (by decide +kernel) (by decide +kernel) rfl ?_ ?_).2.1⟩
  all_goals
    unfold NoCollision
    decide +kernel

end MergeMiningMonitor.AuxPow
