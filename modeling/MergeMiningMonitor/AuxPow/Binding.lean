import MergeMiningMonitor.AuxPow.Commitment

/-!
# AuxPoW — Binding

One coinbase script commits to one child block.  The tree size in the script pins the depth of the
chain branch, the nonce and the chain id pin its index, and the root stands at one place: the Elastos
verifier reads it after the marker, the classic and the Qbit verifier search for it and then ask that it
stands after the marker.  So two accepted branches fold to one root with one length and one index, and
such a fold binds its leaf and its siblings (`Merkle.fold_binding`).

`commitments_are_binding` says so of all three verifiers.  No hash onto 32 bytes is injective on 64
bytes, so freedom from collisions is asked of the pairs that the two folds hash (`chainInputs`).
-/

namespace MergeMiningMonitor.AuxPow

open Slices Merkle

variable (sha256d : Bytes → Hash32)

/-- The 64-byte strings that are hashed on the way from a leaf to its root. -/
def chainInputs (leaf : Hash32) (branch : MerkleBranch) : List Bytes :=
  foldInputs sha256d pairBytes leaf branch.hashes branch.index.toUInt32.toNat

variable {sha256d}

theorem CommitsAt.binding {script : Bytes} {chainId : UInt32} {pos : Nat} {leaf leaf' : Hash32}
    {branch branch' : MerkleBranch} (h : CommitsAt sha256d script chainId pos leaf branch)
    (h' : CommitsAt sha256d script chainId pos leaf' branch') (hdepth : branch.hashes.length < 32)
    (hdepth' : branch'.hashes.length < 32)
    (hfree : NoCollision sha256d (chainInputs sha256d leaf branch) (chainInputs sha256d leaf' branch')) :
    leaf = leaf' ∧ branch = branch' := by
  have hlength : branch.hashes.length = branch'.hashes.length :=
    treeWidth_inj hdepth hdepth' (h.treeSize.symm.trans h'.treeSize)
  have hslot : branch.index.toUInt32 = branch'.index.toUInt32 := by
    rw [h.slot, h'.slot, hlength]
  have hroot : foldMerkleBranch sha256d leaf branch = foldMerkleBranch sha256d leaf' branch' := by
    refine Hash32.reverse_injective (Hash32.ext ?_)
    rw [Hash32.occursAt_iff.mp h.root, Hash32.occursAt_iff.mp h'.root]
  rw [chainInputs, chainInputs, hslot] at hfree
  rw [foldMerkleBranch_eq, foldMerkleBranch_eq, hslot] at hroot
  obtain ⟨hleaf, hhashes⟩ := fold_binding pairBytes_injective hlength hfree hroot
  obtain ⟨hashes, ⟨index⟩⟩ := branch
  obtain ⟨hashes', ⟨index'⟩⟩ := branch'
  exact ⟨hleaf, congrArg₂ MerkleBranch.mk hhashes (congrArg Int32.ofUInt32 hslot)⟩

/-- **Commitments are binding.**  When the script holds the marker exactly once, two proofs that one
verifier accepts for it have the same child and the same chain branch. -/
theorem commitments_are_binding {script : Bytes}
    (honce : (occurrences auxpowMagic script).length = 1) :
    (∀ (chainId : UInt32) (parsed parsed' : ParsedAuxpowBlock) (child child' : Hash32),
      parsed.parentCoinbaseScript = script → parsed'.parentCoinbaseScript = script →
      verifyAuxpowCommitment sha256d parsed child chainId = .ok () →
      verifyAuxpowCommitment sha256d parsed' child' chainId = .ok () →
      NoCollision sha256d (chainInputs sha256d child.reverse parsed.proof.chainBranch)
        (chainInputs sha256d child'.reverse parsed'.proof.chainBranch) →
      child = child' ∧
        parsed.proof.chainBranch.hashes.length = parsed'.proof.chainBranch.hashes.length ∧
        parsed.proof.chainBranch.index = parsed'.proof.chainBranch.index ∧
        parsed.proof.chainBranch.hashes = parsed'.proof.chainBranch.hashes) ∧
    (∀ (chainId : UInt32) (parsed parsed' : ParsedAuxpowBlock) (child child' : Hash32),
      parsed.parentCoinbaseScript = script → parsed'.parentCoinbaseScript = script →
      verifyClassicAuxpowCommitment sha256d parsed child chainId = .ok () →
      verifyClassicAuxpowCommitment sha256d parsed' child' chainId = .ok () →
      NoCollision sha256d (chainInputs sha256d child parsed.proof.chainBranch)
        (chainInputs sha256d child' parsed'.proof.chainBranch) →
      child = child' ∧
        parsed.proof.chainBranch.hashes.length = parsed'.proof.chainBranch.hashes.length ∧
        parsed.proof.chainBranch.index = parsed'.proof.chainBranch.index ∧
        parsed.proof.chainBranch.hashes = parsed'.proof.chainBranch.hashes) ∧
    (∀ (childHeader childHeader' : Header) (auxpow auxpow' : QbitRawAuxpow),
      auxpow.coinbaseScript = script → auxpow'.coinbaseScript = script →
      verifyQbitProof sha256d childHeader auxpow = .ok () →
      verifyQbitProof sha256d childHeader' auxpow' = .ok () →
      NoCollision sha256d (chainInputs sha256d (sha256d childHeader.bytes) auxpow.chainBranch)
        (chainInputs sha256d (sha256d childHeader'.bytes) auxpow'.chainBranch) →
      sha256d childHeader.bytes = sha256d childHeader'.bytes ∧
        auxpow.chainBranch.hashes.length = auxpow'.chainBranch.hashes.length ∧
        auxpow.chainBranch.index = auxpow'.chainBranch.index ∧
        auxpow.chainBranch.hashes = auxpow'.chainBranch.hashes) := by
  obtain ⟨m, honce⟩ := List.length_eq_one_iff.mp honce
  refine ⟨?_, ?_, ?_⟩
  · intro chainId parsed parsed' child child' hscript hscript' haccept haccept' hfree
    obtain ⟨hdepth, -, -, hcommits⟩ := (verifyAuxpowCommitment_eq_ok honce hscript).mp haccept
    obtain ⟨hdepth', -, -, hcommits'⟩ := (verifyAuxpowCommitment_eq_ok honce hscript').mp haccept'
    obtain ⟨hleaf, hbranch⟩ := hcommits.binding hcommits' hdepth hdepth' hfree
    exact ⟨Hash32.reverse_injective hleaf, by rw [hbranch], by rw [hbranch], by rw [hbranch]⟩
  · intro chainId parsed parsed' child child' hscript hscript' haccept haccept' hfree
    obtain ⟨hdepth, -, -, hcommits, -⟩ :=
      (verifyClassicAuxpowCommitment_eq_ok honce hscript).mp haccept
    obtain ⟨hdepth', -, -, hcommits', -⟩ :=
      (verifyClassicAuxpowCommitment_eq_ok honce hscript').mp haccept'
    obtain ⟨hleaf, hbranch⟩ :=
      hcommits.binding hcommits' (by omega) (by omega) hfree
    exact ⟨hleaf, by rw [hbranch], by rw [hbranch], by rw [hbranch]⟩
  · intro childHeader childHeader' auxpow auxpow' hscript hscript' haccept haccept' hfree
    obtain ⟨-, -, hcommits, -⟩ := (verifyQbitProof_eq_ok honce hscript).mp haccept
    obtain ⟨-, -, hcommits', -⟩ := (verifyQbitProof_eq_ok honce hscript').mp haccept'
    have hcap := auxpow.chain_cap
    have hcap' := auxpow'.chain_cap
    obtain ⟨hleaf, hbranch⟩ := hcommits.binding hcommits' (by omega) (by omega) hfree
    exact ⟨hleaf, by rw [hbranch], by rw [hbranch], by rw [hbranch]⟩

/-- Each verifier accepts two different proofs for the sample script, and they agree on the child. -/
theorem sample_commitments_are_bound :
    (occurrences auxpowMagic (Sample.script Sample.header)).length = 1 ∧
    (Sample.block (Sample.hash 1)).proof.chainBranch.hashes =
      (Sample.block (Sample.hash 2)).proof.chainBranch.hashes ∧
    (Sample.block (Sample.hash 3)).proof.chainBranch.index =
      (Sample.block (Sample.hash 4)).proof.chainBranch.index ∧
    (Sample.qbitProof []).chainBranch.hashes.length =
      (Sample.qbitProof [⟨5, []⟩]).chainBranch.hashes.length :=
  have honce : (occurrences auxpowMagic (Sample.script Sample.header)).length = 1 := by decide +kernel
  have hfree : NoCollision Sample.sha256d
      (chainInputs Sample.sha256d Sample.childHash Sample.chainBranch)
      (chainInputs Sample.sha256d Sample.childHash Sample.chainBranch) := by
    unfold NoCollision
    decide +kernel
  have hreverse : Sample.childHash.reverse.reverse = Sample.childHash := Hash32.ext (List.reverse_reverse _)
  have hbound := @commitments_are_binding Sample.sha256d _ honce
  ⟨honce,
    (hbound.1 1 (Sample.block (Sample.hash 1)) (Sample.block (Sample.hash 2)) Sample.childHash.reverse
      Sample.childHash.reverse rfl rfl (by decide +kernel) (by decide +kernel)
      (by rwa [hreverse])).2.2.2,
    (hbound.2.1 1 (Sample.block (Sample.hash 3)) (Sample.block (Sample.hash 4)) Sample.childHash
      Sample.childHash rfl rfl (by decide +kernel) (by decide +kernel) hfree).2.2.1,
    (hbound.2.2 Sample.header Sample.header (Sample.qbitProof []) (Sample.qbitProof [⟨5, []⟩])
      rfl rfl (by decide +kernel) (by decide +kernel) hfree).2.1⟩

end MergeMiningMonitor.AuxPow
