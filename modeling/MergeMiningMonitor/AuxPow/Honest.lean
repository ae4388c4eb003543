import MergeMiningMonitor.AuxPow.Commitment

/-!
# AuxPoW — Honest

A miner that merge-mines builds a full binary tree of child blocks, puts the child of each chain at the
slot that the nonce gives it, and writes the reversed root, the number of leaves and the nonce after the
marker (`HonestScript`).  The proof of a child is its branch in the tree (`honestBranch`), which folds
back to the root (`Merkle.fold_branch`).

`honest_commitments_are_accepted`: each verifier accepts the proof of each such tree.
-/

namespace MergeMiningMonitor.AuxPow

open Slices List

/-- What a miner writes into the coinbase script. -/
def commitmentBytes (displayRoot : Hash32) (k : Nat) (nonce : UInt32) : Bytes :=
  auxpowMagic ++ (displayRoot.bytes ++ (toLeBytes 4 (2 ^ k) ++ toLeBytes 4 nonce.toNat))

/-- A script with one marker, and the commitment at it. -/
structure HonestScript (displayRoot : Hash32) (k : Nat) (nonce : UInt32) (script before after : Bytes) :
    Prop where
  layout : script = before ++ (commitmentBytes displayRoot k nonce ++ after)
  once : (occurrences auxpowMagic script).length = 1

variable (sha256d : Bytes → Hash32)

/-- The branch of a tree at a slot. -/
def honestBranch {k : Nat} (tree : Merkle.Tree Hash32 k) (slot : UInt32) : MerkleBranch :=
  ⟨tree.branch sha256d pairBytes slot.toNat, ⟨slot⟩⟩

variable {sha256d}

theorem u32At_of_drop {bytes : Bytes} {pos n : Nat} {after : Bytes}
    (h : bytes.drop pos = toLeBytes 4 n ++ after) : u32At bytes pos = UInt32.ofNat n := by
  have htake : (toLeBytes 4 n ++ after).take 4 = toLeBytes 4 n :=
    take_left' (length_toLeBytes 4 n)
  rw [u32At, h, htake, ofLeBytes_toLeBytes, ← UInt32.toNat_inj, UInt32.toNat_ofNat',
    UInt32.toNat_ofNat']
  exact Nat.mod_mod _ _

namespace HonestScript

variable {displayRoot : Hash32} {k : Nat} {nonce : UInt32} {script before after : Bytes}
  (h : HonestScript displayRoot k nonce script before after)

include h

theorem drop_before : script.drop before.length = commitmentBytes displayRoot k nonce ++ after := by
  rw [h.layout, drop_left]

theorem occurrences_eq : occurrences auxpowMagic script = [before.length] := by
  obtain ⟨m, honce⟩ := length_eq_one_iff.mp h.once
  have hhere : OccursAt auxpowMagic script before.length := by
    rw [OccursAt, h.drop_before, commitmentBytes, append_assoc]
    exact prefix_append _ _
  obtain ⟨-, honly⟩ := (occurrences_eq_singleton auxpowMagic_ne_nil).mp honce
  rw [honce, honly _ hhere]

theorem drop_root :
    script.drop (before.length + 4) =
      displayRoot.bytes ++ (toLeBytes 4 (2 ^ k) ++ (toLeBytes 4 nonce.toNat ++ after)) := by
  rw [← drop_drop, h.drop_before, commitmentBytes]
  simp only [append_assoc]
  exact drop_left' rfl

theorem drop_treeSize :
    script.drop (before.length + 4 + 32) =
      toLeBytes 4 (2 ^ k) ++ (toLeBytes 4 nonce.toNat ++ after) := by
  rw [← drop_drop, h.drop_root]
  exact drop_left' displayRoot.size

theorem drop_nonce : script.drop (before.length + 4 + 36) = toLeBytes 4 nonce.toNat ++ after := by
  rw [show before.length + 4 + 36 = before.length + 4 + 32 + 4 from rfl, ← drop_drop,
    h.drop_treeSize]
  exact drop_left' (length_toLeBytes 4 _)

theorem treeSize_eq (hk : k < 32) : u32At script (before.length + 4 + 32) = treeWidth k := by
  rw [u32At_of_drop h.drop_treeSize, ← UInt32.toNat_inj, toNat_treeWidth hk, UInt32.toNat_ofNat']
  exact Nat.mod_eq_of_lt (Nat.pow_lt_pow_right (by decide) hk)

theorem nonce_eq : u32At script (before.length + 4 + 36) = nonce := by
  rw [u32At_of_drop h.drop_nonce, UInt32.ofNat_toNat]

theorem fits : before.length + 4 + 40 ≤ script.length := by
  have hlength := congrArg List.length h.layout
  simp only [commitmentBytes, length_append, displayRoot.size, length_toLeBytes] at hlength
  have hmagic : auxpowMagic.length = 4 := rfl
  omega

end HonestScript

section Tree

variable {k : Nat} {tree : Merkle.Tree Hash32 k} {leaf : Hash32} {nonce chainId slot : UInt32}
  {script before after : Bytes}

theorem foldMerkleBranch_honestBranch (hslot : slot.toNat < 2 ^ k)
    (hleaf : tree.leafAt slot.toNat = leaf) :
    foldMerkleBranch sha256d leaf (honestBranch sha256d tree slot) = tree.root sha256d pairBytes := by
  rw [foldMerkleBranch_eq, ← hleaf]
  exact Merkle.fold_branch tree hslot

theorem length_honestBranch : (honestBranch sha256d tree slot).hashes.length = k :=
  tree.length_branch slot.toNat

theorem HonestScript.commitsAt
    (h : HonestScript (tree.root sha256d pairBytes).reverse k nonce script before after) (hk : k < 32)
    (hleaf : tree.leafAt (auxpowExpectedIndex nonce chainId k).toNat = leaf) :
    CommitsAt sha256d script chainId (before.length + 4) leaf
      (honestBranch sha256d tree (auxpowExpectedIndex nonce chainId k)) where
  fits := h.fits
  root := by
    rw [foldMerkleBranch_honestBranch (auxpowExpectedIndex_lt nonce chainId hk) hleaf, OccursAt,
      h.drop_root]
    exact prefix_append _ _
  treeSize := by rw [h.treeSize_eq hk, length_honestBranch]
  slot := by rw [h.nonce_eq, length_honestBranch]; rfl

theorem honestBranch_index (hk : k < 32) :
    0 ≤ (honestBranch sha256d tree (auxpowExpectedIndex nonce chainId k)).index ∧
      (honestBranch sha256d tree (auxpowExpectedIndex nonce chainId k)).index.toInt < 2 ^ k := by
  have hlt := auxpowExpectedIndex_lt nonce chainId hk
  have hpow : 2 ^ k ≤ 2 ^ 31 := Nat.pow_le_pow_right (by decide) (Nat.le_of_lt_succ hk)
  have hsmall : (honestBranch sha256d tree
      (auxpowExpectedIndex nonce chainId k)).index.toUInt32.toNat < 2 ^ 31 := hlt.trans_le hpow
  refine ⟨nonneg_of_toUInt32_lt hsmall, ?_⟩
  rw [toInt_of_toUInt32_lt hsmall]
  exact_mod_cast hlt

end Tree

/-- **Every honestly built commitment is accepted.**  The tree, the nonce and the bytes around the
commitment are arbitrary; the leaf at the slot is the child, reversed for Elastos. -/
theorem honest_commitments_are_accepted {k : Nat} (tree : Merkle.Tree Hash32 k) (nonce : UInt32)
    {script before after : Bytes}
    (h : HonestScript (tree.root sha256d pairBytes).reverse k nonce script before after)
    (hfirst : ∀ j < before.length + 4, ¬ OccursAt (tree.root sha256d pairBytes).reverse.bytes script j) :
    (∀ (chainId : UInt32) (parsed : ParsedAuxpowBlock) (child : Hash32), k ≤ 31 →
      tree.leafAt (auxpowExpectedIndex nonce chainId k).toNat = child.reverse →
      parsed.parentCoinbaseScript = script →
      CoinbaseFirst sha256d parsed.parentCoinbaseTxid parsed.proof.coinbaseBranch parsed.parentHeader →
      parsed.proof.chainBranch =
        honestBranch sha256d tree (auxpowExpectedIndex nonce chainId k) →
      verifyAuxpowCommitment sha256d parsed child chainId = .ok ()) ∧
    (∀ (chainId : UInt32) (parsed : ParsedAuxpowBlock) (child : Hash32), k ≤ 30 →
      tree.leafAt (auxpowExpectedIndex nonce chainId k).toNat = child →
      parsed.parentCoinbaseScript = script →
      CoinbaseFirst sha256d parsed.parentCoinbaseTxid parsed.proof.coinbaseBranch parsed.parentHeader →
      parsed.proof.chainBranch =
        honestBranch sha256d tree (auxpowExpectedIndex nonce chainId k) →
      verifyClassicAuxpowCommitment sha256d parsed child chainId = .ok ()) ∧
    (∀ (childHeader : Header) (auxpow : QbitRawAuxpow), k ≤ 30 →
      tree.leafAt (auxpowExpectedIndex nonce qbitAuxpowChainId k).toNat = sha256d childHeader.bytes →
      auxpow.coinbaseScript = script →
      CoinbaseFirst sha256d auxpow.coinbaseTxid auxpow.coinbaseBranch auxpow.parentHeader →
      auxpow.chainBranch =
        honestBranch sha256d tree (auxpowExpectedIndex nonce qbitAuxpowChainId k) →
      verifyQbitProof sha256d childHeader auxpow = .ok ()) := by
  have honce := h.occurrences_eq
  refine ⟨?_, ?_, ?_⟩
  · intro chainId parsed child hk hleaf hscript hcoinbase hbranch
    rw [verifyAuxpowCommitment_eq_ok honce hscript, hbranch, length_honestBranch]
    have hdepth : k < 32 := Nat.lt_succ_of_le hk
    exact ⟨hdepth, (honestBranch_index hdepth).1, hcoinbase, h.commitsAt hdepth hleaf⟩
  · intro chainId parsed child hk hleaf hscript hcoinbase hbranch
    have hdepth : k < 32 := by omega
    rw [verifyClassicAuxpowCommitment_eq_ok honce hscript, hbranch, length_honestBranch,
      foldMerkleBranch_honestBranch (auxpowExpectedIndex_lt nonce chainId hdepth) hleaf]
    exact ⟨hk, (honestBranch_index hdepth).1, hcoinbase, h.commitsAt hdepth hleaf, hfirst⟩
  · intro childHeader auxpow hk hleaf hscript hcoinbase hbranch
    have hdepth : k < 32 := by omega
    rw [verifyQbitProof_eq_ok honce hscript, hbranch, length_honestBranch,
      foldMerkleBranch_honestBranch (auxpowExpectedIndex_lt nonce qbitAuxpowChainId hdepth) hleaf]
    exact ⟨honestBranch_index hdepth, hcoinbase, h.commitsAt hdepth hleaf, hfirst⟩

/-- The sample tree, with the child at slot 1. -/
def sampleTree : Merkle.Tree Hash32 1 := .node (.leaf (Sample.hash 0)) (.leaf Sample.childHash)

/-- The sample proofs are accepted, by each of the verifiers. -/
theorem sample_commitments_are_accepted :
    HonestScript (sampleTree.root Sample.sha256d pairBytes).reverse 1 0 (Sample.script Sample.header)
      [] [] ∧
    verifyAuxpowCommitment Sample.sha256d (Sample.block (Sample.hash 1)) Sample.childHash.reverse 1 =
      .ok () ∧
    verifyClassicAuxpowCommitment Sample.sha256d (Sample.block (Sample.hash 1)) Sample.childHash 1 =
      .ok () ∧
    verifyQbitProof Sample.sha256d Sample.header (Sample.qbitProof []) = .ok () :=
  have hscript : HonestScript (sampleTree.root Sample.sha256d pairBytes).reverse 1 0
      (Sample.script Sample.header) [] [] := ⟨by decide +kernel, by decide +kernel⟩
  have hfirst : ∀ j < 4, ¬ OccursAt (sampleTree.root Sample.sha256d pairBytes).reverse.bytes
      (Sample.script Sample.header) j := by
    unfold OccursAt
    decide +kernel
  have hcoinbase : CoinbaseFirst Sample.sha256d (Sample.sha256d (Sample.coinbase
      (Sample.script Sample.header))) ⟨[], 0⟩ (Sample.parentHeader Sample.header 0) :=
    ⟨rfl, by decide +kernel⟩
  have haccept := honest_commitments_are_accepted sampleTree 0 hscript hfirst
  ⟨hscript,
    haccept.1 1 _ _ (by decide) (by decide +kernel) rfl hcoinbase rfl,
    haccept.2.1 1 _ _ (by decide) (by decide +kernel) rfl hcoinbase rfl,
    haccept.2.2 _ _ (by decide) (by decide +kernel) rfl hcoinbase rfl⟩

end MergeMiningMonitor.AuxPow
