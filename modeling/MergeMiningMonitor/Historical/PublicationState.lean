import MergeMiningMonitor.AuxPow.Commitment
import MergeMiningMonitor.Support.Codes

/-!
# Historical ingest — Publication state

How a published row is compared with what is stored for it (`csv_source/publication_state.rs`).  Both
are written to a stream that is hashed.  The fields that a publication may leave empty are written only
when the expected row has them; which those are (`publicationFieldMask`) is not part of the stream.

Each field is written in a code that can be told apart from the front, so under the mask of a published
row two streams are equal exactly when the rows agree on what it publishes (`stream_decides`).  The
fingerprints of an expected and a stored row then agree exactly when the rows do on everything that the
expected one publishes, and what it leaves empty has no influence (`fingerprints_compare_published`).
-/

namespace MergeMiningMonitor.Historical

open AuxPow (Bytes Hash32)
open Codes Slices List

/-- A text or other value of variable length, whose length is a `u64`. -/
abbrev Text := { bytes : Bytes // bytes.length < 256 ^ 8 }

def Text.ofHash (h : Hash32) : Text := ⟨h.bytes, by rw [h.size]; decide⟩

structure ComparableRskState where
  blockHash : Hash32
  height : Int32
  isUncle : Bool
  uncleIndex : Option Int32
  uncleParentHeight : Option Int32
  miner : Text
  mergeMiningHash : Hash32
  merkleProofSha256 : Option Hash32
  coinbaseTailSha256 : Option Hash32
  proofFormat : Text
deriving DecidableEq

structure ComparablePublicationState where
  sourceKind : Text
  artifactScope : Text
  provenance : Text
  classification : Text
  btcHeight : Option Int32
  validationStatus : Option Text
  btcStaleRelevance : Option Text
  relevanceReason : Option Text
  childHeight : Option Int32
  childBlockHash : Option Hash32
  childHeaderSha256 : Option Hash32
  childBlockTime : Option Int64
  childNbits : Option Int64
  powValidatesChildTarget : Option Bool
  btcParentHeaderHash : Hash32
  btcParentPrevHeaderHash : Hash32
  btcParentHeaderTime : Int64
  btcParentCoinbaseTxid : Option Hash32
  btcParentCoinbaseScriptSha256 : Option Hash32
  btcParentCoinbaseOutputsSha256 : Option Hash32
  btcParentCoinbaseOutputsTextSha256 : Option Hash32
  btcParentCoinbaseTxSha256 : Option Hash32
  rsk : Option ComparableRskState
  invalidBlockReason : Option Text
deriving DecidableEq

/-- The bits of a mask. -/
inductive PublicationField
  | childHeight | childHash | childHeader | childTime | childNbits | childTargetResult
  | coinbaseTxid | coinbaseScript | coinbaseOutputs | coinbaseOutputsText | coinbaseTx
  | rskMerkleProof | rskCoinbaseTail | invalidBlockReason

/-- Which of the fields are included. -/
abbrev PublicationFieldMask := PublicationField → Bool

def publicationFieldMask (state : ComparablePublicationState) : PublicationFieldMask
  | .childHeight => state.childHeight.isSome
  | .childHash => state.childBlockHash.isSome
  | .childHeader => state.childHeaderSha256.isSome
  | .childTime => state.childBlockTime.isSome
  | .childNbits => state.childNbits.isSome
  | .childTargetResult => state.powValidatesChildTarget.isSome
  | .coinbaseTxid => state.btcParentCoinbaseTxid.isSome
  | .coinbaseScript => state.btcParentCoinbaseScriptSha256.isSome
  | .coinbaseOutputs => state.btcParentCoinbaseOutputsSha256.isSome
  | .coinbaseOutputsText => state.btcParentCoinbaseOutputsTextSha256.isSome
  | .coinbaseTx => state.btcParentCoinbaseTxSha256.isSome
  | .rskMerkleProof => state.rsk.any (·.merkleProofSha256.isSome)
  | .rskCoinbaseTail => state.rsk.any (·.coinbaseTailSha256.isSome)
  | .invalidBlockReason => state.invalidBlockReason.isSome

/-! ### The stream -/

def pushBytes (value : Text) : Bytes := toBeBytes 8 value.1.length ++ value.1

def pushI32 (value : Int32) : Bytes := toBeBytes 4 value.toUInt32.toNat

def pushI64 (value : Int64) : Bytes := toBeBytes 8 value.toUInt64.toNat

def pushBool (value : Bool) : Bytes := [if value then 1 else 0]

/-- The marked codes of `push_option_bytes`, `push_option_i32`, `push_option_i64` and
`push_option_bool`. -/
def pushOption {α : Type} (push : α → Bytes) (value : Option α) : Bytes :=
  value.elim [0] (1 :: push ·)

def pushArray (value : Hash32) : Bytes := pushBytes (.ofHash value)

/-- A code that is written only under the mask. -/
def whenever {α : Type} (included : Bool) (push : α → Bytes) (value : α) : Bytes :=
  if included then push value else []

def pushRsk (mask : PublicationFieldMask) : Option ComparableRskState → Bytes
  | some rsk => pushBool true ++ (pushArray rsk.blockHash ++ (pushI32 rsk.height ++
      (pushBool rsk.isUncle ++ (pushOption pushI32 rsk.uncleIndex ++
      (pushOption pushI32 rsk.uncleParentHeight ++ (pushBytes rsk.miner ++
      (pushArray rsk.mergeMiningHash ++ (pushBytes rsk.proofFormat ++
      (whenever (mask .rskMerkleProof) (pushOption pushArray) rsk.merkleProofSha256 ++
      whenever (mask .rskCoinbaseTail) (pushOption pushArray) rsk.coinbaseTailSha256)))))))))
  | none => pushBool false

/-- Everything that is hashed, in order. -/
def stream (mask : PublicationFieldMask) (state : ComparablePublicationState) : Bytes :=
  pushBytes state.sourceKind ++ (pushBytes state.artifactScope ++ (pushBytes state.provenance ++
  (pushBytes state.classification ++ (pushOption pushI32 state.btcHeight ++
  (pushOption pushBytes state.validationStatus ++ (pushOption pushBytes state.btcStaleRelevance ++
  (pushOption pushBytes state.relevanceReason ++ (pushArray state.btcParentHeaderHash ++
  (pushArray state.btcParentPrevHeaderHash ++ (pushI64 state.btcParentHeaderTime ++
  (whenever (mask .invalidBlockReason) (pushOption pushBytes) state.invalidBlockReason ++
  (whenever (mask .childHeight) (pushOption pushI32) state.childHeight ++
  (whenever (mask .childHash) (pushOption pushArray) state.childBlockHash ++
  (whenever (mask .childHeader) (pushOption pushArray) state.childHeaderSha256 ++
  (whenever (mask .childTime) (pushOption pushI64) state.childBlockTime ++
  (whenever (mask .childNbits) (pushOption pushI64) state.childNbits ++
  (whenever (mask .childTargetResult) (pushOption pushBool) state.powValidatesChildTarget ++
  (whenever (mask .coinbaseTxid) (pushOption pushArray) state.btcParentCoinbaseTxid ++
  (whenever (mask .coinbaseScript) (pushOption pushArray) state.btcParentCoinbaseScriptSha256 ++
  (whenever (mask .coinbaseOutputs) (pushOption pushArray) state.btcParentCoinbaseOutputsSha256 ++
  (whenever (mask .coinbaseOutputsText) (pushOption pushArray)
    state.btcParentCoinbaseOutputsTextSha256 ++
  (whenever (mask .coinbaseTx) (pushOption pushArray) state.btcParentCoinbaseTxSha256 ++
  pushRsk mask state.rsk))))))))))))))))))))))

section
variable (sha256 : Bytes → Hash32)

def fingerprint (state : ComparablePublicationState) (mask : PublicationFieldMask) : Hash32 :=
  sha256 (stream mask state)

/-- `ExpectedPublicationState::matches`, of the row that an expected state was made from. -/
def matchesStored (expected stored : ComparablePublicationState) : Bool :=
  let mask := publicationFieldMask expected
  fingerprint sha256 expected mask = fingerprint sha256 stored mask

end

/-! ### Agreement -/

/-- The RSK parts of two rows agree: both are absent, or both are present with the same identity and
the same digests, as far as the published part has them. -/
def RskAgree (published : Option ComparableRskState) :
    Option ComparableRskState → Option ComparableRskState → Prop
  | none, none => True
  | some a, some b =>
    a.blockHash = b.blockHash ∧ a.height = b.height ∧ a.isUncle = b.isUncle ∧
      a.uncleIndex = b.uncleIndex ∧ a.uncleParentHeight = b.uncleParentHeight ∧ a.miner = b.miner ∧
      a.mergeMiningHash = b.mergeMiningHash ∧ a.proofFormat = b.proofFormat ∧
      (published.any (·.merkleProofSha256.isSome) = true → a.merkleProofSha256 = b.merkleProofSha256) ∧
      (published.any (·.coinbaseTailSha256.isSome) = true → a.coinbaseTailSha256 = b.coinbaseTailSha256)
  | _, _ => False

/-- Two rows agree on the fields that are always compared and on the others that the published row
has. -/
def Agree (published a b : ComparablePublicationState) : Prop :=
  a.sourceKind = b.sourceKind ∧ a.artifactScope = b.artifactScope ∧ a.provenance = b.provenance ∧
    a.classification = b.classification ∧ a.btcHeight = b.btcHeight ∧
    a.validationStatus = b.validationStatus ∧ a.btcStaleRelevance = b.btcStaleRelevance ∧
    a.relevanceReason = b.relevanceReason ∧ a.btcParentHeaderHash = b.btcParentHeaderHash ∧
    a.btcParentPrevHeaderHash = b.btcParentPrevHeaderHash ∧
    a.btcParentHeaderTime = b.btcParentHeaderTime ∧
    (published.invalidBlockReason.isSome → a.invalidBlockReason = b.invalidBlockReason) ∧
    (published.childHeight.isSome → a.childHeight = b.childHeight) ∧
    (published.childBlockHash.isSome → a.childBlockHash = b.childBlockHash) ∧
    (published.childHeaderSha256.isSome → a.childHeaderSha256 = b.childHeaderSha256) ∧
    (published.childBlockTime.isSome → a.childBlockTime = b.childBlockTime) ∧
    (published.childNbits.isSome → a.childNbits = b.childNbits) ∧
    (published.powValidatesChildTarget.isSome →
      a.powValidatesChildTarget = b.powValidatesChildTarget) ∧
    (published.btcParentCoinbaseTxid.isSome → a.btcParentCoinbaseTxid = b.btcParentCoinbaseTxid) ∧
    (published.btcParentCoinbaseScriptSha256.isSome →
      a.btcParentCoinbaseScriptSha256 = b.btcParentCoinbaseScriptSha256) ∧
    (published.btcParentCoinbaseOutputsSha256.isSome →
      a.btcParentCoinbaseOutputsSha256 = b.btcParentCoinbaseOutputsSha256) ∧
    (published.btcParentCoinbaseOutputsTextSha256.isSome →
      a.btcParentCoinbaseOutputsTextSha256 = b.btcParentCoinbaseOutputsTextSha256) ∧
    (published.btcParentCoinbaseTxSha256.isSome →
      a.btcParentCoinbaseTxSha256 = b.btcParentCoinbaseTxSha256) ∧
    RskAgree published.rsk a.rsk b.rsk

theorem toBeBytes_inj {k m n : Nat} (hm : m < 256 ^ k) (hn : n < 256 ^ k)
    (h : toBeBytes k m = toBeBytes k n) : m = n := by
  rw [← ofBeBytes_toBeBytes hm, h, ofBeBytes_toBeBytes hn]

theorem decides_pushBytes : Decides pushBytes (· = ·) := by
  refine fun a b r s => ⟨fun h => ?_, ?_⟩
  · rw [pushBytes, pushBytes, append_assoc, append_assoc] at h
    obtain ⟨hlength, hrest⟩ := append_inj h (by rw [length_toBeBytes, length_toBeBytes])
    obtain ⟨hbytes, hrs⟩ := append_inj hrest (toBeBytes_inj a.2 b.2 hlength)
    exact ⟨Subtype.ext hbytes, hrs⟩
  · rintro ⟨rfl, rfl⟩
    rfl

theorem decides_pushI32 : Decides pushI32 (· = ·) :=
  .fixed (fun _ => length_toBeBytes _ _) fun ⟨a⟩ ⟨b⟩ h =>
    congrArg Int32.ofUInt32 (UInt32.toNat_inj.mp (toBeBytes_inj a.toNat_lt b.toNat_lt h))

theorem decides_pushI64 : Decides pushI64 (· = ·) :=
  .fixed (fun _ => length_toBeBytes _ _) fun ⟨a⟩ ⟨b⟩ h =>
    congrArg Int64.ofUInt64 (UInt64.toNat_inj.mp (toBeBytes_inj a.toNat_lt b.toNat_lt h))

theorem decides_pushBool : Decides pushBool (· = ·) :=
  .fixed (fun _ => rfl) (by unfold Function.Injective; decide)

theorem decides_pushArray : Decides pushArray (· = ·) := fun _ _ r s =>
  (decides_pushBytes _ _ r s).trans (and_congr_left' (Subtype.ext_iff.trans Hash32.ext_iff.symm))

theorem decides_pushOption {α : Type} {push : α → Bytes} (h : Decides push (· = ·)) :
    Decides (pushOption push) (· = ·) := h.option (by decide)

theorem decides_whenever {α : Type} {push : α → Bytes} (h : Decides push (· = ·)) (included : Bool) :
    Decides (whenever included (pushOption push)) fun a b => included = true → a = b :=
  (decides_pushOption h).masked included

section
variable (published : ComparablePublicationState)

theorem decides_pushRsk :
    Decides (pushRsk (publicationFieldMask published)) (RskAgree published.rsk) := by
  rintro (_ | a) (_ | b) r s
  · simp only [pushRsk, RskAgree, decides_pushBool _ _ r s]
  · simp [pushRsk, RskAgree, pushBool]
  · simp [pushRsk, RskAgree, pushBool]
  · simp only [pushRsk, RskAgree, publicationFieldMask, append_assoc, decides_pushBool _ _,
      decides_pushArray _ _, decides_pushI32 _ _, decides_pushBytes _ _,
      decides_pushOption decides_pushI32 _ _, decides_whenever decides_pushArray _ _ _, true_and,
      and_assoc]

/-- **Under the mask of a published row, streams are equal exactly when the rows agree on what it
publishes.** -/
theorem stream_decides : Decides (stream (publicationFieldMask published)) (Agree published) := by
  intro a b r s
  simp only [stream, Agree, append_assoc, decides_pushArray _ _, decides_pushI64 _ _,
    decides_pushBytes _ _, decides_pushOption decides_pushI32 _ _,
    decides_pushOption decides_pushBytes _ _, decides_whenever decides_pushArray _ _ _,
    decides_whenever decides_pushI32 _ _ _, decides_whenever decides_pushI64 _ _ _,
    decides_whenever decides_pushBool _ _ _, decides_whenever decides_pushBytes _ _ _,
    decides_pushRsk published _ _, and_assoc]
  simp only [publicationFieldMask]

end

/-- **Fingerprints compare what is published.**  When the two streams do not collide, a stored row
matches exactly if it agrees with the expected one on the fields that are always compared and on those
that the expected row publishes.  What it leaves empty has no influence, with or without collisions. -/
theorem fingerprints_compare_published (sha256 : Bytes → Hash32) (expected : ComparablePublicationState) :
    (∀ stored, Merkle.NoCollision sha256 [stream (publicationFieldMask expected) expected]
        [stream (publicationFieldMask expected) stored] →
      (matchesStored sha256 expected stored = true ↔ Agree expected expected stored)) ∧
    ∀ stored stored', Agree expected stored stored' →
      matchesStored sha256 expected stored = matchesStored sha256 expected stored' := by
  refine ⟨fun stored hfree => ?_, fun stored stored' hagree => ?_⟩
  · rw [← (stream_decides _).eq_iff, matchesStored, decide_eq_true_iff]
    exact ⟨hfree _ (mem_singleton_self _) _ (mem_singleton_self _), congrArg sha256⟩
  · rw [matchesStored, matchesStored, fingerprint, fingerprint, fingerprint,
      (stream_decides _).eq_iff.mpr hagree]

namespace Sample

open AuxPow.Sample

def text : Text := ⟨[0x6e, 0x6d, 0x63], by decide⟩

/-- A row with a child height, and perhaps a time. -/
def row (childHeight : Int32) (childBlockTime : Option Int64) : ComparablePublicationState :=
  ⟨text, text, text, text, some 7, none, none, none, some childHeight, none, none, childBlockTime, none,
    none, hash 1, hash 0, 1700000000, none, none, none, none, none, none, none⟩

end Sample

open Sample AuxPow.Sample in
/-- The published height is compared, and the time that is left empty is not. -/
theorem published_height_compared :
    matchesStored sha256 (row 5 none) (row 5 (some 9)) = true ∧
      matchesStored sha256 (row 5 none) (row 6 none) = false := by
  obtain ⟨hcompare, hsame⟩ := fingerprints_compare_published sha256 (row 5 none)
  have hfree : ∀ height, height = 5 ∨ height = 6 → Merkle.NoCollision sha256
      [stream (publicationFieldMask (row 5 none)) (row 5 none)]
      [stream (publicationFieldMask (row 5 none)) (row height none)] := by
    unfold Merkle.NoCollision
    rintro _ (rfl | rfl) <;> decide +kernel
  constructor
  · rw [← hsame (row 5 none) (row 5 (some 9)) (by simp [Agree, RskAgree, row]),
      hcompare _ (hfree 5 (.inl rfl))]
    simp [Agree, RskAgree, row]
  · rw [← Bool.not_eq_true, hcompare _ (hfree 6 (.inr rfl))]
    simp [Agree, row]

end MergeMiningMonitor.Historical
