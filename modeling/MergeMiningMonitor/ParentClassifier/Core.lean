import MergeMiningMonitor.Support.Sessions
import MergeMiningMonitor.ReadModel.Writers

/-!
# Parent classifier — Core

The verdict on a Bitcoin parent from what Core answers (`parent_classifier/core.rs`), for a classifier
that is not live.  A header that Core indexes is canonical or stale as Core says.  A header that Core
does not know is judged by its predecessor: on a placed predecessor it is a stale sibling of the active
block above, or invalid when its time is not above the median of its eleven ancestors.

There are two policies for a lookup that fails.  The strict one fails with it, and the lenient one
returns an unknown verdict that is marked incomplete.  Core is any source of answers with a state, so
that the answers may depend on the lookups before, and every lookup is recorded.

The policies agree wherever both decide, and neither attests an absence after a lookup that failed
(`policies_agree`).
-/

namespace MergeMiningMonitor.ParentClassifier

open Sessions

variable {σ Hash : Type}

/-! ### Answers -/

/-- The errors that the classifier tells apart. -/
inductive RpcError
  /-- `is_not_found` -/
  | notFound
  /-- `is_block_height_out_of_range` -/
  | outOfRange
  /-- `is_block_body_pruned` -/
  | pruned
  | other
deriving DecidableEq

structure CoreHeaderStatus where
  height : Int
  confirmations : Int

/-- A Core with a state. -/
structure Source (σ Hash : Type) where
  getBlockHash : Nat → σ → Except RpcError Hash × σ
  getBlockHeader : Hash → σ → Except RpcError (Header Hash) × σ
  getBlockHeaderVerbose : Hash → σ → Except RpcError CoreHeaderStatus × σ
  getBlockCoinbase : Hash → σ → Except RpcError BlockCoinbase × σ

/-- What a lookup asks for. -/
inductive Request
  | height
  | header
  | coinbase
deriving DecidableEq

/-- A lookup that was made, with its error. -/
structure Lookup where
  request : Request
  error : Option RpcError

/-- The lookup succeeded, or was answered that there is no such thing. -/
def Lookup.Answered (l : Lookup) : Prop :=
  l.error = none ∨ l.error = some .notFound ∨ l.error = some .outOfRange

/-- Core, and the lookups so far. -/
structure Connection (σ : Type) where
  core : σ
  lookups : List Lookup

inductive ClassifyError
  | rpc (e : RpcError)
  | preflight
  /-- Core returned another header for a requested ancestor. -/
  | otherAncestor
deriving DecidableEq

abbrev Classify (σ α : Type) := Session (Connection σ) ClassifyError α

def errorOf {α : Type} : Except RpcError α → Option RpcError
  | .ok _ => none
  | .error e => some e

/-- A lookup. -/
def ask {α : Type} (request : Request) (call : σ → Except RpcError α × σ) :
    Classify σ (Except RpcError α) := fun c =>
  .ok ((call c.core).1, ⟨(call c.core).2, c.lookups ++ [⟨request, errorOf (call c.core).1⟩]⟩)

/-- What a policy does with an error: the strict one fails with it. -/
def giveUp {α : Type} (failOnRpcError : Bool) (e : RpcError) (a : α) : Classify σ α :=
  if failOnRpcError then throw (.rpc e) else pure a

/-! ### Verdicts -/

/-- `KnownBlockContext`: what is stored of the predecessor. -/
structure KnownBlockContext where
  kind : BlockKind
  btcHeight : Option Int

structure ParentPreflight where
  knownPrev : Option KnownBlockContext

structure ClassifiedHeader (Hash : Type) where
  hash : Hash
  prevHash : Hash
  header : Header Hash
  height : Int
  coinbase : Option BlockCoinbase
  coinbaseUnavailable : Bool

/-- `ParentClassification`, with the headers beside the verdict and its marks. -/
structure Verdict (Hash : Type) extends ParentClassification Hash where
  prevHash : Hash
  canonicalPredecessorHeader : Option (ClassifiedHeader Hash)
  canonicalCompetitorHeader : Option (ClassifiedHeader Hash)
  coreAbsenceAttested : Bool
  incomplete : Bool

namespace Verdict

def unknown (header : Header Hash) : Verdict Hash where
  toParentClassification := .unknown
  prevHash := header.prevBlockhash
  canonicalPredecessorHeader := none
  canonicalCompetitorHeader := none
  coreAbsenceAttested := false
  incomplete := false

def incompleteUnknown (header : Header Hash) : Verdict Hash :=
  { unknown header with incomplete := true }

def coreAbsenceUnknown (header : Header Hash) : Verdict Hash :=
  { unknown header with coreAbsenceAttested := true }

def invalidBlock (header : Header Hash) (height : Int) (heightSource : Option HeightSource)
    (difficultyEpochOk : Option Bool) (rejectionReason : String) : Verdict Hash :=
  { unknown header with
    kind := .invalidBlock
    height := some height
    heightSource
    difficultyEpochOk
    rejectionReason := some rejectionReason }

end Verdict

inductive CoinbaseFetch
  | found (coinbase : BlockCoinbase)
  | missing
  | unavailable

namespace CoinbaseFetch

def coinbase : CoinbaseFetch → Option BlockCoinbase
  | .found coinbase => some coinbase
  | .missing => none
  | .unavailable => none

def isUnavailable : CoinbaseFetch → Bool
  | .unavailable => true
  | _ => false

end CoinbaseFetch

inductive MtpCheck
  | passes (b : Bool)
  | ancestorMissing
  | unavailable

inductive Competitor (Hash : Type)
  | found (competitor : ClassifiedHeader Hash)
  | absent
  | unavailable

def mtpWindow : Nat := 11

/-- `times.sort_unstable(); times[MTP_WINDOW / 2]` -/
def medianTime (times : List Nat) : Nat := (times.insertionSort (· ≤ ·)).getD (mtpWindow / 2) 0

/-- `core_height_to_i32` -/
def coreHeightToI32 (height : Int) : Option Int :=
  if -2147483648 ≤ height ∧ height < 2147483648 then some height else none

/-- `prev_height.checked_add(1)` -/
def nextHeight (prevHeight : Int) : Option Int :=
  if prevHeight + 1 < 2147483648 then some (prevHeight + 1) else none

def bitsMatchExpected (header : Header Hash) (expected : Nat) : Bool := header.bits = expected

/-- `inferred_height_source`, which is not called with the other kinds. -/
def inferredHeightSource : BlockKind → Option HeightSource
  | .canonical => some .prevCanonical
  | .stale => some .prevStale
  | .invalidBlock => none
  | .unknown => none

def classifyCoreCanonicalHeader (header : Header Hash) (height : Int)
    (coinbase : Option BlockCoinbase) : Verdict Hash :=
  { Verdict.unknown header with
    kind := .canonical
    height := some height
    heightSource := some .bitcoinCore
    coinbase
    difficultyEpochOk := some true
    liveObserved := true
    coreAttested := true }

section Verdicts

variable [DecidableEq Hash] (blockHash : Header Hash → Hash)

def classifyCoreStaleHeader (header : Header Hash) (height : Int)
    (competitor : Option (ClassifiedHeader Hash)) (coinbase : Option BlockCoinbase) : Verdict Hash :=
  match competitor with
  | none => .unknown header
  | some competitor =>
    if competitor.hash = blockHash header then .unknown header
    else
      { Verdict.unknown header with
        kind := .stale
        height := some height
        heightSource := some .bitcoinCore
        canonicalCompetitorHash := some competitor.hash
        incomplete := competitor.coinbaseUnavailable
        canonicalCompetitorHeader := some competitor
        coinbase
        difficultyEpochOk := some true
        liveObserved := true
        coreAttested := true }

end Verdicts

def classifyInferredStaleWithCompetitor (header : Header Hash) (height : Int)
    (predecessor : Option (ClassifiedHeader Hash)) (prevKind : BlockKind)
    (competitor : Option (ClassifiedHeader Hash)) : Verdict Hash :=
  match competitor with
  | none => .unknown header
  | some competitor =>
    if bitsMatchExpected header competitor.header.bits then
      { Verdict.unknown header with
        kind := .stale
        height := some height
        heightSource := inferredHeightSource prevKind
        canonicalPredecessorHeader := predecessor
        canonicalCompetitorHash := some competitor.hash
        canonicalCompetitorHeader := some competitor
        difficultyEpochOk := some true
        incomplete := competitor.coinbaseUnavailable ||
          predecessor.any fun predecessor => predecessor.coinbaseUnavailable }
    else .unknown header

/-! ### Classification -/

section Classification

variable (source : Source σ Hash)

def coinbaseFetch : Except RpcError BlockCoinbase → CoinbaseFetch
  | .ok coinbase => .found coinbase
  | .error .notFound => .missing
  | .error .pruned => .missing
  | .error _ => .unavailable

def fetchCoinbase (hash : Hash) : Classify σ CoinbaseFetch := do
  let answer ← ask .coinbase (source.getBlockCoinbase hash)
  return coinbaseFetch answer

/-- `get_header`: the header, with its coinbase where it can be had. -/
def getHeader (hash : Hash) (height : Int) :
    Classify σ (Except RpcError (ClassifiedHeader Hash)) := do
  match ← ask .header (source.getBlockHeader hash) with
  | .error e => return .error e
  | .ok header =>
    let fetched ← fetchCoinbase source hash
    return .ok ⟨hash, header.prevBlockhash, header, height, fetched.coinbase, fetched.isUnavailable⟩

def fetchCompetitor (height : Int) (failOnRpcError : Bool) : Classify σ (Competitor Hash) :=
  if height < 0 then pure .absent
  else do
    match ← ask .height (source.getBlockHash height.toNat) with
    | .error .outOfRange => return .absent
    | .error .notFound => return .absent
    | .error e => giveUp failOnRpcError e .unavailable
    | .ok hash =>
      match ← getHeader source hash height with
      | .ok header => return .found header
      | .error .notFound => return .absent
      | .error e => giveUp failOnRpcError e .unavailable

variable [DecidableEq Hash] (blockHash : Header Hash → Hash)

/-- The loop of `median_time_past_passes`, with the ancestors that are left, the next one, and the
times so far. -/
def mtpAncestors (candidate : Header Hash) (failOnRpcError : Bool) :
    Nat → Hash → List Nat → Classify σ MtpCheck
  | 0, _, times => return .passes (medianTime times < candidate.time)
  | n + 1, expected, times => do
    match ← ask .header (source.getBlockHeader expected) with
    | .ok ancestor =>
      if blockHash ancestor = expected then
        mtpAncestors candidate failOnRpcError n ancestor.prevBlockhash (times ++ [ancestor.time])
      else throw .otherAncestor
    | .error .notFound => return .ancestorMissing
    | .error e => giveUp failOnRpcError e .unavailable

def medianTimePastPasses (candidate : Header Hash) (failOnRpcError : Bool) : Classify σ MtpCheck :=
  mtpAncestors source blockHash candidate failOnRpcError mtpWindow candidate.prevBlockhash []

def classifyInferredStale (header : Header Hash) (prevHeight : Int)
    (predecessor : Option (ClassifiedHeader Hash)) (prevKind : BlockKind) (failOnRpcError : Bool) :
    Classify σ (Verdict Hash) :=
  match nextHeight prevHeight with
  | none => pure (.coreAbsenceUnknown header)
  | some height => do
    match ← fetchCompetitor source height failOnRpcError with
    | .absent => return .coreAbsenceUnknown header
    | .unavailable => return .incompleteUnknown header
    | .found competitor =>
      if bitsMatchExpected header competitor.header.bits then
        match ← medianTimePastPasses source blockHash header failOnRpcError with
        | .passes true =>
          return classifyInferredStaleWithCompetitor header height predecessor prevKind
            (some competitor)
        | .passes false =>
          return .invalidBlock header height (inferredHeightSource prevKind) (some true)
            timeBelowMtp
        | .ancestorMissing => return .unknown header
        | .unavailable => return .incompleteUnknown header
      else return .unknown header

omit [DecidableEq Hash] in
def classifyInvalidBlockChild (header : Header Hash) (prevHeight : Int) (failOnRpcError : Bool) :
    Classify σ (Verdict Hash) :=
  match nextHeight prevHeight with
  | none => pure (.coreAbsenceUnknown header)
  | some height => do
    match ← fetchCompetitor source height failOnRpcError with
    | .found competitor =>
      if bitsMatchExpected header competitor.header.bits then return .coreAbsenceUnknown header
      else return .unknown header
    | .absent => return .coreAbsenceUnknown header
    | .unavailable => return .incompleteUnknown header

/-- The rest of `classify_core_unknown`, for a predecessor that is not placed by what is stored. -/
def classifyByPredecessor (header : Header Hash) (failOnRpcError : Bool) :
    Classify σ (Verdict Hash) := do
  match ← ask .header (source.getBlockHeaderVerbose header.prevBlockhash) with
  | .error .notFound => return .coreAbsenceUnknown header
  | .error e => giveUp failOnRpcError e (.incompleteUnknown header)
  | .ok prev =>
    if prev.confirmations < 0 then return .coreAbsenceUnknown header
    else
      match coreHeightToI32 prev.height with
      | none => return .coreAbsenceUnknown header
      | some prevHeight =>
        match ← getHeader source header.prevBlockhash prevHeight with
        | .error e => giveUp failOnRpcError e (.incompleteUnknown header)
        | .ok predecessor =>
          classifyInferredStale source blockHash header prevHeight (some predecessor) .canonical
            failOnRpcError

def classifyCoreUnknown (header : Header Hash) (preflight : ParentPreflight) (failOnRpcError : Bool) :
    Classify σ (Verdict Hash) :=
  match preflight.knownPrev with
  | some ⟨.canonical, some prevHeight⟩ =>
    classifyInferredStale source blockHash header prevHeight none .canonical failOnRpcError
  | some ⟨.stale, some prevHeight⟩ =>
    classifyInferredStale source blockHash header prevHeight none .stale failOnRpcError
  | some ⟨.invalidBlock, some prevHeight⟩ =>
    classifyInvalidBlockChild source header prevHeight failOnRpcError
  | _ => classifyByPredecessor source blockHash header failOnRpcError

/-- The verdict on a header that Core indexes. -/
def classifyIndexed (header : Header Hash) (status : CoreHeaderStatus) (failOnRpcError : Bool) :
    Classify σ (Verdict Hash) :=
  match coreHeightToI32 status.height with
  | none => pure (.unknown header)
  | some height => do
    let fetched ← fetchCoinbase source (blockHash header)
    if 0 ≤ status.confirmations then
      return { classifyCoreCanonicalHeader header height fetched.coinbase with
        incomplete := fetched.isUnavailable }
    else
      match ← fetchCompetitor source height failOnRpcError with
      | .unavailable => return .incompleteUnknown header
      | .absent =>
        let verdict := classifyCoreStaleHeader blockHash header height none fetched.coinbase
        return { verdict with incomplete := verdict.incomplete || fetched.isUnavailable }
      | .found competitor =>
        let verdict := classifyCoreStaleHeader blockHash header height (some competitor)
          fetched.coinbase
        return { verdict with incomplete := verdict.incomplete || fetched.isUnavailable }

/-- `classify_parent_deferred_with_policy`.  The preflight is loaded once Core does not know the
header, and may fail. -/
def classifyParent (header : Header Hash) (preflight : Option ParentPreflight)
    (failOnRpcError : Bool) : Classify σ (Verdict Hash) := do
  match ← ask .header (source.getBlockHeaderVerbose (blockHash header)) with
  | .ok status => classifyIndexed source blockHash header status failOnRpcError
  | .error .notFound =>
    match preflight with
    | none => throw .preflight
    | some preflight => classifyCoreUnknown source blockHash header preflight failOnRpcError
  | .error e => giveUp failOnRpcError e (.incompleteUnknown header)

end Classification

end MergeMiningMonitor.ParentClassifier
