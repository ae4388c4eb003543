import MergeMiningMonitor.ReadModel.Rows
import MergeMiningMonitor.Navigator.Branches

/-!
# Navigator — Pages

One page of a navigator target, with the cursors of the pages next to it.

Two of the three kinds of pages are read by SQL.  The height targets order their blocks by height, then
by a tiebreak, and then by the smaller hash; the orphans are ordered by header time and then by the
greater hash (`heightOrder`, `timeOrder`).  The page on the newer side of a cursor is read oldest first
and turned around.  The place of a page is counted in the same statement, as the number of blocks that
are newer than the newest one of the page (`keysetPage`).  The pages of branches are cut out of the
sorted branches, whose positions are their places (`pageBranchSummaries`).

From a page come its items with their indexes, and the cursors of its last and of its first item, where
there is something older or newer (`buildPayload`).  A request names no cursor, a cursor with a
direction, or an anchor (`parseMode`).

The eligible blocks are given.  Left out is what an item shows besides its hash and its position.
-/

namespace MergeMiningMonitor.Navigator

open Relational Ordered Fallible FixedWidth
open AuxPow (Hash32)

/-! ### Requests -/

inductive NavigatorDirection
  | older
  | newer
deriving DecidableEq

def NavigatorDirection.parse (raw : String) : Except ApiError NavigatorDirection :=
  if raw = "older" then .ok .older
  else if raw = "newer" then .ok .newer
  else .error ⟨"direction must be older or newer"⟩

inductive NavigatorMode
  | latest
  | page (direction : NavigatorDirection) (cursor : NavigatorCursor)
  | anchor (hash : String)

/-- The parameters of a request that say which page is meant. -/
structure NavigatorRequest (Text : Type) where
  cursor : Option Text
  direction : Option String
  anchorHash : Option String

/-- What a request can fail with. -/
inductive NavigatorError
  | query (error : ApiError)
  | projection (context : String)
deriving DecidableEq

/-- The mode of `parse_navigator_query`. -/
def parseMode {Text : Type} (text : CursorText Text) (target : NavigatorTarget)
    (request : NavigatorRequest Text) : Except ApiError NavigatorMode := do
  let anchorHash ← match request.anchorHash with
    | none => .ok none
    | some raw =>
      some <$> required (lowercaseHex64 raw) ⟨"anchor_hash must be a 64-character hex hash"⟩
  match request.cursor, request.direction, anchorHash with
  | none, none, none => return .latest
  | some rawCursor, some rawDirection, none =>
    let direction ← NavigatorDirection.parse rawDirection
    let cursor ← NavigatorCursor.decode text rawCursor target
    return .page direction cursor
  | none, none, some hash => return .anchor hash
  | some _, some _, some _ => throw ⟨"cursor and anchor_hash are mutually exclusive"⟩
  | some _, none, _ | none, some _, _ => throw ⟨"cursor and direction must be supplied together"⟩

/-- A hash of a request, as it is stored. -/
def parseHash (hash : String) : Except NavigatorError Hash32 :=
  required (storedHashFromDisplay hash) (.projection "parse normalized block hash")

/-! ### Pages that are read by SQL -/

structure KeysetPage (Row : Type) where
  rows : List Row
  total : ℕ
  newerCount : ℕ

namespace KeysetPage

variable {Row : Type} (page : KeysetPage Row)

def firstIndex : Option ℕ := if page.rows.isEmpty then none else some (page.newerCount + 1)

def existsNewer : Bool := page.newerCount > 0

def existsOlder : Bool := page.total > page.newerCount + page.rows.length

end KeysetPage

/-- The SQL pieces of a keyset: both `ORDER BY` clauses, and which rows are strictly older (or newer)
than the columns of a position. -/
structure ScanOrder (Row Pos : Type) where
  newestFirst : Row → Row → Bool
  oldestFirst : Row → Row → Bool
  edge : (older : Bool) → Pos → Row → Bool
  position : Row → Pos
  hash : Row → Hash32

/-- What a page is read from. -/
inductive Scan (Pos : Type)
  | latest
  | page (direction : NavigatorDirection) (pos : Pos)
  | anchor (hash : Hash32)

section Keyset

variable {Row Pos : Type} (order : ScanOrder Row Pos)

def scanWhere (scan : Scan Pos) (row : Row) : Bool :=
  match scan with
  | .latest => true
  | .page direction pos => order.edge (direction = .older) pos row
  | .anchor hash => order.hash row = hash

def limitedScan (eligible : List Row) (limit : ℕ) (scan : Scan Pos) : List Row :=
  let le := match scan with
    | .page .newer _ => order.oldestFirst
    | _ => order.newestFirst
  (sortBy le (eligible.filter (scanWhere order scan))).take limit

/-- The statement of `fetch_height_keyset` and `fetch_time_keyset`, with the newest row first. -/
def keysetPage (eligible : List Row) (total limit : ℕ) (scan : Scan Pos) : KeysetPage Row :=
  let rows := limitedScan order eligible limit scan
  let boundary := (sortBy order.newestFirst rows).head?
  let newerCount := match scan with
    | .latest => 0
    | _ => boundary.elim 0 fun b => eligible.countP (order.edge false (order.position b))
  let rows := match scan with
    | .page .newer _ => rows.reverse
    | _ => rows
  ⟨rows, total, newerCount⟩

end Keyset

structure HeightRow where
  height : ℤ
  tiebreak : ℤ
  hash : Hash32
  height_range : InI32 height
  tiebreak_range : InI64 tiebreak
deriving DecidableEq

/-- `HEIGHT_NEWEST_FIRST`, `HEIGHT_OLDEST_FIRST` and `height_edge_predicate` -/
def heightOrder : ScanOrder HeightRow (ℤ × ℤ × Hash32) where
  newestFirst a b := a.height > b.height || (a.height = b.height &&
    (a.tiebreak > b.tiebreak || (a.tiebreak = b.tiebreak && a.hash ≤ b.hash)))
  oldestFirst a b := a.height < b.height || (a.height = b.height &&
    (a.tiebreak < b.tiebreak || (a.tiebreak = b.tiebreak && b.hash ≤ a.hash)))
  edge older := fun (axis, tiebreak, hash) row =>
    if older then
      row.height < axis || (row.height = axis &&
        (row.tiebreak < tiebreak || (row.tiebreak = tiebreak && row.hash > hash)))
    else
      row.height > axis || (row.height = axis &&
        (row.tiebreak > tiebreak || (row.tiebreak = tiebreak && row.hash < hash)))
  position row := (row.height, row.tiebreak, row.hash)
  hash := HeightRow.hash

structure TimeRow where
  headerTime : ℤ
  hash : Hash32
  btcOrphanClass : Option OrphanClass
  headerTime_range : InI64 headerTime
deriving DecidableEq

/-- The orders and edges of `time_scan_sql`. -/
def timeOrder : ScanOrder TimeRow (ℤ × Hash32) where
  newestFirst a b := a.headerTime > b.headerTime || (a.headerTime = b.headerTime && b.hash ≤ a.hash)
  oldestFirst a b := a.headerTime < b.headerTime || (a.headerTime = b.headerTime && a.hash ≤ b.hash)
  edge older := fun (axis, hash) row =>
    if older then row.headerTime < axis || (row.headerTime = axis && row.hash < hash)
    else row.headerTime > axis || (row.headerTime = axis && row.hash > hash)
  position row := (row.headerTime, row.hash)
  hash := TimeRow.hash

/-- The classes that are asked for. -/
structure ClassFilter where
  classes : List OrphanClass
  includePending : Bool

/-- `btc_orphan_class = ANY($2) OR ($3 AND btc_orphan_class IS NULL)` -/
def ClassFilter.accepts (filter : ClassFilter) : Option OrphanClass → Bool
  | some c => filter.classes.contains c
  | none => filter.includePending

/-- The groups of the orphans by class, with their sizes. -/
def classCounts (orphans : List TimeRow) : List (Option OrphanClass × ℕ) :=
  (orphans.map (·.btcOrphanClass)).dedup.map fun c => (c, orphans.countP (·.btcOrphanClass = c))

/-- `total` of `time_keyset_sql`, the sum of the groups that are asked for. -/
def classTotal (filter : ClassFilter) (orphans : List TimeRow) : ℕ :=
  (((classCounts orphans).filter fun group => filter.accepts group.1).map (·.2)).sum

/-! ### Pages of branches -/

/-- `sort_stale_branch_desc`, which is also `sort_orphan_branch_desc`. -/
def sortBranchDesc (a b : BranchComponent) : Bool :=
  b.keyMax < a.keyMax || (b.keyMax = a.keyMax &&
    (b.keyMin < a.keyMin || (b.keyMin = a.keyMin && a.rootHash ≤ b.rootHash)))

/-- `stale_branch_matches_cursor`, which is also `orphan_branch_matches_cursor`. -/
def branchMatchesCursor (summary : BranchComponent) (cursor : NavigatorCursor)
    (edge : NavigatorDirection) : Bool :=
  match storedHashFromDisplay cursor.hash with
  | none => false
  | some rootHash =>
    match edge with
    | .older => summary.keyMax < cursor.max ||
        (summary.keyMax = cursor.max && summary.keyMin < cursor.min) ||
        (summary.keyMax = cursor.max && summary.keyMin = cursor.min && summary.rootHash > rootHash)
    | .newer => summary.keyMax > cursor.max ||
        (summary.keyMax = cursor.max && summary.keyMin > cursor.min) ||
        (summary.keyMax = cursor.max && summary.keyMin = cursor.min && summary.rootHash < rootHash)

structure BranchPage where
  rows : List BranchComponent
  startOffset : ℕ
  existsOlder : Bool
  existsNewer : Bool

def BranchPage.firstIndex (page : BranchPage) : Option ℕ :=
  if page.rows.isEmpty then none else some (page.startOffset + 1)

def pageBranchSummaries (summaries : List BranchComponent) (limit : ℕ) (mode : NavigatorMode) :
    Except NavigatorError BranchPage := do
  let indexed ← match mode with
    | .anchor hash => do
      let hash ← parseHash hash
      pure (summaries.zipIdx.filter fun entry => entry.1.memberHashes.contains hash)
    | .page direction cursor =>
      pure (summaries.zipIdx.filter fun entry => branchMatchesCursor entry.1 cursor direction)
    | .latest => pure summaries.zipIdx
  let indexed := match mode with
    | .page .newer _ => (indexed.reverse.take limit).reverse
    | _ => indexed.take limit
  let startOffset := (indexed.head?.map (·.2)).getD 0
  return ⟨indexed.map (·.1), startOffset, startOffset + indexed.length < summaries.length, startOffset > 0⟩

/-! ### Payloads -/

/-- `NavigatorItem`: hash and position, index and cursor. -/
structure NavigatorItem (Text : Type) where
  kind : NavigatorTarget
  primaryHash : String
  axis : NavigatorAxis
  min : ℤ
  max : ℤ
  index : ℕ
  cursor : Text
deriving DecidableEq

structure NavigatorPayload (Text : Type) where
  target : NavigatorTarget
  items : List (NavigatorItem Text)
  total : ℕ
  nextCursor : Option Text
  prevCursor : Option Text
deriving DecidableEq

section Payload

variable {Text : Type} (text : CursorText Text)

/-- An item at the position of a cursor, before it has an index. -/
def itemAt (cursor : NavigatorCursor) : NavigatorItem Text :=
  ⟨cursor.target, cursor.hash, cursor.axis, cursor.min, cursor.max, 0, cursor.encode text⟩

def applyFirstIndex (items : List (NavigatorItem Text)) (first : Option ℕ) : List (NavigatorItem Text) :=
  match first with
  | some first => items.mapIdx fun offset item => { item with index := first + offset }
  | none => items

def pageCursors (items : List (NavigatorItem Text)) (existsOlder existsNewer : Bool) :
    Option Text × Option Text :=
  ((items.getLast?.filter fun _ => existsOlder).map (·.cursor),
    (items.head?.filter fun _ => existsNewer).map (·.cursor))

/-- The payload of a page, with the items of its rows. -/
def buildPayload (target : NavigatorTarget) (items : List (NavigatorItem Text)) (firstIndex : Option ℕ)
    (total : ℕ) (existsOlder existsNewer : Bool) : NavigatorPayload Text :=
  let items := applyFirstIndex items firstIndex
  let (nextCursor, prevCursor) := pageCursors items existsOlder existsNewer
  ⟨target, items, Nat.max total items.length, nextCursor, prevCursor⟩

/-- The cursor of `height_item`. -/
def heightCursor (target : NavigatorTarget) (row : HeightRow) : NavigatorCursor :=
  ⟨target, .height, row.height, row.height, displayHash row.hash, row.tiebreak⟩

/-- `height_blocks`, for the targets `stale`, `invalid-block` and `mixed-signal`. -/
def heightBlocks (target : NavigatorTarget) (eligible : Table HeightRow.hash) (limit : ℕ)
    (mode : NavigatorMode) : Except NavigatorError (NavigatorPayload Text) := do
  let scan : Scan (ℤ × ℤ × Hash32) ← match mode with
    | .latest => pure .latest
    | .page direction cursor => do
      let hash ← parseHash cursor.hash
      pure (.page direction (cursor.max, cursor.tiebreak, hash))
    | .anchor hash => do
      let hash ← parseHash hash
      pure (.anchor hash)
  let page := keysetPage heightOrder eligible.rows eligible.rows.length limit scan
  return buildPayload target (page.rows.map fun row => itemAt text (heightCursor target row))
    page.firstIndex page.total page.existsOlder page.existsNewer

/-- The cursor of `orphan_item`. -/
def orphanCursor (row : TimeRow) : NavigatorCursor :=
  ⟨.orphan, .time, row.headerTime, row.headerTime, displayHash row.hash, 0⟩

/-- `orphans`, over all orphans and the classes that are asked for. -/
def orphans (orphanBlocks : Table TimeRow.hash) (filter : ClassFilter) (limit : ℕ)
    (mode : NavigatorMode) : Except NavigatorError (NavigatorPayload Text) := do
  let scan : Scan (ℤ × Hash32) ← match mode with
    | .latest => pure .latest
    | .page direction cursor => do
      let hash ← parseHash cursor.hash
      pure (.page direction (cursor.max, hash))
    | .anchor hash => do
      let hash ← parseHash hash
      pure (.anchor hash)
  let eligible := orphanBlocks.rows.filter fun row => filter.accepts row.btcOrphanClass
  let page := keysetPage timeOrder eligible (classTotal filter orphanBlocks.rows) limit scan
  return buildPayload .orphan (page.rows.map fun row => itemAt text (orphanCursor row)) page.firstIndex
    page.total page.existsOlder page.existsNewer

/-- The cursor of `stale_branch_item` and `orphan_branch_item`. -/
def branchCursor (target : NavigatorTarget) (summary : BranchComponent) : NavigatorCursor :=
  ⟨target, target.axis, summary.keyMin, summary.keyMax, displayHash summary.rootHash, 0⟩

/-- The pages of a branch target. -/
def branches (target : NavigatorTarget) (rows : BranchRows) (limit : ℕ) (mode : NavigatorMode) :
    Except NavigatorError (NavigatorPayload Text) := do
  let summaries := sortBy sortBranchDesc (branchComponents rows)
  let page ← pageBranchSummaries summaries limit mode
  return buildPayload target (page.rows.map fun summary => itemAt text (branchCursor target summary))
    page.firstIndex summaries.length page.existsOlder page.existsNewer

def staleBranches : BranchRows → ℕ → NavigatorMode → Except NavigatorError (NavigatorPayload Text) :=
  branches text .staleBranch

def orphanBranches : BranchRows → ℕ → NavigatorMode → Except NavigatorError (NavigatorPayload Text) :=
  branches text .orphanBranch

/-- A request to a target. -/
def serve (target : NavigatorTarget)
    (navigate : NavigatorMode → Except NavigatorError (NavigatorPayload Text))
    (request : NavigatorRequest Text) : Except NavigatorError (NavigatorPayload Text) := do
  let mode ← (parseMode text target request).mapError .query
  navigate mode

end Payload

end MergeMiningMonitor.Navigator
