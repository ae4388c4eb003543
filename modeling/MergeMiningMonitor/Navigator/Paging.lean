import MergeMiningMonitor.Navigator.Windows

/-!
# Navigator — Paging

A client that follows the cursors of a target sees every item once.

`followNext` starts at the latest page and asks for the page behind each `next_cursor` that it is given.
`VisitsOnce` says what a client can rely on: the walk yields the whole listing, with indexes from one
up, and ends; the page before any page holds the items directly before it; the page of an anchor holds
the item that contains it, with its rank; a cursor that is sent to a client is read back as the
position of its item.

A payload is determined by the place where its window starts (`slice`, `buildPayload_window`), and so
the facts about cursors come down to which place a request leads to (`Listed`).  `paging_visits_once`
puts the four kinds of pages together.  It asks for heights and header times that are not negative,
because `NavigatorCursor::decode` refuses the cursors of others: `latest_cursor_refused`.
-/

namespace MergeMiningMonitor.Navigator

open Relational Fallible FixedWidth Lists List Option
open AuxPow (Hash32)

variable {Text : Type} (text : CursorText Text) (target : NavigatorTarget)

/-! ### Slices -/

/-- The items of a whole listing. -/
def numbered (cursors : List NavigatorCursor) : List (NavigatorItem Text) :=
  cursors.mapIdx fun offset cursor => { itemAt text cursor with index := offset + 1 }

/-- The payload of the items from a place on. -/
def slice (cursors : List NavigatorCursor) (start len : ℕ) : NavigatorPayload Text :=
  let items := ((numbered text cursors).drop start).take len
  ⟨target, items, cursors.length,
    (items.getLast?.filter fun _ => start + items.length < cursors.length).map (·.cursor),
    (items.head?.filter fun _ => 0 < start).map (·.cursor)⟩

variable {cursors : List NavigatorCursor} {c : NavigatorCursor} {start len i : ℕ}

@[simp] theorem length_numbered : (numbered text cursors).length = cursors.length :=
  length_mapIdx

theorem getElem?_numbered (i : ℕ) : (numbered text cursors)[i]? =
    cursors[i]?.map fun cursor => { itemAt text cursor with index := i + 1 } :=
  getElem?_mapIdx

theorem applyFirstIndex_window {Row : Type} {listing rows : List Row} {newerCount : ℕ}
    (cursorOf : Row → NavigatorCursor) (h : Window listing rows newerCount start len) :
    applyFirstIndex (rows.map fun row => itemAt text (cursorOf row))
        (if rows.isEmpty then none else some (newerCount + 1)) =
      ((numbered text (listing.map cursorOf)).drop start).take len := by
  have hget : ∀ k : ℕ, (applyFirstIndex (rows.map fun row => itemAt text (cursorOf row))
      (if rows.isEmpty then none else some (newerCount + 1)))[k]? =
      rows[k]?.map fun row => { itemAt text (cursorOf row) with index := newerCount + 1 + k } := by
    intro k
    cases rows with
    | nil => rfl
    | cons row rows =>
      simp only [isEmpty_cons, Bool.false_eq_true, if_false, applyFirstIndex,
        List.getElem?_mapIdx, List.getElem?_map, Option.map_map]
      rfl
  refine List.ext_getElem? fun k => ?_
  have hrow : rows[k]? = if k < len then listing[start + k]? else none := by
    rw [h.rows_eq, getElem?_take, getElem?_drop]
  rw [hget, getElem?_take, getElem?_drop, getElem?_numbered, getElem?_map]
  split
  · next hk =>
      rw [if_pos hk] at hrow
      rw [hrow]
      cases hlisted : listing[start + k]? with
      | none => rfl
      | some row =>
        have hsome : rows ≠ [] := by
          rintro rfl
          rw [hlisted] at hrow
          cases hrow
        have hplace : newerCount = start := by rw [h.newerCount_eq, if_neg hsome]
        rw [hplace, Nat.add_right_comm]
        rfl
  · next hk =>
      rw [if_neg hk] at hrow
      rw [hrow]
      rfl

/-- **A window makes a slice.** -/
theorem buildPayload_window {Row : Type} {listing rows : List Row} {newerCount : ℕ}
    (cursorOf : Row → NavigatorCursor) (h : Window listing rows newerCount start len) :
    buildPayload target (rows.map fun row => itemAt text (cursorOf row))
        (if rows.isEmpty then none else some (newerCount + 1)) listing.length
        (listing.length > newerCount + rows.length) (newerCount > 0) =
      slice text target (listing.map cursorOf) start len := by
  have hitems := applyFirstIndex_window text cursorOf h
  have hlength : (((numbered text (listing.map cursorOf)).drop start).take len).length =
      rows.length := by
    rw [h.rows_eq]
    simp only [length_take, length_drop, length_numbered, length_map]
  have hle : rows.length ≤ listing.length := by
    rw [h.rows_eq]
    exact ((take_sublist _ _).trans (drop_sublist _ _)).length_le
  simp only [buildPayload, hitems, pageCursors, slice, hlength, length_map]
  by_cases hrows : rows = []
  · have hnil : ((numbered text (listing.map cursorOf)).drop start).take len = [] :=
      length_eq_zero_iff.mp (by rw [hlength, hrows]; rfl)
    simp [hnil, hrows]
  · have hplace : newerCount = start := by rw [h.newerCount_eq, if_neg hrows]
    subst hplace
    simp [Nat.max_eq_left hle]

theorem length_slice_items : (slice text target cursors start len).items.length =
    min len (cursors.length - start) := by
  simp [slice]

theorem slice_nextCursor (cursors : List NavigatorCursor) (start : ℕ) (hlen : 0 < len) :
    (slice text target cursors start len).nextCursor =
    if start + len < cursors.length then cursors[start + len - 1]?.map (·.encode text) else none := by
  have hlength : (slice text target cursors start len).items.length =
      min len (cursors.length - start) := length_slice_items text target
  have hnext : (slice text target cursors start len).nextCursor =
      ((slice text target cursors start len).items.getLast?.filter fun _ =>
        start + (slice text target cursors start len).items.length < cursors.length).map (·.cursor) := rfl
  rw [hnext, getLast?_eq_getElem?, hlength]
  split
  · next h =>
      have hmin : min len (cursors.length - start) = len := by omega
      have hplace : start + (len - 1) = start + len - 1 := by omega
      rw [hmin, slice, getElem?_take_of_lt (by omega), getElem?_drop, getElem?_numbered, hplace]
      cases cursors[start + len - 1]? with
      | none => rfl
      | some c => simp [h, itemAt]
  · next h =>
      rcases Nat.lt_or_ge start cursors.length with hstart | hstart
      · have hend : ¬ start + min len (cursors.length - start) < cursors.length := by omega
        simp [hend]
      · have hnone : min len (cursors.length - start) = 0 := by omega
        have hitems : (slice text target cursors start len).items = [] :=
          length_eq_zero_iff.mp (hlength.trans hnone)
        rw [hitems]
        rfl

theorem slice_head? (hlen : 0 < len) : (slice text target cursors start len).items.head? =
    (numbered text cursors)[start]? := by
  rw [slice, head?_take, if_neg hlen.ne', head?_drop]

theorem slice_prevCursor : (slice text target cursors start len).prevCursor =
    ((slice text target cursors start len).items.head?.filter fun _ => 0 < start).map (·.cursor) := rfl

/-! ### Requests of a client -/

variable (navigate : NavigatorMode → Except NavigatorError (NavigatorPayload Text))

variable {target}

theorem serve_page {raw : String} {direction : NavigatorDirection}
    (hdirection : NavigatorDirection.parse raw = .ok direction) (htarget : c.target = target)
    (hreadable : c.Readable) :
    serve text target navigate ⟨some (c.encode text), some raw, none⟩ =
      navigate (.page direction c) := by
  subst htarget
  have hmode : parseMode text c.target ⟨some (c.encode text), some raw, none⟩ =
      .ok (.page direction c) := by
    refine bind_eq_ok.mpr ⟨none, rfl, ?_⟩
    refine bind_eq_ok.mpr ⟨direction, hdirection, ?_⟩
    exact bind_eq_ok.mpr ⟨c, c.decode_encode text hreadable, rfl⟩
  rw [serve, hmode]
  rfl

theorem serve_anchor {raw hash : String} (h : lowercaseHex64 raw = some hash) :
    serve text target navigate ⟨none, none, some raw⟩ = navigate (.anchor hash) := by
  rw [serve, parseMode]
  simp only [h]
  rfl

theorem mode_of_serve {request : NavigatorRequest Text} {payload : NavigatorPayload Text}
    (h : serve text target navigate request = .ok payload) : ∃ mode, navigate mode = .ok payload := by
  obtain ⟨mode, -, hpayload⟩ := bind_eq_ok.mp h
  exact ⟨mode, hpayload⟩

variable (target)

/-- The pages from a cursor on, as often as there is a next one. -/
def followNext : ℕ → Option Text → Except NavigatorError (List (NavigatorPayload Text))
  | 0, _ => .ok []
  | fuel + 1, cursor => do
    let payload ← serve text target navigate ⟨cursor, cursor.map fun _ => "older", none⟩
    match payload.nextCursor with
    | none => return [payload]
    | some next =>
      let rest ← followNext fuel (some next)
      return payload :: rest

/-- The pages that a client sees, against the listing of the target.  An item stands for its row and for
the blocks that the row contains. -/
structure VisitsOnce {Row : Type} (limit : ℕ) (listing : List Row) (cursorOf : Row → NavigatorCursor)
    (contains : Row → Hash32 → Prop) : Prop where
  /-- The walk yields the listing and ends. -/
  walk : ∀ fuel, listing.length < fuel → ∃ pages, followNext text target navigate fuel none = .ok pages ∧
    pages.flatMap (·.items) = numbered text (listing.map cursorOf) ∧
    (∀ payload ∈ pages, payload.total = listing.length) ∧
    pages.getLast?.map (·.nextCursor) = some none
  /-- A page without newer items has no cursor before it; any other leads to the items before it. -/
  previous : ∀ request payload first, serve text target navigate request = .ok payload →
    payload.items.head? = some first → ∃ i : ℕ, (numbered text (listing.map cursorOf))[i]? = some first ∧
      (i = 0 → payload.prevCursor = none) ∧
      (0 < i → ∃ raw newer, payload.prevCursor = some raw ∧
        serve text target navigate ⟨some raw, some "newer", none⟩ = .ok newer ∧
        newer.items = ((numbered text (listing.map cursorOf)).take i).drop (i - limit))
  /-- The page of a block in the listing is the item that contains it. -/
  anchor : ∀ (i : ℕ) row hash raw, listing[i]? = some row → contains row hash →
    lowercaseHex64 raw = some (displayHash hash) →
    ∃ payload item, serve text target navigate ⟨none, none, some raw⟩ = .ok payload ∧
      payload.items = [item] ∧ (numbered text (listing.map cursorOf))[i]? = some item
  /-- The cursor of an item is read back as its position. -/
  decodes : ∀ request payload, serve text target navigate request = .ok payload →
    (∀ item ∈ payload.items, ∃ (i : ℕ) (row : Row), listing[i]? = some row ∧
      (numbered text (listing.map cursorOf))[i]? = some item ∧
      NavigatorCursor.decode text item.cursor target = .ok (cursorOf row)) ∧
    (∀ raw ∈ payload.nextCursor, ∃ item ∈ payload.items.getLast?, item.cursor = raw) ∧
    ∀ raw ∈ payload.prevCursor, ∃ item ∈ payload.items.head?, item.cursor = raw

/-- The modes of a target and the slices of its listing that they lead to. -/
structure Listed {Row : Type} (limit : ℕ) (listing : List Row) (cursorOf : Row → NavigatorCursor)
    (contains : Row → Hash32 → Prop) : Prop where
  latest : navigate .latest = .ok (slice text target (listing.map cursorOf) 0 limit)
  older : ∀ (i : ℕ) row, listing[i]? = some row →
    navigate (.page .older (cursorOf row)) = .ok (slice text target (listing.map cursorOf) (i + 1) limit)
  newer : ∀ (i : ℕ) row, listing[i]? = some row → navigate (.page .newer (cursorOf row)) =
    .ok (slice text target (listing.map cursorOf) (i - limit) (min limit i))
  anchor : ∀ (i : ℕ) row hash, listing[i]? = some row → contains row hash →
    navigate (.anchor (displayHash hash)) = .ok (slice text target (listing.map cursorOf) i 1)
  slices : ∀ mode payload, navigate mode = .ok payload →
    ∃ start len, payload = slice text target (listing.map cursorOf) start len
  target_eq : ∀ row ∈ listing, (cursorOf row).target = target
  readable : ∀ row ∈ listing, (cursorOf row).Readable

section Listed

variable {text target navigate} {Row : Type} {limit : ℕ} {listing : List Row}
  {cursorOf : Row → NavigatorCursor} {contains : Row → Hash32 → Prop} {row : Row}
  (h : Listed text target navigate limit listing cursorOf contains)

include h in
theorem Listed.serve_older (hi : listing[i]? = some row) :
    serve text target navigate ⟨some ((cursorOf row).encode text), some "older", none⟩ =
      .ok (slice text target (listing.map cursorOf) (i + 1) limit) := by
  have hrow := mem_of_getElem? hi
  rw [serve_page text navigate rfl (h.target_eq row hrow) (h.readable row hrow), h.older i row hi]

include h in
theorem Listed.serve_newer (hi : listing[i]? = some row) :
    serve text target navigate ⟨some ((cursorOf row).encode text), some "newer", none⟩ =
      .ok (slice text target (listing.map cursorOf) (i - limit) (min limit i)) := by
  have hrow := mem_of_getElem? hi
  rw [serve_page text navigate rfl (h.target_eq row hrow) (h.readable row hrow), h.newer i row hi]

include h in
theorem Listed.followNext_slice (hlimit : 0 < limit) (fuel : ℕ) (start : ℕ) (cursor : Option Text)
    (hserve : serve text target navigate ⟨cursor, cursor.map fun _ => "older", none⟩ =
      .ok (slice text target (listing.map cursorOf) start limit))
    (hfuel : listing.length - start < fuel) :
    ∃ pages, followNext text target navigate fuel cursor = .ok pages ∧
      pages.flatMap (·.items) = (numbered text (listing.map cursorOf)).drop start ∧
      (∀ payload ∈ pages, payload.total = listing.length) ∧
      pages.getLast?.map (·.nextCursor) = some none := by
  -- each further page starts where the last one ended, and so closer to the end
  induction fuel generalizing start cursor with
  | zero => exact absurd hfuel (Nat.not_lt_zero _)
  | succ fuel ih =>
    have hnext := slice_nextCursor text target (listing.map cursorOf) start hlimit
    rw [length_map] at hnext
    by_cases hmore : start + limit < listing.length
    · obtain ⟨row, hrow⟩ : ∃ row, listing[start + limit - 1]? = some row :=
        ⟨_, getElem?_eq_getElem (by omega)⟩
      rw [if_pos hmore, getElem?_map, hrow] at hnext
      have hplace : start + limit - 1 + 1 = start + limit := by omega
      have hserve' := h.serve_older hrow
      rw [hplace] at hserve'
      obtain ⟨pages, hpages, hitems, htotal, hlast⟩ :=
        ih (start + limit) (some ((cursorOf row).encode text)) hserve' (by omega)
      refine ⟨slice text target (listing.map cursorOf) start limit :: pages, ?_, ?_, ?_, ?_⟩
      · refine bind_eq_ok.mpr ⟨_, hserve, ?_⟩
        rw [hnext]
        exact bind_eq_ok.mpr ⟨pages, hpages, rfl⟩
      · rw [flatMap_cons, hitems, slice, ← drop_drop, take_append_drop]
      · rintro payload hpayload
        rcases mem_cons.mp hpayload with rfl | hpayload
        · simp [slice]
        · exact htotal payload hpayload
      · cases pages with
        | nil => cases hlast
        | cons payload pages => rwa [getLast?_cons_cons]
    · rw [if_neg hmore] at hnext
      refine ⟨[slice text target (listing.map cursorOf) start limit], ?_, ?_, ?_, ?_⟩
      · refine bind_eq_ok.mpr ⟨_, hserve, ?_⟩
        rw [hnext]
        rfl
      · rw [flatMap_singleton, slice]
        exact take_of_length_le (by simp; omega)
      · intro payload hpayload
        rw [mem_singleton.mp hpayload]
        simp [slice]
      · rw [getLast?_singleton, map_some, hnext]

include h in
theorem Listed.decode_item {item : NavigatorItem Text}
    (hitem : (numbered text (listing.map cursorOf))[i]? = some item) :
    ∃ row, listing[i]? = some row ∧ item.cursor = (cursorOf row).encode text ∧
      NavigatorCursor.decode text item.cursor target = .ok (cursorOf row) := by
  rw [getElem?_numbered, List.getElem?_map, Option.map_map, Option.map_eq_some_iff] at hitem
  obtain ⟨row, hrow, rfl⟩ := hitem
  have hmem := List.mem_of_getElem? hrow
  refine ⟨row, hrow, rfl, ?_⟩
  have hdecode := (cursorOf row).decode_encode text (h.readable row hmem)
  rwa [h.target_eq row hmem] at hdecode

include h in
theorem Listed.previous {request : NavigatorRequest Text} {payload : NavigatorPayload Text}
    {first : NavigatorItem Text} (hserve : serve text target navigate request = .ok payload)
    (hfirst : payload.items.head? = some first) :
    ∃ i : ℕ, (numbered text (listing.map cursorOf))[i]? = some first ∧
      (i = 0 → payload.prevCursor = none) ∧
      (0 < i → ∃ raw newer, payload.prevCursor = some raw ∧
        serve text target navigate ⟨some raw, some "newer", none⟩ = .ok newer ∧
        newer.items = ((numbered text (listing.map cursorOf)).take i).drop (i - limit)) := by
  obtain ⟨mode, hmode⟩ := mode_of_serve text navigate hserve
  obtain ⟨start, len, rfl⟩ := h.slices mode payload hmode
  have hlen : 0 < len := by
    refine Nat.pos_of_ne_zero fun hzero => ?_
    rw [slice, hzero, take_zero] at hfirst
    cases hfirst
  have hplace : (numbered text (listing.map cursorOf))[start]? = some first := by
    rw [← slice_head? text target hlen, hfirst]
  refine ⟨start, hplace, fun hstart => ?_, fun hstart => ?_⟩
  · rw [slice_prevCursor, hfirst, hstart]
    rfl
  · obtain ⟨row, hrow, hcursor, -⟩ := h.decode_item hplace
    refine ⟨first.cursor, slice text target (listing.map cursorOf) (start - limit) (min limit start),
      ?_, ?_, (drop_take_eq _ _ _).symm⟩
    · rw [slice_prevCursor, hfirst]
      simp [hstart]
    · rw [hcursor, h.serve_newer hrow]

include h in
/-- **A client of a listed target sees every item once.** -/
theorem Listed.visitsOnce (hlimit : 0 < limit) :
    VisitsOnce text target navigate limit listing cursorOf contains where
  walk fuel hfuel := h.followNext_slice hlimit fuel 0 none h.latest (by simpa using hfuel)
  previous request payload first hserve hfirst := h.previous hserve hfirst
  anchor i row hash raw hi hcontains hraw := by
    obtain ⟨item, hitem⟩ : ∃ item, (numbered text (listing.map cursorOf))[i]? = some item := by
      rw [getElem?_numbered, getElem?_map, hi]
      exact ⟨_, rfl⟩
    refine ⟨slice text target (listing.map cursorOf) i 1, item, ?_, take_one_drop hitem, hitem⟩
    rw [serve_anchor text navigate hraw, h.anchor i row hash hi hcontains]
  decodes request payload hserve := by
    obtain ⟨mode, hmode⟩ := mode_of_serve text navigate hserve
    obtain ⟨start, len, rfl⟩ := h.slices mode payload hmode
    refine ⟨fun item hitem => ?_, fun raw hraw => ?_, fun raw hraw => ?_⟩
    · obtain ⟨i, hi⟩ := mem_iff_getElem?.mp (mem_of_mem_drop (mem_of_mem_take hitem))
      obtain ⟨row, hrow, -, hdecode⟩ := h.decode_item hi
      exact ⟨i, row, hrow, hi, hdecode⟩
    · obtain ⟨item, hitem, rfl⟩ := map_eq_some_iff.mp hraw
      exact ⟨item, (filter_eq_some_iff.mp hitem).1, rfl⟩
    · obtain ⟨item, hitem, rfl⟩ := map_eq_some_iff.mp hraw
      exact ⟨item, (filter_eq_some_iff.mp hitem).1, rfl⟩

end Listed

/-! ### Keysets -/

section Keyset

variable {text target navigate} {Row Pos κ : Type} [LinearOrder κ] {order : ScanOrder Row Pos}
  {key : Pos → κ} {eligible : List Row} {limit : ℕ} {cursorOf : Row → NavigatorCursor}

/-- What a mode reads, with the position of a cursor. -/
def scanMode (posOf : NavigatorCursor → Hash32 → Pos) : NavigatorMode → Except NavigatorError (Scan Pos)
  | .latest => .ok .latest
  | .page direction cursor => (parseHash cursor.hash).map fun hash => .page direction (posOf cursor hash)
  | .anchor hash => (parseHash hash).map .anchor

variable (text target) in
/-- The payload of a keyset page. -/
def keysetPayload (order : ScanOrder Row Pos) (eligible : List Row) (total limit : ℕ)
    (cursorOf : Row → NavigatorCursor) (scan : Scan Pos) : NavigatorPayload Text :=
  let page := keysetPage order eligible total limit scan
  buildPayload target (page.rows.map fun row => itemAt text (cursorOf row)) page.firstIndex page.total
    page.existsOlder page.existsNewer

theorem parseHash_displayHash (hash : Hash32) : parseHash (displayHash hash) = .ok hash := by
  rw [parseHash, storedHashFromDisplay_displayHash]
  rfl

theorem keyset_listed (posOf : NavigatorCursor → Hash32 → Pos) (horder : order.Lawful key)
    (hlimit : 0 < limit) (hhash : (eligible.map order.hash).Nodup)
    (hkeys : (eligible.map fun row => key (order.position row)).Nodup)
    (hnavigate : ∀ mode, navigate mode = (scanMode posOf mode).map
      (keysetPayload text target order eligible eligible.length limit cursorOf))
    (hdisplay : ∀ row, (cursorOf row).hash = displayHash (order.hash row))
    (hposition : ∀ row, posOf (cursorOf row) (order.hash row) = order.position row)
    (htarget : ∀ row, (cursorOf row).target = target)
    (hreadable : ∀ row ∈ eligible, (cursorOf row).Readable) :
    Listed text target navigate limit (listing order eligible) cursorOf
      fun row hash => order.hash row = hash := by
  have hpayload : ∀ {scan start len}, Window (listing order eligible)
      (keysetPage order eligible eligible.length limit scan).rows
      (keysetPage order eligible eligible.length limit scan).newerCount start len →
      keysetPayload text target order eligible eligible.length limit cursorOf scan =
        slice text target ((listing order eligible).map cursorOf) start len := by
    intro scan start len hwindow
    rw [← buildPayload_window text target cursorOf hwindow, (perm_listing horder).length_eq]
    rfl
  have hpage : ∀ direction row, navigate (.page direction (cursorOf row)) =
      .ok (keysetPayload text target order eligible eligible.length limit cursorOf
        (.page direction (order.position row))) := by
    intro direction row
    rw [hnavigate, scanMode, hdisplay, parseHash_displayHash, ← hposition]
    rfl
  constructor
  case latest => rw [hnavigate, ← hpayload (window_latest horder hkeys)]; rfl
  case older =>
    intro i row hi
    rw [hpage, hpayload (window_older horder hkeys _), olderRows_position horder hkeys hi]
  case newer =>
    intro i row hi
    rw [hpage, hpayload (window_newer horder hkeys _), newerRows_position horder hkeys hi]
  case anchor =>
    rintro i row _ hi rfl
    rw [hnavigate, scanMode, parseHash_displayHash,
      ← hpayload (window_anchor horder hkeys hlimit hhash hi)]
    rfl
  case slices =>
    intro mode payload hmode
    rw [hnavigate] at hmode
    cases hscan : scanMode posOf mode with
    | error e =>
      rw [hscan] at hmode
      cases hmode
    | ok scan =>
      rw [hscan] at hmode
      obtain ⟨start, len, hwindow⟩ := exists_window_keysetPage horder hkeys scan hlimit hhash
      exact ⟨start, len, (Except.ok.inj hmode).symm.trans (hpayload hwindow)⟩
  case target_eq => exact fun row _ => htarget row
  case readable => exact fun row hrow => hreadable row ((perm_listing horder).mem_iff.mp hrow)

end Keyset

/-! ### The targets -/

variable {limit : ℕ}

theorem lowercaseHex64_isSome (hash : Hash32) : (lowercaseHex64 (displayHash hash)).isSome := by
  rw [lowercaseHex64_displayHash]
  rfl

theorem heightBlocks_listed (eligible : Table HeightRow.hash) (hlimit : 0 < limit)
    (haxis : target.axis = .height) (hnonneg : ∀ row ∈ eligible.rows, 0 ≤ row.height) :
    Listed text target (heightBlocks text target eligible limit) limit
      (listing heightOrder eligible.rows) (heightCursor target) fun row hash => row.hash = hash := by
  refine keyset_listed (fun cursor hash => (cursor.max, cursor.tiebreak, hash))
    heightOrder_lawful hlimit eligible.keys_nodup (nodup_heightKey eligible.keys_nodup)
    (fun mode => ?_) (fun _ => rfl) (fun _ => rfl) (fun _ => rfl) (fun row hrow => ?_)
  · cases mode with
    | latest => rfl
    | page direction cursor =>
      rw [heightBlocks, scanMode]
      cases parseHash cursor.hash <;> rfl
    | anchor hash =>
      rw [heightBlocks, scanMode]
      cases parseHash hash <;> rfl
  · exact ⟨haxis.symm, hnonneg row hrow, le_rfl, row.height_range.inI64, row.height_range.inI64,
      row.tiebreak_range, fun _ => row.height_range, lowercaseHex64_isSome _⟩

theorem nodup_accepted (orphanBlocks : Table TimeRow.hash) (filter : ClassFilter) :
    ((orphanBlocks.rows.filter fun row => filter.accepts row.btcOrphanClass).map (·.hash)).Nodup :=
  (filter_sublist.map _).nodup orphanBlocks.keys_nodup

theorem orphans_listed (orphanBlocks : Table TimeRow.hash) (filter : ClassFilter) (hlimit : 0 < limit)
    (hnonneg : ∀ row ∈ orphanBlocks.rows, filter.accepts row.btcOrphanClass = true → 0 ≤ row.headerTime) :
    Listed text .orphan (orphans text orphanBlocks filter limit) limit
      (listing timeOrder (orphanBlocks.rows.filter fun row => filter.accepts row.btcOrphanClass))
      orphanCursor fun row hash => row.hash = hash := by
  have hhash := nodup_accepted orphanBlocks filter
  refine keyset_listed (fun cursor hash => (cursor.max, hash)) timeOrder_lawful hlimit hhash
    (nodup_timeKey hhash) (fun mode => ?_) (fun _ => rfl) (fun _ => rfl) (fun _ => rfl)
    (fun row hrow => ?_)
  · rw [← classTotal_eq]
    cases mode with
    | latest => rfl
    | page direction cursor =>
      rw [orphans, scanMode]
      cases parseHash cursor.hash <;> rfl
    | anchor hash =>
      rw [orphans, scanMode]
      cases parseHash hash <;> rfl
  · obtain ⟨hrow, haccepts⟩ := mem_filter.mp hrow
    exact ⟨rfl, hnonneg row hrow haccepts, le_rfl, row.headerTime_range, row.headerTime_range,
      (by decide : InI64 0), (fun h => by cases h), lowercaseHex64_isSome _⟩

theorem branchListing_disjoint (rows : BranchRows) :
    (branchListing rows).Pairwise fun c d => ∀ h ∈ c.memberHashes, h ∉ d.memberHashes :=
  (branchComponents_pairwise rows).perm (perm_branchListing rows).symm
    fun hcd h hd hc => hcd h hc hd

theorem branches_listed (rows : BranchRows) (hlimit : 0 < limit)
    (hnonneg : ∀ r ∈ rows.rows, 0 ≤ r.orderKey) (hrange : ∀ r ∈ rows.rows, InI64 r.orderKey)
    (hheight : target.axis = .height → ∀ r ∈ rows.rows, InI32 r.orderKey) :
    Listed text target (branches text target rows limit) limit (branchListing rows)
      (branchCursor target) fun summary hash => hash ∈ summary.memberHashes := by
  have hL := pairwise_branchListing rows
  have hdisjoint := branchListing_disjoint rows
  have hpayload : ∀ {mode start len},
      pageBranchSummaries (branchListing rows) limit mode =
        .ok (branchWindow (branchListing rows) start len) →
      branches text target rows limit mode =
        .ok (slice text target ((branchListing rows).map (branchCursor target)) start len) := by
    intro mode start len hpage
    rw [← buildPayload_window text target (branchCursor target) (window_branchWindow _ start len)]
    refine bind_eq_ok.mpr ⟨_, hpage, ?_⟩
    rw [branchWindow_existsOlder]
    rfl
  have hstored : ∀ summary : BranchComponent,
      storedHashFromDisplay (branchCursor target summary).hash = some summary.rootHash :=
    fun summary => storedHashFromDisplay_displayHash _
  constructor
  case latest => exact hpayload pageBranchSummaries_latest
  case older =>
    intro i summary hi
    refine hpayload ((pageBranchSummaries_older hL (hstored summary)).trans ?_)
    rw [← (Keyset.countP_getElem hL hi).2]
    rfl
  case newer =>
    intro i summary hi
    refine hpayload ((pageBranchSummaries_newer hL (hstored summary)).trans ?_)
    rw [← (Keyset.countP_getElem hL hi).1]
    rfl
  case anchor =>
    intro i summary hash hi hmem
    exact hpayload (pageBranchSummaries_member hL hdisjoint hlimit
      (storedHashFromDisplay_displayHash hash) hi hmem)
  case slices =>
    intro mode payload hmode
    obtain ⟨page, hpage, -⟩ := bind_eq_ok.mp hmode
    obtain ⟨start, len, rfl⟩ := exists_branchWindow hL hdisjoint hlimit hpage
    exact ⟨start, len, Except.ok.inj (hmode.symm.trans (hpayload hpage))⟩
  case target_eq => exact fun _ _ => rfl
  case readable =>
    intro summary hsummary
    have hspec := branchComponents_spec ((perm_branchListing rows).mem_iff.mp hsummary)
    obtain ⟨rmin, hrmin, hmin⟩ := hspec.min_mem
    obtain ⟨rmax, hrmax, hmax⟩ := hspec.max_mem
    have hminRange : InI64 summary.keyMin := hmin ▸ hrange rmin hrmin
    have hmaxRange : InI64 summary.keyMax := hmax ▸ hrange rmax hrmax
    have hminNonneg : 0 ≤ summary.keyMin := hmin ▸ hnonneg rmin hrmin
    have hmaxHeight : target.axis = .height → InI32 summary.keyMax :=
      fun haxis => hmax ▸ hheight haxis rmax hrmax
    exact ⟨rfl, hminNonneg, hspec.min_le_max, hminRange, hmaxRange, (by decide : InI64 0), hmaxHeight,
      lowercaseHex64_isSome _⟩

/-! ### The order of a listing, and paging through it -/

/-- The eligible rows, in an order. -/
structure NewestFirst {Row : Type} (newer : Row → Row → Prop) (eligible listing : List Row) : Prop where
  perm : listing.Perm eligible
  sorted : listing.Pairwise newer

/-- Greater heights first, then greater tiebreaks, then smaller hashes. -/
def HeightRow.Newer (a b : HeightRow) : Prop :=
  b.height < a.height ∨ a.height = b.height ∧
    (b.tiebreak < a.tiebreak ∨ a.tiebreak = b.tiebreak ∧ a.hash < b.hash)

/-- Greater header times first, then greater hashes. -/
def TimeRow.Newer (a b : TimeRow) : Prop :=
  b.headerTime < a.headerTime ∨ a.headerTime = b.headerTime ∧ b.hash < a.hash

/-- Greater newest keys first, then greater oldest keys, then smaller roots. -/
def BranchComponent.Newer (a b : BranchComponent) : Prop :=
  b.keyMax < a.keyMax ∨ a.keyMax = b.keyMax ∧
    (b.keyMin < a.keyMin ∨ a.keyMin = b.keyMin ∧ a.rootHash < b.rootHash)

theorem newestFirst_branchListing (rows : BranchRows) :
    NewestFirst BranchComponent.Newer (branchComponents rows) (branchListing rows) :=
  ⟨perm_branchListing rows, (pairwise_branchListing rows).imp heightKey_lt.mp⟩

/-- **Paging visits everything exactly once.**  For every kind of page and every limit, if no height
and no header time is negative. -/
theorem paging_visits_once (hlimit : 0 < limit) :
    (∀ target : NavigatorTarget, target.axis = .height → ∀ eligible : Table HeightRow.hash,
      (∀ row ∈ eligible.rows, 0 ≤ row.height) →
      ∃ listing, NewestFirst HeightRow.Newer eligible.rows listing ∧
        VisitsOnce text target (heightBlocks text target eligible limit) limit listing
          (heightCursor target) fun row hash => row.hash = hash) ∧
    (∀ (orphanBlocks : Table TimeRow.hash) (filter : ClassFilter),
      (∀ row ∈ orphanBlocks.rows, filter.accepts row.btcOrphanClass = true → 0 ≤ row.headerTime) →
      ∃ listing, NewestFirst TimeRow.Newer
          (orphanBlocks.rows.filter fun row => filter.accepts row.btcOrphanClass) listing ∧
        VisitsOnce text .orphan (orphans text orphanBlocks filter limit) limit listing orphanCursor
          fun row hash => row.hash = hash) ∧
    (∀ rows : BranchRows, (∀ r ∈ rows.rows, 0 ≤ r.orderKey ∧ InI32 r.orderKey) →
      ∃ listing, NewestFirst BranchComponent.Newer (branchComponents rows) listing ∧
        VisitsOnce text .staleBranch (staleBranches text rows limit) limit listing
          (branchCursor .staleBranch) fun summary hash => hash ∈ summary.memberHashes) ∧
    ∀ rows : BranchRows, (∀ r ∈ rows.rows, 0 ≤ r.orderKey ∧ InI64 r.orderKey) →
      ∃ listing, NewestFirst BranchComponent.Newer (branchComponents rows) listing ∧
        VisitsOnce text .orphanBranch (orphanBranches text rows limit) limit listing
          (branchCursor .orphanBranch) fun summary hash => hash ∈ summary.memberHashes := by
  refine ⟨fun target haxis eligible hnonneg => ?_, fun orphanBlocks filter hnonneg => ?_,
    fun rows hrows => ?_, fun rows hrows => ?_⟩
  · have hkeys := nodup_heightKey eligible.keys_nodup
    exact ⟨listing heightOrder eligible.rows, ⟨perm_listing heightOrder_lawful,
      (pairwise_listing heightOrder_lawful hkeys).imp heightKey_lt.mp⟩,
      (heightBlocks_listed text target eligible hlimit haxis hnonneg).visitsOnce hlimit⟩
  · have hkeys := nodup_timeKey (nodup_accepted orphanBlocks filter)
    exact ⟨listing timeOrder (orphanBlocks.rows.filter fun row => filter.accepts row.btcOrphanClass),
      ⟨perm_listing timeOrder_lawful,
        (pairwise_listing timeOrder_lawful hkeys).imp timeKey_lt.mp⟩,
      (orphans_listed text orphanBlocks filter hlimit hnonneg).visitsOnce hlimit⟩
  · exact ⟨branchListing rows, newestFirst_branchListing rows, (branches_listed text .staleBranch rows
      hlimit (fun r hr => (hrows r hr).1) (fun r hr => (hrows r hr).2.inI64)
      fun _ r hr => (hrows r hr).2).visitsOnce hlimit⟩
  · exact ⟨branchListing rows, newestFirst_branchListing rows, (branches_listed text .orphanBranch rows
      hlimit (fun r hr => (hrows r hr).1) (fun r hr => (hrows r hr).2)
      (fun h => nomatch h)).visitsOnce hlimit⟩

namespace Sample

/-- Cursors that are sent as records. -/
def records : CursorText CursorFields := ⟨id, some, fun _ _ => rfl⟩

def hash (k : UInt8) : Hash32 := AuxPow.Sample.hash k

def blockAt (height : ℤ) (k : UInt8) (h : InI32 height) : HeightRow :=
  ⟨height, 0, hash k, h, by decide⟩

def orphanAt (time : ℤ) (k : UInt8) (h : InI64 time) : TimeRow :=
  ⟨time, hash k, some .strictBtcOrphan, h⟩

def twoBlocks : Table HeightRow.hash :=
  ⟨[blockAt 5 1 (by decide), blockAt 7 2 (by decide)], by decide⟩

def twoOrphans : Table TimeRow.hash :=
  ⟨[orphanAt 900 1 (by decide), orphanAt 800 2 (by decide)], by decide⟩

/-- Two blocks, and one that builds on the second. -/
def rows : BranchRows :=
  ⟨[⟨hash 1, hash 0, 5⟩, ⟨hash 2, hash 0, 5⟩, ⟨hash 3, hash 2, 6⟩], by decide⟩

end Sample

/-- The cursor of a block at a negative height is sent and then refused, so that the walk fails. -/
theorem latest_cursor_refused :
    let eligible : Table HeightRow.hash :=
      ⟨[Sample.blockAt (-1) 1 (by decide), Sample.blockAt (-2) 2 (by decide)], by decide⟩
    let navigate := heightBlocks Sample.records .stale eligible 1
    (∃ payload raw, serve Sample.records .stale navigate ⟨none, none, none⟩ = .ok payload ∧
      payload.nextCursor = some raw ∧
      NavigatorCursor.decode Sample.records raw .stale = .error ⟨"cursor bounds are invalid"⟩) ∧
    followNext Sample.records .stale navigate 3 none =
      .error (.query ⟨"cursor bounds are invalid"⟩) :=
  ⟨⟨_, _, rfl, rfl, rfl⟩, rfl⟩

theorem paging_visits_once_singly :
    (∃ listing, NewestFirst HeightRow.Newer Sample.twoBlocks.rows listing ∧
      VisitsOnce Sample.records .stale (heightBlocks Sample.records .stale Sample.twoBlocks 1) 1
        listing (heightCursor .stale) fun row hash => row.hash = hash) ∧
    (∃ listing, NewestFirst TimeRow.Newer Sample.twoOrphans.rows listing ∧
      VisitsOnce Sample.records .orphan
        (orphans Sample.records Sample.twoOrphans ⟨[.strictBtcOrphan], false⟩ 1) 1
        listing orphanCursor fun row hash => row.hash = hash) ∧
    (∃ listing, NewestFirst BranchComponent.Newer (branchComponents Sample.rows) listing ∧
      VisitsOnce Sample.records .staleBranch (staleBranches Sample.records Sample.rows 1) 1 listing
        (branchCursor .staleBranch) fun summary hash => hash ∈ summary.memberHashes) ∧
    ∃ listing, NewestFirst BranchComponent.Newer (branchComponents Sample.rows) listing ∧
      VisitsOnce Sample.records .orphanBranch (orphanBranches Sample.records Sample.rows 1) 1 listing
        (branchCursor .orphanBranch) fun summary hash => hash ∈ summary.memberHashes := by
  obtain ⟨hheight, htime, hstale, horphan⟩ := paging_visits_once Sample.records (by decide : 0 < 1)
  exact ⟨hheight .stale rfl Sample.twoBlocks (by decide),
    htime Sample.twoOrphans ⟨[.strictBtcOrphan], false⟩ (by decide),
    hstale Sample.rows (by decide), horphan Sample.rows (by decide)⟩

end MergeMiningMonitor.Navigator
