import MergeMiningMonitor.Polling.Ticks

/-!
# Polling — Progress

A poller never skips or forgets a height.  Over any sequence of ticks, the new heights that advanced are
those from the seed to the cursor, each once and in order (`advancedHeights_touched`); and since the
lowest height that a rescan reaches rises with the cursor (`rescanFloor_mono`), what a tick prunes lies
below whatever a later tick rescans.  `poller_never_skips` puts the facts about a run together.

The rescan reaches `reorgDepth` heights below the cursor, except from the greatest `i32`: there the
addition saturates, and one height more is rescanned (`rescan_exceeds_reorgDepth`).
-/

namespace MergeMiningMonitor.Polling

open FixedWidth Consecutive

/-! ### The bounds of a tick -/

section Tick

variable {p q : Poller} {r : TickReport}

theorem le_rescanFloor (p : Poller) :
    min (p.cursor + 1) 2147483647 - p.config.reorgDepth ≤
      rescanFloor p.cursor p.config.reorgDepth := by
  have hrange := p.cursor_range
  have hdepth := p.config.reorgDepth_nonneg
  rw [InI32] at hrange
  rw [rescanFloor, saturatingSub, saturatingAdd]
  omega

theorem rescanFloor_mono {cursor cursor' : ℤ} (h : cursor ≤ cursor') (reorgDepth : ℤ) :
    rescanFloor cursor reorgDepth ≤ rescanFloor cursor' reorgDepth := by
  rw [rescanFloor, rescanFloor, saturatingSub, saturatingSub, saturatingAdd, saturatingAdd]
  omega

variable {x : Touched}

/-- A tick rescans heights up to the cursor, and the new heights are above it. -/
theorem TickSpec.mem_touched (h : TickSpec p q r) (hx : x ∈ r.touched) :
    (x.kind = .rescan ∧ max p.start (rescanFloor p.cursor p.config.reorgDepth) ≤ x.height ∧
        x.height ≤ p.cursor) ∨
      (x.kind = .new ∧ p.cursor < x.height) := by
  obtain ⟨taken, last, hinitial, ⟨results, htouched⟩, -, hlast⟩ := h.touched
  rw [htouched, List.mem_append, List.mem_append] at hx
  rcases hx with (hx | hx) | hx
  · obtain ⟨height, hheight, rfl⟩ := List.mem_map.mp hx
    have hmem := Int.mem_range_iff.mp (hinitial.subset hheight)
    exact .inl ⟨rfl, hmem.1, Int.lt_add_one_iff.mp hmem.2⟩
  · obtain ⟨height, hheight, rfl⟩ := List.mem_map.mp hx
    exact .inr ⟨rfl, Int.add_one_le_iff.mp (Int.mem_range_iff.mp hheight).1⟩
  · rcases hlast with rfl | ⟨result, -, rfl⟩
    · cases hx
    · rw [List.mem_singleton.mp hx]
      exact .inr ⟨rfl, Int.lt_add_one_iff.mpr h.cursor_le⟩

theorem TickSpec.rescanned (h : TickSpec p q r) (hx : x ∈ r.touched) (hkind : x.kind = .rescan) :
    max p.start (rescanFloor p.cursor p.config.reorgDepth) ≤ x.height ∧ x.height ≤ p.cursor := by
  rcases h.mem_touched hx with hold | hnew
  · exact hold.2
  · cases hkind.symm.trans hnew.1

theorem TickSpec.start_le (h : TickSpec p q r) (hx : x ∈ r.touched) : p.start ≤ x.height := by
  rcases h.mem_touched hx with ⟨-, hfloor, -⟩ | ⟨-, hlt⟩
  · exact (le_max_left _ _).trans hfloor
  · exact p.start_le.trans (Int.add_one_le_iff.mpr hlt)

/-- A tick touches at most as many heights as it may rescan and process. -/
theorem TickSpec.length_le (h : TickSpec p q r) :
    (r.touched.length : ℤ) ≤ p.config.reorgDepth + p.config.batchSize := by
  obtain ⟨taken, last, hinitial, ⟨results, htouched⟩, hbatch, -⟩ := h.touched
  have htaken := hinitial.length_le
  have hle := h.cursor_le
  have hfloor := le_rescanFloor p
  have hrange := p.cursor_range
  have hdepth := p.config.reorgDepth_nonneg
  have hpos := p.config.batchSize_pos
  rw [InI32] at hrange
  rw [length_range] at htaken
  rw [saturatingAdd] at hbatch
  rw [htouched, List.length_append, List.length_append, List.length_map, advanced, List.length_map,
    length_range]
  push_cast
  omega

/-- A new height that does not advance is the last that the tick touches. -/
theorem TickSpec.stops (h : TickSpec p q r) {a b : List Touched}
    (hsplit : r.touched = a ++ x :: b) (hkind : x.kind = .new)
    (hresult : x.result ≠ .ok .advance) : b = [] := by
  obtain ⟨taken, last, -, ⟨results, htouched⟩, -, hlast⟩ := h.touched
  -- every touched height before the last part is a rescan or advances
  have hbefore : ∀ y ∈ (taken.map fun h => (⟨h, .rescan, results h⟩ : Touched)) ++
      advanced (Int.range (p.cursor + 1) (q.cursor + 1)), y ≠ x := by
    rintro y hy rfl
    rcases List.mem_append.mp hy with hy | hy
    · obtain ⟨height, -, rfl⟩ := List.mem_map.mp hy
      cases hkind
    · obtain ⟨height, -, rfl⟩ := List.mem_map.mp hy
      exact hresult rfl
  rw [htouched] at hsplit
  rcases List.append_eq_append_iff.mp hsplit with ⟨c, rfl, hc⟩ | ⟨c, hc, hc'⟩
  · rcases hlast with rfl | ⟨result, -, rfl⟩
    · simp at hc
    · cases c with
      | nil => simpa using (List.cons.inj hc).2.symm
      | cons d c => simp at hc
  · cases c with
    | nil =>
      rcases hlast with rfl | ⟨result, -, rfl⟩
      · simp at hc'
      · exact (List.cons.inj hc').2
    | cons d c =>
      obtain ⟨rfl, -⟩ := List.cons.inj hc'
      exact absurd rfl (hbefore x (by rw [hc]; simp))

end Tick

/-! ### Runs -/

/-- The heights that were processed as new and advanced. -/
def advancedHeights (touched : List Touched) : List ℤ :=
  (touched.filter fun x => x.kind = .new ∧ x.result = .ok .advance).map (·.height)

theorem advancedHeights_append (l₁ l₂ : List Touched) :
    advancedHeights (l₁ ++ l₂) = advancedHeights l₁ ++ advancedHeights l₂ := by
  simp [advancedHeights]

@[simp] theorem advancedHeights_advanced (hs : List ℤ) : advancedHeights (advanced hs) = hs := by
  induction hs with
  | nil => rfl
  | cons h hs ih => simpa [advancedHeights, advanced] using ih

theorem TickSpec.advancedHeights_eq {p q : Poller} {r : TickReport} (h : TickSpec p q r) :
    advancedHeights r.touched = Int.range (p.cursor + 1) (q.cursor + 1) := by
  obtain ⟨taken, last, -, ⟨results, htouched⟩, -, hlast⟩ := h.touched
  have htaken : advancedHeights (taken.map fun h => ⟨h, .rescan, results h⟩) = [] := by
    simp [advancedHeights]
  have hlast : advancedHeights last = [] := by
    rcases hlast with rfl | ⟨result, hresult, rfl⟩
    · rfl
    · simp [advancedHeights, hresult]
  rw [htouched, advancedHeights_append, advancedHeights_append, htaken, hlast,
    advancedHeights_advanced, List.nil_append, List.append_nil]

section Run

variable (p : Poller)

theorem after_append (ts us : List Tick) : p.after (ts ++ us) = (p.after ts).after us :=
  List.foldl_append

theorem config_after (ts : List Tick) : (p.after ts).config = p.config ∧
    (p.after ts).start = p.start := by
  induction ts generalizing p with
  | nil => exact ⟨rfl, rfl⟩
  | cons t ts ih =>
    have h := pollTick_spec p t
    obtain ⟨hconfig, hstart⟩ := ih (p.pollTick t).1
    refine ⟨hconfig.trans h.config, hstart.trans ?_⟩
    rw [Poller.start, Poller.start, h.config, h.floor]

theorem cursor_le_after (ts : List Tick) : p.cursor ≤ (p.after ts).cursor := by
  induction ts generalizing p with
  | nil => exact le_rfl
  | cons t ts ih => exact (pollTick_spec p t).cursor_le.trans (ih _)

/-- The heights that ticks advance over are those from the seed to the cursor. -/
theorem advancedHeights_touched (ts : List Tick) :
    advancedHeights (p.touched ts) = Int.range (p.cursor + 1) ((p.after ts).cursor + 1) := by
  induction ts generalizing p with
  | nil => exact (range_eq_nil le_rfl).symm
  | cons t ts ih =>
    have h := pollTick_spec p t
    have hle := h.cursor_le
    have hafter := cursor_le_after (p.pollTick t).1 ts
    rw [Poller.touched, advancedHeights_append, h.advancedHeights_eq, ih]
    exact range_append (by omega) (by omega)

theorem start_le_of_mem_touched (ts : List Tick) {x : Touched} (hx : x ∈ p.touched ts) :
    p.start ≤ x.height := by
  induction ts generalizing p with
  | nil => cases hx
  | cons t ts ih =>
    rcases List.mem_append.mp hx with hx | hx
    · exact (pollTick_spec p t).start_le hx
    · have hstart : (p.pollTick t).1.start = p.start := (config_after p [t]).2
      rw [← hstart]
      exact ih _ hx

theorem prunedBelow_le (t : Tick) (mid : List Tick) (u : Tick) {floor : ℤ}
    (hfloor : floor ∈ (p.pollTick t).2.prunedBelow) {x : Touched}
    (hx : x ∈ ((p.after (t :: mid)).pollTick u).2.touched) (hkind : x.kind = .rescan) :
    floor ≤ x.height := by
  have hconfig : (p.after (t :: mid)).config = p.config := (config_after p (t :: mid)).1
  calc floor ≤ rescanFloor (p.pollTick t).1.cursor p.config.reorgDepth :=
        (pollTick_spec p t).pruned floor hfloor
    _ ≤ rescanFloor (p.after (t :: mid)).cursor p.config.reorgDepth :=
        rescanFloor_mono (cursor_le_after (p.pollTick t).1 mid) _
    _ ≤ max (p.after (t :: mid)).start
          (rescanFloor (p.after (t :: mid)).cursor (p.after (t :: mid)).config.reorgDepth) := by
        rw [hconfig]
        exact le_max_right _ _
    _ ≤ x.height := ((pollTick_spec _ u).rescanned hx hkind).1

/-- **A poller never skips or forgets a height.**  Whatever tips and results its ticks meet: the cursor
never falls; the heights from the seed to the cursor were processed as new and advanced, each once and
in order; nothing below the start is processed.  In each tick, rescanned heights lie between the
reorganization window's start and the cursor; no more heights are touched than both parts may have; a
new height that does not advance is the last; and the floor for pruning is not above any height that a
later tick rescans. -/
theorem poller_never_skips (ts : List Tick) :
    (∀ pre post, ts = pre ++ post → (p.after pre).cursor ≤ (p.after ts).cursor) ∧
    advancedHeights (p.touched ts) = Int.range (p.cursor + 1) ((p.after ts).cursor + 1) ∧
    (∀ x ∈ p.touched ts, p.start ≤ x.height) ∧
    ∀ pre t post, ts = pre ++ t :: post →
      let q := p.after pre
      let r := (q.pollTick t).2
      (∀ x ∈ r.touched, x.kind = .rescan →
        max p.start (min (q.cursor + 1) 2147483647 - p.config.reorgDepth) ≤ x.height ∧
          x.height ≤ q.cursor) ∧
      (r.touched.length : ℤ) ≤ p.config.reorgDepth + p.config.batchSize ∧
      (∀ a x b, r.touched = a ++ x :: b → x.kind = .new → x.result ≠ .ok .advance → b = []) ∧
      ∀ floor ∈ r.prunedBelow, ∀ mid u rest, post = mid ++ u :: rest →
        ∀ x ∈ ((p.after (pre ++ t :: mid)).pollTick u).2.touched, x.kind = .rescan →
          floor ≤ x.height := by
  refine ⟨?_, advancedHeights_touched p ts, fun x hx => start_le_of_mem_touched p ts hx, ?_⟩
  · rintro pre post rfl
    rw [after_append]
    exact cursor_le_after _ post
  · rintro pre t post rfl q r
    have htick : TickSpec q (q.pollTick t).1 r := pollTick_spec q t
    obtain ⟨hconfig, hstart⟩ : q.config = p.config ∧ q.start = p.start := config_after p pre
    rw [← hconfig, ← hstart]
    refine ⟨fun x hx hkind => ?_, htick.length_le, fun a x b => htick.stops, ?_⟩
    · obtain ⟨hlower, hupper⟩ := htick.rescanned hx hkind
      exact ⟨(max_le_max le_rfl (le_rescanFloor q)).trans hlower, hupper⟩
    · intro floor hfloor mid u rest _ x hx
      rw [after_append] at hx
      exact prunedBelow_le q t mid u hfloor hx

end Run

/-! ### The greatest cursor -/

/-- A poller without reorganization depth whose cursor was persisted at the greatest `i32`. -/
def atGreatest : Poller :=
  .new 0 ⟨none, 1, 0, by decide, by decide⟩ (some 2147483647) 0 (by decide) (by decide)

/-- From the greatest cursor, a height below the reorganization window is rescanned. -/
theorem rescan_exceeds_reorgDepth :
    ∃ x ∈ (atGreatest.pollTick ⟨.ok 2147483647, fun _ _ => .ok .advance⟩).2.touched,
      x.kind = .rescan ∧
      ¬ max atGreatest.start (atGreatest.cursor + 1 - atGreatest.config.reorgDepth) ≤ x.height :=
  ⟨⟨2147483647, .rescan, .ok .advance⟩, by decide +kernel, rfl, by decide +kernel⟩

end MergeMiningMonitor.Polling
