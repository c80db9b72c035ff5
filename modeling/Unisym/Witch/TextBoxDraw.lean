/-
# `TextBoxDraw` — what is drawn does not depend on the caches

A cache that is valid for a row of the lines shows that row (`CacheShows`).  Then drawing with the caches
draws what drawing without them does: two drawings that agree except for their caches (`Same`) still agree after
each row.  The frame covers the whole sheet, so the pixels before do not matter either.
-/
import Unisym.Witch.TextBoxSpec

namespace Unisym.Witch.TextBox

open List

variable {s : TextBox}

/-- A new text box with the same text, lines, cursor, scroll values and size. -/
def fresh (s : TextBox) : TextBox := { s with line_caches := [], sheet_buffer := none }

/-- The cache shows its row, if it is valid and the lines have that row. -/
def CacheShows (s : TextBox) (cache : CachedPhysicalLine) : Prop :=
  cache.valid = true → ∀ row, cache.logical_row = some row → row < s.lines.length →
    cache.segment_row < s.GetWrappedSegmentCount row →
    (s.word_wrap = false → ∃ line ∈ s.lines, cache.scroll_x_value ≤ line.text.length) →
    cache.visible_cols = s.GetVisibleTextCols → cache.wrap_mode = s.word_wrap →
    cache.pixels = s.renderedPixels cache.pixel_count row cache.segment_row cache.scroll_x_value

/-- The caches have the size of the visible rows. -/
structure Slots (s : TextBox) (line_caches : List CachedPhysicalLine) : Prop where
  length : line_caches.length = s.GetVisibleTextRows
  count : ∀ cache ∈ line_caches, cache.pixel_count = s.pixels_per_line
  shows : ∀ cache ∈ line_caches, CacheShows s cache

theorem CacheShows.of_invalid {cache : CachedPhysicalLine} (h : cache.valid = false) : CacheShows s cache :=
  fun hvalid => absurd (h.symm.trans hvalid) Bool.false_ne_true

theorem EnsureLineCacheSlots_spec (h : ∀ cache ∈ s.line_caches, CacheShows s cache) :
    Slots s (s.EnsureLineCacheSlots s.GetVisibleTextRows) := by
  have hslots : ∀ line_caches : List CachedPhysicalLine, line_caches.length = s.GetVisibleTextRows →
      (∀ cache ∈ line_caches, CacheShows s cache) →
      Slots s (line_caches.map fun cache =>
        if cache.pixel_count ≠ s.pixels_per_line then
          { cache with
            pixels := List.replicate s.pixels_per_line 0
            pixel_count := s.pixels_per_line
            valid := false
            logical_row := none }
        else cache) := by
    intro line_caches hlength hshows
    refine ⟨(length_map _).trans hlength, fun cache hcache => ?_, fun cache hcache => ?_⟩
    · obtain ⟨old, hold, rfl⟩ := mem_map.mp hcache
      split
      · rfl
      · exact not_not.mp ‹_›
    · obtain ⟨old, hold, rfl⟩ := mem_map.mp hcache
      split
      · exact CacheShows.of_invalid rfl
      · exact hshows old hold
  rw [EnsureLineCacheSlots]
  split
  · refine hslots _ length_replicate fun cache hcache => ?_
    rw [eq_of_mem_replicate hcache]
    exact CacheShows.of_invalid rfl
  · exact hslots s.line_caches (not_not.mp ‹_›) h

/-! ## Drawings that agree except for their caches -/

/-- The two drawings agree except for their caches. -/
def Same (s : TextBox) (d d' : Drawing) : Prop :=
  ∃ line_caches, d' = { d with line_caches } ∧ Slots s d.line_caches ∧ Slots s line_caches

variable {d d' : Drawing}

theorem Same.cursorAt (h : Same s d d') (here : Bool) {x x' y y' : Nat} (hx : x' = x) (hy : y' = y) :
    Same s (d.cursorAt here x y) (d'.cursorAt here x' y') := by
  obtain ⟨line_caches, rfl, hslots, hslots'⟩ := h
  subst hx hy
  rw [Drawing.cursorAt, Drawing.cursorAt]
  dsimp only
  split
  · exact ⟨line_caches, rfl, hslots, hslots'⟩
  · exact ⟨line_caches, rfl, hslots, hslots'⟩

theorem Same.x (h : Same s d d') : d'.cur_draw_x = d.cur_draw_x := by
  obtain ⟨_, rfl, _⟩ := h
  rfl

theorem Same.y (h : Same s d d') : d'.cur_draw_y = d.cur_draw_y := by
  obtain ⟨_, rfl, _⟩ := h
  rfl

theorem Same.move (h : Same s d d') {x x' y y' : Nat} (hx : x' = x) (hy : y' = y) :
    Same s { d with cur_draw_x := x, cur_draw_y := y } { d' with cur_draw_x := x', cur_draw_y := y' } := by
  obtain ⟨line_caches, rfl, hslots, hslots'⟩ := h
  subst hx hy
  exact ⟨line_caches, rfl, hslots, hslots'⟩

/-- A row that is to be drawn. -/
structure Drawable (s : TextBox) (cache_idx line_idx seg : Nat) : Prop where
  slot : cache_idx < s.GetVisibleTextRows
  row : line_idx < s.lines.length
  segment : seg < s.GetWrappedSegmentCount line_idx
  scroll : ∃ line ∈ s.lines, s.scroll_x ≤ line.text.length

variable {cache_idx line_idx seg : Nat}

theorem renderedPixels_wrapped (hwrap : s.word_wrap = true) (pixel_count logical_row segment_row x x' : Nat) :
    s.renderedPixels pixel_count logical_row segment_row x =
      s.renderedPixels pixel_count logical_row segment_row x' := by
  rw [renderedPixels, renderedPixels, hwrap]
  rfl

theorem Slots.drawn {line_caches : List CachedPhysicalLine} (h : Slots s line_caches)
    (hdrawable : Drawable s cache_idx line_idx seg) :
    ∃ cache,
      (if s.cacheMatches (line_caches.getD cache_idx {}) line_idx seg then line_caches.getD cache_idx {}
        else s.RenderCachedLine (line_caches.getD cache_idx {}) line_idx seg) = cache ∧
      cache.pixels = s.renderedPixels s.pixels_per_line line_idx seg s.scroll_x ∧
      Slots s (line_caches.set cache_idx cache) := by
  have hmem : line_caches.getD cache_idx {} ∈ line_caches := by
    rw [getD_eq_getElem?_getD, getElem?_eq_getElem (h.length.symm ▸ hdrawable.slot), Option.getD_some]
    exact getElem_mem _
  have hcount := h.count _ hmem
  have hset : ∀ cache : CachedPhysicalLine, cache.pixel_count = s.pixels_per_line → CacheShows s cache →
      Slots s (line_caches.set cache_idx cache) := by
    intro cache hcount hshows
    refine ⟨length_set.trans h.length, fun other hother => ?_, fun other hother => ?_⟩
    · rcases mem_or_eq_of_mem_set hother with hother | rfl
      · exact h.count other hother
      · exact hcount
    · rcases mem_or_eq_of_mem_set hother with hother | rfl
      · exact h.shows other hother
      · exact hshows
  generalize line_caches.getD cache_idx {} = cache at hmem hcount ⊢
  refine ⟨_, rfl, ?_⟩
  split
  · rename_i hmatch
    simp only [cacheMatches, Bool.and_eq_true, Bool.or_eq_true, decide_eq_true_eq] at hmatch
    obtain ⟨⟨⟨⟨⟨hvalid, hrow⟩, hseg⟩, hscroll⟩, hcols⟩, hmode⟩ := hmatch
    have hshows := h.shows cache hmem
    refine ⟨?_, hset cache hcount hshows⟩
    have hpixels : cache.pixels =
        s.renderedPixels cache.pixel_count line_idx cache.segment_row cache.scroll_x_value := by
      refine hshows hvalid line_idx hrow hdrawable.row (hseg.symm ▸ hdrawable.segment) (fun hwrap => ?_) hcols hmode
      rw [hscroll.resolve_left (Bool.eq_false_iff.mp hwrap)]
      exact hdrawable.scroll
    rw [hpixels, hcount, hseg]
    rcases hscroll with hwrap | hscroll
    · exact renderedPixels_wrapped hwrap _ _ _ _ _
    · rw [hscroll]
  · rename_i hmatch
    refine ⟨?_, hset _ hcount fun _ row hrow _ _ _ _ _ => ?_⟩
    · exact congrArg (fun n => s.renderedPixels n line_idx seg s.scroll_x) hcount
    · obtain rfl := Option.some.inj hrow
      rfl

theorem Same.drawCached (h : Same s d d') (hdrawable : Drawable s cache_idx line_idx seg) :
    Same s (s.drawCached d cache_idx line_idx seg) (s.drawCached d' cache_idx line_idx seg) := by
  obtain ⟨line_caches, rfl, hslots, hslots'⟩ := h
  obtain ⟨cache, heq, hpixels, hset⟩ := hslots.drawn hdrawable
  obtain ⟨cache', heq', hpixels', hset'⟩ := hslots'.drawn hdrawable
  refine ⟨line_caches.set cache_idx cache', ?_, ?_, hset'⟩
  · rw [TextBox.drawCached, TextBox.drawCached, heq, heq', BlitCachedLine, BlitCachedLine, hpixels, hpixels']
  · rw [TextBox.drawCached, heq]
    exact hset

/-! ## One row -/

theorem Same.drawLine (h : Same s d d') (hdrawable : Drawable s cache_idx line_idx 0) :
    Same s (s.drawLine d cache_idx line_idx) (s.drawLine d' cache_idx line_idx) := by
  have hdrawn := (h.cursorAt (line_idx = s.cursor_row && s.cursor_col = 0) h.x h.y).drawCached hdrawable
  have hcursor := hdrawn.cursorAt
    (line_idx = s.cursor_row && s.scroll_x ≤ s.cursor_col &&
      s.cursor_col ≤ s.scroll_x + min s.GetVisibleTextCols (s.GetLineLength line_idx - s.scroll_x))
    (congrArg (· + (s.cursor_col - s.scroll_x) * s.char_width) hdrawn.x) hdrawn.y
  exact hcursor.cursorAt _ rfl hcursor.y

theorem Same.drawSegment (h : Same s d d') {phys_row : Nat}
    (hdrawable : Drawable s (phys_row - s.scroll_y) line_idx seg) :
    Same s (s.drawSegment d phys_row line_idx seg) (s.drawSegment d' phys_row line_idx seg) := by
  have hmoved := h.move (Eq.refl origin_x) (Eq.refl (origin_y + (phys_row - s.scroll_y) * s.line_height))
  have hdrawn := (hmoved.cursorAt (line_idx = s.cursor_row && s.cursor_col = 0 && seg = 0)
    hmoved.x hmoved.y).drawCached hdrawable
  have hcursor := hdrawn.cursorAt
    (line_idx = s.cursor_row && seg * s.GetVisibleTextCols ≤ s.cursor_col &&
      s.cursor_col ≤ min (s.GetLineLength line_idx) (seg * s.GetVisibleTextCols + s.GetVisibleTextCols))
    (congrArg (· + (s.cursor_col - seg * s.GetVisibleTextCols) * s.char_width) hdrawn.x) hdrawn.y
  have hend := hcursor.move (congrArg (· + (min (s.GetLineLength line_idx)
    (seg * s.GetVisibleTextCols + s.GetVisibleTextCols) - seg * s.GetVisibleTextCols) * s.char_width) hcursor.x)
    hcursor.y
  exact hend.cursorAt _ hend.x hend.y

/-! ## All rows -/

theorem Same.drawLines (hscroll : ∃ line ∈ s.lines, s.scroll_x ≤ line.text.length)
    (hwrap : s.word_wrap = false) :
    ∀ {n cache_idx line_idx : Nat} {d d' : Drawing}, Same s d d' → cache_idx + n ≤ s.GetVisibleTextRows →
      line_idx + n ≤ s.lines.length →
      Same s (s.drawLines n cache_idx line_idx d) (s.drawLines n cache_idx line_idx d')
  | 0, _, _, _, _, h, _, _ => h
  | n + 1, cache_idx, line_idx, d, d', h, hslots, hlines => by
    have hone : 0 < s.GetWrappedSegmentCount line_idx := by
      rw [GetWrappedSegmentCount, hwrap]
      exact Nat.one_pos
    have hdrawable : Drawable s cache_idx line_idx 0 := ⟨by omega, by omega, hone, hscroll⟩
    have hline := h.drawLine hdrawable
    rw [TextBox.drawLines, TextBox.drawLines]
    split
    · have hmoved := hline.move (Eq.refl origin_x)
        (Eq.refl ((s.drawLine d cache_idx line_idx).cur_draw_y + s.line_height))
      dsimp only
      rw [hline.y]
      split
      · exact hmoved
      · exact Same.drawLines hscroll hwrap hmoved (by omega) (by omega)
    · exact hline

theorem Same.drawSegments (hscroll : ∃ line ∈ s.lines, s.scroll_x ≤ line.text.length) :
    ∀ {segments : List (Nat × Nat)} {phys_row : Nat} {d d' : Drawing}, Same s d d' →
      (∀ row ∈ segments, row.1 < s.lines.length ∧ row.2 < s.GetWrappedSegmentCount row.1) →
      Same s (s.drawSegments segments phys_row d) (s.drawSegments segments phys_row d')
  | [], _, _, _, h, _ => h
  | (line_idx, seg) :: rest, phys_row, d, d', h, hrows => by
    have hrest : ∀ row ∈ rest, row.1 < s.lines.length ∧ row.2 < s.GetWrappedSegmentCount row.1 :=
      fun row hrow => hrows row (mem_cons_of_mem _ hrow)
    rw [TextBox.drawSegments, TextBox.drawSegments]
    split
    · exact Same.drawSegments hscroll h hrest
    · split
      · exact h
      · rename_i hslot
        obtain ⟨hrow, hseg⟩ := hrows (line_idx, seg) mem_cons_self
        exact Same.drawSegments hscroll (h.drawSegment ⟨Nat.lt_of_not_le hslot, hrow, hseg, hscroll⟩) hrest

theorem mem_segments {row : Nat × Nat} (h : row ∈ s.segments) :
    row.1 < s.lines.length ∧ row.2 < s.GetWrappedSegmentCount row.1 := by
  obtain ⟨line_idx, hline, h⟩ := mem_flatMap.mp h
  obtain ⟨seg, hseg, rfl⟩ := mem_map.mp h
  exact ⟨mem_range.mp hline, mem_range.mp hseg⟩

/-- The cursor is in a line that reaches to the scroll value. -/
theorem Visible.scroll (h : Visible s) (hdocument : InDocument s) :
    ∃ line ∈ s.lines, s.scroll_x ≤ line.text.length := by
  have hrow := hdocument.row
  refine ⟨s.lines[s.cursor_row], getElem_mem _, Nat.le_trans h.col_ge (Nat.le_trans hdocument.col ?_)⟩
  rw [GetLineLength, getD_eq_getElem?_getD, getElem?_eq_getElem hrow, Option.getD_some]

/-! ## A new text box -/

theorem drawLines_fresh (s : TextBox) :
    ∀ (n cache_idx line_idx : Nat) (d : Drawing),
      s.fresh.drawLines n cache_idx line_idx d = s.drawLines n cache_idx line_idx d
  | 0, _, _, _ => rfl
  | n + 1, cache_idx, line_idx, d => by
    simp only [drawLines, drawLines_fresh s n]
    rfl

theorem drawSegments_fresh (s : TextBox) :
    ∀ (segments : List (Nat × Nat)) (phys_row : Nat) (d : Drawing),
      s.fresh.drawSegments segments phys_row d = s.drawSegments segments phys_row d
  | [], _, _ => rfl
  | (line_idx, seg) :: rest, phys_row, d => by
    rw [drawSegments, drawSegments, drawSegments_fresh s rest, drawSegments_fresh s rest]
    rfl

theorem DrawVisibleText_fresh (hcaches : ∀ cache ∈ s.line_caches, CacheShows s cache)
    (hdocument : InDocument s) (hvisible : Visible s) (p : List Color) :
    Same s (s.DrawVisibleText p) (s.fresh.DrawVisibleText p) := by
  have hscroll := hvisible.scroll hdocument
  have hslots := EnsureLineCacheSlots_spec hcaches
  have hnone : ∀ cache ∈ s.fresh.line_caches, CacheShows s.fresh cache := fun _ h => absurd h not_mem_nil
  have hslots' := EnsureLineCacheSlots_spec hnone
  have hstart : Same s
      { line_caches := s.EnsureLineCacheSlots s.GetVisibleTextRows
        sheet_buffer := p
        cursor_draw_x := origin_x
        cursor_draw_y := origin_y
        cursor_draw_known := false
        cur_draw_x := origin_x
        cur_draw_y := origin_y }
      { line_caches := s.fresh.EnsureLineCacheSlots s.fresh.GetVisibleTextRows
        sheet_buffer := p
        cursor_draw_x := origin_x
        cursor_draw_y := origin_y
        cursor_draw_known := false
        cur_draw_x := origin_x
        cur_draw_y := origin_y } :=
    ⟨_, rfl, hslots, ⟨hslots'.length, hslots'.count, hslots'.shows⟩⟩
  have hwrapped : s.fresh.word_wrap = s.word_wrap := rfl
  rw [DrawVisibleText, DrawVisibleText]
  dsimp only
  rcases Bool.eq_false_or_eq_true s.word_wrap with hwrap | hwrap
  · rw [hwrapped, hwrap, drawSegments_fresh]
    have hdrawn : Same s (s.drawSegments s.segments 0 _) (s.drawSegments s.segments 0 _) :=
      hstart.drawSegments hscroll fun row hrow => mem_segments hrow
    exact hdrawn.cursorAt true hdrawn.x hdrawn.y
  · rw [hwrapped, hwrap, drawLines_fresh]
    have hlines : s.scroll_y < s.lines.length := by
      have hrow := hvisible.row_ge
      rw [displayedRow_unwrapped hwrap] at hrow
      exact Nat.lt_of_le_of_lt hrow hdocument.row
    have hdrawn : Same s
        (s.drawLines (min s.lines.length (s.scroll_y + s.GetVisibleTextRows) - s.scroll_y) 0 s.scroll_y _)
        (s.drawLines (min s.lines.length (s.scroll_y + s.GetVisibleTextRows) - s.scroll_y) 0 s.scroll_y _) :=
      hstart.drawLines hscroll hwrap (by omega) (by omega)
    exact hdrawn.cursorAt true hdrawn.x hdrawn.y

/-! ## The frame -/

theorem length_foldl_set {α : Type} (color : α) : ∀ (places : List Nat) (p : List α),
    (places.foldl (fun p i => p.set i color) p).length = p.length
  | [], _ => rfl
  | i :: places, p => (length_foldl_set color places (p.set i color)).trans length_set

/-- Two lists that agree, except where one colour is written. -/
theorem foldl_set_eq {α : Type} (color : α) : ∀ (places : List Nat) (p p' : List α), p.length = p'.length →
    (∀ i < p.length, i ∉ places → p[i]? = p'[i]?) →
    places.foldl (fun p i => p.set i color) p = places.foldl (fun p i => p.set i color) p'
  | [], p, p', hlength, h => by
    refine ext_getElem? fun i => ?_
    rcases Nat.lt_or_ge i p.length with hi | hi
    · exact h i hi not_mem_nil
    · show p[i]? = p'[i]?
      rw [getElem?_eq_none hi, getElem?_eq_none (hlength ▸ hi)]
  | place :: places, p, p', hlength, h => by
    refine foldl_set_eq color places (p.set place color) (p'.set place color) ?_ fun i hi hnot => ?_
    · rw [length_set, length_set, hlength]
    · rw [length_set] at hi
      by_cases hplace : place = i
      · rw [hplace, getElem?_set_self hi, getElem?_set_self (hlength ▸ hi)]
      · rw [getElem?_set_ne hplace, getElem?_set_ne hplace]
        exact h i hi fun hmem => (mem_cons.mp hmem).elim (fun heq => hplace heq.symm) hnot

theorem length_DrawRectangle (size_x size_y : Nat) (p : List Color) (x y width height : Nat) (color : Color) :
    (DrawRectangle size_x size_y p x y width height color).length = p.length := by
  rw [DrawRectangle]
  split
  · rfl
  · exact length_foldl_set _ _ _

theorem DrawRectangle_whole {size_x size_y : Nat} {p p' : List Color} (hp : p.length = size_x * size_y)
    (hp' : p'.length = size_x * size_y) (color : Color) :
    DrawRectangle size_x size_y p 0 0 size_x size_y color =
      DrawRectangle size_x size_y p' 0 0 size_x size_y color := by
  have hinside : ¬ (size_y < 0 ∨ size_x < 0) := by omega
  rw [DrawRectangle, DrawRectangle, if_neg hinside, if_neg hinside]
  refine foldl_set_eq color _ p p' (hp.trans hp'.symm) fun i hi hnot => absurd ?_ hnot
  rw [hp] at hi
  have hpos : 0 < size_x := Nat.pos_of_mul_pos_right (Nat.zero_lt_of_lt hi)
  refine mem_flatMap.mpr ⟨i / size_x, mem_range.mpr ?_, mem_map.mpr
    ⟨i % size_x, mem_range.mpr ?_, ?_⟩⟩
  · rw [Nat.sub_zero, Nat.min_self]
    exact Nat.div_lt_of_lt_mul hi
  · rw [Nat.sub_zero, Nat.min_self]
    exact Nat.mod_lt i hpos
  · rw [Nat.zero_add, Nat.add_zero]
    exact Nat.div_add_mod i size_x

theorem DrawFrame_eq {p p' : List Color} (hp : p.length = s.width * s.height)
    (hp' : p'.length = s.width * s.height) : s.DrawFrame p = s.DrawFrame p' := by
  rw [DrawFrame, DrawFrame, DrawRectangle_whole hp hp']

theorem length_DrawFrame (s : TextBox) (p : List Color) : (s.DrawFrame p).length = p.length := by
  rw [DrawFrame, length_DrawRectangle, length_DrawRectangle, length_DrawRectangle, length_DrawRectangle,
    length_DrawRectangle]

/-! ## The size of the sheet -/

theorem length_DrawCursor (s : TextBox) (p : List Color) (x y : Nat) : (s.DrawCursor p x y).length = p.length := by
  rw [DrawCursor]
  split
  · exact length_DrawRectangle _ _ _ _ _ _ _ _
  · rfl

theorem length_cursorAt (d : Drawing) (here : Bool) (x y : Nat) :
    (d.cursorAt here x y).sheet_buffer.length = d.sheet_buffer.length := by
  rw [Drawing.cursorAt]
  split <;> rfl

theorem length_foldl_blit {α β : Type} (place : β → Nat) (color : β → α) : ∀ (points : List β) (p : List α),
    (points.foldl (fun p point => p.set (place point) (color point)) p).length = p.length
  | [], _ => rfl
  | point :: points, p =>
    (length_foldl_blit place color points (p.set (place point) (color point))).trans length_set

theorem length_drawCached (d : Drawing) (cache_idx line_idx seg : Nat) :
    (s.drawCached d cache_idx line_idx seg).sheet_buffer.length = d.sheet_buffer.length := by
  rw [drawCached, BlitCachedLine, BlitPixelLine]
  exact length_foldl_blit (fun point : Nat × Nat => _) (fun point : Nat × Nat => _) _ _

theorem length_drawLine (d : Drawing) (cache_idx line_idx : Nat) :
    (s.drawLine d cache_idx line_idx).sheet_buffer.length = d.sheet_buffer.length := by
  rw [drawLine, length_cursorAt, length_cursorAt, length_drawCached, length_cursorAt]

theorem length_drawSegment (d : Drawing) (phys_row line_idx seg : Nat) :
    (s.drawSegment d phys_row line_idx seg).sheet_buffer.length = d.sheet_buffer.length := by
  rw [drawSegment, length_cursorAt]
  exact (length_cursorAt _ _ _ _).trans ((length_drawCached _ _ _ _).trans (length_cursorAt _ _ _ _))

theorem length_drawLines : ∀ (n cache_idx line_idx : Nat) (d : Drawing),
    (s.drawLines n cache_idx line_idx d).sheet_buffer.length = d.sheet_buffer.length
  | 0, _, _, _ => rfl
  | n + 1, cache_idx, line_idx, d => by
    rw [drawLines]
    split
    · dsimp only
      split
      · exact length_drawLine _ _ _
      · exact (length_drawLines n _ _ _).trans (length_drawLine _ _ _)
    · exact length_drawLine _ _ _

theorem length_drawSegments : ∀ (segments : List (Nat × Nat)) (phys_row : Nat) (d : Drawing),
    (s.drawSegments segments phys_row d).sheet_buffer.length = d.sheet_buffer.length
  | [], _, _ => rfl
  | (line_idx, seg) :: rest, phys_row, d => by
    rw [drawSegments]
    split
    · exact length_drawSegments rest _ _
    · split
      · rfl
      · exact (length_drawSegments rest _ _).trans (length_drawSegment _ _ _ _)

theorem length_DrawVisibleText (s : TextBox) (p : List Color) :
    (s.DrawVisibleText p).sheet_buffer.length = p.length := by
  rw [DrawVisibleText, length_cursorAt]
  split
  · exact length_drawLines _ _ _ _
  · exact length_drawSegments _ _ _

/-! ## `doshow` -/

/-- The pixels of the sheet, once there are any. -/
def Sized (s : TextBox) : Prop := ∀ p, s.sheet_buffer = some p → p.length = s.width * s.height

/-- `doshow` of a text box with nothing to synchronise and nothing to scroll. -/
theorem doshow_eq (hlined : Lined s) (hdocument : InDocument s) (hvisible : Visible s) :
    s.doshow =
      let d := s.DrawVisibleText (s.DrawFrame (s.sheet_buffer.getD (List.replicate (s.width * s.height) 0)))
      { s with
        line_caches := d.line_caches
        sheet_buffer := some (s.DrawCursor d.sheet_buffer d.cursor_draw_x d.cursor_draw_y) } := by
  rw [doshow, SyncLinesFromText_eq hlined hdocument, EnsureCursorVisible_eq hdocument hvisible]

theorem doshow_visible (hlined : Lined s) (hdocument : InDocument s) (hvisible : Visible s)
    (hcaches : ∀ cache ∈ s.line_caches, CacheShows s cache) (hsized : Sized s) :
    ∃ line_caches p, s.doshow = { s with line_caches, sheet_buffer := some p } ∧
      (∀ cache ∈ line_caches, CacheShows s cache) ∧ p.length = s.width * s.height ∧
      s.fresh.doshow.sheet_buffer = some p := by
  have hbuffer : (s.sheet_buffer.getD (List.replicate (s.width * s.height) 0)).length = s.width * s.height := by
    cases h : s.sheet_buffer with
    | none => exact length_replicate
    | some p => exact hsized p h
  have hframe : s.DrawFrame (s.sheet_buffer.getD (List.replicate (s.width * s.height) 0)) =
      s.fresh.DrawFrame (List.replicate (s.width * s.height) 0) := DrawFrame_eq hbuffer length_replicate
  obtain ⟨line_caches, hsame, hslots, _⟩ := DrawVisibleText_fresh hcaches hdocument hvisible
    (s.fresh.DrawFrame (List.replicate (s.width * s.height) 0))
  refine ⟨_, _, doshow_eq hlined hdocument hvisible, ?_, ?_, ?_⟩
  · rw [hframe]
    exact hslots.shows
  · rw [length_DrawCursor, length_DrawVisibleText, length_DrawFrame, hbuffer]
  · have hfresh := doshow_eq (s := s.fresh) ⟨hlined.spell, hlined.colors⟩ ⟨hdocument.row, hdocument.col⟩
      ⟨hvisible.row_ge, hvisible.row_lt, hvisible.col_ge, hvisible.col_lt, hvisible.unscrolled⟩
    have hnone : s.fresh.sheet_buffer.getD (List.replicate (s.fresh.width * s.fresh.height) 0) =
        List.replicate (s.width * s.height) 0 := rfl
    rw [hnone] at hfresh
    rw [hfresh, hsame, hframe]
    rfl

end Unisym.Witch.TextBox
