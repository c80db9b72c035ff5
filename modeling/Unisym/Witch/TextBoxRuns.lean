/-
# `TextBoxRuns` — sequences of events

`Settled` holds after each event that the text box handles, and before the first one it is `Blank`.  `Effect`
says what an event does to the text and to the cursor, and that the pixels are those a new text box would
draw.  Three kinds of events do otherwise, and `Fine` leaves them out: to assign the empty text does not drop the
cache of the first row, and the cursor keys for up and down miss their row at the end of some full rows.
-/
import Unisym.Witch.TextBoxDraw
import Unisym.Witch.TextBoxEdits
import Unisym.Witch.TextBoxMoves

namespace Unisym.Witch.TextBox

open List

variable {s : TextBox}

/-! ## What events do -/

/-- The pixels are those that a new text box would draw. -/
def Drawn (s : TextBox) : Prop := ∃ p, s.sheet_buffer = some p ∧ s.fresh.doshow.sheet_buffer = some p

/-- The state between two events. -/
structure Settled (s : TextBox) : Prop where
  lined : Lined s
  document : InDocument s
  visible : Visible s
  caches : ∀ cache ∈ s.line_caches, CacheShows s cache
  sized : Sized s
  drawn : s.sheet_buffer = none ∨ Drawn s

/-- What a key does. -/
def Effect (s s' : TextBox) : KeyAction → Prop
  | .left | .right => s'.text = s.text ∧ Drawn s'
  | .up => s'.text = s.text ∧ (0 < s.displayedRow → s'.displayedRow + 1 = s.displayedRow) ∧ Drawn s'
  | .down =>
      s'.text = s.text ∧
        (s.displayedRow + 1 < s.GetTotalPhysicalRows → s'.displayedRow = s.displayedRow + 1) ∧ Drawn s'
  | .backspace =>
      if s.place = 0 then s'.text = s.text ∧ s'.place = s.place
      else
        s'.text = s.text.take (s.place - 1) ++ s.text.drop s.place ∧ s'.place = s.place - 1 ∧ Drawn s'
  | .insert ch =>
      s'.text = s.text.take s.place ++ ch :: s.text.drop s.place ∧ s'.place = s.place + 1 ∧ Drawn s'
  | .nothing => s'.text = s.text ∧ s'.place = s.place

/-- What an event does. -/
def EventEffect (keys : KeyMaps) (s s' : TextBox) : Event → Prop
  | .onClick _ _ left_down => s'.text = s.text ∧ (left_down = true → Drawn s')
  | .onEnter | .onTimer => s'.text = s.text ∧ s'.place = s.place ∧ Drawn s'
  | .onLeave type => s'.text = s.text ∧ s'.place = s.place ∧ (type = 1 → Drawn s')
  | .onKeybd pressed keycode shift =>
      Effect s s' (if pressed then keyAction keys keycode shift else .nothing)
  | .assign text => s'.text = text ∧ Drawn s'

/-- The event is handled. -/
def Handled : Event → Prop
  | .onClick _ _ left_down => left_down = true
  | .onLeave type => type = 1
  | _ => True

/-- The first row, where it is in a cache, is blank. -/
def FirstRowBlank (s : TextBox) : Prop :=
  ∀ cache ∈ s.line_caches, cache.valid = true → cache.logical_row = some 0 → cache.segment_row = 0 →
    (s.word_wrap = false → cache.scroll_x_value = 0) →
    cache.pixels = List.replicate cache.pixel_count Color.White

/-- The key finds the row to go to. -/
def FineKey (s : TextBox) : KeyAction → Prop
  | .up => UpLands s
  | .down => DownLands s
  | _ => True

/-- The event does as it should. -/
def Fine (keys : KeyMaps) (s : TextBox) : Event → Prop
  | .onKeybd true keycode shift => FineKey s (keyAction keys keycode shift)
  | .assign text => text ≠ [] ∨ s.text = [] ∨ FirstRowBlank s
  | _ => True

/-- An assigned text has no `\r`. -/
def Plain : Event → Prop
  | .assign text => 13 ∉ text
  | _ => True

/-! ## `doshow` -/

/-- What holds before `doshow`. -/
structure Ready (s : TextBox) : Prop where
  lined : Lined s
  document : InDocument s
  caches : ∀ cache ∈ s.line_caches, CacheShows s cache
  sized : Sized s

/-- `doshow` changes what is shown only. -/
structure Shows (s s' : TextBox) : Prop where
  settled : Settled s'
  drawn : Drawn s'
  text : s'.text = s.text
  lines : s'.lines = s.lines
  cursor_row : s'.cursor_row = s.cursor_row
  cursor_col : s'.cursor_col = s.cursor_col
  displayedRow : s'.displayedRow = s.displayedRow

theorem Shows.place {s' : TextBox} (h : Shows s s') : s'.place = s.place := by
  rw [TextBox.place, TextBox.place, h.lines, h.cursor_row, h.cursor_col]

theorem Ready.doshow (h : Ready s) : Shows s s.doshow := by
  obtain ⟨scroll_y, scroll_x, hensure, hvisible⟩ := EnsureCursorVisible_spec h.document
  have hlined : Lined { s with scroll_y, scroll_x } := ⟨h.lined.spell, h.lined.colors⟩
  have hdocument : InDocument { s with scroll_y, scroll_x } := ⟨h.document.row, h.document.col⟩
  have hsame : s.doshow = { s with scroll_y, scroll_x }.doshow := by
    rw [doshow_eq hlined hdocument hvisible, TextBox.doshow, SyncLinesFromText_eq h.lined h.document, hensure]
  obtain ⟨line_caches, p, heq, hcaches, hlength, hfresh⟩ :=
    doshow_visible hlined hdocument hvisible h.caches h.sized
  rw [hsame, heq]
  have hdrawn : Drawn { s with scroll_y, scroll_x, line_caches, sheet_buffer := some p } := ⟨p, rfl, hfresh⟩
  refine ⟨⟨⟨hlined.spell, hlined.colors⟩, ⟨hdocument.row, hdocument.col⟩,
    ⟨hvisible.row_ge, hvisible.row_lt, hvisible.col_ge, hvisible.col_lt, hvisible.unscrolled⟩, hcaches, ?_,
    .inr hdrawn⟩, hdrawn, rfl, rfl, rfl, rfl, rfl⟩
  intro p' hp'
  exact Option.some.inj hp' ▸ hlength

theorem Settled.ready (h : Settled s) : Ready s := ⟨h.lined, h.document, h.caches, h.sized⟩

/-! ## Keys -/

theorem CacheShows.of_invalidated {line_caches : List CachedPhysicalLine} {s' : TextBox}
    (h : line_caches = s.InvalidateAllLineCaches.line_caches) : ∀ cache ∈ line_caches, CacheShows s' cache := by
  intro cache hcache
  rw [h] at hcache
  obtain ⟨old, _, rfl⟩ := mem_map.mp hcache
  exact CacheShows.of_invalid rfl

theorem EditedTo.shows {s' : TextBox} {text : List UInt8} {place : Nat} (h : EditedTo s s' text place)
    (hsized : Sized s) : Settled s'.doshow ∧ s'.doshow.text = text ∧ s'.doshow.place = place ∧ Drawn s'.doshow := by
  obtain ⟨lines, row, col, scroll_y, scroll_x, heq, hlined, hdocument, hplace⟩ := h
  have hready : Ready s' := by
    refine ⟨hlined, hdocument, ?_, ?_⟩
    · rw [heq]
      exact CacheShows.of_invalidated rfl
    · rw [heq]
      exact hsized
  have hshows := hready.doshow
  refine ⟨hshows.settled, hshows.text.trans ?_, hshows.place.trans hplace, hshows.drawn⟩
  rw [heq]

theorem MovedTo.shows {s' : TextBox} (h : MovedTo s s') (hready : Ready s) :
    Shows s' s'.doshow ∧ s'.doshow.text = s.text := by
  obtain ⟨row, col, scroll_y, scroll_x, rfl, hdocument⟩ := h
  have hready : Ready { s with cursor_row := row, cursor_col := col, scroll_y, scroll_x } :=
    ⟨⟨hready.lined.spell, hready.lined.colors⟩, hdocument, hready.caches, hready.sized⟩
  exact ⟨hready.doshow, hready.doshow.text⟩

theorem pressKey_spec (h : Settled s) (action : KeyAction) (hfine : FineKey s action) :
    Settled (s.pressKey action) ∧ Effect s (s.pressKey action) action := by
  cases action with
  | left =>
    obtain ⟨hshows, htext⟩ := (MoveCursorLeft_spec h.document).shows h.ready
    exact ⟨hshows.settled, htext, hshows.drawn⟩
  | right =>
    obtain ⟨hshows, htext⟩ := (MoveCursorRight_spec h.document).shows h.ready
    exact ⟨hshows.settled, htext, hshows.drawn⟩
  | up =>
    obtain ⟨hmoved, hrow⟩ := MoveCursorUp_spec h.document
    obtain ⟨hshows, htext⟩ := hmoved.shows h.ready
    exact ⟨hshows.settled, htext, fun hpos => by rw [pressKey, hshows.displayedRow, hrow hfine hpos], hshows.drawn⟩
  | down =>
    obtain ⟨hmoved, hrow⟩ := MoveCursorDown_spec h.document
    obtain ⟨hshows, htext⟩ := hmoved.shows h.ready
    exact ⟨hshows.settled, htext, fun hnext => by rw [pressKey, hshows.displayedRow, hrow hfine hnext], hshows.drawn⟩
  | backspace =>
    rw [pressKey, Effect]
    by_cases hplace : s.place = 0
    · rw [BackspaceAtCursor_start h.document hplace, if_pos hplace]
      exact ⟨h, rfl, rfl⟩
    · obtain ⟨s', heq, hedited⟩ := BackspaceAtCursor_spec h.lined h.document hplace
      rw [heq, if_neg hplace]
      exact hedited.shows h.sized
  | insert ch => exact (InsertCharAtCursor_spec h.lined h.document ch).shows h.sized
  | nothing => exact ⟨h, rfl, rfl⟩

/-! ## The first event -/

/-- No event has been handled. -/
structure Blank (s : TextBox) : Prop where
  text : s.text = []
  lines : s.lines = []
  line_caches : s.line_caches = []
  cursor_row : s.cursor_row = 0
  cursor_col : s.cursor_col = 0
  scroll_y : s.scroll_y = 0
  scroll_x : s.scroll_x = 0
  sheet_buffer : s.sheet_buffer = none

theorem Blank.sync_eq (h : Blank s) : s.SyncLinesFromText = { s with lines := [{}] } := by
  obtain ⟨htext, hlines, _, hrow, hcol, _, _, _⟩ := h
  rw [SyncLinesFromText, if_pos (.inl hlines), ImportTextToLines, if_pos htext,
    EnsureLineModel_eq (cons_ne_nil _ _), NormalizeAllLineColors_eq]
  · refine ClampCursor_eq ⟨?_, ?_⟩
    · rw [hrow]
      exact Nat.one_pos
    · rw [hcol]
      exact Nat.zero_le _
  · intro line hline
    rw [mem_singleton.mp hline]
    rfl

theorem Blank.displayedRow_eq (h : Blank s) : s.displayedRow = 0 ∧ { s with lines := [{}] }.displayedRow = 0 := by
  have hzero : ∀ s' : TextBox, s'.cursor_row = 0 → s'.cursor_col = 0 → s'.displayedRow = 0 := by
    intro s' hrow hcol
    rcases Bool.eq_false_or_eq_true s'.word_wrap with hwrap | hwrap
    · rw [displayedRow_wrapped hwrap, hrow, hcol, rowsBefore_zero, Nat.zero_add, WrappedRows.rowOf, Nat.zero_div]
      split <;> rfl
    · rw [displayedRow_unwrapped hwrap, hrow]
  exact ⟨hzero s h.cursor_row h.cursor_col, hzero _ h.cursor_row h.cursor_col⟩

theorem Blank.settled (h : Blank s) : Settled { s with lines := [{}] } := by
  have hdocument : InDocument { s with lines := [{}] } :=
    ⟨Nat.lt_of_le_of_lt (Nat.le_of_eq h.cursor_row) Nat.one_pos,
      Nat.le_trans (Nat.le_of_eq h.cursor_col) (Nat.zero_le _)⟩
  refine ⟨⟨?_, ?_⟩, hdocument, ⟨?_, ?_, ?_, ?_, ?_⟩, ?_, ?_, .inl h.sheet_buffer⟩
  · show [[]] = s.text.splitOn 10
    rw [h.text]
    rfl
  · intro line hline
    rw [mem_singleton.mp hline]
    rfl
  · exact Nat.le_trans (Nat.le_of_eq h.scroll_y) (Nat.zero_le _)
  · rw [h.displayedRow_eq.2]
    exact Nat.add_pos_right _ (GetVisibleTextRows_pos _)
  · exact Nat.le_trans (Nat.le_of_eq h.scroll_x) (Nat.zero_le _)
  · intro _
    exact Nat.lt_of_le_of_lt (Nat.le_of_eq h.cursor_col) (Nat.add_pos_right _ (GetVisibleTextCols_pos _))
  · exact fun _ => h.scroll_x
  · intro cache hcache
    rw [show ({ s with lines := [{}] } : TextBox).line_caches = [] from h.line_caches] at hcache
    exact absurd hcache not_mem_nil
  · intro p hp
    exact absurd (h.sheet_buffer.symm.trans hp) (Option.some_ne_none p).symm

theorem synced (h : Blank s ∨ Settled s) :
    Settled s.SyncLinesFromText ∧ s.SyncLinesFromText.text = s.text ∧ s.SyncLinesFromText.place = s.place ∧
      (∀ action, FineKey s action → FineKey s.SyncLinesFromText action) ∧
      ∀ s' action, Effect s.SyncLinesFromText s' action → Effect s s' action := by
  rcases h with h | h
  · have hrows := h.displayedRow_eq
    have hplace : ({ s with lines := [{}] } : TextBox).place = s.place := by
      rw [TextBox.place, TextBox.place, h.lines, h.cursor_row]
      rfl
    have hempty : ¬ AtFullEnd { s with lines := [{}] } := by
      intro hend
      have hpos := hend.2.2.1
      rw [show ({ s with lines := [{}] } : TextBox).cursor_row = 0 from h.cursor_row] at hpos
      exact absurd hpos (Nat.lt_irrefl 0)
    rw [h.sync_eq]
    refine ⟨h.settled, rfl, hplace, fun action _ => ?_, fun s' action heffect => ?_⟩
    · cases action with
      | up => exact fun hend => absurd hend hempty
      | down => exact fun hend => absurd hend hempty
      | _ => exact trivial
    · cases action with
      | up => exact ⟨heffect.1, fun hpos => absurd (hrows.1 ▸ hpos) (Nat.lt_irrefl 0), heffect.2.2⟩
      | down =>
        refine ⟨heffect.1, fun hnext => ?_, heffect.2.2⟩
        rw [hrows.1, GetTotalPhysicalRows, h.lines] at hnext
        split at hnext
        · exact absurd hnext (Nat.not_lt_zero _)
        · exact absurd hnext (Nat.lt_irrefl 1)
      | backspace =>
        rw [Effect, hplace] at heffect
        exact heffect
      | insert ch =>
        rw [Effect, hplace] at heffect
        exact heffect
      | nothing => exact ⟨heffect.1, heffect.2.trans hplace⟩
      | left => exact heffect
      | right => exact heffect
  · rw [SyncLinesFromText_eq h.lined h.document]
    exact ⟨h, rfl, rfl, fun _ h => h, fun _ _ h => h⟩

/-! ## Assignments -/

/-- `doshow` after the text and the lines were synchronised. -/
theorem doshow_synced {s' : TextBox} (hsync : s.SyncLinesFromText = s') (hready : Ready s')
    (hbuffer : s'.sheet_buffer = s.sheet_buffer) (hwidth : s'.width = s.width) (hheight : s'.height = s.height) :
    s.doshow = s'.doshow := by
  rw [TextBox.doshow, TextBox.doshow, hsync, SyncLinesFromText_eq hready.lined hready.document, hbuffer, hwidth,
    hheight]

theorem Lined.empty (h : Lined s) (htext : s.text = []) : s.lines = [{}] := by
  have hspell : s.lines.map RichLine.text = [[]] := by rw [h.spell, htext, splitOn_nil]
  obtain ⟨line, hline, hlinetext⟩ := map_eq_singleton_iff.mp hspell
  have hcolors := h.colors line (hline ▸ mem_singleton_self line)
  rw [hlinetext] at hcolors
  rw [hline]
  cases line with
  | mk text colors =>
    obtain rfl : text = [] := hlinetext
    obtain rfl : colors = [] := length_eq_zero_iff.mp hcolors
    rfl

theorem FirstRowBlank.shows (h : FirstRowBlank s) :
    ∀ cache ∈ s.line_caches, CacheShows { s with lines := [{}] } cache := by
  intro cache hcache hvalid row hrow hlt hseg hscroll _ _
  obtain rfl : row = 0 := Nat.lt_one_iff.mp hlt
  have hone : ({ s with lines := [{}] } : TextBox).GetWrappedSegmentCount 0 = 1 := by
    rw [GetWrappedSegmentCount]
    split
    · rfl
    · exact if_pos rfl
  rw [hone] at hseg
  have hsegment : cache.segment_row = 0 := Nat.lt_one_iff.mp hseg
  have hzero : s.word_wrap = false → cache.scroll_x_value = 0 := by
    intro hwrap
    obtain ⟨line, hline, hle⟩ := hscroll hwrap
    rw [mem_singleton.mp hline] at hle
    exact Nat.le_zero.mp hle
  rw [h cache hcache hvalid hrow hsegment hzero, renderedPixels]
  have hend : ∀ start : Nat, min 0 (start + s.GetVisibleTextCols) - start = 0 := fun start => by
    rw [Nat.zero_min, Nat.zero_sub]
  exact (congrArg (fun n => (List.range n).foldl _ _) (hend _)).symm

theorem assign_spec (h : Blank s ∨ Settled s) (text : List UInt8) (hplain : 13 ∉ text)
    (hfine : text ≠ [] ∨ s.text = [] ∨ FirstRowBlank s) :
    Settled { s with text }.doshow ∧ { s with text }.doshow.text = text ∧ Drawn { s with text }.doshow := by
  have hbreak : ∀ line ∈ s.lines, 10 ∉ line.text := by
    rcases h with h | h
    · rw [h.lines]
      exact fun _ hline => absurd hline not_mem_nil
    · exact h.lined.no_break
  have hcolors : ∀ line ∈ s.lines, line.colors.length = line.text.length := by
    rcases h with h | h
    · rw [h.lines]
      exact fun _ hline => absurd hline not_mem_nil
    · exact h.lined.colors
  have hcaches : ∀ cache ∈ s.line_caches, CacheShows s cache := by
    rcases h with h | h
    · rw [h.line_caches]
      exact fun _ hcache => absurd hcache not_mem_nil
    · exact h.caches
  have hsized : Sized s := by
    rcases h with h | h
    · exact fun p hp => absurd (h.sheet_buffer.symm.trans hp) (Option.some_ne_none p).symm
    · exact h.sized
  obtain ⟨lines, line_caches, row, col, scroll_y, scroll_x, hsync, hlined, hdocument, hkept⟩ :=
    SyncLinesFromText_spec (s := { s with text }) hbreak hcolors hplain
  have hready : Ready { s with
      text, lines, line_caches, cursor_row := row, cursor_col := col, scroll_y, scroll_x } := by
    refine ⟨⟨hlined.spell, hlined.colors⟩, ⟨hdocument.row, hdocument.col⟩, ?_, hsized⟩
    rcases hkept with ⟨_, rfl, rfl⟩ | ⟨hempty, rfl, rfl⟩ | hinvalid
    · exact hcaches
    · rcases hfine with hne | hnil | hblank
      · exact absurd hempty hne
      · rcases h with h | h
        · exact fun cache hcache => absurd (h.line_caches ▸ hcache) not_mem_nil
        · have hshows : ∀ lines, lines = s.lines → ∀ cache ∈ s.line_caches, CacheShows { s with lines } cache := by
            rintro _ rfl
            exact hcaches
          exact hshows _ (h.lined.empty hnil).symm
      · exact hblank.shows
    · exact fun cache hcache => CacheShows.of_invalid (hinvalid cache hcache)
  rw [doshow_synced hsync hready rfl rfl rfl]
  have hshows := hready.doshow
  exact ⟨hshows.settled, hshows.text, hshows.drawn⟩

/-! ## Sequences of events -/

theorem blink_spec (h : Blank s ∨ Settled s) (cursor_visible : Bool) :
    Settled { s with cursor_visible }.doshow ∧ { s with cursor_visible }.doshow.text = s.text ∧
      { s with cursor_visible }.doshow.place = s.place ∧ Drawn { s with cursor_visible }.doshow := by
  obtain ⟨s', hsync, hready, htext, hplace, hbuffer, hwidth, hheight⟩ :
      ∃ s', { s with cursor_visible }.SyncLinesFromText = s' ∧ Ready s' ∧ s'.text = s.text ∧ s'.place = s.place ∧
        s'.sheet_buffer = s.sheet_buffer ∧ s'.width = s.width ∧ s'.height = s.height := by
    rcases h with h | h
    · have hblank : Blank { s with cursor_visible } := ⟨h.text, h.lines, h.line_caches, h.cursor_row,
        h.cursor_col, h.scroll_y, h.scroll_x, h.sheet_buffer⟩
      obtain ⟨_, htext, hplace, _⟩ := synced (.inl hblank)
      rw [hblank.sync_eq] at htext hplace
      exact ⟨_, hblank.sync_eq, hblank.settled.ready, htext, hplace, rfl, rfl, rfl⟩
    · have hready : Ready { s with cursor_visible } := ⟨⟨h.lined.spell, h.lined.colors⟩,
        ⟨h.document.row, h.document.col⟩, h.caches, h.sized⟩
      exact ⟨_, SyncLinesFromText_eq hready.lined hready.document, hready, rfl, rfl, rfl, rfl, rfl⟩
  rw [doshow_synced hsync hready hbuffer hwidth hheight]
  have hshows := hready.doshow
  exact ⟨hshows.settled, hshows.text.trans htext, hshows.place.trans hplace, hshows.drawn⟩

theorem onrupt_spec {keys : KeyMaps} (h : Blank s ∨ Settled s) (event : Event) (hplain : Plain event)
    (hfine : Fine keys s event) :
    (Blank (s.onrupt keys event) ∨ Settled (s.onrupt keys event)) ∧
      (Handled event → Settled (s.onrupt keys event)) ∧ EventEffect keys s (s.onrupt keys event) event := by
  cases event with
  | onClick x y left_down =>
    cases left_down with
    | false =>
      exact ⟨h, fun hhandled => absurd hhandled Bool.false_ne_true, rfl,
        fun hleft => absurd hleft Bool.false_ne_true⟩
    | true =>
      obtain ⟨hsettled, htext, _⟩ := synced h
      obtain ⟨row, col, scroll_y, scroll_x, heq, hdocument⟩ :=
        PlaceCursorFromPoint_spec hsettled.lined.lines_ne x y
      rw [heq] at hdocument
      have hready : Ready { s.SyncLinesFromText.PlaceCursorFromPoint x y with cursor_visible := true } := by
        rw [heq]
        exact ⟨⟨hsettled.lined.spell, hsettled.lined.colors⟩, ⟨hdocument.row, hdocument.col⟩, hsettled.caches,
          hsettled.sized⟩
      have hshows := hready.doshow
      have hmoved : (s.SyncLinesFromText.PlaceCursorFromPoint x y).text = s.text := by
        rw [heq]
        exact htext
      exact ⟨.inr hshows.settled, fun _ => hshows.settled, hshows.text.trans hmoved, fun _ => hshows.drawn⟩
  | onEnter =>
    obtain ⟨hsettled, htext, hplace, hdrawn⟩ := blink_spec h true
    exact ⟨.inr hsettled, fun _ => hsettled, htext, hplace, hdrawn⟩
  | onLeave type =>
    rw [onrupt]
    by_cases htype : type = 1
    · obtain ⟨hsettled, htext, hplace, hdrawn⟩ := blink_spec h false
      rw [if_pos htype]
      exact ⟨.inr hsettled, fun _ => hsettled, htext, hplace, fun _ => hdrawn⟩
    · rw [if_neg htype]
      exact ⟨h, fun hhandled => absurd hhandled htype, rfl, rfl, fun heq => absurd heq htype⟩
  | onTimer =>
    obtain ⟨hsettled, htext, hplace, hdrawn⟩ := blink_spec h (!s.cursor_visible)
    exact ⟨.inr hsettled, fun _ => hsettled, htext, hplace, hdrawn⟩
  | onKeybd pressed keycode shift =>
    obtain ⟨hsettled, htext, hplace, hkey, heffect⟩ := synced h
    cases pressed with
    | false => exact ⟨.inr hsettled, fun _ => hsettled, htext, hplace⟩
    | true =>
      obtain ⟨hsettled', heffect'⟩ :=
        pressKey_spec hsettled (keyAction keys keycode shift) (hkey _ hfine)
      exact ⟨.inr hsettled', fun _ => hsettled', heffect _ _ heffect'⟩
  | assign text =>
    obtain ⟨hsettled, htext, hdrawn⟩ := assign_spec h text hplain hfine
    exact ⟨.inr hsettled, fun _ => hsettled, htext, hdrawn⟩

/-- The states that sequences of fine events reach. -/
inductive Run (keys : KeyMaps) (start : TextBox) : TextBox → Prop
  | start : Run keys start start
  | event {s : TextBox} (run : Run keys start s) (event : Event) (plain : Plain event)
      (fine : Fine keys s event) : Run keys start (s.onrupt keys event)

/-- A text box edits its text, in every sequence of fine events. -/
theorem edits_text (keys : KeyMaps) (width height : Nat) (word_wrap : Bool) (color : Color)
    (font_engine : FontEngine) {s : TextBox} (hrun : Run keys (create width height word_wrap color font_engine) s) :
    (Blank s ∨ Settled s) ∧
      ∀ event, Plain event → Fine keys s event →
        (Handled event → Settled (s.onrupt keys event)) ∧ EventEffect keys s (s.onrupt keys event) event := by
  have hstate : Blank s ∨ Settled s := by
    induction hrun with
    | start => exact .inl ⟨rfl, rfl, rfl, rfl, rfl, rfl, rfl, rfl⟩
    | event _ event hplain hfine ih => exact (onrupt_spec ih event hplain hfine).1
  exact ⟨hstate, fun event hplain hfine => (onrupt_spec hstate event hplain hfine).2⟩

/-- A font that draws one pixel for each character. -/
def pointFont : FontEngine :=
  ⟨1, 1, fun pixels pitch_pixels px_x px_y _ fg _ => pixels.set (px_y * pitch_pixels + px_x) fg, Nat.one_pos,
    Nat.one_pos⟩

/-- Keys that have their codes as characters. -/
def plainKeys : KeyMaps := ⟨id, id⟩

/-- Two rows of two cells. -/
def smallBox : TextBox := create 7 6 true Color.Black pointFont

/-- `C` is typed after `AB`. -/
theorem edits_text_typed :
    EventEffect plainKeys (smallBox.onrupt plainKeys (.assign [65, 66]))
      ((smallBox.onrupt plainKeys (.assign [65, 66])).onrupt plainKeys (.onKeybd true 67 false))
      (.onKeybd true 67 false) :=
  ((edits_text plainKeys 7 6 true Color.Black pointFont
    (Run.event .start (.assign [65, 66]) (by decide : (13 : UInt8) ∉ [65, 66]) (.inl (cons_ne_nil _ _)))).2
    (.onKeybd true 67 false) trivial trivial).2

/-- A text box after some events. -/
def after (events : List Event) : TextBox := events.foldl (onrupt plainKeys) smallBox

/-- After `A` is replaced by the empty text its pixel is still there.  From the end of `ABCD`, in the second of two
rows, the key for up leaves the cursor in that row; from the end of `AB`, above `CDE`, the key for down takes it to the
third row. -/
theorem misses :
    ¬ Drawn (after [.assign [65], .assign []]) ∧
      ((after [.assign [65, 66, 67, 68]]).displayedRow = 1 ∧
        (after [.assign [65, 66, 67, 68], .onKeybd true 0x52 false]).displayedRow = 1) ∧
      ((after [.assign [65, 66, 10, 67, 68, 69], .onKeybd true 0x52 false, .onKeybd true 0x52 false,
          .onKeybd true 0x4F false]).displayedRow = 0 ∧
        (after [.assign [65, 66, 10, 67, 68, 69], .onKeybd true 0x52 false, .onKeybd true 0x52 false,
          .onKeybd true 0x4F false, .onKeybd true 0x51 false]).displayedRow = 2) := by
  refine ⟨?_, by decide +kernel, by decide +kernel⟩
  rintro ⟨p, hp, hfresh⟩
  have hdiffer : (after [.assign [65], .assign []]).sheet_buffer ≠
      (after [.assign [65], .assign []]).fresh.doshow.sheet_buffer := by
    decide +kernel
  exact hdiffer (hp.trans hfresh.symm)

end Unisym.Witch.TextBox
