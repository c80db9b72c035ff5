/-
# `TextBox` — the text box

A text box keeps its text twice: as one string (`text`) and as lines with a colour for each character
(`lines`).  It shows a line as one row of cells, or, with `word_wrap`, cut into rows of `GetVisibleTextCols`
cells.  The rows that are shown are drawn into `line_caches` first, and from there into the pixels of the sheet.

Row and column numbers, which are never negative, are natural numbers; so the checks for negative ones have
no counterpart here.  A write past the end of the pixels, in a sheet too small for one cell beside its frame,
changes no pixel.
-/
import Mathlib.Algebra.Order.Ring.Nat

namespace Unisym.Witch

/-- `Color`, by its value -/
abbrev Color := UInt32

def Color.White : Color := 0xFFFFFFFF
def Color.Black : Color := 0xFF000000

/-- A font engine, of which only the size of a cell and `DrawChar` are used. -/
structure FontEngine where
  cell_x : Nat
  cell_y : Nat
  DrawChar : (pixel_buffer : List Color) → (pitch_pixels px_x px_y : Nat) → (unicode_char : UInt8) →
    (fg bg : Color) → List Color
  cell_x_pos : 0 < cell_x
  cell_y_pos : 0 < cell_y

structure RichLine where
  text : List UInt8 := []
  colors : List Color := []
  deriving DecidableEq

structure CachedPhysicalLine where
  pixels : List Color := []
  pixel_count : Nat := 0
  logical_row : Option Nat := none
  segment_row : Nat := 0
  scroll_x_value : Nat := 0
  visible_cols : Nat := 0
  wrap_mode : Bool := false
  valid : Bool := false
  deriving DecidableEq, Inhabited

structure TextBox where
  text : List UInt8
  lines : List RichLine
  line_caches : List CachedPhysicalLine
  cursor_row : Nat
  cursor_col : Nat
  scroll_y : Nat
  scroll_x : Nat
  word_wrap : Bool
  current_input_color : Color
  cursor_visible : Bool
  width : Nat
  height : Nat
  sheet_buffer : Option (List Color)
  font_engine : FontEngine

namespace TextBox

/-- A new text box. -/
def create (width height : Nat) (word_wrap : Bool) (current_input_color : Color)
    (font_engine : FontEngine) : TextBox :=
  { text := [], lines := [], line_caches := [], cursor_row := 0, cursor_col := 0
    scroll_y := 0, scroll_x := 0, word_wrap, current_input_color, cursor_visible := false
    width, height, sheet_buffer := none, font_engine }

/-! ## `DrawMetrics` -/

def origin_x : Nat := 4
def origin_y : Nat := 4

def char_width (s : TextBox) : Nat := s.font_engine.cell_x
def line_height (s : TextBox) : Nat := s.font_engine.cell_y
def margin_right (s : TextBox) : Nat := origin_x + s.char_width
def margin_bottom (s : TextBox) : Nat := s.line_height

def GetVisibleTextCols (s : TextBox) : Nat := max 1 ((s.width - s.margin_right) / s.char_width)

def GetVisibleTextRows (s : TextBox) : Nat := max 1 ((s.height - origin_y) / s.line_height)

/-! ## The lines -/

def InvalidateAllLineCaches (s : TextBox) : TextBox :=
  { s with
    line_caches := s.line_caches.map fun cache => { cache with valid := false, logical_row := none } }

def EnsureLineModel (s : TextBox) : TextBox := if s.lines = [] then { s with lines := [{}] } else s

def NormalizeLineColors (current_input_color : Color) (line : RichLine) : RichLine :=
  let len := line.text.length
  { line with
    colors := line.colors.take len ++ List.replicate (len - line.colors.length) current_input_color }

def NormalizeAllLineColors (s : TextBox) : TextBox :=
  { s with lines := s.lines.map (NormalizeLineColors s.current_input_color) }

def GetLineLength (s : TextBox) (row : Nat) : Nat := (s.lines.getD row {}).text.length

def ClampCursor (s : TextBox) : TextBox :=
  let s := s.EnsureLineModel
  let s := { s with cursor_row := min s.cursor_row (s.lines.length - 1) }
  { s with cursor_col := min s.cursor_col (s.GetLineLength s.cursor_row) }

/-! ## Rows -/

def GetWrappedSegmentCount (s : TextBox) (row : Nat) : Nat :=
  let len := s.GetLineLength row
  if !s.word_wrap then 1
  else if len = 0 then 1
  else (len + s.GetVisibleTextCols - 1) / s.GetVisibleTextCols

/-- The rows of the lines before a line. -/
def rowsBefore (s : TextBox) (row : Nat) : Nat :=
  ((List.range row).map s.GetWrappedSegmentCount).sum

def GetTotalPhysicalRows (s : TextBox) : Nat :=
  if !s.word_wrap then s.lines.length
  else
    let total := s.rowsBefore s.lines.length
    if total = 0 then 1 else total

/-- The loop that both `GetPhysicalRowInfo` and `SetCursorFromPhysicalPosition` have; at most `n` lines
are left. -/
def findRow (s : TextBox) : (n row remain : Nat) → Nat × Nat
  | 0, row, remain => (row, remain)
  | n + 1, row, remain =>
      let segs := s.GetWrappedSegmentCount row
      if remain < segs then (row, remain) else s.findRow n (row + 1) (remain - segs)

/-- The line of a row and its segment in the line, with `word_wrap`; the last row where there are not so
many. -/
def wrappedRowInfo (s : TextBox) (phys_row : Nat) : Nat × Nat :=
  let (row, remain) := s.findRow s.lines.length 0 phys_row
  if s.lines.length ≤ row then
    (s.lines.length - 1, s.GetWrappedSegmentCount (s.lines.length - 1) - 1)
  else (row, remain)

def GetPhysicalRowInfo (s : TextBox) (phys_row : Nat) : Nat × Nat :=
  if !s.word_wrap then (min phys_row (s.lines.length - 1), 0) else s.wrappedRowInfo phys_row

def GetSegmentBeginCol (s : TextBox) (segment_row : Nat) : Nat :=
  if !s.word_wrap then 0 else segment_row * s.GetVisibleTextCols

def GetSegmentEndCol (s : TextBox) (logical_row segment_row : Nat) : Nat :=
  let line_len := s.GetLineLength logical_row
  if !s.word_wrap then line_len
  else min line_len (s.GetSegmentBeginCol segment_row + s.GetVisibleTextCols)

/-- The row and the column of the cursor, which the callers have clamped. -/
def GetCursorPhysicalPosition (s : TextBox) : Nat × Nat :=
  if !s.word_wrap then (s.cursor_row, s.cursor_col)
  else
    let cols := s.GetVisibleTextCols
    let phys_row := s.rowsBefore s.cursor_row
    let len := s.GetLineLength s.cursor_row
    if len ≤ s.cursor_col ∧ 0 < len ∧ s.cursor_col % cols = 0 then
      (phys_row + s.cursor_col / cols - 1, cols)
    else (phys_row + s.cursor_col / cols, s.cursor_col % cols)

def SetCursorFromPhysicalPosition (s : TextBox) (phys_row phys_col : Nat) : TextBox :=
  let s := s.EnsureLineModel
  if !s.word_wrap then { s with cursor_row := phys_row, cursor_col := phys_col }.ClampCursor
  else
    let (row, remain) := s.wrappedRowInfo phys_row
    let target_col := min (remain * s.GetVisibleTextCols + phys_col) (s.GetLineLength row)
    { s with cursor_row := row, cursor_col := target_col }.ClampCursor

/-! ## Scrolling -/

def ClampScroll (s : TextBox) : TextBox :=
  let s := s.EnsureLineModel
  { s with scroll_y := min s.scroll_y (s.GetTotalPhysicalRows - 1) }

/-- The scroll value that shows a position. -/
def scrollTo (scroll visible position : Nat) : Nat :=
  if position < scroll then position
  else if scroll + visible ≤ position then position - visible + 1
  else scroll

/-- The middle of `EnsureCursorVisible`. -/
def scrollToCursor (s : TextBox) : TextBox :=
  if s.word_wrap then
    { s with
      scroll_y := scrollTo s.scroll_y s.GetVisibleTextRows s.GetCursorPhysicalPosition.1
      scroll_x := 0 }
  else
    { s with
      scroll_y := scrollTo s.scroll_y s.GetVisibleTextRows s.cursor_row
      scroll_x := scrollTo s.scroll_x s.GetVisibleTextCols s.cursor_col }

def EnsureCursorVisible (s : TextBox) : TextBox := s.ClampCursor.ClampScroll.scrollToCursor.ClampScroll

def SetCursorToDocumentEnd (s : TextBox) : TextBox :=
  let s := s.EnsureLineModel
  let s := { s with cursor_row := s.lines.length - 1 }
  { s with cursor_col := s.GetLineLength s.cursor_row }.EnsureCursorVisible

/-! ## The text and the lines -/

/-- The loop of `ImportTextToLines`: the rest of the text, the character that would make a pair with a line
break just read, and `crt_line`. -/
def importLines (current_input_color : Color) : List UInt8 → Option UInt8 → RichLine → List RichLine
  | [], _, crt_line => [crt_line]
  | ch :: pstr, pair, crt_line =>
      if pair = some ch then importLines current_input_color pstr none crt_line
      else if ch = 13 then
        crt_line :: importLines current_input_color pstr (some 10) { crt_line with text := [] }
      else if ch = 10 then
        crt_line :: importLines current_input_color pstr (some 13) { crt_line with text := [] }
      else
        importLines current_input_color pstr none
          { text := crt_line.text ++ [ch], colors := crt_line.colors ++ [current_input_color] }

def ImportTextToLines (s : TextBox) : TextBox :=
  if s.text = [] then { s with lines := [{}] }
  else
    let s := { s with lines := importLines s.current_input_color s.text none {} }
    s.EnsureLineModel.NormalizeAllLineColors.InvalidateAllLineCaches.SetCursorToDocumentEnd

/-- `merged`, the lines with a line break between two of them -/
def merged (s : TextBox) : List UInt8 := [10].intercalate (s.lines.map RichLine.text)

def ExportLinesToText (s : TextBox) : TextBox := { s with text := s.merged }

def SyncLinesFromText (s : TextBox) : TextBox :=
  let s := if s.lines = [] ∨ s.merged ≠ s.text then s.ImportTextToLines else s
  s.EnsureLineModel.NormalizeAllLineColors.ClampCursor

/-! ## Editing -/

/-- `MakeInsertedString`, `MakeInsertedColors` -/
def MakeInserted {α : Type} (src : List α) (idx : Nat) (x : α) : List α :=
  src.take idx ++ x :: src.drop idx

/-- `MakeRemovedString`, `MakeRemovedColors` -/
def MakeRemoved {α : Type} (src : List α) (idx : Nat) : List α := src.take idx ++ src.drop (idx + 1)

/-- `MakeSliceString`, `MakeSliceColors` -/
def MakeSlice {α : Type} (src : List α) (begin endo : Nat) : List α := (src.take endo).drop begin

def InsertLineAt (s : TextBox) (idx : Nat) (line : RichLine) : TextBox :=
  { s with lines := s.lines.take idx ++ line :: s.lines.drop idx }

def SplitLineAtCursor (s : TextBox) : TextBox :=
  let s := s.EnsureLineModel.ClampCursor
  let line := s.lines.getD s.cursor_row {}
  let old_len := line.text.length
  let left : RichLine :=
    { text := MakeSlice line.text 0 s.cursor_col, colors := MakeSlice line.colors 0 s.cursor_col }
  let new_line : RichLine :=
    { text := MakeSlice line.text s.cursor_col old_len
      colors := MakeSlice line.colors s.cursor_col old_len }
  let s :=
    { s with lines := s.lines.set s.cursor_row (NormalizeLineColors s.current_input_color left) }
  let s := s.InsertLineAt (s.cursor_row + 1) (NormalizeLineColors s.current_input_color new_line)
  let s := { s with cursor_row := s.cursor_row + 1, cursor_col := 0 }
  s.InvalidateAllLineCaches.ExportLinesToText.EnsureCursorVisible

def InsertCharAtCursor (s : TextBox) (ch : UInt8) : TextBox :=
  let s := s.EnsureLineModel.ClampCursor
  if ch = 10 then s.SplitLineAtCursor
  else
    let line := s.lines.getD s.cursor_row {}
    let line : RichLine :=
      { text := MakeInserted line.text s.cursor_col ch
        colors := MakeInserted line.colors s.cursor_col s.current_input_color }
    let s :=
      { s with
        cursor_col := s.cursor_col + 1
        lines := s.lines.set s.cursor_row (NormalizeLineColors s.current_input_color line) }
    s.InvalidateAllLineCaches.ExportLinesToText.EnsureCursorVisible

/-- `BackspaceAtCursor`, with whether there was a character to delete -/
def BackspaceAtCursor (s : TextBox) : Bool × TextBox :=
  let s := s.EnsureLineModel.ClampCursor
  let line := s.lines.getD s.cursor_row {}
  if 0 < s.cursor_col then
    let line : RichLine :=
      { text := MakeRemoved line.text (s.cursor_col - 1)
        colors := MakeRemoved line.colors (s.cursor_col - 1) }
    let s :=
      { s with
        cursor_col := s.cursor_col - 1
        lines := s.lines.set s.cursor_row (NormalizeLineColors s.current_input_color line) }
    (true, s.InvalidateAllLineCaches.ExportLinesToText.EnsureCursorVisible)
  else if 0 < s.cursor_row then
    let prev_len := s.GetLineLength (s.cursor_row - 1)
    let prev := s.lines.getD (s.cursor_row - 1) {}
    let prev : RichLine :=
      { text := prev.text ++ line.text, colors := prev.colors ++ line.colors }
    let s :=
      { s with
        lines := (s.lines.set (s.cursor_row - 1)
          (NormalizeLineColors s.current_input_color prev)).eraseIdx s.cursor_row
        cursor_row := s.cursor_row - 1
        cursor_col := prev_len }
    (true, s.InvalidateAllLineCaches.ExportLinesToText.EnsureCursorVisible)
  else (false, s)

/-! ## Moving the cursor -/

def MoveCursorLeft (s : TextBox) : TextBox :=
  let s := s.EnsureLineModel.ClampCursor
  let s :=
    if 0 < s.cursor_col then { s with cursor_col := s.cursor_col - 1 }
    else if 0 < s.cursor_row then
      { s with cursor_row := s.cursor_row - 1, cursor_col := s.GetLineLength (s.cursor_row - 1) }
    else s
  s.EnsureCursorVisible

def MoveCursorRight (s : TextBox) : TextBox :=
  let s := s.EnsureLineModel.ClampCursor
  let s :=
    if s.cursor_col < s.GetLineLength s.cursor_row then { s with cursor_col := s.cursor_col + 1 }
    else if s.cursor_row + 1 < s.lines.length then
      { s with cursor_row := s.cursor_row + 1, cursor_col := 0 }
    else s
  s.EnsureCursorVisible

def MoveCursorUp (s : TextBox) : TextBox :=
  let s := s.EnsureLineModel.ClampCursor
  let s :=
    if s.word_wrap then
      let (phys_row, phys_col) := s.GetCursorPhysicalPosition
      if 0 < phys_row then s.SetCursorFromPhysicalPosition (phys_row - 1) phys_col else s
    else if 0 < s.cursor_row then { s with cursor_row := s.cursor_row - 1 }.ClampCursor
    else s
  s.EnsureCursorVisible

def MoveCursorDown (s : TextBox) : TextBox :=
  let s := s.EnsureLineModel.ClampCursor
  let s :=
    if s.word_wrap then
      let (phys_row, phys_col) := s.GetCursorPhysicalPosition
      s.SetCursorFromPhysicalPosition (phys_row + 1) phys_col
    else if s.cursor_row + 1 < s.lines.length then
      { s with cursor_row := s.cursor_row + 1 }.ClampCursor
    else s
  s.EnsureCursorVisible

/-- A coordinate in cells. -/
def cellOf (position : Int) (origin size : Nat) : Nat :=
  if position < origin then 0 else (position - origin).toNat / size

def PlaceCursorFromPoint (s : TextBox) (x y : Int) : TextBox :=
  let s := s.EnsureLineModel
  let raw_row := cellOf y origin_y s.line_height
  let raw_col := cellOf x origin_x s.char_width
  let s :=
    if s.word_wrap then
      let (logical_row, segment_row) := s.GetPhysicalRowInfo (raw_row + s.scroll_y)
      let segment_begin := s.GetSegmentBeginCol segment_row
      let segment_end := s.GetSegmentEndCol logical_row segment_row
      { s with
        cursor_row := logical_row
        cursor_col := min (segment_begin + raw_col) segment_end }.ClampCursor
    else
      let s := { s with cursor_row := min (raw_row + s.scroll_y) (s.lines.length - 1) }
      { s with cursor_col := min (raw_col + s.scroll_x) (s.GetLineLength s.cursor_row) }
  s.EnsureCursorVisible

/-! ## Drawing -/

def DrawRectangle (size_x size_y : Nat) (p : List Color) (x y width height : Nat) (color : Color) :
    List Color :=
  if size_y < y ∨ size_x < x then p
  else
    ((List.range (min height (size_y - y))).flatMap fun dy =>
      (List.range (min width (size_x - x))).map fun dx => size_x * (y + dy) + x + dx).foldl
      (fun p i => p.set i color) p

/-- The difference of two `stduint`. -/
def unsignedSub (a b : Nat) : Nat := if b ≤ a then a - b else 2 ^ 64 + a - b

def DrawFrame (s : TextBox) (p : List Color) : List Color :=
  let rectangle := DrawRectangle s.width s.height
  let p := rectangle p 0 0 s.width s.height Color.White
  let p := rectangle p 0 0 3 s.height 0xFF7F7F7F
  let p := rectangle p 3 0 (unsignedSub s.width 6) 3 0xFF7F7F7F
  let p := rectangle p (unsignedSub s.width 3) 0 3 s.height 0xFFDDDFE1
  rectangle p 3 (unsignedSub s.height 3) (unsignedSub s.width 6) 3 0xFFDDDFE1

def CanDrawNextLine (s : TextBox) (draw_y : Nat) : Bool := draw_y + s.margin_bottom ≤ s.height

/-- The pixels of a line in the cache. -/
def pixels_per_line (s : TextBox) : Nat :=
  let pixels := s.GetVisibleTextCols * s.char_width * s.line_height
  if pixels = 0 then 1 else pixels

def EnsureLineCacheSlots (s : TextBox) (count : Nat) : List CachedPhysicalLine :=
  let line_caches := if s.line_caches.length ≠ count then List.replicate count {} else s.line_caches
  line_caches.map fun cache =>
    if cache.pixel_count ≠ s.pixels_per_line then
      { cache with
        pixels := List.replicate s.pixels_per_line 0
        pixel_count := s.pixels_per_line
        valid := false
        logical_row := none }
    else cache

/-- The pixels that `RenderCachedLine` draws, of which there are `pixel_count`. -/
def renderedPixels (s : TextBox) (pixel_count logical_row segment_row scroll_x : Nat) : List Color :=
  let pitch_pixels := s.GetVisibleTextCols * s.char_width
  let line := s.lines.getD logical_row {}
  let start_col := if s.word_wrap then segment_row * s.GetVisibleTextCols else scroll_x
  let end_col := min (s.GetLineLength logical_row) (start_col + s.GetVisibleTextCols)
  (List.range (end_col - start_col)).foldl
    (fun pixels i =>
      let ch := line.text.getD (start_col + i) 0
      if 32 ≤ ch ∧ ch ≤ 126 then
        let col := line.colors.getD (start_col + i) Color.Black
        s.font_engine.DrawChar pixels pitch_pixels (i * s.char_width) 0 ch col Color.White
      else pixels)
    (List.replicate pixel_count Color.White)

def RenderCachedLine (s : TextBox) (cache : CachedPhysicalLine) (logical_row segment_row : Nat) :
    CachedPhysicalLine :=
  { pixels := s.renderedPixels cache.pixel_count logical_row segment_row s.scroll_x
    pixel_count := cache.pixel_count
    logical_row := some logical_row
    segment_row := segment_row
    scroll_x_value := s.scroll_x
    visible_cols := s.GetVisibleTextCols
    wrap_mode := s.word_wrap
    valid := true }

def BlitPixelLine (dst_pixels : List Color)
    (dst_pitch_pixels dst_x_pixels dst_y_pixels : Nat) (src_pixels : List Color)
    (src_pitch_pixels copy_width_pixels copy_height_pixels : Nat) : List Color :=
  ((List.range copy_height_pixels).flatMap fun sy =>
    (List.range copy_width_pixels).map fun sx => (sy, sx)).foldl
    (fun dst (sy, sx) =>
      dst.set ((dst_y_pixels + sy) * dst_pitch_pixels + dst_x_pixels + sx)
        (src_pixels.getD (sy * src_pitch_pixels + sx) 0))
    dst_pixels

def BlitCachedLine (s : TextBox) (p : List Color) (cache : CachedPhysicalLine) (draw_y : Nat) :
    List Color :=
  let pitch_pixels := s.GetVisibleTextCols * s.char_width
  BlitPixelLine p s.width origin_x draw_y cache.pixels pitch_pixels pitch_pixels s.line_height

/-- What `DrawVisibleText` has drawn so far, and where it is. -/
structure Drawing where
  line_caches : List CachedPhysicalLine
  sheet_buffer : List Color
  cursor_draw_x : Nat
  cursor_draw_y : Nat
  cursor_draw_known : Bool
  cur_draw_x : Nat
  cur_draw_y : Nat

/-- The cursor is found there, unless it was found before. -/
def Drawing.cursorAt (d : Drawing) (here : Bool) (x y : Nat) : Drawing :=
  if !d.cursor_draw_known && here then
    { d with cursor_draw_x := x, cursor_draw_y := y, cursor_draw_known := true }
  else d

/-- The cache holds the row that is to be drawn. -/
def cacheMatches (s : TextBox) (cache : CachedPhysicalLine) (line_idx seg : Nat) : Bool :=
  cache.valid && cache.logical_row = some line_idx && cache.segment_row = seg &&
    (s.word_wrap || cache.scroll_x_value = s.scroll_x) &&
    cache.visible_cols = s.GetVisibleTextCols && cache.wrap_mode = s.word_wrap

/-- Draw one row, from its cache if that holds it. -/
def drawCached (s : TextBox) (d : Drawing) (cache_idx line_idx seg : Nat) : Drawing :=
  let cache := d.line_caches.getD cache_idx {}
  let cache := if s.cacheMatches cache line_idx seg then cache else s.RenderCachedLine cache line_idx seg
  { d with
    line_caches := d.line_caches.set cache_idx cache
    sheet_buffer := s.BlitCachedLine d.sheet_buffer cache d.cur_draw_y }

/-- One line, without `word_wrap`. -/
def drawLine (s : TextBox) (d : Drawing) (cache_idx line_idx : Nat) : Drawing :=
  let cursor_row_here := line_idx = s.cursor_row
  let d := d.cursorAt (cursor_row_here && s.cursor_col = 0) d.cur_draw_x d.cur_draw_y
  let d := s.drawCached d cache_idx line_idx 0
  let char_idx := s.GetLineLength line_idx
  let draw_count := min s.GetVisibleTextCols (char_idx - s.scroll_x)
  let d := d.cursorAt
    (cursor_row_here && s.scroll_x ≤ s.cursor_col && s.cursor_col ≤ s.scroll_x + draw_count)
    (d.cur_draw_x + (s.cursor_col - s.scroll_x) * s.char_width) d.cur_draw_y
  d.cursorAt (cursor_row_here && char_idx = s.cursor_col)
    (origin_x + (s.cursor_col - s.scroll_x) * s.char_width) d.cur_draw_y

/-- The loop over `n` lines, without `word_wrap`. -/
def drawLines (s : TextBox) : (n cache_idx line_idx : Nat) → Drawing → Drawing
  | 0, _, _, d => d
  | n + 1, cache_idx, line_idx, d =>
      let d := s.drawLine d cache_idx line_idx
      if 0 < n then
        let d := { d with cur_draw_x := origin_x, cur_draw_y := d.cur_draw_y + s.line_height }
        if !s.CanDrawNextLine d.cur_draw_y then d else s.drawLines n (cache_idx + 1) (line_idx + 1) d
      else d

/-- One segment of a line, with `word_wrap`. -/
def drawSegment (s : TextBox) (d : Drawing) (phys_row line_idx seg : Nat) : Drawing :=
  let cache_idx := phys_row - s.scroll_y
  let line_len := s.GetLineLength line_idx
  let cursor_row_here := line_idx = s.cursor_row
  let d :=
    { d with
      cur_draw_x := origin_x
      cur_draw_y := origin_y + (phys_row - s.scroll_y) * s.line_height }
  let d := d.cursorAt (cursor_row_here && s.cursor_col = 0 && seg = 0) d.cur_draw_x d.cur_draw_y
  let start_col := seg * s.GetVisibleTextCols
  let end_col := min line_len (start_col + s.GetVisibleTextCols)
  let d := s.drawCached d cache_idx line_idx seg
  let d := d.cursorAt (cursor_row_here && start_col ≤ s.cursor_col && s.cursor_col ≤ end_col)
    (d.cur_draw_x + (s.cursor_col - start_col) * s.char_width) d.cur_draw_y
  let d := { d with cur_draw_x := d.cur_draw_x + (end_col - start_col) * s.char_width }
  d.cursorAt
    (cursor_row_here && (s.cursor_col = end_col ||
      (seg + 1 = s.GetWrappedSegmentCount line_idx && s.cursor_col = line_len)))
    d.cur_draw_x d.cur_draw_y

/-- The loops over the segments of all lines, with `word_wrap`. -/
def drawSegments (s : TextBox) : List (Nat × Nat) → (phys_row : Nat) → Drawing → Drawing
  | [], _, d => d
  | (line_idx, seg) :: rest, phys_row, d =>
      if phys_row < s.scroll_y then s.drawSegments rest (phys_row + 1) d
      else if s.GetVisibleTextRows ≤ phys_row - s.scroll_y then d
      else s.drawSegments rest (phys_row + 1) (s.drawSegment d phys_row line_idx seg)

/-- The lines with their segments. -/
def segments (s : TextBox) : List (Nat × Nat) :=
  (List.range s.lines.length).flatMap fun line_idx =>
    (List.range (s.GetWrappedSegmentCount line_idx)).map fun seg => (line_idx, seg)

def DrawVisibleText (s : TextBox) (p : List Color) : Drawing :=
  let d : Drawing :=
    { line_caches := s.EnsureLineCacheSlots s.GetVisibleTextRows
      sheet_buffer := p
      cursor_draw_x := origin_x
      cursor_draw_y := origin_y
      cursor_draw_known := false
      cur_draw_x := origin_x
      cur_draw_y := origin_y }
  let d :=
    if !s.word_wrap then
      let line_endo := min s.lines.length (s.scroll_y + s.GetVisibleTextRows)
      s.drawLines (line_endo - s.scroll_y) 0 s.scroll_y d
    else s.drawSegments s.segments 0 d
  d.cursorAt true d.cur_draw_x d.cur_draw_y

def DrawCursor (s : TextBox) (p : List Color) (cursor_draw_x cursor_draw_y : Nat) : List Color :=
  let cursor_draw_x := max cursor_draw_x 4
  if s.cursor_visible ∧ cursor_draw_y + 16 ≤ s.height then
    DrawRectangle s.width s.height p cursor_draw_x cursor_draw_y 2 16 Color.Black
  else p

def doshow (s : TextBox) : TextBox :=
  let p := s.sheet_buffer.getD (List.replicate (s.width * s.height) 0)
  let s := s.SyncLinesFromText.EnsureCursorVisible
  let d := s.DrawVisibleText (s.DrawFrame p)
  { s with
    line_caches := d.line_caches
    sheet_buffer := some (s.DrawCursor d.sheet_buffer d.cursor_draw_x d.cursor_draw_y) }

/-! ## Events -/

/-- The characters of the keys, without and with a shift key. -/
structure KeyMaps where
  key_map : UInt8 → UInt8
  key_map_shift : UInt8 → UInt8

/-- What `onKeybd` does for a key. -/
inductive KeyAction
  | left
  | right
  | up
  | down
  | backspace
  | insert (ch : UInt8)
  | nothing

def keyAction (keys : KeyMaps) (keycode : UInt8) (shift : Bool) : KeyAction :=
  let ch := (if shift then keys.key_map_shift else keys.key_map) keycode
  if keycode = 0x50 then .left
  else if keycode = 0x4F then .right
  else if keycode = 0x52 then .up
  else if keycode = 0x51 then .down
  else if ch = 8 then .backspace
  else if (32 ≤ ch ∧ ch ≤ 126) ∨ ch = 10 ∨ ch = 13 then .insert (if ch = 13 then 10 else ch)
  else .nothing

/-- The rest of `onKeybd`. -/
def pressKey (s : TextBox) : KeyAction → TextBox
  | .left => s.MoveCursorLeft.doshow
  | .right => s.MoveCursorRight.doshow
  | .up => s.MoveCursorUp.doshow
  | .down => s.MoveCursorDown.doshow
  | .backspace =>
      let (deleted, s) := s.BackspaceAtCursor
      if deleted then s.doshow else s
  | .insert ch => (s.InsertCharAtCursor ch).doshow
  | .nothing => s

/-- An event, or an assignment to `text` followed by `doshow`. -/
inductive Event
  | onClick (x y : Int) (left_down : Bool)
  | onEnter
  | onLeave (type : Int)
  | onTimer
  | onKeybd (pressed : Bool) (keycode : UInt8) (shift : Bool)
  | assign (text : List UInt8)

def onrupt (keys : KeyMaps) (s : TextBox) : Event → TextBox
  | .onClick x y left_down =>
      if left_down then
        { s.SyncLinesFromText.PlaceCursorFromPoint x y with cursor_visible := true }.doshow
      else s
  | .onEnter => { s with cursor_visible := true }.doshow
  | .onLeave type => if type = 1 then { s with cursor_visible := false }.doshow else s
  | .onTimer => { s with cursor_visible := !s.cursor_visible }.doshow
  | .onKeybd pressed keycode shift =>
      let s := s.SyncLinesFromText
      if pressed then s.pressKey (keyAction keys keycode shift) else s
  | .assign text => { s with text }.doshow

end TextBox

end Unisym.Witch
