/-
# `TextBoxSpec` — the lines, the cursor and the rows of a text box

`Lined` says that the lines spell the text and that each has its colours, `InDocument` that the cursor is
at a place of the document and `Visible` that its row is one of those that are shown.  `SyncLinesFromText` and
`EnsureCursorVisible` establish them, and change nothing where they hold.
-/
import Unisym.Library.Document
import Unisym.Library.WrappedRows
import Unisym.Witch.TextBox

namespace Unisym.Witch.TextBox

open List

/-- The lines spell the text, and each character of a line has its colour. -/
structure Lined (s : TextBox) : Prop where
  spell : s.lines.map RichLine.text = s.text.splitOn 10
  colors : ∀ line ∈ s.lines, line.colors.length = line.text.length

/-- The cursor is at a place of the document. -/
structure InDocument (s : TextBox) : Prop where
  row : s.cursor_row < s.lines.length
  col : s.cursor_col ≤ s.GetLineLength s.cursor_row

/-- The row in which the cursor is shown. -/
def displayedRow (s : TextBox) : Nat := s.GetCursorPhysicalPosition.1

/-- The cursor is in a row that is shown. -/
structure Visible (s : TextBox) : Prop where
  row_ge : s.scroll_y ≤ s.displayedRow
  row_lt : s.displayedRow < s.scroll_y + s.GetVisibleTextRows
  col_ge : s.scroll_x ≤ s.cursor_col
  col_lt : s.word_wrap = false → s.cursor_col < s.scroll_x + s.GetVisibleTextCols
  unscrolled : s.word_wrap = true → s.scroll_x = 0

variable {s : TextBox}

/-! ## The lines -/

theorem Lined.lines_ne (h : Lined s) : s.lines ≠ [] := by
  intro hnil
  have hspell := h.spell
  rw [hnil] at hspell
  exact splitOn_ne_nil _ _ hspell.symm

theorem Lined.merged_eq (h : Lined s) : s.merged = s.text := by
  rw [merged, h.spell]
  exact intercalate_splitOn 10

theorem Lined.no_break (h : Lined s) : ∀ line ∈ s.lines, 10 ∉ line.text := fun _ hline =>
  Document.not_mem_of_mem_splitOn 10 (h.spell ▸ mem_map_of_mem hline)

theorem Lined.export (hne : s.lines ≠ []) (hbreak : ∀ line ∈ s.lines, 10 ∉ line.text)
    (hcolors : ∀ line ∈ s.lines, line.colors.length = line.text.length)
    (htext : s.text = s.merged) : Lined s := by
  refine ⟨?_, hcolors⟩
  rw [htext, merged]
  refine (splitOn_intercalate _ ?_ ?_).symm
  · intro text htext
    obtain ⟨line, hline, rfl⟩ := mem_map.mp htext
    exact hbreak line hline
  · exact fun h => hne (map_eq_nil_iff.mp h)

theorem InDocument.lines_ne (h : InDocument s) : s.lines ≠ [] :=
  ne_nil_of_length_pos (Nat.zero_lt_of_lt h.row)

theorem EnsureLineModel_eq (h : s.lines ≠ []) : s.EnsureLineModel = s := if_neg h

theorem NormalizeLineColors_length (color : Color) (line : RichLine) :
    (NormalizeLineColors color line).colors.length = (NormalizeLineColors color line).text.length := by
  show (line.colors.take line.text.length ++ List.replicate _ color).length = line.text.length
  rw [length_append, length_take, length_replicate]
  omega

theorem NormalizeLineColors_eq (color : Color) {line : RichLine}
    (h : line.colors.length = line.text.length) : NormalizeLineColors color line = line := by
  rw [NormalizeLineColors, h, Nat.sub_self, ← h, take_length, replicate_zero, append_nil]

theorem NormalizeAllLineColors_eq (h : ∀ line ∈ s.lines, line.colors.length = line.text.length) :
    s.NormalizeAllLineColors = s := by
  rw [NormalizeAllLineColors,
    map_congr_left fun line hline => NormalizeLineColors_eq s.current_input_color (h line hline),
    map_id']

theorem map_text_normalize (color : Color) (lines : List RichLine) :
    (lines.map (NormalizeLineColors color)).map RichLine.text = lines.map RichLine.text := by
  rw [map_map]
  rfl

theorem mem_normalize {color : Color} {lines : List RichLine} {line : RichLine}
    (h : line ∈ lines.map (NormalizeLineColors color)) : line.colors.length = line.text.length := by
  obtain ⟨line, _, rfl⟩ := mem_map.mp h
  exact NormalizeLineColors_length color line

/-! ## The cursor -/

theorem ClampCursor_spec (h : s.lines ≠ []) :
    ∃ cursor_row cursor_col, s.ClampCursor = { s with cursor_row, cursor_col } ∧
      InDocument { s with cursor_row, cursor_col } := by
  refine ⟨_, _, by rw [ClampCursor, EnsureLineModel_eq h], ?_, Nat.min_le_right _ _⟩
  have hpos := length_pos_of_ne_nil h
  show min s.cursor_row (s.lines.length - 1) < s.lines.length
  omega

theorem ClampCursor_eq (h : InDocument s) : s.ClampCursor = s := by
  have hrow : min s.cursor_row (s.lines.length - 1) = s.cursor_row :=
    Nat.min_eq_left (Nat.le_sub_one_of_lt h.row)
  rw [ClampCursor, EnsureLineModel_eq h.lines_ne, hrow]
  exact congrArg (fun cursor_col => { s with cursor_col }) (Nat.min_eq_left h.col)

/-! ## Rows -/

theorem GetVisibleTextCols_pos (s : TextBox) : 0 < s.GetVisibleTextCols :=
  Nat.lt_of_lt_of_le Nat.one_pos (Nat.le_max_left _ _)

theorem GetVisibleTextRows_pos (s : TextBox) : 0 < s.GetVisibleTextRows :=
  Nat.lt_of_lt_of_le Nat.one_pos (Nat.le_max_left _ _)

theorem GetWrappedSegmentCount_eq (hwrap : s.word_wrap = true) (row : Nat) :
    s.GetWrappedSegmentCount row =
      WrappedRows.rowCount s.GetVisibleTextCols (s.GetLineLength row) := by
  rw [GetWrappedSegmentCount, hwrap]
  rfl

theorem GetCursorPhysicalPosition_eq (hwrap : s.word_wrap = true) :
    s.GetCursorPhysicalPosition =
      (s.rowsBefore s.cursor_row +
          WrappedRows.rowOf s.GetVisibleTextCols (s.GetLineLength s.cursor_row) s.cursor_col,
        WrappedRows.colOf s.GetVisibleTextCols (s.GetLineLength s.cursor_row) s.cursor_col) := by
  rw [GetCursorPhysicalPosition, hwrap, WrappedRows.rowOf, WrappedRows.colOf]
  by_cases hend : WrappedRows.AtFullEnd s.GetVisibleTextCols (s.GetLineLength s.cursor_row) s.cursor_col
  · have hpos : 0 < s.cursor_col / s.GetVisibleTextCols :=
      Nat.div_pos (Nat.le_of_dvd (Nat.lt_of_lt_of_le hend.2.1 hend.1) (Nat.dvd_of_mod_eq_zero hend.2.2))
        s.GetVisibleTextCols_pos
    rw [if_pos hend, if_pos hend, ← Nat.add_sub_assoc hpos]
    exact if_pos hend
  · rw [if_neg hend, if_neg hend]
    exact if_neg hend

theorem displayedRow_unwrapped (hwrap : s.word_wrap = false) : s.displayedRow = s.cursor_row := by
  rw [displayedRow, GetCursorPhysicalPosition, hwrap]
  rfl

theorem displayedRow_wrapped (hwrap : s.word_wrap = true) :
    s.displayedRow = s.rowsBefore s.cursor_row +
      WrappedRows.rowOf s.GetVisibleTextCols (s.GetLineLength s.cursor_row) s.cursor_col := by
  rw [displayedRow, GetCursorPhysicalPosition_eq hwrap]

theorem InDocument.rowOf_lt (h : InDocument s) (hwrap : s.word_wrap = true) :
    WrappedRows.rowOf s.GetVisibleTextCols (s.GetLineLength s.cursor_row) s.cursor_col <
      s.GetWrappedSegmentCount s.cursor_row := by
  rw [GetWrappedSegmentCount_eq hwrap]
  exact WrappedRows.rowOf_lt s.GetVisibleTextCols_pos h.col

theorem rowsBefore_pos (hwrap : s.word_wrap = true) (hne : s.lines ≠ []) : 0 < s.rowsBefore s.lines.length := by
  have hmono : s.rowsBefore 1 ≤ s.rowsBefore s.lines.length :=
    WrappedRows.before_mono (length_pos_of_ne_nil hne)
  refine Nat.lt_of_lt_of_le ?_ hmono
  rw [rowsBefore, ← WrappedRows.before, WrappedRows.before_succ, GetWrappedSegmentCount_eq hwrap]
  exact Nat.add_pos_right _ (WrappedRows.rowCount_pos s.GetVisibleTextCols_pos _)

theorem GetTotalPhysicalRows_wrapped (hwrap : s.word_wrap = true) (hne : s.lines ≠ []) :
    s.GetTotalPhysicalRows = s.rowsBefore s.lines.length := by
  rw [GetTotalPhysicalRows, hwrap]
  exact if_neg (Nat.ne_of_gt (rowsBefore_pos hwrap hne))

theorem GetTotalPhysicalRows_unwrapped (hwrap : s.word_wrap = false) :
    s.GetTotalPhysicalRows = s.lines.length := by
  rw [GetTotalPhysicalRows, hwrap]
  rfl

theorem InDocument.displayedRow_lt (h : InDocument s) : s.displayedRow < s.GetTotalPhysicalRows := by
  cases hwrap : s.word_wrap with
  | false =>
    rw [displayedRow_unwrapped hwrap, GetTotalPhysicalRows_unwrapped hwrap]
    exact h.row
  | true =>
    have hmono : s.rowsBefore (s.cursor_row + 1) ≤ s.rowsBefore s.lines.length :=
      WrappedRows.before_mono h.row
    have hsucc : s.rowsBefore (s.cursor_row + 1) =
        s.rowsBefore s.cursor_row + s.GetWrappedSegmentCount s.cursor_row := WrappedRows.before_succ _
    have hlt := h.rowOf_lt hwrap
    rw [displayedRow_wrapped hwrap, GetTotalPhysicalRows_wrapped hwrap h.lines_ne]
    omega

/-! ## `EnsureCursorVisible` -/

theorem scrollTo_spec (scroll position : Nat) {visible : Nat} (hvisible : 0 < visible) :
    scrollTo scroll visible position ≤ position ∧ position < scrollTo scroll visible position + visible := by
  rw [scrollTo]
  split
  · exact ⟨Nat.le_refl _, Nat.lt_add_of_pos_right hvisible⟩
  · split
    · omega
    · omega

theorem scrollTo_eq {scroll visible position : Nat} (hge : scroll ≤ position)
    (hlt : position < scroll + visible) : scrollTo scroll visible position = scroll := by
  rw [scrollTo, if_neg (Nat.not_lt.mpr hge), if_neg (Nat.not_le.mpr hlt)]

theorem ClampScroll_eq (hne : s.lines ≠ []) (hscroll : s.scroll_y < s.GetTotalPhysicalRows) :
    s.ClampScroll = s := by
  rw [ClampScroll, EnsureLineModel_eq hne]
  exact congrArg (fun scroll_y => { s with scroll_y }) (Nat.min_eq_left (Nat.le_sub_one_of_lt hscroll))

theorem scrollToCursor_spec (s : TextBox) :
    ∃ scroll_y scroll_x, s.scrollToCursor = { s with scroll_y, scroll_x } ∧
      Visible { s with scroll_y, scroll_x } := by
  obtain ⟨hle, hlt⟩ := scrollTo_spec s.scroll_y s.displayedRow s.GetVisibleTextRows_pos
  rcases Bool.eq_false_or_eq_true s.word_wrap with hwrap | hwrap
  · refine ⟨_, _, if_pos hwrap, ⟨hle, hlt, Nat.zero_le _, fun h => ?_, fun _ => rfl⟩⟩
    exact absurd (hwrap.symm.trans h) Bool.noConfusion
  · obtain ⟨hcol, hcol'⟩ := scrollTo_spec s.scroll_x s.cursor_col s.GetVisibleTextCols_pos
    have hrow : scrollTo s.scroll_y s.GetVisibleTextRows s.cursor_row =
        scrollTo s.scroll_y s.GetVisibleTextRows s.displayedRow := by
      rw [displayedRow_unwrapped hwrap]
    refine ⟨scrollTo s.scroll_y s.GetVisibleTextRows s.displayedRow,
      scrollTo s.scroll_x s.GetVisibleTextCols s.cursor_col, ?_,
      ⟨hle, hlt, hcol, fun _ => hcol', fun h => ?_⟩⟩
    · rw [scrollToCursor, if_neg (Bool.eq_false_iff.mp hwrap), hrow]
    · exact absurd (hwrap.symm.trans h) Bool.noConfusion

theorem scrollToCursor_eq (hvisible : Visible s) : s.scrollToCursor = s := by
  have hrow := scrollTo_eq hvisible.row_ge hvisible.row_lt
  rcases Bool.eq_false_or_eq_true s.word_wrap with hwrap | hwrap
  · rw [scrollToCursor, if_pos hwrap, ← displayedRow, hrow, ← hvisible.unscrolled hwrap]
  · rw [displayedRow_unwrapped hwrap] at hrow
    rw [scrollToCursor, if_neg (Bool.eq_false_iff.mp hwrap), hrow,
      scrollTo_eq hvisible.col_ge (hvisible.col_lt hwrap)]

/-- `EnsureCursorVisible` changes the scroll values only. -/
theorem EnsureCursorVisible_spec (h : InDocument s) :
    ∃ scroll_y scroll_x, s.EnsureCursorVisible = { s with scroll_y, scroll_x } ∧
      Visible { s with scroll_y, scroll_x } := by
  have hclamp : s.ClampScroll = { s with scroll_y := min s.scroll_y (s.GetTotalPhysicalRows - 1) } := by
    rw [ClampScroll, EnsureLineModel_eq h.lines_ne]
  obtain ⟨scroll_y, scroll_x, heq, hvisible⟩ :=
    scrollToCursor_spec { s with scroll_y := min s.scroll_y (s.GetTotalPhysicalRows - 1) }
  refine ⟨scroll_y, scroll_x, ?_, hvisible⟩
  rw [EnsureCursorVisible, ClampCursor_eq h, hclamp, heq]
  exact ClampScroll_eq (s := { s with scroll_y, scroll_x }) h.lines_ne
    (Nat.lt_of_le_of_lt hvisible.row_ge h.displayedRow_lt)

theorem EnsureCursorVisible_eq (h : InDocument s) (hvisible : Visible s) : s.EnsureCursorVisible = s := by
  have htotal := Nat.lt_of_le_of_lt hvisible.row_ge h.displayedRow_lt
  rw [EnsureCursorVisible, ClampCursor_eq h, ClampScroll_eq h.lines_ne htotal, scrollToCursor_eq hvisible,
    ClampScroll_eq h.lines_ne htotal]

/-! ## `ImportTextToLines` -/

theorem importLines_spell (color : Color) : ∀ (text : List UInt8) (pair : Option UInt8) (crt_line : RichLine),
    13 ∉ text → (pair = none ∨ pair = some 13) →
    (importLines color text pair crt_line).map RichLine.text =
      (text.splitOn 10).modifyHead (crt_line.text ++ ·)
  | [], _, crt_line, _, _ => by
    rw [importLines, splitOn_nil, map_singleton, modifyHead_cons, append_nil]
  | ch :: text, pair, crt_line, h, hpair => by
    have hch : ch ≠ 13 := fun heq => h (heq ▸ mem_cons_self)
    have hrest : 13 ∉ text := fun hmem => h (mem_cons_of_mem _ hmem)
    have hnot : pair ≠ some ch := by
      rcases hpair with rfl | rfl
      · exact Option.some_ne_none ch |>.symm
      · exact fun heq => hch (Option.some.inj heq).symm
    rw [importLines, if_neg hnot, if_neg hch, splitOn_cons_eq_if_modifyHead]
    by_cases hbreak : ch = 10
    · rw [if_pos hbreak, if_pos (beq_iff_eq.mpr hbreak), modifyHead_cons, append_nil, map_cons,
        importLines_spell color text _ _ hrest (.inr rfl)]
      exact congrArg (crt_line.text :: ·) (by cases text.splitOn 10 <;> rfl)
    · rw [if_neg hbreak, if_neg (fun heq => hbreak (beq_iff_eq.mp heq)),
        importLines_spell color text _ _ hrest (.inl rfl), modifyHead_modifyHead]
      exact congrArg (fun f => (text.splitOn 10).modifyHead f)
        (funext fun rest => append_assoc crt_line.text [ch] rest)

theorem importLines_ne_nil (color : Color) (text : List UInt8) (crt_line : RichLine) (h : 13 ∉ text) :
    importLines color text none crt_line ≠ [] := by
  intro hnil
  have hspell := importLines_spell color text none crt_line h (.inl rfl)
  rw [hnil] at hspell
  obtain ⟨first, rest, hrest⟩ := exists_cons_of_ne_nil (splitOn_ne_nil 10 text)
  rw [hrest, modifyHead_cons] at hspell
  exact cons_ne_nil _ _ hspell.symm

theorem ImportTextToLines_spec (hne : s.text ≠ []) (htext : 13 ∉ s.text) :
    ∃ lines line_caches cursor_row cursor_col scroll_y scroll_x,
      s.ImportTextToLines = { s with lines, line_caches, cursor_row, cursor_col, scroll_y, scroll_x } ∧
      lines.map RichLine.text = s.text.splitOn 10 ∧
      (∀ line ∈ lines, line.colors.length = line.text.length) ∧
      (∀ cache ∈ line_caches, cache.valid = false) := by
  have himport := importLines_ne_nil s.current_input_color s.text {} htext
  have hspell := importLines_spell s.current_input_color s.text none {} htext (.inl rfl)
  rw [ImportTextToLines, if_neg hne]
  dsimp only
  rw [EnsureLineModel_eq himport]
  dsimp only [NormalizeAllLineColors, InvalidateAllLineCaches, SetCursorToDocumentEnd]
  generalize importLines s.current_input_color s.text none {} = imported at himport hspell ⊢
  have hlines : imported.map (NormalizeLineColors s.current_input_color) ≠ [] :=
    fun h => himport (map_eq_nil_iff.mp h)
  rw [EnsureLineModel_eq hlines]
  dsimp only
  generalize hdone : (TextBox.mk _ _ _ _ _ _ _ _ _ _ _ _ _ _ : TextBox) = done
  have hdocument : InDocument done := by
    subst hdone
    exact ⟨Nat.sub_one_lt_of_lt (length_pos_of_ne_nil hlines), Nat.le_refl _⟩
  obtain ⟨scroll_y, scroll_x, heq, _⟩ := EnsureCursorVisible_spec hdocument
  refine ⟨done.lines, done.line_caches, done.cursor_row, done.cursor_col, scroll_y, scroll_x, ?_, ?_, ?_, ?_⟩
  · rw [heq]
    subst hdone
    rfl
  · subst hdone
    refine (map_text_normalize _ imported).trans (hspell.trans ?_)
    exact modifyHead_id.symm ▸ rfl
  · subst hdone
    exact fun line hline => mem_normalize hline
  · subst hdone
    intro cache hcache
    obtain ⟨old, _, rfl⟩ := mem_map.mp hcache
    rfl

/-! ## `SyncLinesFromText` -/

theorem SyncLinesFromText_eq (hlined : Lined s) (hdocument : InDocument s) : s.SyncLinesFromText = s := by
  have hagree : ¬ (s.lines = [] ∨ s.merged ≠ s.text) :=
    not_or.mpr ⟨hlined.lines_ne, not_not.mpr hlined.merged_eq⟩
  rw [SyncLinesFromText, if_neg hagree, EnsureLineModel_eq hlined.lines_ne, NormalizeAllLineColors_eq hlined.colors, ClampCursor_eq hdocument]

theorem Lined.settle (hlined : Lined s) :
    ∃ cursor_row cursor_col,
      s.EnsureLineModel.NormalizeAllLineColors.ClampCursor = { s with cursor_row, cursor_col } ∧
      InDocument { s with cursor_row, cursor_col } := by
  rw [EnsureLineModel_eq hlined.lines_ne, NormalizeAllLineColors_eq hlined.colors]
  exact ClampCursor_spec hlined.lines_ne

/-- The text may have been assigned.  The caches stay as they are only where the lines do so too, or the
text is empty. -/
theorem SyncLinesFromText_spec (hbreak : ∀ line ∈ s.lines, 10 ∉ line.text)
    (hcolors : ∀ line ∈ s.lines, line.colors.length = line.text.length) (htext : 13 ∉ s.text) :
    ∃ lines line_caches cursor_row cursor_col scroll_y scroll_x,
      s.SyncLinesFromText = { s with lines, line_caches, cursor_row, cursor_col, scroll_y, scroll_x } ∧
      Lined { s with lines } ∧ InDocument { s with lines, cursor_row, cursor_col } ∧
      ((s.text = s.merged ∧ lines = s.lines ∧ line_caches = s.line_caches) ∨
        (s.text = [] ∧ lines = [{}] ∧ line_caches = s.line_caches) ∨
        ∀ cache ∈ line_caches, cache.valid = false) := by
  by_cases hagree : s.lines = [] ∨ s.merged ≠ s.text
  · rw [SyncLinesFromText, if_pos hagree]
    by_cases hempty : s.text = []
    · have hlined : Lined { s with lines := [{}] } := by
        refine ⟨?_, fun line hline => ?_⟩
        · show [[]] = s.text.splitOn 10
          rw [hempty]
          rfl
        · rw [mem_singleton.mp hline]
          rfl
      obtain ⟨cursor_row, cursor_col, heq, hdocument⟩ := hlined.settle
      refine ⟨_, s.line_caches, cursor_row, cursor_col, s.scroll_y, s.scroll_x, ?_, hlined,
        ⟨hdocument.row, hdocument.col⟩, .inr (.inl ⟨hempty, rfl, rfl⟩)⟩
      rw [ImportTextToLines, if_pos hempty]
      exact heq
    · obtain ⟨lines, line_caches, row, col, scroll_y, scroll_x, himport, hspell, hcolors, hinvalid⟩ :=
        ImportTextToLines_spec hempty htext
      have hlined : Lined { s with
          lines, line_caches, cursor_row := row, cursor_col := col, scroll_y, scroll_x } := ⟨hspell, hcolors⟩
      obtain ⟨cursor_row, cursor_col, heq, hdocument⟩ := hlined.settle
      refine ⟨lines, line_caches, cursor_row, cursor_col, scroll_y, scroll_x, ?_, ⟨hspell, hcolors⟩,
        ⟨hdocument.row, hdocument.col⟩, .inr (.inr hinvalid)⟩
      rw [himport]
      exact heq
  · obtain ⟨hne, hmerged⟩ := not_or.mp hagree
    have hlined : Lined s := Lined.export hne hbreak hcolors (not_not.mp hmerged).symm
    obtain ⟨cursor_row, cursor_col, heq, hdocument⟩ := hlined.settle
    refine ⟨s.lines, s.line_caches, cursor_row, cursor_col, s.scroll_y, s.scroll_x, ?_, hlined, ⟨hdocument.row, hdocument.col⟩,
      .inl ⟨(not_not.mp hmerged).symm, rfl, rfl⟩⟩
    rw [SyncLinesFromText, if_neg hagree]
    exact heq

end Unisym.Witch.TextBox
