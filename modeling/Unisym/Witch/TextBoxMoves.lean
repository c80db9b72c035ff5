/-
# `TextBoxMoves` — the cursor keys and the mouse

`MovedTo` says that only the cursor has moved, to a place of the document (and that the text box may have
scrolled).  `MoveCursorUp` and `MoveCursorDown` go to the row before and to the row after that of the cursor.
With `word_wrap` they take a cursor at the end of a full row past the end of a full row that is not the last of
its line, and so to the start of the row below (`UpLands`, `DownLands`).
-/
import Unisym.Witch.TextBoxSpec

namespace Unisym.Witch.TextBox

/-- `s'` is `s` with the cursor at another place. -/
def MovedTo (s s' : TextBox) : Prop :=
  ∃ cursor_row cursor_col scroll_y scroll_x,
    s' = { s with cursor_row, cursor_col, scroll_y, scroll_x } ∧ InDocument s'

/-- The cursor is at the end of its line, and of a full row. -/
def AtFullEnd (s : TextBox) : Prop :=
  s.word_wrap = true ∧
    WrappedRows.AtFullEnd s.GetVisibleTextCols (s.GetLineLength s.cursor_row) s.cursor_col

/-- From there, the row before is the last of its line. -/
def UpLands (s : TextBox) : Prop :=
  AtFullEnd s → s.GetLineLength s.cursor_row < 2 * s.GetVisibleTextCols

/-- From there, the row after is the last of its line. -/
def DownLands (s : TextBox) : Prop :=
  AtFullEnd s → s.GetLineLength (s.cursor_row + 1) ≤ s.GetVisibleTextCols

instance (s : TextBox) : Decidable (AtFullEnd s) := inferInstanceAs (Decidable (_ ∧ _))
instance (s : TextBox) : Decidable (UpLands s) := inferInstanceAs (Decidable (_ → _))
instance (s : TextBox) : Decidable (DownLands s) := inferInstanceAs (Decidable (_ → _))

variable {s : TextBox}

theorem move_spec (cursor_row cursor_col : Nat) (h : InDocument { s with cursor_row, cursor_col }) :
    MovedTo s { s with cursor_row, cursor_col }.EnsureCursorVisible ∧
      { s with cursor_row, cursor_col }.EnsureCursorVisible.displayedRow =
        { s with cursor_row, cursor_col }.displayedRow := by
  obtain ⟨scroll_y, scroll_x, heq, _⟩ := EnsureCursorVisible_spec h
  rw [heq]
  exact ⟨⟨cursor_row, cursor_col, scroll_y, scroll_x, rfl, h.row, h.col⟩, rfl⟩

/-! ## Left and right -/

theorem MoveCursorLeft_spec (h : InDocument s) : MovedTo s s.MoveCursorLeft := by
  rw [MoveCursorLeft, EnsureLineModel_eq h.lines_ne, ClampCursor_eq h]
  split
  · exact (move_spec s.cursor_row (s.cursor_col - 1) ⟨h.row, Nat.le_trans (Nat.sub_le _ _) h.col⟩).1
  · split
    · exact (move_spec _ _ ⟨Nat.lt_of_le_of_lt (Nat.sub_le _ _) h.row, Nat.le_refl _⟩).1
    · exact (move_spec s.cursor_row s.cursor_col h).1

theorem MoveCursorRight_spec (h : InDocument s) : MovedTo s s.MoveCursorRight := by
  rw [MoveCursorRight, EnsureLineModel_eq h.lines_ne, ClampCursor_eq h]
  split
  · rename_i hcol
    exact (move_spec s.cursor_row (s.cursor_col + 1) ⟨h.row, hcol⟩).1
  · split
    · rename_i hrow
      exact (move_spec _ _ ⟨hrow, Nat.zero_le _⟩).1
    · exact (move_spec s.cursor_row s.cursor_col h).1

/-! ## Up and down -/

theorem findRow_eq (s : TextBox) :
    ∀ n row remain, s.findRow n row remain = WrappedRows.find s.GetWrappedSegmentCount n row remain
  | 0, _, _ => rfl
  | n + 1, row, remain => by
    rw [findRow, WrappedRows.find]
    split
    · rfl
    · exact findRow_eq s n (row + 1) _

theorem rowsBefore_zero (s : TextBox) : s.rowsBefore 0 = 0 := rfl

theorem rowsBefore_succ (s : TextBox) (row : Nat) :
    s.rowsBefore (row + 1) = s.rowsBefore row + s.GetWrappedSegmentCount row := WrappedRows.before_succ row

theorem rowsBefore_mono (s : TextBox) {row row' : Nat} (h : row ≤ row') : s.rowsBefore row ≤ s.rowsBefore row' :=
  WrappedRows.before_mono h

theorem wrappedRowInfo_spec {phys_row : Nat} (h : phys_row < s.rowsBefore s.lines.length) :
    ∃ row seg, s.wrappedRowInfo phys_row = (row, seg) ∧ row < s.lines.length ∧
      seg < s.GetWrappedSegmentCount row ∧ s.rowsBefore row + seg = phys_row := by
  obtain ⟨⟨row, seg⟩, heq, hrow, hseg, hsum⟩ :=
    WrappedRows.find_spec s.GetWrappedSegmentCount s.lines.length 0 phys_row
      (by rw [Nat.zero_add]; exact Nat.lt_of_le_of_lt (Nat.le_of_eq (Nat.zero_add _)) h)
  rw [Nat.zero_add] at hrow
  refine ⟨row, seg, ?_, hrow, hseg, hsum.trans (Nat.zero_add _)⟩
  rw [wrappedRowInfo, findRow_eq, heq]
  exact if_neg (Nat.not_le.mpr hrow)

theorem wrappedRowInfo_past {phys_row : Nat} (h : s.rowsBefore s.lines.length ≤ phys_row) :
    s.wrappedRowInfo phys_row =
      (s.lines.length - 1, s.GetWrappedSegmentCount (s.lines.length - 1) - 1) := by
  have hfind := WrappedRows.find_past s.GetWrappedSegmentCount s.lines.length 0 phys_row
    (by rw [Nat.zero_add]; exact Nat.le_trans h (Nat.le_of_eq (Nat.zero_add _).symm))
  rw [Nat.zero_add] at hfind
  rw [wrappedRowInfo, findRow_eq]
  exact if_pos (Nat.le_of_eq hfind.symm)

theorem wrappedRowInfo_lt (hne : s.lines ≠ []) (phys_row : Nat) :
    (s.wrappedRowInfo phys_row).1 < s.lines.length := by
  rcases Nat.lt_or_ge phys_row (s.rowsBefore s.lines.length) with h | h
  · obtain ⟨row, seg, heq, hrow, _, _⟩ := wrappedRowInfo_spec h
    rw [heq]
    exact hrow
  · rw [wrappedRowInfo_past h]
    exact Nat.sub_one_lt_of_lt (List.length_pos_of_ne_nil hne)

theorem SetCursorFromPhysicalPosition_spec (hne : s.lines ≠ []) (hwrap : s.word_wrap = true)
    (phys_row phys_col : Nat) :
    ∃ row seg cursor_col, s.wrappedRowInfo phys_row = (row, seg) ∧
      cursor_col = min (seg * s.GetVisibleTextCols + phys_col) (s.GetLineLength row) ∧
      s.SetCursorFromPhysicalPosition phys_row phys_col = { s with cursor_row := row, cursor_col } ∧
      InDocument { s with cursor_row := row, cursor_col } := by
  have hrow := wrappedRowInfo_lt hne phys_row
  have hdocument : InDocument { s with
      cursor_row := (s.wrappedRowInfo phys_row).1
      cursor_col := min ((s.wrappedRowInfo phys_row).2 * s.GetVisibleTextCols + phys_col)
        (s.GetLineLength (s.wrappedRowInfo phys_row).1) } := ⟨hrow, Nat.min_le_right _ _⟩
  refine ⟨_, _, _, rfl, rfl, ?_, hdocument⟩
  rw [SetCursorFromPhysicalPosition, EnsureLineModel_eq hne]
  refine (if_neg ?_).trans (ClampCursor_eq hdocument)
  rw [hwrap]
  exact Bool.false_ne_true

/-- A row of the document is reached, unless the place is past the end of a full row. -/
theorem displayedRow_reached (hwrap : s.word_wrap = true) {phys_row phys_col row seg : Nat}
    (hseg : seg < s.GetWrappedSegmentCount row) (hsum : s.rowsBefore row + seg = phys_row)
    (hcol : phys_col ≤ s.GetVisibleTextCols)
    (hfull : phys_col = s.GetVisibleTextCols →
      s.GetLineLength row ≤ seg * s.GetVisibleTextCols + s.GetVisibleTextCols) :
    { s with
      cursor_row := row
      cursor_col := min (seg * s.GetVisibleTextCols + phys_col) (s.GetLineLength row) }.displayedRow =
      phys_row := by
  rw [GetWrappedSegmentCount_eq hwrap] at hseg
  refine (displayedRow_wrapped (s := { s with
    cursor_row := row
    cursor_col := min (seg * s.GetVisibleTextCols + phys_col) (s.GetLineLength row) }) hwrap).trans ?_
  rw [← hsum]
  exact congrArg (s.rowsBefore row + ·) (WrappedRows.rowOf_min s.GetVisibleTextCols_pos hseg hcol hfull)

theorem segments_le (hwrap : s.word_wrap = true) (row : Nat) :
    s.GetLineLength row ≤ (s.GetWrappedSegmentCount row - 1) * s.GetVisibleTextCols + s.GetVisibleTextCols := by
  have hcols := s.GetVisibleTextCols_pos
  have hpos := WrappedRows.rowCount_pos hcols (s.GetLineLength row)
  have hnot : ¬ WrappedRows.rowCount s.GetVisibleTextCols (s.GetLineLength row) <
      WrappedRows.rowCount s.GetVisibleTextCols (s.GetLineLength row) := Nat.lt_irrefl _
  rw [WrappedRows.lt_rowCount_iff hcols] at hnot
  rw [GetWrappedSegmentCount_eq hwrap, ← Nat.succ_mul, Nat.succ_eq_add_one, Nat.sub_add_cancel hpos]
  exact Nat.le_of_not_lt fun h => hnot (.inr h)

theorem goToRow_spec (hne : s.lines ≠ []) (hwrap : s.word_wrap = true) (phys_row phys_col : Nat) :
    MovedTo s (s.SetCursorFromPhysicalPosition phys_row phys_col).EnsureCursorVisible ∧
      ∀ {row seg : Nat}, seg < s.GetWrappedSegmentCount row → s.rowsBefore row + seg = phys_row →
        row < s.lines.length → phys_col ≤ s.GetVisibleTextCols →
        (phys_col = s.GetVisibleTextCols →
          s.GetLineLength row ≤ seg * s.GetVisibleTextCols + s.GetVisibleTextCols) →
        (s.SetCursorFromPhysicalPosition phys_row phys_col).EnsureCursorVisible.displayedRow = phys_row := by
  obtain ⟨row, seg, cursor_col, hinfo, hcol, heq, hdocument⟩ :=
    SetCursorFromPhysicalPosition_spec hne hwrap phys_row phys_col
  obtain ⟨hmoved, hrow⟩ := move_spec row cursor_col hdocument
  rw [heq]
  refine ⟨hmoved, fun {row' seg'} hseg hsum hlt hle hfull => ?_⟩
  have hlast : phys_row < s.rowsBefore s.lines.length := by
    have hmono := s.rowsBefore_mono hlt
    rw [rowsBefore_succ] at hmono
    omega
  obtain ⟨found, place, hinfo', _, hplace, hsum'⟩ := wrappedRowInfo_spec hlast
  obtain ⟨rfl, rfl⟩ := Prod.mk.inj (hinfo.symm.trans hinfo')
  have hsame : row' = row := by
    rcases Nat.lt_trichotomy row' row with h | h | h
    · have hmono := s.rowsBefore_mono h
      rw [rowsBefore_succ] at hmono
      omega
    · exact h
    · have hmono := s.rowsBefore_mono h
      rw [rowsBefore_succ] at hmono
      omega
  subst hsame
  have hseg' : seg' = seg := Nat.add_left_cancel (hsum.trans hsum'.symm)
  subst hseg'
  rw [hrow, hcol]
  exact displayedRow_reached hwrap hseg hsum hle hfull

theorem colOf_full (hwrap : s.word_wrap = true)
    (h : WrappedRows.colOf s.GetVisibleTextCols (s.GetLineLength s.cursor_row) s.cursor_col =
      s.GetVisibleTextCols) : AtFullEnd s :=
  ⟨hwrap, WrappedRows.colOf_eq_cols s.GetVisibleTextCols_pos h⟩

theorem MoveCursorUp_wrapped (h : InDocument s) (hwrap : s.word_wrap = true) (hpos : 0 < s.displayedRow)
    (phys_col : Nat) (hcol : phys_col = WrappedRows.colOf s.GetVisibleTextCols (s.GetLineLength s.cursor_row) s.cursor_col)
    (hlands : UpLands s) :
    (s.SetCursorFromPhysicalPosition (s.displayedRow - 1) phys_col).EnsureCursorVisible.displayedRow =
      s.displayedRow - 1 := by
  have hcols := s.GetVisibleTextCols_pos
  have hle : phys_col ≤ s.GetVisibleTextCols := hcol ▸ WrappedRows.colOf_le hcols _ _
  have hrow := displayedRow_wrapped hwrap
  have hseg := h.rowOf_lt hwrap
  generalize hmine : WrappedRows.rowOf s.GetVisibleTextCols (s.GetLineLength s.cursor_row) s.cursor_col = mine at hrow hseg
  cases mine with
  | succ seg =>
    -- the segment before, in the same line
    refine (goToRow_spec h.lines_ne hwrap _ _).2 (Nat.lt_of_succ_lt hseg) (by omega) h.row hle fun hfull => ?_
    have hend := colOf_full hwrap (hcol.symm.trans hfull)
    have hlen := hend.2.len_eq hcols h.col
    have hshort := hlands hend
    rw [hmine, Nat.succ_mul, Nat.succ_mul] at hlen
    omega
  | zero =>
    -- the last segment of the line before
    have hprev : s.cursor_row ≠ 0 := by
      intro hzero
      rw [hzero, rowsBefore_zero] at hrow
      omega
    obtain ⟨row, hsucc⟩ := Nat.exists_eq_succ_of_ne_zero hprev
    have hrows : s.rowsBefore s.cursor_row = s.rowsBefore row + s.GetWrappedSegmentCount row := by
      rw [hsucc]
      exact s.rowsBefore_succ row
    have hone : 0 < s.GetWrappedSegmentCount row := by
      rw [GetWrappedSegmentCount_eq hwrap]
      exact WrappedRows.rowCount_pos hcols _
    have hrowlt : row < s.lines.length := Nat.lt_of_succ_lt (hsucc ▸ h.row)
    exact (goToRow_spec h.lines_ne hwrap _ _).2 (Nat.sub_lt hone Nat.one_pos) (by omega) hrowlt hle
      fun _ => segments_le hwrap row

theorem goToLine_spec (hwrap : s.word_wrap = false) {row : Nat} (hrow : row < s.lines.length) :
    MovedTo s { s with cursor_row := row }.ClampCursor.EnsureCursorVisible ∧
      { s with cursor_row := row }.ClampCursor.EnsureCursorVisible.displayedRow = row := by
  have hne : s.lines ≠ [] := List.ne_nil_of_length_pos (Nat.zero_lt_of_lt hrow)
  have hclamp : { s with cursor_row := row }.ClampCursor =
      { s with cursor_row := row, cursor_col := min s.cursor_col (s.GetLineLength row) } := by
    rw [ClampCursor, EnsureLineModel_eq (s := { s with cursor_row := row }) hne]
    dsimp only
    rw [Nat.min_eq_left (Nat.le_sub_one_of_lt hrow)]
    rfl
  obtain ⟨hmoved, hdisplayed⟩ :=
    move_spec row (min s.cursor_col (s.GetLineLength row)) (s := s) ⟨hrow, Nat.min_le_right _ _⟩
  rw [hclamp]
  exact ⟨hmoved, hdisplayed.trans (displayedRow_unwrapped (s := { s with
    cursor_row := row
    cursor_col := min s.cursor_col (s.GetLineLength row) }) hwrap)⟩

theorem MoveCursorUp_spec (h : InDocument s) :
    MovedTo s s.MoveCursorUp ∧
      (UpLands s → 0 < s.displayedRow → s.MoveCursorUp.displayedRow + 1 = s.displayedRow) := by
  rw [MoveCursorUp, EnsureLineModel_eq h.lines_ne, ClampCursor_eq h]
  rcases Bool.eq_false_or_eq_true s.word_wrap with hwrap | hwrap
  · rw [if_pos hwrap, displayedRow_wrapped hwrap, GetCursorPhysicalPosition_eq hwrap, ← displayedRow_wrapped hwrap]
    dsimp only
    split
    · rename_i hpos
      refine ⟨(goToRow_spec h.lines_ne hwrap _ _).1, fun hlands _ => ?_⟩
      rw [MoveCursorUp_wrapped h hwrap hpos _ rfl hlands, Nat.sub_add_cancel hpos]
    · rename_i hpos
      exact ⟨(move_spec s.cursor_row s.cursor_col h).1, fun _ hrow => absurd hrow hpos⟩
  · rw [if_neg (Bool.eq_false_iff.mp hwrap), displayedRow_unwrapped hwrap]
    split
    · rename_i hpos
      obtain ⟨hmoved, hrow⟩ := goToLine_spec hwrap (Nat.lt_of_le_of_lt (Nat.sub_le s.cursor_row 1) h.row)
      exact ⟨hmoved, fun _ _ => (congrArg (· + 1) hrow).trans (Nat.sub_add_cancel hpos)⟩
    · rename_i hpos
      exact ⟨(move_spec s.cursor_row s.cursor_col h).1, fun _ hrow => absurd hrow hpos⟩

theorem MoveCursorDown_wrapped (h : InDocument s) (hwrap : s.word_wrap = true)
    (hnext : s.displayedRow + 1 < s.GetTotalPhysicalRows) (phys_col : Nat)
    (hcol : phys_col = WrappedRows.colOf s.GetVisibleTextCols (s.GetLineLength s.cursor_row) s.cursor_col)
    (hlands : DownLands s) :
    (s.SetCursorFromPhysicalPosition (s.displayedRow + 1) phys_col).EnsureCursorVisible.displayedRow =
      s.displayedRow + 1 := by
  have hcols := s.GetVisibleTextCols_pos
  have hle : phys_col ≤ s.GetVisibleTextCols := hcol ▸ WrappedRows.colOf_le hcols _ _
  have hrow := displayedRow_wrapped hwrap
  have hseg := h.rowOf_lt hwrap
  rw [GetTotalPhysicalRows_wrapped hwrap h.lines_ne] at hnext
  generalize hmine : WrappedRows.rowOf s.GetVisibleTextCols (s.GetLineLength s.cursor_row) s.cursor_col = mine at hrow hseg
  rcases Nat.lt_or_ge (mine + 1) (s.GetWrappedSegmentCount s.cursor_row) with hsame | hlast
  · -- the segment after, in the same line, which is then not at its end
    refine (goToRow_spec h.lines_ne hwrap _ _).2 hsame (by omega) h.row hle fun hfull => ?_
    have hend := colOf_full hwrap (hcol.symm.trans hfull)
    have hlen := hend.2.len_eq hcols h.col
    rw [hmine] at hlen
    exact Nat.le_trans (Nat.le_of_eq hlen) (Nat.le_add_right _ _)
  · -- the first segment of the line after
    have hrows := s.rowsBefore_succ s.cursor_row
    have hrowlt : s.cursor_row + 1 < s.lines.length := by
      refine Nat.lt_of_not_le fun hge => ?_
      have hmono := s.rowsBefore_mono hge
      omega
    have hone : 0 < s.GetWrappedSegmentCount (s.cursor_row + 1) := by
      rw [GetWrappedSegmentCount_eq hwrap]
      exact WrappedRows.rowCount_pos hcols _
    refine (goToRow_spec h.lines_ne hwrap _ _).2 hone (by omega) hrowlt hle fun hfull => ?_
    rw [Nat.zero_mul, Nat.zero_add]
    exact hlands (colOf_full hwrap (hcol.symm.trans hfull))

theorem MoveCursorDown_spec (h : InDocument s) :
    MovedTo s s.MoveCursorDown ∧
      (DownLands s → s.displayedRow + 1 < s.GetTotalPhysicalRows →
        s.MoveCursorDown.displayedRow = s.displayedRow + 1) := by
  rw [MoveCursorDown, EnsureLineModel_eq h.lines_ne, ClampCursor_eq h]
  rcases Bool.eq_false_or_eq_true s.word_wrap with hwrap | hwrap
  · rw [if_pos hwrap, displayedRow_wrapped hwrap, GetCursorPhysicalPosition_eq hwrap, ← displayedRow_wrapped hwrap]
    refine ⟨(goToRow_spec h.lines_ne hwrap _ _).1, fun hlands hnext => ?_⟩
    exact MoveCursorDown_wrapped h hwrap hnext _ rfl hlands
  · rw [if_neg (Bool.eq_false_iff.mp hwrap), displayedRow_unwrapped hwrap, GetTotalPhysicalRows_unwrapped hwrap]
    split
    · rename_i hnext
      obtain ⟨hmoved, hrow⟩ := goToLine_spec hwrap hnext
      exact ⟨hmoved, fun _ _ => hrow⟩
    · rename_i hlast
      exact ⟨(move_spec s.cursor_row s.cursor_col h).1, fun _ hnext => absurd hnext hlast⟩

/-! ## The mouse -/

theorem GetSegmentEndCol_le (logical_row segment_row : Nat) :
    s.GetSegmentEndCol logical_row segment_row ≤ s.GetLineLength logical_row := by
  rw [GetSegmentEndCol]
  split
  · exact Nat.le_refl _
  · exact Nat.min_le_left _ _

theorem GetPhysicalRowInfo_lt (hne : s.lines ≠ []) (phys_row : Nat) :
    (s.GetPhysicalRowInfo phys_row).1 < s.lines.length := by
  rw [GetPhysicalRowInfo]
  split
  · exact Nat.lt_of_le_of_lt (Nat.min_le_right _ _) (Nat.sub_one_lt_of_lt (List.length_pos_of_ne_nil hne))
  · exact wrappedRowInfo_lt hne phys_row

theorem PlaceCursorFromPoint_spec (hne : s.lines ≠ []) (x y : Int) : MovedTo s (s.PlaceCursorFromPoint x y) := by
  rw [PlaceCursorFromPoint, EnsureLineModel_eq hne]
  dsimp only
  split
  · obtain ⟨row, seg, hinfo⟩ :
        ∃ row seg, s.GetPhysicalRowInfo (cellOf y origin_y s.line_height + s.scroll_y) = (row, seg) := ⟨_, _, rfl⟩
    have hrow := GetPhysicalRowInfo_lt hne (cellOf y origin_y s.line_height + s.scroll_y)
    rw [hinfo] at hrow ⊢
    have hdocument : InDocument { s with
        cursor_row := row
        cursor_col := min (s.GetSegmentBeginCol seg + cellOf x origin_x s.char_width)
          (s.GetSegmentEndCol row seg) } :=
      ⟨hrow, Nat.le_trans (Nat.min_le_right _ _) (GetSegmentEndCol_le row seg)⟩
    rw [ClampCursor_eq hdocument]
    exact (move_spec _ _ hdocument).1
  · refine (move_spec _ _ ⟨?_, Nat.min_le_right _ _⟩).1
    exact Nat.lt_of_le_of_lt (Nat.min_le_right _ _) (Nat.sub_one_lt_of_lt (List.length_pos_of_ne_nil hne))

end Unisym.Witch.TextBox
