/-
# `TextBoxEdits` — edits of lines are edits of the text

`InsertCharAtCursor` and `BackspaceAtCursor` change the lines, and export the text from them.  `EditedTo` says
that the text box is as before except that it has another text with its lines, its cursor at another place of it,
and no valid cache.
-/
import Unisym.Witch.TextBoxSpec

namespace Unisym.Witch.TextBox

open List

/-- The place of the cursor in the text. -/
def place (s : TextBox) : Nat :=
  Document.offset (s.lines.map RichLine.text) s.cursor_row s.cursor_col

/-- `s'` is `s` with another text, and with the cursor at a place of it. -/
def EditedTo (s s' : TextBox) (text : List UInt8) (place : Nat) : Prop :=
  ∃ lines cursor_row cursor_col scroll_y scroll_x,
    s' = { s with
      text, lines, cursor_row, cursor_col, scroll_y, scroll_x
      line_caches := s.InvalidateAllLineCaches.line_caches } ∧
    Lined s' ∧ InDocument s' ∧ s'.place = place

variable {s : TextBox}

/-! ## The line of the cursor -/

theorem set_at {α : Type} (pre post : List α) (x y : α) :
    (pre ++ x :: post).set pre.length y = pre ++ y :: post := by
  rw [set_append_right _ _ (Nat.le_refl _), Nat.sub_self, set_cons_zero]

theorem getD_at {α : Type} (pre post : List α) (x d : α) : (pre ++ x :: post).getD pre.length d = x := by
  rw [getD_eq_getElem?_getD, getElem?_append_right (Nat.le_refl _), Nat.sub_self,
    getElem?_cons_zero, Option.getD_some]

/-- The lines before that of the cursor, the line and the lines after it. -/
structure Parts (s : TextBox) (pre : List RichLine) (line : RichLine) (post : List RichLine) : Prop where
  lines : s.lines = pre ++ line :: post
  length : (pre.map RichLine.text).length = s.cursor_row
  col : s.cursor_col ≤ line.text.length
  texts : s.lines.map RichLine.text = pre.map RichLine.text ++ line.text :: post.map RichLine.text

theorem InDocument.parts (h : InDocument s) : ∃ pre line post, Parts s pre line post := by
  have hrow := h.row
  have hcut : s.lines = s.lines.take s.cursor_row ++ s.lines[s.cursor_row] :: s.lines.drop (s.cursor_row + 1) := by
    rw [← drop_eq_getElem_cons hrow, take_append_drop]
  have hget : s.lines.getD s.cursor_row {} = s.lines[s.cursor_row] := by
    rw [getD_eq_getElem?_getD, getElem?_eq_getElem hrow, Option.getD_some]
  refine ⟨_, _, _, hcut, ?_, ?_, ?_⟩
  · rw [length_map, length_take_of_le (Nat.le_of_lt hrow)]
  · rw [← hget]
    exact h.col
  · exact (congrArg (List.map RichLine.text) hcut).trans (by rw [map_append, map_cons])

section Parts

variable {pre post : List RichLine} {line : RichLine}

theorem Parts.pre_length (h : Parts s pre line post) : pre.length = s.cursor_row := by
  rw [← h.length, length_map]

theorem Parts.getD (h : Parts s pre line post) : s.lines.getD s.cursor_row {} = line := by
  rw [h.lines, ← h.pre_length, getD_at]

theorem Parts.set (h : Parts s pre line post) (line' : RichLine) :
    s.lines.set s.cursor_row line' = pre ++ [line'] ++ post := by
  rw [h.lines, ← h.pre_length, set_at, ← append_cons]

theorem Parts.text (h : Parts s pre line post) (hlined : Lined s) :
    Document.join 10 (pre.map RichLine.text ++ line.text :: post.map RichLine.text) = s.text := by
  rw [← h.texts]
  exact hlined.merged_eq

theorem Parts.place (h : Parts s pre line post) :
    Document.offset (pre.map RichLine.text ++ line.text :: post.map RichLine.text)
      (pre.map RichLine.text).length s.cursor_col = s.place := by
  rw [← h.texts, h.length]
  rfl

theorem Parts.no_break (h : Parts s pre line post) (hlined : Lined s) : 10 ∉ line.text :=
  hlined.no_break line (h.lines ▸ mem_append_cons_self)

end Parts

theorem export_spec {lines : List RichLine} {cursor_row cursor_col : Nat}
    (hdocument : InDocument { s with lines, cursor_row, cursor_col })
    (hbreak : ∀ line ∈ lines, 10 ∉ line.text)
    (hcolors : ∀ line ∈ lines, line.colors.length = line.text.length) :
    EditedTo s { s with lines, cursor_row, cursor_col }.InvalidateAllLineCaches.ExportLinesToText.EnsureCursorVisible
      (Document.join 10 (lines.map RichLine.text))
      (Document.offset (lines.map RichLine.text) cursor_row cursor_col) := by
  obtain ⟨scroll_y, scroll_x, heq, _⟩ := EnsureCursorVisible_spec
    (s := { s with lines, cursor_row, cursor_col }.InvalidateAllLineCaches.ExportLinesToText)
    ⟨hdocument.row, hdocument.col⟩
  rw [heq]
  exact ⟨lines, cursor_row, cursor_col, scroll_y, scroll_x, rfl,
    Lined.export hdocument.lines_ne hbreak hcolors rfl, ⟨hdocument.row, hdocument.col⟩, rfl⟩

theorem replace_spec (hlined : Lined s) {pre old new post : List RichLine} (hlines : s.lines = pre ++ old ++ post)
    {cursor_row cursor_col : Nat}
    (hdocument : InDocument { s with lines := pre ++ new ++ post, cursor_row, cursor_col })
    (hbreak : ∀ line ∈ new, 10 ∉ line.text)
    (hcolors : ∀ line ∈ new, line.colors.length = line.text.length) {text : List UInt8} {place : Nat}
    (htext : Document.join 10 ((pre ++ new ++ post).map RichLine.text) = text)
    (hplace : Document.offset ((pre ++ new ++ post).map RichLine.text) cursor_row cursor_col = place) :
    EditedTo s
      { s with lines := pre ++ new ++ post, cursor_row, cursor_col }.InvalidateAllLineCaches.ExportLinesToText.EnsureCursorVisible
      text place := by
  have hmem : ∀ line ∈ pre ++ new ++ post, line ∈ new ∨ line ∈ s.lines := by
    intro line hline
    rw [hlines]
    rcases mem_append.mp hline with hline | hline
    · rcases mem_append.mp hline with hline | hline
      · exact .inr (mem_append_left _ (mem_append_left _ hline))
      · exact .inl hline
    · exact .inr (mem_append_right _ hline)
  rw [← htext, ← hplace]
  exact export_spec hdocument
    (fun line hline => (hmem line hline).elim (hbreak line) (hlined.no_break line))
    (fun line hline => (hmem line hline).elim (hcolors line) (hlined.colors line))

/-- The length of the line of the cursor, among other lines. -/
theorem GetLineLength_at {pre post : List RichLine} {line : RichLine} {row : Nat} (hrow : pre.length = row)
    (hlines : s.lines = pre ++ [line] ++ post) : s.GetLineLength row = line.text.length := by
  rw [GetLineLength, hlines, ← append_cons, ← hrow, getD_at]

theorem replaceLine_spec (hlined : Lined s) {pre old post : List RichLine} (hlines : s.lines = pre ++ old ++ post)
    {color : UInt32} {line : RichLine} {t : List UInt8} (hline : line.text = t) {cursor_row cursor_col : Nat}
    (hrow : pre.length = cursor_row) (hcol : cursor_col ≤ t.length) (hbreak : 10 ∉ t) {text : List UInt8}
    {place : Nat} (htext : Document.join 10 (pre.map RichLine.text ++ t :: post.map RichLine.text) = text)
    (hplace : Document.offset (pre.map RichLine.text ++ t :: post.map RichLine.text)
      (pre.map RichLine.text).length cursor_col = place) :
    EditedTo s
      { s with
        lines := pre ++ [NormalizeLineColors color line] ++ post
        cursor_row, cursor_col }.InvalidateAllLineCaches.ExportLinesToText.EnsureCursorVisible
      text place := by
  have htexts : (pre ++ [NormalizeLineColors color line] ++ post).map RichLine.text =
      pre.map RichLine.text ++ t :: post.map RichLine.text := by
    rw [append_assoc, map_append, ← hline]
    rfl
  refine replace_spec hlined hlines ⟨?_, ?_⟩ ?_ ?_ (htexts ▸ htext) ?_
  · show cursor_row < (pre ++ [NormalizeLineColors color line] ++ post).length
    simp only [← hrow, length_append, length_cons, length_nil]
    omega
  · refine Nat.le_trans ?_ (Nat.le_of_eq (GetLineLength_at hrow rfl).symm)
    exact hline ▸ hcol
  · intro l hl
    rw [mem_singleton.mp hl]
    exact hline ▸ hbreak
  · intro l hl
    rw [mem_singleton.mp hl]
    exact NormalizeLineColors_length _ _
  · rw [htexts, ← hplace, ← hrow, length_map]

/-! ## Inserting -/

theorem SplitLineAtCursor_spec (hlined : Lined s) (hdocument : InDocument s) :
    EditedTo s s.SplitLineAtCursor (s.text.take s.place ++ 10 :: s.text.drop s.place) (s.place + 1) := by
  obtain ⟨pre, line, post, hparts⟩ := hdocument.parts
  have hcol := hparts.col
  have hnobreak := hparts.no_break hlined
  rw [SplitLineAtCursor, EnsureLineModel_eq hlined.lines_ne, ClampCursor_eq hdocument, hparts.getD]
  dsimp only [InsertLineAt]
  generalize hleft : NormalizeLineColors s.current_input_color (RichLine.mk _ _) = left
  generalize hright : NormalizeLineColors s.current_input_color (RichLine.mk _ _) = right
  have hlefttext : left.text = line.text.take s.cursor_col := by
    rw [← hleft]
    exact drop_zero
  have hrighttext : right.text = line.text.drop s.cursor_col := by
    rw [← hright]
    exact congrArg (List.drop s.cursor_col) take_length
  have hnew : (pre ++ [left] ++ post).take (s.cursor_row + 1) ++
      right :: (pre ++ [left] ++ post).drop (s.cursor_row + 1) = pre ++ [left, right] ++ post := by
    have hlen : (pre ++ [left]).length = s.cursor_row + 1 := by
      rw [length_append, hparts.pre_length, length_singleton]
    rw [← hlen, take_left, drop_left]
    simp only [append_assoc, cons_append, nil_append]
  have htexts : (pre ++ [left, right] ++ post).map RichLine.text =
      pre.map RichLine.text ++ line.text.take s.cursor_col :: line.text.drop s.cursor_col :: post.map RichLine.text := by
    rw [append_assoc, map_append, ← hlefttext, ← hrighttext]
    rfl
  rw [hparts.set, hnew]
  refine replace_spec hlined (hparts.lines.trans (append_cons _ _ _)) ⟨?_, Nat.zero_le _⟩ ?_ ?_ ?_ ?_
  · show s.cursor_row + 1 < (pre ++ [left, right] ++ post).length
    rw [← hparts.pre_length]
    simp only [length_append, length_cons, length_nil]
    omega
  · intro l hl
    rcases mem_pair.mp hl with rfl | rfl
    · exact hlefttext ▸ fun h => hnobreak (mem_of_mem_take h)
    · exact hrighttext ▸ fun h => hnobreak (mem_of_mem_drop h)
  · intro l hl
    rcases mem_pair.mp hl with rfl | rfl
    · exact hleft ▸ NormalizeLineColors_length _ _
    · exact hright ▸ NormalizeLineColors_length _ _
  · rw [htexts, Document.join_split 10 hcol, hparts.text hlined, hparts.place]
  · rw [htexts, ← hparts.length, Document.offset_succ, ← hparts.place, Document.offset_append 10,
      Document.offset_append 10, length_take_of_le hcol, Nat.add_zero]

theorem InsertCharAtCursor_spec (hlined : Lined s) (hdocument : InDocument s) (ch : UInt8) :
    EditedTo s (s.InsertCharAtCursor ch) (s.text.take s.place ++ ch :: s.text.drop s.place) (s.place + 1) := by
  rw [InsertCharAtCursor, EnsureLineModel_eq hlined.lines_ne, ClampCursor_eq hdocument]
  by_cases hch : ch = 10
  · rw [if_pos hch, hch]
    exact SplitLineAtCursor_spec hlined hdocument
  · obtain ⟨pre, line, post, hparts⟩ := hdocument.parts
    have hcol := hparts.col
    rw [if_neg hch, hparts.getD]
    dsimp only
    rw [hparts.set]
    refine replaceLine_spec hlined (hparts.lines.trans (append_cons _ _ _))
      (t := line.text.take s.cursor_col ++ ch :: line.text.drop s.cursor_col) rfl hparts.pre_length ?_ ?_ ?_ ?_
    · rw [length_append, length_cons, length_take_of_le hcol]
      exact Nat.add_le_add_left (Nat.succ_le_succ (Nat.zero_le _)) _
    · intro hmem
      rcases mem_append.mp hmem with hmem | hmem
      · exact hparts.no_break hlined (mem_of_mem_take hmem)
      · rcases mem_cons.mp hmem with heq | hmem
        · exact hch heq.symm
        · exact hparts.no_break hlined (mem_of_mem_drop hmem)
    · rw [Document.join_insert 10 hcol, hparts.text hlined, hparts.place]
    · rw [← hparts.place, Document.offset_append 10, Document.offset_append 10]
      rfl

/-! ## Deleting -/

theorem place_eq_zero_iff (hdocument : InDocument s) : s.place = 0 ↔ s.cursor_row = 0 ∧ s.cursor_col = 0 := by
  obtain ⟨pre, line, post, hparts⟩ := hdocument.parts
  rw [← hparts.place, Document.offset_append 10, Document.length_before, ← hparts.length]
  constructor
  · intro h
    cases pre with
    | nil => exact ⟨rfl, (Nat.add_eq_zero_iff.mp h).2⟩
    | cons first pre =>
      rw [map_cons, map_cons, sum_cons] at h
      omega
  · rintro ⟨hrow, hcol⟩
    rw [length_eq_zero_iff.mp hrow, hcol]
    rfl

theorem BackspaceAtCursor_start (hdocument : InDocument s) (hplace : s.place = 0) :
    s.BackspaceAtCursor = (false, s) := by
  obtain ⟨hrow, hcol⟩ := (place_eq_zero_iff hdocument).mp hplace
  rw [BackspaceAtCursor, EnsureLineModel_eq hdocument.lines_ne, ClampCursor_eq hdocument]
  dsimp only
  rw [if_neg (Nat.not_lt.mpr (Nat.le_of_eq hcol)), if_neg (Nat.not_lt.mpr (Nat.le_of_eq hrow))]

theorem BackspaceAtCursor_erase (hlined : Lined s) (hdocument : InDocument s) (hpos : 0 < s.cursor_col) :
    ∃ s', s.BackspaceAtCursor = (true, s') ∧
      EditedTo s s' (s.text.take (s.place - 1) ++ s.text.drop s.place) (s.place - 1) := by
  obtain ⟨pre, line, post, hparts⟩ := hdocument.parts
  have hcol : s.cursor_col - 1 + 1 = s.cursor_col := Nat.sub_add_cancel hpos
  have hle : s.cursor_col - 1 + 1 ≤ line.text.length := hcol.symm ▸ hparts.col
  refine ⟨_, by
    rw [BackspaceAtCursor, EnsureLineModel_eq hlined.lines_ne, ClampCursor_eq hdocument]
    exact if_pos hpos, ?_⟩
  rw [hparts.getD]
  have hplace : Document.offset (pre.map RichLine.text ++ line.text :: post.map RichLine.text)
      (pre.map RichLine.text).length (s.cursor_col - 1) + 1 = s.place := by
    rw [← hparts.place, Document.offset_append 10, Document.offset_append 10, Nat.add_assoc, hcol]
  rw [hparts.set]
  refine replaceLine_spec hlined (hparts.lines.trans (append_cons _ _ _))
    (t := line.text.take (s.cursor_col - 1) ++ line.text.drop (s.cursor_col - 1 + 1)) rfl hparts.pre_length
    ?_ ?_ ?_ ?_
  · rw [length_append, length_take_of_le (Nat.le_of_succ_le hle)]
    exact Nat.le_add_right _ _
  · intro hmem
    rcases mem_append.mp hmem with hmem | hmem
    · exact hparts.no_break hlined (mem_of_mem_take hmem)
    · exact hparts.no_break hlined (mem_of_mem_drop hmem)
  · rw [Document.join_erase 10 hle, hparts.text hlined, hplace, ← hplace, Nat.add_sub_cancel]
  · rw [← hplace, Document.offset_append 10, Document.offset_append 10, Nat.add_sub_cancel]

theorem BackspaceAtCursor_merge (hlined : Lined s) (hdocument : InDocument s) (hcol : s.cursor_col = 0)
    (hrow : 0 < s.cursor_row) :
    ∃ s', s.BackspaceAtCursor = (true, s') ∧
      EditedTo s s' (s.text.take (s.place - 1) ++ s.text.drop s.place) (s.place - 1) := by
  obtain ⟨before, line, post, hparts⟩ := hdocument.parts
  have hne : before ≠ [] := ne_nil_of_length_pos (hparts.pre_length.symm ▸ hrow)
  obtain ⟨pre, first, rfl⟩ : ∃ pre first, before = pre ++ [first] :=
    ⟨_, _, (dropLast_append_getLast hne).symm⟩
  have hlen : pre.length + 1 = s.cursor_row := by
    rw [← hparts.pre_length, length_append, length_singleton]
  have hprev : s.cursor_row - 1 = pre.length := by rw [← hlen, Nat.add_sub_cancel]
  have hlines : s.lines = pre ++ first :: line :: post := by
    rw [hparts.lines, append_assoc, singleton_append]
  have hlength : s.GetLineLength pre.length = first.text.length := by
    rw [GetLineLength, hlines, getD_at]
  refine ⟨_, by
    rw [BackspaceAtCursor, EnsureLineModel_eq hlined.lines_ne, ClampCursor_eq hdocument]
    exact (if_neg (Nat.not_lt.mpr (Nat.le_of_eq hcol))).trans (if_pos hrow), ?_⟩
  rw [hparts.getD, hprev, hlength]
  have hget : s.lines.getD pre.length {} = first := by rw [hlines, getD_at]
  rw [hget]
  have hset (new : RichLine) : (s.lines.set pre.length new).eraseIdx s.cursor_row = pre ++ [new] ++ post := by
    rw [hlines, set_at, append_cons, ← hparts.pre_length, length_append, length_singleton]
    have hold : (pre ++ [new]).length = pre.length + 1 := by rw [length_append, length_singleton]
    rw [← hold, eraseIdx_append_of_length_le (Nat.le_refl _), Nat.sub_self, eraseIdx_cons_zero]
  have hold : (pre ++ [first]).map RichLine.text ++ line.text :: post.map RichLine.text =
      pre.map RichLine.text ++ first.text :: line.text :: post.map RichLine.text := by
    rw [map_append, append_assoc]
    rfl
  have hplace : Document.offset (pre.map RichLine.text ++ first.text :: line.text :: post.map RichLine.text)
      (pre.map RichLine.text).length first.text.length + 1 = s.place := by
    have hlast : ((pre ++ [first]).map RichLine.text).length = (pre.map RichLine.text).length + 1 := by
      rw [map_append, length_append, length_map, map_singleton, length_singleton]
    rw [← hparts.place, hcol, hlast, hold, Document.offset_succ]
  rw [hset]
  have hmiddle : s.lines = pre ++ [first, line] ++ post := by
    rw [hlines, append_assoc]
    rfl
  refine replaceLine_spec hlined hmiddle (t := first.text ++ line.text) rfl rfl ?_ ?_ ?_ ?_
  · rw [length_append]
    exact Nat.le_add_right _ _
  · intro hmem
    rcases mem_append.mp hmem with hmem | hmem
    · exact hlined.no_break first (hlines ▸ mem_append_cons_self) hmem
    · exact hparts.no_break hlined hmem
  · rw [Document.join_merge 10, ← hold, hparts.text hlined, hold, hplace, ← hplace, Nat.add_sub_cancel]
  · rw [← hplace, Nat.add_sub_cancel, Document.offset_append 10, Document.offset_append 10]

theorem BackspaceAtCursor_spec (hlined : Lined s) (hdocument : InDocument s) (hplace : s.place ≠ 0) :
    ∃ s', s.BackspaceAtCursor = (true, s') ∧
      EditedTo s s' (s.text.take (s.place - 1) ++ s.text.drop s.place) (s.place - 1) := by
  rcases Nat.eq_zero_or_pos s.cursor_col with hcol | hcol
  · refine BackspaceAtCursor_merge hlined hdocument hcol (Nat.pos_of_ne_zero fun hrow => hplace ?_)
    exact (place_eq_zero_iff hdocument).mpr ⟨hrow, hcol⟩
  · exact BackspaceAtCursor_erase hlined hdocument hcol

end Unisym.Witch.TextBox
