/-
# `WrappedRows` — lines that are shown in rows

Line number `i` takes `rows i` rows.  `find` looks up the line of a row, and the row within the line.

A line of `len` characters is cut into rows of `cols` characters.  A place at the end of a full row is also
the start of the next one; it counts as the former only at the end of the line (`rowOf`).  To go to a row and a
place in it gets there, except past the end of a full row that is not the last (`rowOf_min`).
-/
import Mathlib.Algebra.BigOperators.Group.List.Basic
import Mathlib.Algebra.Order.Ring.Nat

namespace Unisym.WrappedRows

/-! ## The rows of all lines -/

section Rows

variable (rows : Nat → Nat)

/-- The rows before a line. -/
def before (line : Nat) : Nat := ((List.range line).map rows).sum

/-- Look for a row in the `n` lines from `line` on. -/
def find : (n line row : Nat) → Nat × Nat
  | 0, line, row => (line, row)
  | n + 1, line, row => if row < rows line then (line, row) else find n (line + 1) (row - rows line)

variable {rows}

theorem before_succ (line : Nat) : before rows (line + 1) = before rows line + rows line := by
  rw [before, List.range_succ, List.map_append, List.sum_append, List.map_singleton, List.sum_singleton]
  rfl

theorem before_mono {line line' : Nat} (h : line ≤ line') : before rows line ≤ before rows line' := by
  induction h with
  | refl => exact Nat.le_refl _
  | step _ ih =>
    rw [before_succ]
    exact Nat.le_add_right_of_le ih

/-- A row that exists is found. -/
theorem find_spec (rows : Nat → Nat) : ∀ (n line row : Nat), before rows line + row < before rows (line + n) →
    ∃ found, find rows n line row = found ∧ found.1 < line + n ∧ found.2 < rows found.1 ∧
      before rows found.1 + found.2 = before rows line + row
  | 0, line, row, h => absurd h (Nat.not_lt.mpr (Nat.le_add_right _ _))
  | n + 1, line, row, h => by
    rw [find]
    split
    · rename_i hrow
      exact ⟨_, rfl, Nat.lt_add_of_pos_right (Nat.succ_pos n), hrow, rfl⟩
    · rename_i hrow
      have hle : rows line ≤ row := Nat.le_of_not_lt hrow
      have hstep : before rows (line + 1) + (row - rows line) = before rows line + row := by
        rw [before_succ]
        omega
      have hlast : line + 1 + n = line + (n + 1) := by omega
      rw [← hstep, ← hlast] at h
      obtain ⟨found, heq, hline, hin, hsum⟩ := find_spec rows n (line + 1) (row - rows line) h
      exact ⟨found, heq, hlast ▸ hline, hin, hsum.trans hstep⟩

/-- There are not so many rows. -/
theorem find_past (rows : Nat → Nat) : ∀ (n line row : Nat), before rows (line + n) ≤ before rows line + row →
    (find rows n line row).1 = line + n
  | 0, _, _, _ => rfl
  | n + 1, line, row, h => by
    have hfirst : before rows (line + 1) ≤ before rows (line + (n + 1)) := before_mono (by omega)
    rw [before_succ] at hfirst
    have hle : rows line ≤ row := by omega
    have hstep : before rows (line + 1) + (row - rows line) = before rows line + row := by
      rw [before_succ]
      omega
    have hlast : line + 1 + n = line + (n + 1) := by omega
    rw [find, if_neg (Nat.not_lt.mpr hle), find_past rows n (line + 1), hlast]
    rw [hlast, hstep]
    exact h

end Rows

/-! ## The rows of one line -/

section Line

variable (cols len : Nat)

/-- The number of rows. -/
def rowCount : Nat := if len = 0 then 1 else (len + cols - 1) / cols

/-- A place at the end of the line, and of a full row. -/
def AtFullEnd (col : Nat) : Prop := len ≤ col ∧ 0 < len ∧ col % cols = 0

instance (col : Nat) : Decidable (AtFullEnd cols len col) := inferInstanceAs (Decidable (_ ∧ _ ∧ _))

/-- The row of a place. -/
def rowOf (col : Nat) : Nat := if AtFullEnd cols len col then col / cols - 1 else col / cols

/-- Its place in that row. -/
def colOf (col : Nat) : Nat := if AtFullEnd cols len col then cols else col % cols

variable {cols len}

theorem rowCount_pos (hcols : 0 < cols) (len : Nat) : 0 < rowCount cols len := by
  rw [rowCount]
  split
  · exact Nat.one_pos
  · exact Nat.div_pos (by omega) hcols

/-- A row exists when it has a character, or the line is empty. -/
theorem lt_rowCount_iff (hcols : 0 < cols) {row : Nat} :
    row < rowCount cols len ↔ (row = 0 ∧ len = 0) ∨ row * cols < len := by
  rw [rowCount]
  split
  · rename_i hlen
    rw [hlen]
    constructor
    · intro h
      exact .inl ⟨Nat.lt_one_iff.mp h, rfl⟩
    · rintro (⟨rfl, _⟩ | h)
      · exact Nat.one_pos
      · exact absurd h (Nat.not_lt_zero _)
  · rename_i hlen
    rw [Nat.lt_iff_add_one_le, Nat.le_div_iff_mul_le hcols, Nat.succ_mul]
    constructor
    · intro h
      exact .inr (by omega)
    · rintro (⟨_, h⟩ | h)
      · exact absurd h hlen
      · omega

theorem colOf_le (hcols : 0 < cols) (len col : Nat) : colOf cols len col ≤ cols := by
  rw [colOf]
  split
  · exact Nat.le_refl _
  · exact Nat.le_of_lt (Nat.mod_lt col hcols)

theorem colOf_eq_cols (hcols : 0 < cols) {col : Nat} (h : colOf cols len col = cols) :
    AtFullEnd cols len col := by
  rw [colOf] at h
  split at h
  · assumption
  · exact absurd (Nat.mod_lt col hcols) (Nat.not_lt.mpr (Nat.le_of_eq h.symm))

/-- The length of a line that ends with a full row. -/
theorem AtFullEnd.len_eq {col : Nat} (h : AtFullEnd cols len col) (hcols : 0 < cols) (hcol : col ≤ len) :
    len = (rowOf cols len col + 1) * cols := by
  have hlen : len = col := Nat.le_antisymm h.1 hcol
  have hdvd : col / cols * cols = col := Nat.div_mul_cancel (Nat.dvd_of_mod_eq_zero h.2.2)
  have hpos : 0 < col / cols := Nat.div_pos (Nat.le_of_dvd (hlen ▸ h.2.1) (Nat.dvd_of_mod_eq_zero h.2.2)) hcols
  rw [rowOf, if_pos h, Nat.sub_add_cancel hpos, hdvd, hlen]

/-- The row of a place, and the place in it. -/
theorem rowOf_mul_add (hcols : 0 < cols) {col : Nat} (hcol : col ≤ len) :
    rowOf cols len col * cols + colOf cols len col = col := by
  by_cases h : AtFullEnd cols len col
  · have hlen := h.len_eq hcols hcol
    rw [colOf, if_pos h, ← Nat.succ_mul]
    exact hlen.symm.trans (Nat.le_antisymm h.1 hcol)
  · rw [rowOf, colOf, if_neg h, if_neg h, Nat.mul_comm]
    exact Nat.div_add_mod col cols

theorem rowOf_lt (hcols : 0 < cols) {col : Nat} (hcol : col ≤ len) :
    rowOf cols len col < rowCount cols len := by
  rw [lt_rowCount_iff hcols]
  by_cases h : AtFullEnd cols len col
  · have hlen := h.len_eq hcols hcol
    rw [Nat.succ_mul] at hlen
    exact .inr (by omega)
  · have hplace := rowOf_mul_add hcols hcol
    rw [colOf, if_neg h] at hplace
    by_cases hmod : col % cols = 0
    · rcases Nat.eq_zero_or_pos len with hlen | hlen
      · have hzero : col = 0 := by omega
        exact .inl ⟨by rw [rowOf, if_neg h, hzero, Nat.zero_div], hlen⟩
      · have hlt : col < len := Nat.lt_of_not_le fun hle => h ⟨hle, hlen, hmod⟩
        exact .inr (by omega)
    · exact .inr (by omega)

/-- Go to a row of the line. -/
theorem rowOf_min (hcols : 0 < cols) {row place : Nat} (hrow : row < rowCount cols len)
    (hplace : place ≤ cols) (hfull : place = cols → len ≤ row * cols + cols) :
    rowOf cols len (min (row * cols + place) len) = row := by
  rw [lt_rowCount_iff hcols] at hrow
  rcases Nat.lt_or_ge (row * cols + place) len with hlt | hge
  · have hne : place ≠ cols := fun heq => absurd (hfull heq) (by omega)
    have hnot : ¬ AtFullEnd cols len (row * cols + place) := fun h => absurd h.1 (Nat.not_le.mpr hlt)
    rw [Nat.min_eq_left (Nat.le_of_lt hlt), rowOf, if_neg hnot, Nat.mul_comm,
      Nat.mul_add_div hcols, Nat.div_eq_of_lt (Nat.lt_of_le_of_ne hplace hne), Nat.add_zero]
  · rw [Nat.min_eq_right hge]
    rcases hrow with ⟨rfl, hlen⟩ | hrow
    · rw [hlen, rowOf, Nat.zero_div]
      split <;> rfl
    · have hsum := rowOf_mul_add hcols (Nat.le_refl len)
      have hle := colOf_le hcols len len
      -- both rows have the last character
      rcases Nat.lt_trichotomy (rowOf cols len len) row with h | h | h
      · have hmul := Nat.mul_le_mul_right cols (Nat.succ_le_of_lt h)
        rw [Nat.succ_mul] at hmul
        omega
      · exact h
      · have hmul := Nat.mul_le_mul_right cols (Nat.succ_le_of_lt h)
        rw [Nat.succ_mul] at hmul
        have hlast := rowOf_lt hcols (Nat.le_refl len)
        rw [lt_rowCount_iff hcols] at hlast
        omega

end Line

end Unisym.WrappedRows
