/-
# `Document` — a text as its lines

A text and its lines are joined by a separator that no line has.  `offset` is the place in the text of a
place in a line.  To edit a line — to insert, to erase, to split it or to append it to the line before — is
to edit the text at that place (`join_insert`, `join_erase`, `join_split`, `join_merge`).
-/
import Mathlib.Algebra.BigOperators.Group.List.Basic
import Mathlib.Algebra.Order.Ring.Nat

namespace Unisym.Document

open List

variable {α : Type} (sep : α)

/-- The text of the lines. -/
def join (lines : List (List α)) : List α := [sep].intercalate lines

/-- The place in the text of place `col` in line `row`. -/
def offset (lines : List (List α)) (row col : Nat) : Nat :=
  ((lines.take row).map fun line => line.length + 1).sum + col

/-- The text up to a line. -/
def before (lines : List (List α)) : List α := lines.flatMap fun line => line ++ [sep]

/-- The text after a line. -/
def after (lines : List (List α)) : List α := lines.flatMap fun line => sep :: line

theorem join_cons (line : List α) : ∀ rest : List (List α), join sep (line :: rest) = line ++ after sep rest
  | [] => by
    rw [join, intercalate_singleton]
    exact (append_nil line).symm
  | next :: rest => by
    rw [join, intercalate_cons_cons, ← join, join_cons next rest]
    simp only [after, flatMap_cons, cons_append, append_assoc, nil_append]

theorem join_append_cons (pre : List (List α)) (line : List α) (post : List (List α)) :
    join sep (pre ++ line :: post) = before sep pre ++ line ++ after sep post := by
  induction pre with
  | nil => exact join_cons sep line post
  | cons first pre ih =>
    have hne : pre ++ line :: post ≠ [] := append_ne_nil_of_right_ne_nil _ (cons_ne_nil _ _)
    obtain ⟨next, rest, hrest⟩ := exists_cons_of_ne_nil hne
    rw [cons_append, hrest, join, intercalate_cons_cons, ← join, ← hrest, ih]
    simp only [before, flatMap_cons, append_assoc]

theorem length_before (pre : List (List α)) :
    (before sep pre).length = (pre.map fun line => line.length + 1).sum := by
  induction pre with
  | nil => rfl
  | cons first pre ih =>
    simp only [before, flatMap_cons, length_append, map_cons, sum_cons] at ih ⊢
    rw [ih]
    rfl

variable {pre post : List (List α)} {line : List α} {col : Nat}

theorem offset_append : offset (pre ++ line :: post) pre.length col = (before sep pre).length + col := by
  rw [offset, take_left, length_before]

/-- The start of the next line. -/
theorem offset_succ (next : Nat) :
    offset (pre ++ line :: post) (pre.length + 1) next =
      offset (pre ++ line :: post) pre.length line.length + 1 + next := by
  rw [offset, offset, take_left, take_length_add_append, take_succ_cons, take_zero,
    map_append, sum_append, map_singleton, sum_singleton, ← Nat.add_assoc]

section

variable (hcol : col ≤ line.length)
include hcol

/-- The text up to a place. -/
theorem take_join : (join sep (pre ++ line :: post)).take (offset (pre ++ line :: post) pre.length col) =
      before sep pre ++ line.take col := by
  rw [offset_append sep, join_append_cons, append_assoc, take_length_add_append,
    take_append_of_le_length hcol]

/-- The text from a place on. -/
theorem drop_join : (join sep (pre ++ line :: post)).drop (offset (pre ++ line :: post) pre.length col) =
      line.drop col ++ after sep post := by
  rw [offset_append sep, join_append_cons, append_assoc, drop_length_add_append,
    drop_append_of_le_length hcol]

/-- Insert in a line. -/
theorem join_insert (x : α) : join sep (pre ++ (line.take col ++ x :: line.drop col) :: post) =
      (join sep (pre ++ line :: post)).take (offset (pre ++ line :: post) pre.length col) ++
        x :: (join sep (pre ++ line :: post)).drop (offset (pre ++ line :: post) pre.length col) := by
  rw [take_join sep hcol, drop_join sep hcol, join_append_cons]
  simp only [append_assoc, cons_append]

/-- Split a line. -/
theorem join_split : join sep (pre ++ line.take col :: line.drop col :: post) =
      (join sep (pre ++ line :: post)).take (offset (pre ++ line :: post) pre.length col) ++
        sep :: (join sep (pre ++ line :: post)).drop (offset (pre ++ line :: post) pre.length col) := by
  rw [take_join sep hcol, drop_join sep hcol, join_append_cons]
  simp only [after, flatMap_cons, append_assoc, cons_append]

end

/-- Erase in a line. -/
theorem join_erase (hcol : col + 1 ≤ line.length) :
    join sep (pre ++ (line.take col ++ line.drop (col + 1)) :: post) =
      (join sep (pre ++ line :: post)).take (offset (pre ++ line :: post) pre.length col) ++
        (join sep (pre ++ line :: post)).drop (offset (pre ++ line :: post) pre.length col + 1) := by
  have hle : col ≤ line.length := Nat.le_of_succ_le hcol
  have hdrop : 1 ≤ (line.drop col).length := by
    rw [length_drop]
    exact Nat.le_sub_of_add_le' hcol
  rw [take_join sep hle, ← drop_drop (l := join sep _), drop_join sep hle, join_append_cons,
    drop_append_of_le_length hdrop, drop_drop]
  simp only [append_assoc]

/-- Append a line to the line before. -/
theorem join_merge (first : List α) :
    join sep (pre ++ (first ++ line) :: post) =
      (join sep (pre ++ first :: line :: post)).take
          (offset (pre ++ first :: line :: post) pre.length first.length) ++
        (join sep (pre ++ first :: line :: post)).drop
          (offset (pre ++ first :: line :: post) pre.length first.length + 1) := by
  rw [← drop_drop, take_join sep (Nat.le_refl _), drop_join sep (Nat.le_refl _), join_append_cons,
    take_length, drop_length]
  simp only [after, flatMap_cons, append_assoc, cons_append, nil_append,
    drop_succ_cons, drop_zero]

/-- No line has the separator. -/
theorem not_mem_of_mem_splitOn [BEq α] [LawfulBEq α] :
    ∀ {text : List α} {line : List α}, line ∈ text.splitOn sep → sep ∉ line
  | [], line, h, hmem => by
    rw [splitOn_nil, mem_singleton] at h
    rw [h] at hmem
    exact absurd hmem not_mem_nil
  | x :: text, line, h, hmem => by
    rw [splitOn_cons_eq_if_modifyHead] at h
    split at h
    · rcases mem_cons.mp h with rfl | h
      · exact absurd hmem not_mem_nil
      · exact not_mem_of_mem_splitOn h hmem
    · rename_i hx
      obtain ⟨first, rest, hrest⟩ := exists_cons_of_ne_nil (splitOn_ne_nil sep text)
      rw [hrest, modifyHead_cons] at h
      rcases mem_cons.mp h with rfl | h
      · rcases mem_cons.mp hmem with rfl | hmem
        · exact hx (BEq.refl _)
        · exact not_mem_of_mem_splitOn (hrest ▸ mem_cons_self) hmem
      · exact not_mem_of_mem_splitOn (hrest ▸ mem_cons_of_mem _ h) hmem

end Unisym.Document
