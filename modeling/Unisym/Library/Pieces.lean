/-
# `Pieces` — a text cut at the occurrences of another

`pieces sub n text` is what lies between the first `n` leftmost occurrences of `sub`, which do not overlap as each is
looked for behind the one before.  Put together with `sub` the pieces are the text again (`intercalate_pieces`); put
together with something else, they are the text in which these occurrences are replaced.
-/
import Mathlib.Data.List.Infix

namespace Unisym.Pieces

open List

variable {α : Type}

theorem intercalate_cons {sep piece : List α} {rest : List (List α)} (h : rest ≠ []) :
    sep.intercalate (piece :: rest) = piece ++ (sep ++ sep.intercalate rest) := by
  match rest with
  | [] => exact absurd rfl h
  | next :: rest => rw [intercalate_cons_cons, append_assoc]

/-- The length of pieces that are put together. -/
theorem length_intercalate (sep : List α) {pieces : List (List α)} (h : pieces ≠ []) :
    (sep.intercalate pieces).length = pieces.flatten.length + (pieces.length - 1) * sep.length := by
  induction pieces with
  | nil => exact absurd rfl h
  | cons piece rest ih =>
    by_cases hrest : rest = []
    · rw [hrest, intercalate_singleton, flatten_singleton, length_singleton, Nat.sub_self, Nat.zero_mul]
      rfl
    · have hpositive := length_pos_iff.mpr hrest
      obtain ⟨k, hk⟩ : ∃ k, rest.length = k + 1 := ⟨rest.length - 1, by omega⟩
      rw [intercalate_cons hrest, flatten_cons, length_append, length_append, length_append,
        ih hrest, length_cons, hk, Nat.add_sub_cancel, Nat.add_sub_cancel, Nat.succ_mul]
      omega

variable [DecidableEq α]

/-- What is before the leftmost occurrence, and what is behind it. -/
def firstCut (sub : List α) : List α → Option (List α × List α)
  | [] => none
  | c :: text =>
      if sub <+: c :: text then some ([], (c :: text).drop sub.length)
      else (firstCut sub text).map fun parts => (c :: parts.1, parts.2)

def pieces (sub : List α) : (n : Nat) → List α → List (List α)
  | 0, text => [text]
  | n + 1, text =>
      match firstCut sub text with
      | none => [text]
      | some (before, behind) => before :: pieces sub n behind

/-- How often `sub` occurs in a text. -/
def occurrences (sub text : List α) : Nat := (pieces sub text.length text).length - 1

/-- The first `n` occurrences are replaced. -/
def replaceFirst (sub by' : List α) (n : Nat) (text : List α) : List α := by'.intercalate (pieces sub n text)

variable {sub text before behind : List α}

theorem firstCut_eq (h : firstCut sub text = some (before, behind)) : text = before ++ (sub ++ behind) := by
  induction text generalizing before with
  | nil => exact absurd h.symm (Option.some_ne_none _)
  | cons c text ih =>
    rw [firstCut] at h
    split at h
    · next hfirst =>
      obtain ⟨rfl, rfl⟩ := Prod.mk.inj (Option.some.inj h)
      obtain ⟨rest, hrest⟩ := hfirst
      rw [nil_append, ← hrest, drop_left]
    · obtain ⟨⟨before', behind'⟩, hcut, heq⟩ := Option.map_eq_some_iff.mp h
      obtain ⟨rfl, rfl⟩ := Prod.mk.inj heq
      exact congrArg (c :: ·) (ih hcut)

theorem pieces_ne_nil (sub : List α) (n : Nat) (text : List α) : pieces sub n text ≠ [] := by
  cases n with
  | zero => exact cons_ne_nil _ _
  | succ n =>
    rw [pieces]
    split <;> exact cons_ne_nil _ _

/-- Each occurrence takes a part of the text. -/
theorem length_pieces_le (hsub : sub ≠ []) (n : Nat) (text : List α) : (pieces sub n text).length ≤ text.length + 1 := by
  induction n generalizing text with
  | zero => exact Nat.le_add_left _ _
  | succ n ih =>
    rw [pieces]
    split
    · exact Nat.le_add_left _ _
    · next before behind hcut =>
      have hbehind := ih behind
      have hpositive : 0 < sub.length := length_pos_iff.mpr hsub
      rw [firstCut_eq hcut, length_cons, length_append, length_append]
      omega

/-- The number of pieces is the number of occurrences, up to the bound. -/
theorem length_pieces_min (sub : List α) (n k : Nat) (text : List α) :
    (pieces sub (min n k) text).length = min (n + 1) (pieces sub k text).length := by
  induction n generalizing k text with
  | zero =>
    have hpositive := length_pos_iff.mpr (pieces_ne_nil sub k text)
    rw [Nat.zero_min, pieces, length_singleton]
    omega
  | succ n ih =>
    cases k with
    | zero =>
      rw [Nat.min_zero, pieces, length_singleton]
      omega
    | succ k =>
      rw [Nat.succ_min_succ, pieces, pieces]
      cases firstCut sub text with
      | none =>
        simp only [length_singleton]
        omega
      | some parts =>
        simp only [length_cons, ih]
        omega

/-- From the length of the text on, the bound does not matter. -/
theorem pieces_of_length_le (hsub : sub ≠ []) {n : Nat} (h : text.length ≤ n) :
    pieces sub n text = pieces sub text.length text := by
  induction n using Nat.strong_induction_on generalizing text with
  | _ n ih =>
    have hpositive : 0 < sub.length := length_pos_iff.mpr hsub
    match n, text with
    | 0, text => rw [length_eq_zero_iff.mp (Nat.le_zero.mp h)]; rfl
    | n + 1, [] => rfl
    | n + 1, c :: text =>
      rw [length_cons, pieces, pieces]
      cases hcut : firstCut sub (c :: text) with
      | none => rfl
      | some parts =>
        obtain ⟨before, behind⟩ := parts
        have hlength := congrArg List.length (firstCut_eq hcut)
        rw [length_append, length_append, length_cons] at hlength
        rw [length_cons] at h
        have hn : pieces sub n behind = pieces sub behind.length behind := ih n (Nat.lt_succ_self n) (by omega)
        by_cases hlt : text.length < n + 1
        · have ht : pieces sub text.length behind = pieces sub behind.length behind := ih text.length hlt (by omega)
          simp only [hn, ht]
        · rw [show n = text.length by omega]

theorem length_pieces (hsub : sub ≠ []) (n : Nat) (text : List α) :
    (pieces sub n text).length - 1 = min n (occurrences sub text) := by
  have hpositive := length_pos_iff.mpr (pieces_ne_nil sub text.length text)
  rw [occurrences]
  by_cases hn : n ≤ text.length
  · have hmin := length_pieces_min sub n text.length text
    rw [Nat.min_eq_left hn] at hmin
    omega
  · have hle := length_pieces_le hsub text.length text
    rw [pieces_of_length_le hsub (Nat.le_of_not_le hn)]
    omega

theorem intercalate_pieces (sub : List α) (n : Nat) (text : List α) : sub.intercalate (pieces sub n text) = text := by
  induction n generalizing text with
  | zero => exact intercalate_singleton
  | succ n ih =>
    rw [pieces]
    split
    · exact intercalate_singleton
    · next before behind hcut =>
      rw [intercalate_cons (pieces_ne_nil sub n behind), ih, firstCut_eq hcut]

end Unisym.Pieces
