/-
# `Ring` — queues in a ring of cells

A queue in `n` cells is a place to read, a place to write and the cells between
them; a place moves on with `next`, which goes back to the first cell at the
end.  The cells are a function to `Option α`, `none` for a cell without a value,
so that an array, a piece of memory or anything else with indices can be the
ring.

`Held cell n q p xs` says that the queue from `q` to `p` is the list `xs`;
`Held.push` and `Held.pop` are the two operations.  `q = p` both for an empty
and for a full queue: `Held.full_iff` is for the side that knows which.

`Fifo` is what a queue is for: it answers as a list does (`listRun`), so that what
went in is what came out and what is left, in order (`listRun_law`).
-/
import Mathlib.Data.List.Basic

namespace Unisym.Ring

open Function List

variable {α : Type*}

/-- The cell after `i` in a ring of `n`. -/
def next (n i : Nat) : Nat := if i + 1 ≥ n then 0 else i + 1

/-- The cell `i` places after `q` in a ring of `n`, for `q < n` and `i ≤ n`. -/
def place (n q i : Nat) : Nat := if q + i < n then q + i else q + i - n

variable {n q i p : Nat} {cell : Nat → Option α} {xs : List α}

theorem place_zero (hq : q < n) : place n q 0 = q := if_pos hq

theorem place_lt (hq : q < n) (hi : i ≤ n) : place n q i < n := by
  unfold place
  split <;> omega

theorem next_lt (hn : 0 < n) (i : Nat) : next n i < n := by
  unfold next
  split <;> omega

theorem next_place (hq : q < n) (hi : i < n) :
    next n (place n q i) = place n q (i + 1) := by
  unfold next place
  split <;> split <;> split <;> omega

theorem place_next (hq : q < n) (hi : i < n) :
    place n (next n q) i = place n q (i + 1) := by
  unfold next place
  split <;> split <;> split <;> omega

theorem place_inj {j : Nat} (hi : i < n) (hj : j < n)
    (h : place n q i = place n q j) : i = j := by
  unfold place at h
  split at h <;> split at h <;> omega

theorem place_eq_self (hq : q < n) (hi : i ≤ n) :
    place n q i = q ↔ i = 0 ∨ i = n := by
  unfold place
  split <;> omega

/-- The queue read from `q` and written at `p` is `xs`. -/
structure Held (cell : Nat → Option α) (n q p : Nat) (xs : List α) : Prop where
  read : q < n
  fits : xs.length ≤ n
  write : p = place n q xs.length
  cells : ∀ i (h : i < xs.length), cell (place n q i) = some xs[i]

theorem Held.empty (hp : p < n) : Held cell n p p [] where
  read := hp
  fits := Nat.zero_le n
  write := (place_zero hp).symm
  cells := fun i h => absurd h (Nat.not_lt_zero i)

theorem Held.write_lt
    (h : Held cell n q p xs) : p < n := by
  rw [h.write]
  exact place_lt h.read h.fits

/-- The places to read and to write meet when the queue is empty or full. -/
theorem Held.meet_iff
    (h : Held cell n q p xs) : p = q ↔ xs = [] ∨ xs.length = n := by
  rw [h.write, place_eq_self h.read h.fits, length_eq_zero_iff]

/-- A value written at the place to write. -/
theorem Held.push (h : Held cell n q p xs)
    (hroom : xs.length < n) (x : α) :
    Held (update cell p (some x)) n q (next n p) (xs ++ [x]) where
  read := h.read
  fits := by
    rw [length_append, length_singleton]
    exact hroom
  write := by
    rw [length_append, length_singleton, h.write, next_place h.read hroom]
  cells := fun i hi => by
    rw [length_append, length_singleton] at hi
    by_cases hold : i < xs.length
    · have hne : place n q i ≠ p := fun heq =>
        absurd (place_inj (by omega) hroom (heq.trans h.write)) (by omega)
      rw [update_of_ne hne, h.cells i hold, getElem_append_left hold]
    · have hlast : i = xs.length := by omega
      subst hlast
      rw [← h.write, update_self, getElem_append_right (Nat.le_refl _)]
      simp

/-- The value at the place to read, and the queue without it. -/
theorem Held.pop {x : α}
    (h : Held cell n q p (x :: xs)) : cell q = some x ∧ Held cell n (next n q) p xs := by
  have hfits : xs.length + 1 ≤ n := h.fits
  refine ⟨?_, next_lt (by omega) q, by omega, ?_, fun i hi => ?_⟩
  · have hfirst := h.cells 0 (Nat.zero_lt_succ _)
    rw [place_zero h.read] at hfirst
    exact hfirst
  · rw [h.write, length_cons, place_next h.read hfits]
  · rw [place_next h.read (by omega), h.cells (i + 1) (Nat.succ_lt_succ hi)]
    rfl

/-! ## What a queue is for -/

/-- The calls on a queue. -/
inductive Call (α : Type*) where
  | put (ys : List α)
  | take
  | size (n : Nat)

/-- The answers: how many values went in, the value that came out if there was
one, whether the size was changed. -/
inductive Answer (α : Type*) where
  | put (k : Nat)
  | take (x : Option α)
  | size (done : Bool)

/-- How many of `k` values go into a queue that has `used`. -/
def room (used k : Nat) : Option Nat → Nat
  | none => k
  | some n => min k (n - used)

/-- A call on a list of at most `bound` values, or of any number. -/
def listStep (bound : Option Nat) (xs : List α) : Call α → Answer α × List α
  | .put ys =>
      let k := room xs.length ys.length bound
      (.put k, xs ++ ys.take k)
  | .take => (.take xs.head?, xs.tail)
  | .size _ => (.size bound.isNone, xs)

/-- Calls on a list: the answers and the list after them. -/
def listRun (bound : Option Nat) : List α → List (Call α) → List (Answer α) × List α
  | xs, [] => ([], xs)
  | xs, call :: calls =>
      let r := listStep bound xs call
      let rest := listRun bound r.2 calls
      (r.1 :: rest.1, rest.2)

/-- The values that went in, given the answers. -/
def putIn : List (Call α) → List (Answer α) → List α
  | .put ys :: calls, .put k :: answers => ys.take k ++ putIn calls answers
  | _ :: calls, _ :: answers => putIn calls answers
  | _, _ => []

/-- The values that came out. -/
def takenOut : List (Answer α) → List α
  | .take (some x) :: answers => x :: takenOut answers
  | _ :: answers => takenOut answers
  | [] => []

/-- What was there and what went in is what came out and what is left. -/
theorem listRun_law (bound : Option Nat) : ∀ (calls : List (Call α)) (xs : List α),
    xs ++ putIn calls (listRun bound xs calls).1 =
      takenOut (listRun bound xs calls).1 ++ (listRun bound xs calls).2
  | [], xs => append_nil xs
  | .put ys :: calls, xs => by
    have ih := listRun_law bound calls (listStep bound xs (.put ys)).2
    dsimp only [listStep] at ih
    rw [append_assoc] at ih
    exact ih
  | .take :: calls, [] => listRun_law bound calls []
  | .take :: calls, x :: xs => congrArg (x :: ·) (listRun_law bound calls xs)
  | .size n :: calls, xs => listRun_law bound calls xs

/-- The answers are those of a list; what came out and the `count` values that
are left are what went in, in order. -/
def Fifo (bound : Option Nat) (calls : List (Call α)) (answers : List (Answer α)) (count : Nat) :
    Prop :=
  answers = (listRun bound [] calls).1 ∧
    ∃ xs, putIn calls answers = takenOut answers ++ xs ∧ count = xs.length

theorem fifo_listRun (bound : Option Nat) (calls : List (Call α)) :
    Fifo bound calls (listRun bound [] calls).1 (listRun bound [] calls).2.length :=
  ⟨rfl, _, listRun_law bound calls [], rfl⟩

end Unisym.Ring
