/-
# `FLAC` — predictors of a subframe

The samples of a subframe are the first ones as they are, and the residuals of a predictor for the others.
-/
import Unisym.Library.Prediction
import Mathlib.Algebra.Ring.Int.Defs

namespace Unisym.Audiosys.FLAC

open Prediction List

/-- What `restoreFixedLPC` adds to the sample behind others; the order 0 changes nothing. -/
def fixedLPC (order : Nat) (samples : List Int32) : Int32 :=
  let at' (j : Nat) := samples.getD (samples.length - j) 0
  match order with
  | 1 => at' 1
  | 2 => 2 * at' 1 - at' 2
  | 3 => 3 * at' 1 - 3 * at' 2 + at' 3
  | 4 => 4 * at' 1 - 6 * at' 2 + 4 * at' 3 - at' 4
  | _ => 0

def restoreFixedLPC (samples : List Int32) (order : Nat) : List Int32 :=
  restore (fixedLPC order) (samples.take order) (samples.drop order)

/-- What `restoreLinearLPC` adds -/
def linearLPC (coeff : List Int32) (shift : Nat) (samples : List Int32) : Int32 :=
  Int32.ofInt ((coeff.zipWith (·.toInt * ·.toInt) samples.reverse).sum >>> shift)

def restoreLinearLPC (samples coeff : List Int32) (shift : Nat) : List Int32 :=
  restore (linearLPC coeff shift) (samples.take coeff.length) (samples.drop coeff.length)

/-- Each sample but the first, less the one before it -/
def differences : List Int32 → List Int32
  | x :: y :: xs => (y - x) :: differences (y :: xs)
  | _ => []

theorem residual_fixedLPC (past : List Int32) (a b c d : Int32) (xs : List Int32) :
    residuals (fixedLPC 1) (past ++ [a]) xs = differences (a :: xs) ∧
    residuals (fixedLPC 2) (past ++ [a, b]) xs = differences (differences (a :: b :: xs)) ∧
    residuals (fixedLPC 3) (past ++ [a, b, c]) xs = differences (differences (differences (a :: b :: c :: xs))) ∧
    residuals (fixedLPC 4) (past ++ [a, b, c, d]) xs =
      differences (differences (differences (differences (a :: b :: c :: d :: xs)))) := by
  induction xs generalizing past a b c d with
  | nil => simp [residuals, differences]
  | cons x xs ih =>
    have h1 := (ih (past ++ [a]) x b c d).1
    have h2 := (ih (past ++ [a]) b x c d).2.1
    have h3 := (ih (past ++ [a]) b c x d).2.2.1
    have h4 := (ih (past ++ [a]) b c d x).2.2.2
    simp only [append_assoc, cons_append, nil_append] at h1 h2 h3 h4
    simp only [residuals, append_assoc, cons_append, nil_append, h1, h2, h3, h4, fixedLPC, differences]
    simp
    grind

/-- Samples that were taken differences of, as often as the order says, are restored behind the first ones. -/
theorem restoreFixedLPC_differences (a b c d : Int32) (xs : List Int32) :
    restoreFixedLPC (a :: differences (a :: xs)) 1 = a :: xs ∧
    restoreFixedLPC (a :: b :: differences (differences (a :: b :: xs))) 2 = a :: b :: xs ∧
    restoreFixedLPC (a :: b :: c :: differences (differences (differences (a :: b :: c :: xs)))) 3 =
      a :: b :: c :: xs ∧
    restoreFixedLPC (a :: b :: c :: d :: differences (differences (differences (differences (a :: b :: c :: d :: xs)))))
      4 = a :: b :: c :: d :: xs := by
  obtain ⟨h1, h2, h3, h4⟩ := residual_fixedLPC [] a b c d xs
  rw [← h1, ← h2, ← h3, ← h4]
  have h : ∀ p past, restore p past (residuals p past xs) = past ++ xs :=
    fun p past => restore_residual p Int32.sub_add_cancel past xs
  exact ⟨h _ [a], h _ [a, b], h _ [a, b, c], h _ [a, b, c, d]⟩

end Unisym.Audiosys.FLAC
