/-
# `Prediction` — values and their residuals

A predictor guesses a value from those before it, and what is coded is what the guess leaves, the residual.
Whatever the predictor is, adding up the residuals restores the values (`restore_residual`).
-/
import Mathlib.Data.List.Basic

namespace Unisym.Prediction

variable {G : Type} [Add G] [Sub G] (p : List G → G)

/-- The residuals of the values that follow others. -/
def residuals (past : List G) : List G → List G
  | [] => []
  | x :: xs => (x - p past) :: residuals (past ++ [x]) xs

/-- The values, with those that the residuals add up to. -/
def restore (past : List G) : List G → List G
  | [] => past
  | r :: rs => restore (past ++ [r + p past]) rs

theorem restore_residual (hsub : ∀ a b : G, a - b + b = a) :
    ∀ past xs : List G, restore p past (residuals p past xs) = past ++ xs
  | past, [] => (List.append_nil past).symm
  | past, x :: xs => by
    rw [residuals, restore, hsub, restore_residual hsub, List.append_assoc, List.singleton_append]

end Unisym.Prediction
