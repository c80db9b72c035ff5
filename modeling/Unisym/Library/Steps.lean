/-
# `Steps` — steps of programs that may have no result

A program in `Option` is a chain of `>>=`; where a step has a result, the chain goes on with it.
-/
import Mathlib.Data.Option.Basic

namespace Unisym

theorem some_bind.{u} {α β : Type u} (a : α) (f : α → Option β) : (some a >>= f) = f a := rfl

end Unisym
