/-
# `Holders` — how many hold a thing

Finitely many places hold one thing each, or none.  `holders f b` counts the places that hold `b`; it
changes by one when a place changes.
-/
import Mathlib.Data.Fintype.Card

namespace Unisym.Holders

open Function

variable {α β : Type} [Fintype α] [DecidableEq β]

/-- The number of places that hold `b`. -/
def holders (f : α → Option β) (b : β) : Nat := (Finset.univ.filter fun a => f a = some b).card

variable {f g : α → Option β} {b : β}

theorem holders_pos : 0 < holders f b ↔ ∃ a, f a = some b := by
  rw [holders, Finset.card_pos, Finset.filter_nonempty_iff]
  simp

theorem holders_eq_zero : holders f b = 0 ↔ ∀ a, f a ≠ some b := by
  rw [holders, Finset.card_eq_zero, Finset.filter_eq_empty_iff]
  simp

/-- A place that changes is counted before or after. -/
theorem holders_update [DecidableEq α] (a : α) (h : ∀ a', a' ≠ a → g a' = f a') (b : β) :
    holders g b + (if f a = some b then 1 else 0) = holders f b + (if g a = some b then 1 else 0) := by
  have hsplit : ∀ k : α → Option β, holders k b =
      (if k a = some b then 1 else 0) +
        ((Finset.univ.erase a).filter fun a' => k a' = some b).card := by
    intro k
    rw [holders, ← Finset.insert_erase (Finset.mem_univ a), Finset.filter_insert]
    split
    · rw [Finset.card_insert_of_notMem (by simp), Finset.erase_insert (Finset.notMem_erase a _), Nat.add_comm]
    · rw [Finset.erase_insert (Finset.notMem_erase a _), Nat.zero_add]
  have hrest : ((Finset.univ.erase a).filter fun a' => g a' = some b) =
      (Finset.univ.erase a).filter fun a' => f a' = some b := by
    refine Finset.filter_congr fun a' ha' => ?_
    rw [h a' (Finset.ne_of_mem_erase ha')]
  rw [hsplit g, hsplit f, hrest]
  omega

/-- The only holder. -/
theorem holders_eq_one (h : holders f b = 1) {a a' : α} (ha : f a = some b) (ha' : f a' = some b) :
    a' = a := by
  obtain ⟨x, hx⟩ := Finset.card_eq_one.mp h
  have hmem : ∀ y, f y = some b → y = x := fun y hy =>
    Finset.mem_singleton.mp (hx ▸ Finset.mem_filter.mpr ⟨Finset.mem_univ y, hy⟩)
  rw [hmem a ha, hmem a' ha']

/-- Two places exchange what they hold. -/
theorem holders_swap [DecidableEq α] (a a' : α) (b : β) : holders (f ∘ Equiv.swap a a') b = holders f b := by
  rw [holders, holders]
  refine Finset.card_bij (fun x _ => Equiv.swap a a' x) ?_ ?_ ?_
  · intro x hx
    simpa using hx
  · intro x _ y _ hxy
    exact (Equiv.swap a a').injective hxy
  · intro y hy
    exact ⟨Equiv.swap a a' y, by simpa using hy, Equiv.swap_apply_self a a' y⟩

end Unisym.Holders
