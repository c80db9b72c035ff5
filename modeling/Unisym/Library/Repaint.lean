/-
# `Repaint` — a screen that is repainted in parts

A screen and what it should show (its view) are functions from points to colours.  `Paints`
says that a part of the screen was drawn anew.  A screen that showed the old view shows the
new one when the part contains every point at which the two differ (`Paints.shows`), and only
such points change (`Paints.changed`).
-/
import Mathlib.Data.Set.Basic

namespace Unisym.Repaint

variable {P C : Type*}

/-- On the points of `frame`, `after` is `before` with those of `part` drawn anew from `view`. -/
def Paints (frame part : Set P) (view before after : P → C) : Prop :=
  ∀ p ∈ frame, (p ∈ part → after p = view p) ∧ (p ∉ part → after p = before p)

variable {frame part part' : Set P} {view old before between after : P → C}

/-- One part after the other. -/
theorem Paints.trans (h : Paints frame part view before between)
    (h' : Paints frame part' view between after) :
    Paints frame (part ∪ part') view before after := by
  intro p hp
  refine ⟨fun hmem => ?_, fun hnot => ?_⟩
  · by_cases hlast : p ∈ part'
    · exact (h' p hp).1 hlast
    · rw [(h' p hp).2 hlast]
      exact (h p hp).1 (hmem.resolve_right hlast)
  · rw [(h' p hp).2 fun hmem => hnot (Or.inr hmem)]
    exact (h p hp).2 fun hmem => hnot (Or.inl hmem)

/-- The part has every point at which the view has changed. -/
theorem Paints.shows (h : Paints frame part view before after)
    (hbefore : ∀ p ∈ frame, before p = old p)
    (hpart : ∀ p ∈ frame, p ∉ part → view p = old p) : ∀ p ∈ frame, after p = view p := by
  intro p hp
  by_cases hmem : p ∈ part
  · exact (h p hp).1 hmem
  · rw [(h p hp).2 hmem, hbefore p hp, hpart p hp hmem]

/-- A point that changes is in the part, and its view has changed. -/
theorem Paints.changed (h : Paints frame part view before after)
    (hbefore : ∀ p ∈ frame, before p = old p) {p : P} (hp : p ∈ frame)
    (hne : after p ≠ before p) : p ∈ part ∧ view p ≠ old p := by
  have hmem : p ∈ part := by
    by_contra hnot
    exact hne ((h p hp).2 hnot)
  refine ⟨hmem, fun heq => hne ?_⟩
  rw [(h p hp).1 hmem, heq, hbefore p hp]

end Unisym.Repaint
