/-
# `Ownership` — who owns which resource

An ownership map gives each resource (a byte of memory, say) at most one owner.
What an owner holds is then disjoint from what any other owner holds, with
nothing to prove; an allocator that hands resources about is a sequence of
`assign`s, and an invariant about an owner is not touched by an `assign` of
resources it does not hold.
-/
import Mathlib.Order.CompletePartialOrder
import Mathlib.Data.Set.Lattice

namespace Unisym.Ownership

variable {α κ : Type*}

/-- What `k` holds. -/
def held (own : α → Option κ) (k : κ) : Set α := {a | own a = some k}

open Classical in
/-- Hand the resources in `s` to `k`, or to nobody. -/
noncomputable def assign (own : α → Option κ) (s : Set α) (k : Option κ) : α → Option κ :=
  fun a => if a ∈ s then k else own a

variable {own : α → Option κ} {k : Option κ} {a : α} {k' : κ} {s : Set α}

theorem mem_held {k : κ} : a ∈ held own k ↔ own a = some k := Iff.rfl

theorem disjoint_held (own : α → Option κ) {k : κ} (h : k ≠ k') :
    Disjoint (held own k) (held own k') := by
  rw [Set.disjoint_left]
  intro a ha ha'
  exact h (Option.some.inj (ha.symm.trans ha'))

theorem assign_of_mem (h : a ∈ s) :
    assign own s k a = k := if_pos h

theorem assign_of_not_mem (h : a ∉ s) :
    assign own s k a = own a := if_neg h

theorem held_assign_ne
    (h : k ≠ some k') : held (assign own s k) k' = held own k' \ s := by
  ext a
  by_cases ha : a ∈ s
  · simp [mem_held, assign_of_mem ha, ha, h]
  · simp [mem_held, assign_of_not_mem ha, ha]

theorem held_assign_self {k : κ} :
    held (assign own s (some k)) k = held own k ∪ s := by
  ext a
  by_cases ha : a ∈ s
  · simp [mem_held, assign_of_mem ha, ha]
  · simp [mem_held, assign_of_not_mem ha, ha]

/-- An owner that held none of the resources handed over. -/
theorem held_assign_frame
    (h : k ≠ some k') (hs : Disjoint (held own k') s) :
    held (assign own s k) k' = held own k' := by
  rw [held_assign_ne h, sdiff_eq_left.mpr hs]

/-- An owner other than the one the resources were taken from. -/
theorem held_assign_other {k₀ : κ}
    (h : k ≠ some k') (h0 : k₀ ≠ k') (hs : s ⊆ held own k₀) :
    held (assign own s k) k' = held own k' :=
  held_assign_frame h ((disjoint_held own h0.symm).mono_right hs)

end Unisym.Ownership
