/-
# `Fields` — fields in order, or on top of each other

A field has a size and an alignment.  Fields are placed in order if each is at the least multiple of its alignment that
is not before the end of the previous one; then they are apart.  What covers them is as large as the last of their ends.
-/
import Mathlib.Algebra.Order.Group.Nat
import Mathlib.Order.Bounds.Basic

namespace Unisym.Fields

/-- A field with its offset -/
structure Field where
  offset : Nat
  size : Nat
  align : Nat

def Field.stop (f : Field) : Nat := f.offset + f.size

/-! ## Multiples -/

/-- `m` is the least multiple of `a` that is not below `n`. -/
def LeastMultiple (a n m : Nat) : Prop := IsLeast {k | a ∣ k ∧ n ≤ k} m

/-- The next multiple -/
def next (a n : Nat) : Nat := if n % a = 0 then n else n + (a - n % a)

theorem le_next (a n : Nat) : n ≤ next a n := by
  unfold next
  split <;> omega

theorem next_one (n : Nat) : next 1 n = n := if_pos (Nat.mod_one n)

theorem leastMultiple_next {a : Nat} (ha : 0 < a) (n : Nat) : LeastMultiple a n (next a n) := by
  have hlt := Nat.mod_lt n ha
  have hdiv := Nat.div_add_mod n a
  by_cases h : n % a = 0
  · rw [next, if_pos h]
    exact ⟨⟨Nat.dvd_of_mod_eq_zero h, Nat.le_refl n⟩, fun _ hk => hk.2⟩
  · have hnext : next a n = a * (n / a + 1) := by
      rw [next, if_neg h, Nat.mul_add, Nat.mul_one]
      omega
    refine ⟨⟨⟨_, hnext⟩, le_next a n⟩, ?_⟩
    rintro k ⟨⟨c, rfl⟩, hk⟩
    rw [hnext]
    refine Nat.mul_le_mul_left a (Nat.succ_le_of_lt ?_)
    by_contra hc
    have hle : a * c ≤ a * (n / a) := Nat.mul_le_mul_left a (Nat.le_of_not_lt hc)
    omega

/-! ## Rows of fields -/

/-- From this offset on, each field is as low as its alignment allows. -/
def LowestFrom : Nat → List Field → Prop
  | _, [] => True
  | n, f :: fs => LeastMultiple f.align n f.offset ∧ LowestFrom f.stop fs

variable {n : Nat} {fs : List Field} {shapes : List (Nat × Nat)}

theorem LowestFrom.le_offset (h : LowestFrom n fs) : ∀ f ∈ fs, n ≤ f.offset := by
  induction fs generalizing n with
  | nil => simp
  | cons f fs ih =>
    have hn : n ≤ f.offset := h.1.1.2
    have hstop : f.offset ≤ f.stop := Nat.le_add_right _ _
    exact List.forall_mem_cons.mpr ⟨hn, fun g hg => (hn.trans hstop).trans (ih h.2 g hg)⟩

/-- The fields are apart, in their order. -/
theorem LowestFrom.pairwise (h : LowestFrom n fs) :
    fs.Pairwise fun f g => f.stop ≤ g.offset := by
  induction fs generalizing n with
  | nil => exact .nil
  | cons f fs ih => exact .cons (fun g hg => h.2.le_offset g hg) (ih h.2)

theorem LowestFrom.dvd (h : LowestFrom n fs) : ∀ f ∈ fs, f.align ∣ f.offset := by
  induction fs generalizing n with
  | nil => simp
  | cons f fs ih => exact List.forall_mem_cons.mpr ⟨h.1.1.1, ih h.2⟩

/-- Where the last of the ends is -/
def extent : List Field → Nat
  | [] => 0
  | f :: fs => max f.stop (extent fs)

theorem extent_le_iff {k : Nat} : extent fs ≤ k ↔ ∀ f ∈ fs, f.stop ≤ k := by
  induction fs with
  | nil => simp [extent]
  | cons f fs ih => simp [extent, ih]

/-- The next multiple of an alignment is the least that covers the fields. -/
theorem isLeast_next_extent {a : Nat} (ha : 0 < a) (fs : List Field) :
    IsLeast {k | a ∣ k ∧ ∀ f ∈ fs, f.stop ≤ k} (next a (extent fs)) := by
  have h := leastMultiple_next ha (extent fs)
  simpa only [LeastMultiple, extent_le_iff] using h

/-! ## Placing -/

/-- A field of this size and alignment, at zero or as low as it can be -/
def put (overlaid : Bool) (n : Nat) : Nat × Nat → Field
  | (size, align) => ⟨if overlaid then 0 else next align n, size, align⟩

/-- Fields one after the other, or on top of each other -/
def place (overlaid : Bool) : Nat → List (Nat × Nat) → List Field
  | _, [] => []
  | n, shape :: shapes =>
      let f := put overlaid n shape
      f :: place overlaid (max n f.stop) shapes

theorem lowestFrom_place (h : ∀ shape ∈ shapes, 0 < shape.2) (n : Nat) :
    LowestFrom n (place false n shapes) := by
  induction shapes generalizing n with
  | nil => trivial
  | cons shape shapes ih =>
    have hlow := leastMultiple_next (h shape (by simp)) n
    have hn : n ≤ (put false n shape).stop := hlow.1.2.trans (Nat.le_add_right _ _)
    have htail := ih (fun s hs => h s (List.mem_cons_of_mem _ hs)) (put false n shape).stop
    refine ⟨hlow, ?_⟩
    rw [Nat.max_eq_right hn]
    exact htail

theorem offset_of_mem_place : ∀ f ∈ place true n shapes, f.offset = 0 := by
  induction shapes generalizing n with
  | nil => simp [place]
  | cons shape shapes ih => exact List.forall_mem_cons.mpr ⟨rfl, ih⟩

end Unisym.Fields
