/-
# `Intervals` — sorted lists of separated half-open intervals

A set of points of a linear order is kept as a list of half-open intervals
`[lo x, hi x)`, sorted, each non-empty, and no two of them touching.  This is
the general fact behind every free list that coalesces on insertion.  The
entries are of an arbitrary type `ι`; `lo` and `hi` read an entry's two ends,
so a development instantiates the library at its own record type.

    Separated lo hi l        sorted, non-empty, pairwise not touching
    cover lo hi l            the points the list stands for

Every edit of such a list replaces a middle part `m` of `l₁ ++ m ++ l₂` by
some `m'`.  `Separated.replace` says when the result is again separated, and
`cover_replace_union` / `cover_replace_diff` say what it then covers.
-/
import Mathlib.Order.CompletePartialOrder
import Mathlib.Data.Set.Lattice
import Mathlib.Tactic.Order

namespace Unisym.Intervals

variable {ι α : Type*} [LinearOrder α] {lo hi : ι → α}

/-- The points covered by a list of intervals. -/
def cover (lo hi : ι → α) (l : List ι) : Set α :=
  {a | ∃ x ∈ l, lo x ≤ a ∧ a < hi x}

/-- Sorted, each interval non-empty, and a gap between any two. -/
def Separated (lo hi : ι → α) (l : List ι) : Prop :=
  (∀ x ∈ l, lo x < hi x) ∧ l.Pairwise (fun x y => hi x < lo y)

@[simp] theorem cover_nil : cover lo hi ([] : List ι) = ∅ := by
  ext a; simp [cover]

@[simp] theorem cover_cons (x : ι) (l : List ι) :
    cover lo hi (x :: l) = Set.Ico (lo x) (hi x) ∪ cover lo hi l := by
  ext a; simp [cover, Set.mem_Ico]

@[simp] theorem cover_append (l₁ l₂ : List ι) :
    cover lo hi (l₁ ++ l₂) = cover lo hi l₁ ∪ cover lo hi l₂ := by
  induction l₁ with
  | nil => simp
  | cons x l ih => simp [ih, Set.union_assoc]

variable {l l₁ l₂ m : List ι} {x : ι} {a b : α}

theorem Ico_subset_cover (h : x ∈ l) :
    Set.Ico (lo x) (hi x) ⊆ cover lo hi l :=
  fun _ ha => ⟨x, h, ha.1, ha.2⟩

@[simp] theorem separated_nil : Separated lo hi ([] : List ι) :=
  ⟨fun _ h => absurd h List.not_mem_nil, List.Pairwise.nil⟩

theorem separated_singleton : Separated lo hi [x] ↔ lo x < hi x := by
  simp [Separated]

theorem separated_append :
    Separated lo hi (l₁ ++ l₂) ↔
      Separated lo hi l₁ ∧ Separated lo hi l₂ ∧ ∀ x ∈ l₁, ∀ y ∈ l₂, hi x < lo y := by
  simp only [Separated, List.pairwise_append, List.mem_append]
  constructor
  · rintro ⟨hne, h₁, h₂, h₁₂⟩
    exact ⟨⟨fun x hx => hne x (Or.inl hx), h₁⟩, ⟨fun x hx => hne x (Or.inr hx), h₂⟩, h₁₂⟩
  · rintro ⟨⟨hn₁, h₁⟩, ⟨hn₂, h₂⟩, h₁₂⟩
    exact ⟨fun x hx => hx.elim (hn₁ x) (hn₂ x), h₁, h₂, h₁₂⟩

theorem separated_cons :
    Separated lo hi (x :: l) ↔
      lo x < hi x ∧ Separated lo hi l ∧ ∀ y ∈ l, hi x < lo y := by
  rw [← List.singleton_append, separated_append, separated_singleton]
  simp

theorem Separated.lt (h : Separated lo hi l) (hx : x ∈ l) :
    lo x < hi x := h.1 x hx

/-- The two halves of a separated list cover disjoint sets. -/
theorem Separated.disjoint_append (h : Separated lo hi (l₁ ++ l₂)) :
    Disjoint (cover lo hi l₁) (cover lo hi l₂) := by
  rw [Set.disjoint_left]
  rintro a ⟨x, hx, hxa, hax⟩ ⟨y, hy, hya, -⟩
  have hxy := (separated_append.mp h).2.2 x hx y hy
  order

/-- Two positions of a separated list hold disjoint intervals. -/
theorem Separated.pairwise_disjoint (h : Separated lo hi l) :
    l.Pairwise (fun x y => Disjoint (Set.Ico (lo x) (hi x)) (Set.Ico (lo y) (hi y))) := by
  refine h.2.imp ?_
  intro x y hxy
  rw [Set.disjoint_left]
  rintro a ⟨-, hax⟩ ⟨hya, -⟩
  order

/-! ## Replacing the middle of a list -/

/-- The middle part may be replaced by any separated part that keeps its
distance from both sides. -/
theorem Separated.replace {m' : List ι}
    (h : Separated lo hi (l₁ ++ (m ++ l₂))) (hm' : Separated lo hi m')
    (hl : ∀ x ∈ l₁, ∀ y ∈ m', hi x < lo y) (hr : ∀ y ∈ m', ∀ z ∈ l₂, hi y < lo z) :
    Separated lo hi (l₁ ++ (m' ++ l₂)) := by
  obtain ⟨h₁, hm₂, h₁₂⟩ := separated_append.mp h
  obtain ⟨-, h₂, -⟩ := separated_append.mp hm₂
  refine separated_append.mpr ⟨h₁, separated_append.mpr ⟨hm', h₂, hr⟩, ?_⟩
  intro x hx y hy
  rcases List.mem_append.mp hy with hy | hy
  · exact hl x hx y hy
  · exact h₁₂ x hx y (List.mem_append_right _ hy)

theorem cover_replace_union {n : List ι} {s : Set α}
    (h : cover lo hi n = cover lo hi m ∪ s) :
    cover lo hi (l₁ ++ (n ++ l₂)) = cover lo hi (l₁ ++ (m ++ l₂)) ∪ s := by
  simp only [cover_append, h]
  ext a
  simp only [Set.mem_union]
  tauto

/-- Removing a set that lies inside the middle part removes it from the whole. -/
theorem cover_replace_diff {m' : List ι} {s : Set α}
    (hsep : Separated lo hi (l₁ ++ (m ++ l₂))) (hs : s ⊆ cover lo hi m)
    (h : cover lo hi m' = cover lo hi m \ s) :
    cover lo hi (l₁ ++ (m' ++ l₂)) = cover lo hi (l₁ ++ (m ++ l₂)) \ s := by
  have hd₁ : Disjoint (cover lo hi l₁) s :=
    hsep.disjoint_append.mono_right (hs.trans (by simp))
  have hd₂ : Disjoint s (cover lo hi l₂) :=
    ((separated_append.mp hsep).2.1.disjoint_append).mono_left hs
  rw [Set.disjoint_left] at hd₁ hd₂
  simp only [cover_append, h]
  ext a
  simp only [Set.mem_union, Set.mem_sdiff]
  have := @hd₁ a
  have := @hd₂ a
  tauto

/-! ## One interval against a list -/

/-- An interval placed between two halves that leave room for it meets no
covered point. -/
theorem disjoint_cover_of_gap
    (h₁ : ∀ x ∈ l₁, hi x ≤ a) (h₂ : ∀ y ∈ l₂, b ≤ lo y) :
    Disjoint (Set.Ico a b) (cover lo hi (l₁ ++ l₂)) := by
  rw [Set.disjoint_left]
  rintro c ⟨hac, hcb⟩ ⟨x, hx, hxc, hcx⟩
  rcases List.mem_append.mp hx with hx | hx
  · have := h₁ x hx; order
  · have := h₂ x hx; order

/-- A non-empty interval of covered points lies within one entry. -/
theorem Separated.exists_of_Ico_subset (h : Separated lo hi l)
    (hab : a < b) (hs : Set.Ico a b ⊆ cover lo hi l) :
    ∃ l₁ x l₂, l = l₁ ++ x :: l₂ ∧ lo x ≤ a ∧ b ≤ hi x := by
  obtain ⟨x, hx, hxa, hax⟩ := hs ⟨le_refl a, hab⟩
  obtain ⟨l₁, l₂, rfl⟩ := List.append_of_mem hx
  refine ⟨l₁, x, l₂, rfl, hxa, ?_⟩
  by_contra hlt
  -- the end of `x` would be a covered point
  obtain ⟨y, hy, hyx, hxy⟩ := hs ⟨le_of_lt hax, not_le.mp hlt⟩
  obtain ⟨-, h₂, h₁₂⟩ := separated_append.mp h
  have hxx := h.lt hx
  rcases List.mem_append.mp hy with hy | hy
  · have := h₁₂ y hy x List.mem_cons_self; order
  · rcases List.mem_cons.mp hy with rfl | hy
    · order
    · have := (separated_cons.mp h₂).2.2 y hy; order

/-- Cutting `[a, b)` out of `[p, q)` leaves the two outer pieces. -/
theorem Ico_diff_Ico_of_subset {p q : α} (hpa : p ≤ a) (hab : a < b) (hbq : b ≤ q) :
    Set.Ico p q \ Set.Ico a b = Set.Ico p a ∪ Set.Ico b q := by
  ext c
  simp only [Set.mem_sdiff, Set.mem_Ico, Set.mem_union, not_and, not_lt]
  constructor
  · rintro ⟨⟨hpc, hcq⟩, hc⟩
    rcases lt_or_ge c a with h | h
    · exact Or.inl ⟨hpc, h⟩
    · exact Or.inr ⟨hc h, hcq⟩
  · rintro (⟨hpc, hca⟩ | ⟨hbc, hcq⟩)
    · exact ⟨⟨hpc, by order⟩, fun h => absurd hca (by order)⟩
    · exact ⟨⟨by order, hcq⟩, fun _ => hbc⟩

end Unisym.Intervals
