/-
# `Reorder` — sorting by exchanges

A comparison `cmp` gives a sign.  A list is sorted if `cmp a b ≤ 0` for each `a` before a `b`, and a list is a stable
reordering of another one (`Stable`) if it is a permutation in which the items that are equal to any one item stand
in the same order.  Exchanging neighbours that are in the wrong order is stable.

`LeAt` compares two places of a list; `leAt_swap` says what an exchange does to it.
-/
import Mathlib.Data.List.Perm.Basic

namespace Unisym.Reorder

open List

variable {α : Type}

/-! ## Exchanges -/

/-- The exchange of two items with a list between them. -/
theorem swap_append (p : List α) (x : α) (m : List α) (y : α) (q : List α) {i j : Nat} (hi : i = p.length)
    (hj : j = p.length + (m.length + 1)) : (p ++ x :: m ++ y :: q).swap i j = p ++ y :: m ++ x :: q := by
  subst hi hj
  induction p with
  | nil =>
    have hy : (m ++ y :: q)[m.length]? = some y := by
      rw [getElem?_append_right (Nat.le_refl _), Nat.sub_self]
      rfl
    rw [length_nil, Nat.zero_add]
    show (m ++ y :: q)[m.length]?.getD x :: (m ++ y :: q).set m.length x = _
    rw [hy, set_append_right _ _ (Nat.le_refl _), Nat.sub_self]
    rfl
  | cons a p ih =>
    have hlen : (a :: p).length + (m.length + 1) = p.length + (m.length + 1) + 1 := by
      rw [length_cons]
      omega
    rw [hlen, length_cons]
    exact congrArg (a :: ·) ih

/-- The place that an exchange takes the item of the place `k` from. -/
def swapPlace (i j k : Nat) : Nat := if k = i then j else if k = j then i else k

theorem getElem?_swap {xs : List α} {i j : Nat} (hi : i < xs.length) (hj : j < xs.length) (k : Nat) :
    (xs.swap i j)[k]? = xs[swapPlace i j k]? := by
  by_cases hk : k < xs.length
  · have hk' : k < (xs.swap i j).length := by rwa [length_swap]
    rw [getElem?_eq_getElem hk', getElem_swap hk', swapPlace]
    by_cases hki : k = i
    · rw [dif_pos ⟨hki, hj⟩, if_pos hki, getElem?_eq_getElem hj]
    · rw [dif_neg fun h => hki h.1, if_neg hki]
      by_cases hkj : k = j
      · rw [dif_pos ⟨hkj, hi⟩, if_pos hkj, getElem?_eq_getElem hi]
      · rw [dif_neg fun h => hkj h.1, if_neg hkj, getElem?_eq_getElem hk]
  · rw [swapPlace, if_neg (by omega), if_neg (by omega), getElem?_eq_none (by rw [length_swap]; omega),
      getElem?_eq_none (by omega)]

/-! ## Comparisons -/

/-- A comparison of a total preorder. -/
structure Compares (cmp : α → α → Int) : Prop where
  flip : ∀ a b, cmp a b < 0 ↔ 0 < cmp b a
  trans : ∀ a b c, cmp a b ≤ 0 → cmp b c ≤ 0 → cmp a c ≤ 0

namespace Compares

variable {cmp : α → α → Int} (h : Compares cmp)

include h

theorem refl (a : α) : cmp a a ≤ 0 := by
  have := h.flip a a
  omega

theorem symm {a b : α} (hab : cmp a b = 0) : cmp b a = 0 := by
  have h₁ := h.flip a b
  have h₂ := h.flip b a
  omega

theorem lt_of_not_le {a b : α} (hab : ¬cmp a b ≤ 0) : cmp b a < 0 := (h.flip b a).mpr (by omega)

theorem le_of_not_lt {a b : α} (hab : ¬cmp a b < 0) : cmp b a ≤ 0 := by
  have := h.flip a b
  omega

end Compares

/-- The list is sorted. -/
abbrev Sorted (cmp : α → α → Int) (xs : List α) : Prop := xs.Pairwise fun a b => cmp a b ≤ 0

/-- A permutation that keeps the order of equal items. -/
structure Stable (cmp : α → α → Int) (xs ys : List α) : Prop where
  perm : ys.Perm xs
  equal : ∀ x, ys.filter (fun y => cmp x y = 0) = xs.filter (fun y => cmp x y = 0)

namespace Stable

variable {cmp : α → α → Int} {xs ys zs : List α}

theorem refl (xs : List α) : Stable cmp xs xs := ⟨.refl xs, fun _ => rfl⟩

theorem trans (h : Stable cmp xs ys) (h' : Stable cmp ys zs) : Stable cmp xs zs :=
  ⟨h'.perm.trans h.perm, fun x => (h'.equal x).trans (h.equal x)⟩

theorem append_left (h : Stable cmp xs ys) (p : List α) : Stable cmp (p ++ xs) (p ++ ys) :=
  ⟨h.perm.append_left p, fun x => by rw [filter_append, filter_append, h.equal]⟩

theorem append_right (h : Stable cmp xs ys) (q : List α) : Stable cmp (xs ++ q) (ys ++ q) :=
  ⟨h.perm.append_right q, fun x => by rw [filter_append, filter_append, h.equal]⟩

theorem cons (h : Stable cmp xs ys) (a : α) : Stable cmp (a :: xs) (a :: ys) := h.append_left [a]

/-- An item goes before greater ones. -/
theorem front (hc : Compares cmp) {l : List α} {b : α} (hl : ∀ a ∈ l, 0 < cmp a b) (r : List α) :
    Stable cmp (l ++ b :: r) (b :: l ++ r) := by
  refine ⟨perm_middle.symm, fun x => ?_⟩
  rw [cons_append, filter_append, filter_cons, filter_cons, filter_append]
  by_cases hxb : cmp x b = 0
  · -- then nothing before `b` is equal to `x`
    have hnone : l.filter (fun y => cmp x y = 0) = [] := filter_eq_nil_iff.mpr fun a ha hxa => by
      have hxa : cmp x a = 0 := of_decide_eq_true hxa
      have hax := hc.symm hxa
      have := hc.trans a x b (Int.le_of_eq hax) (Int.le_of_eq hxb)
      have := hl a ha
      omega
    rw [hnone]
    rfl
  · simp [hxb]

end Stable

/-! ## Places -/

/-- The item of one place is at most that of the other. -/
def LeAt (cmp : α → α → Int) (xs : List α) (i j : Nat) : Prop :=
  ∀ a b, xs[i]? = some a → xs[j]? = some b → cmp a b ≤ 0

theorem leAt_refl {cmp : α → α → Int} (hc : Compares cmp) (xs : List α) (i : Nat) : LeAt cmp xs i i := by
  intro a b ha hb
  rw [Option.some.inj (ha.symm.trans hb)]
  exact hc.refl b

theorem LeAt.trans {cmp : α → α → Int} (hc : Compares cmp) {xs : List α} {i j k : Nat} (hj : j < xs.length)
    (h : LeAt cmp xs i j) (h' : LeAt cmp xs j k) : LeAt cmp xs i k := fun a c ha hc' =>
  have hb : xs[j]? = some xs[j] := getElem?_eq_getElem hj
  hc.trans a _ c (h a _ ha hb) (h' _ c hb hc')

theorem leAt_swap {cmp : α → α → Int} {xs : List α} {i j : Nat} (hi : i < xs.length) (hj : j < xs.length) (a b : Nat) :
    LeAt cmp (xs.swap i j) a b ↔ LeAt cmp xs (swapPlace i j a) (swapPlace i j b) := by
  rw [LeAt, LeAt, getElem?_swap hi hj, getElem?_swap hi hj]

theorem sorted_iff_leAt {cmp : α → α → Int} {xs : List α} :
    Sorted cmp xs ↔ ∀ i j, i < j → j < xs.length → LeAt cmp xs i j := by
  rw [Sorted, pairwise_iff_getElem]
  constructor
  · intro h i j hij hj a b ha hb
    have hi : i < xs.length := Nat.lt_trans hij hj
    have := h i j hi hj hij
    rw [getElem?_eq_getElem hi] at ha
    rw [getElem?_eq_getElem hj] at hb
    rwa [Option.some.inj ha, Option.some.inj hb] at this
  · intro h i j hi hj hij
    exact h i j hij hj _ _ (getElem?_eq_getElem hi) (getElem?_eq_getElem hj)

end Unisym.Reorder
