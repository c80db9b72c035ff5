/-
# `SortSpec` — the modes, and when the items come out sorted

`SortSelection` and `SortBintree` exchange distant places, and their invariants are about places (`LeAt`): after
each round the items of the finished part are in order and beyond all others.  `SortBintreeAdapt` brings the
greatest item under a place (`Under`) to the place.  `SortQuickSub` cuts its part around the key.

`SortBintree` makes a heap of all items but the last before it moves the first behind the others, so the last item
must not be greater than all others; and for an empty array `SortInsertion` and `SortSelection` count up to
`2 ^ 64 - 1`.  Everything else comes out sorted (`sort_correct_iff`).
-/
import Unisym.Algorithm.SortStable

namespace Unisym.Sorting

open Reorder List

namespace ArrayTrait

variable {α : Type} {arr : ArrayTrait α} {cmp : α → α → Int} {s : arr.State}

theorem compare_leAt (hc : Compares cmp) {i j : Nat} (hi : i < arr.Length s) (hj : j < arr.Length s) :
    ∃ v, arr.compare cmp s i j = some v ∧ (v ≤ 0 → LeAt cmp (arr.items s) i j) ∧
      (¬v < 0 → LeAt cmp (arr.items s) j i) := by
  have ha : (arr.items s)[i]? = some (arr.items s)[i] := getElem?_eq_getElem hi
  have hb : (arr.items s)[j]? = some (arr.items s)[j] := getElem?_eq_getElem hj
  refine ⟨cmp (arr.items s)[i] (arr.items s)[j], by rw [compare, ha, hb]; rfl, fun hle a b ha' hb' => ?_,
    fun hnot a b ha' hb' => ?_⟩
  · rwa [← Option.some.inj (ha.symm.trans ha'), ← Option.some.inj (hb.symm.trans hb')]
  · rw [← Option.some.inj (hb.symm.trans ha'), ← Option.some.inj (ha.symm.trans hb')]
    exact hc.le_of_not_lt hnot

/-! ## `SortSelection` -/

theorem findLeast_spec (hc : Compares cmp) {i : Nat} :
    ∀ (n j clim : Nat), j + n ≤ arr.Length s → i ≤ clim → clim < j →
      (∀ k, i ≤ k → k < j → LeAt cmp (arr.items s) clim k) →
      ∃ c, findLeast arr cmp s n j clim = some c ∧ i ≤ c ∧ c < j + n ∧
        ∀ k, i ≤ k → k < j + n → LeAt cmp (arr.items s) c k
  | 0, j, clim, _, hi, hlt, hleast => ⟨clim, rfl, hi, hlt, hleast⟩
  | n + 1, j, clim, hlen, hi, hlt, hleast => by
    obtain ⟨v, hcmp, hle, hge⟩ := compare_leAt hc (s := s) (i := clim) (j := j) (by omega) (by omega)
    have hsucc : j + 1 + n = j + (n + 1) := by omega
    rw [findLeast, hcmp, some_bind]
    by_cases hgt : v > 0
    · rw [if_pos hgt]
      have hjc : LeAt cmp (arr.items s) j clim := hge (by omega)
      have h := findLeast_spec hc (i := i) n (j + 1) j (by omega) (by omega) (Nat.lt_succ_self j) fun k hk hkj => by
        rcases Nat.lt_succ_iff_lt_or_eq.mp hkj with hkj | rfl
        · exact hjc.trans hc (Nat.lt_of_lt_of_le hlt (by rw [Length] at hlen; omega)) (hleast k hk hkj)
        · exact leAt_refl hc _ _
      rwa [hsucc] at h
    · rw [if_neg hgt]
      have h := findLeast_spec hc (i := i) n (j + 1) clim (by omega) hi (by omega) fun k hk hkj => by
        rcases Nat.lt_succ_iff_lt_or_eq.mp hkj with hkj | rfl
        · exact hleast k hk hkj
        · exact hle (by omega)
      rwa [hsucc] at h

/-- The first `i` items are in order, and at most the others. -/
def LeastFirst (cmp : α → α → Int) (xs : List α) (i : Nat) : Prop :=
  ∀ a b, a < i → a < b → b < xs.length → LeAt cmp xs a b

theorem LeastFirst.swap {xs : List α} {i c : Nat} (h : LeastFirst cmp xs i) (hi : i ≤ c) (hc' : c < xs.length)
    (hleast : ∀ k, i ≤ k → k < xs.length → LeAt cmp xs c k) : LeastFirst cmp (xs.swap i c) (i + 1) := by
  intro a b ha hab hb
  rw [length_swap] at hb
  rw [leAt_swap (by omega) hc']
  have hplace : swapPlace i c b < xs.length ∧ (i ≤ a → i ≤ swapPlace i c b) ∧ (a < i → a < swapPlace i c b) := by
    rw [swapPlace]
    split
    · omega
    · split <;> omega
  rcases Nat.lt_succ_iff_lt_or_eq.mp ha with hai | rfl
  · have hsame : swapPlace i c a = a := by
      rw [swapPlace, if_neg (by omega), if_neg (by omega)]
    rw [hsame]
    exact h a _ hai (hplace.2.2 hai) hplace.1
  · rw [show swapPlace a c a = c from if_pos rfl]
    exact hleast _ (hplace.2.1 (Nat.le_refl a)) hplace.1

theorem selectionLoop_spec (hc : Compares cmp) :
    ∀ (n i : Nat) (s : arr.State), i + n + 1 = arr.Length s → LeastFirst cmp (arr.items s) i →
      ∃ s', selectionLoop arr cmp (arr.Length s) n i s = some s' ∧ (arr.items s').Perm (arr.items s) ∧
        Sorted cmp (arr.items s')
  | 0, i, s, hlen, hfirst => ⟨s, rfl, .refl _, sorted_iff_leAt.mpr fun a b hab hb =>
    hfirst a b (by rw [Length] at hlen; omega) hab hb⟩
  | n + 1, i, s, hlen, hfirst => by
    have hn : i + 1 + (arr.Length s - (i + 1)) = arr.Length s := by omega
    obtain ⟨c, hfind, hic, hcl, hleast⟩ := findLeast_spec hc (s := s) (i := i) (arr.Length s - (i + 1)) (i + 1) i
      (Nat.le_of_eq hn) (Nat.le_refl i) (Nat.lt_succ_self i) fun k hk hki => by
        rw [show k = i by omega]
        exact leAt_refl hc _ _
    rw [hn] at hcl hleast
    obtain ⟨s₁, hex, hs₁⟩ := exchange_eq (s := s) (i := i) (j := c) (by omega) hcl
    have hlen₁ : arr.Length s₁ = arr.Length s := by rw [Length, hs₁, length_swap, Length]
    obtain ⟨s', hrun, hperm, hso⟩ := selectionLoop_spec hc n (i + 1) s₁ (by omega)
      (hs₁ ▸ hfirst.swap hic hcl hleast)
    rw [hlen₁] at hrun
    refine ⟨s', ?_, hperm.trans (hs₁ ▸ swap_perm _ _ _), hso⟩
    simp only [selectionLoop, hfind, hex, some_bind, hrun]

theorem SortSelection_spec (hc : Compares cmp) (s : arr.State) (hpos : 0 < arr.Length s) :
    ∃ s', SortSelection arr cmp s = some s' ∧ (arr.items s').Perm (arr.items s) ∧ Sorted cmp (arr.items s') := by
  rw [SortSelection, sub_one hpos (arr.length_lt s)]
  exact selectionLoop_spec hc (arr.Length s - 1) 0 s (by omega) fun a _ ha => absurd ha (Nat.not_lt_zero a)

/-! ## `SortBintree` -/

/-- The place `k` is in the tree under the place `i`. -/
inductive Under (i : Nat) : Nat → Prop
  | self : Under i i
  | child {j k : Nat} : Under i j → (k = 2 * j + 1 ∨ k = 2 * j + 2) → Under i k

theorem Under.le {i k : Nat} (h : Under i k) : i ≤ k := by
  induction h with
  | self => exact Nat.le_refl i
  | child _ hk ih => omega

theorem Under.trans {i j k : Nat} (h : Under i j) (h' : Under j k) : Under i k := by
  induction h' with
  | self => exact h
  | child _ hk ih => exact .child ih hk

theorem Under.cases {i k : Nat} (h : Under i k) : k = i ∨ Under (2 * i + 1) k ∨ Under (2 * i + 2) k := by
  induction h with
  | self => exact .inl rfl
  | child _ hk ih =>
    rcases ih with rfl | ih | ih
    · rcases hk with rfl | rfl
      · exact .inr (.inl .self)
      · exact .inr (.inr .self)
    · exact .inr (.inl (.child ih hk))
    · exact .inr (.inr (.child ih hk))

theorem Under.disjoint {i k : Nat} (h : Under (2 * i + 1) k) (h' : Under (2 * i + 2) k) : False := by
  induction h with
  | self => exact absurd h'.le (by omega)
  | @child j k hj hk ih =>
    cases h' with
    | self =>
      have hji : j = i := by omega
      exact absurd (hji ▸ hj).le (by omega)
    | @child j' _ hj' hk' =>
      have hjj : j' = j := by omega
      exact ih (hjj ▸ hj')

theorem under_zero (k : Nat) : Under 0 k := by
  induction k using Nat.strongRecOn with
  | ind k ih =>
    cases k with
    | zero => exact .self
    | succ k => exact .child (ih (k / 2) (by omega)) (by omega)

/-- No item under a place, up to `count`, is greater than its item. -/
def Tops (cmp : α → α → Int) (xs : List α) (count i : Nat) : Prop := ∀ k, k < count → Under i k → LeAt cmp xs k i

/-- A reordering of the items of the places `W`. -/
structure Within (W : Nat → Prop) (xs ys : List α) : Prop where
  perm : ys.Perm xs
  same : ∀ k, ¬W k → ys[k]? = xs[k]?

namespace Within

variable {W W' : Nat → Prop} {xs ys zs : List α}

theorem refl (xs : List α) : Within W xs xs := ⟨.refl _, fun _ _ => rfl⟩

theorem trans (h : Within W xs ys) (h' : Within W ys zs) : Within W xs zs :=
  ⟨h'.perm.trans h.perm, fun k hk => (h'.same k hk).trans (h.same k hk)⟩

theorem mono (h : Within W xs ys) (hW : ∀ k, W k → W' k) : Within W' xs ys :=
  ⟨h.perm, fun k hk => h.same k (mt (hW k) hk)⟩

theorem swap {i j : Nat} (hi : i < xs.length) (hj : j < xs.length) (hWi : W i) (hWj : W j) :
    Within W xs (xs.swap i j) :=
  ⟨swap_perm _ _ _, fun k hk => by
    rw [getElem?_swap hi hj, swapPlace, if_neg, if_neg]
    · rintro rfl
      exact hk hWj
    · rintro rfl
      exact hk hWi⟩

theorem length (h : Within W xs ys) : ys.length = xs.length := h.perm.length_eq

theorem leAt (h : Within W xs ys) {i j : Nat} (hi : ¬W i) (hj : ¬W j) :
    LeAt cmp ys i j ↔ LeAt cmp xs i j := by
  rw [LeAt, LeAt, h.same i hi, h.same j hj]

theorem append (xs : List α) {q : List α} (h : Within (· < xs.length) (xs ++ q) zs) : ∃ ys, zs = ys ++ q ∧ ys.Perm xs := by
  have hdrop : zs.drop xs.length = q := ext_getElem? fun k => by
    rw [getElem?_drop, h.same _ (Nat.not_lt.mpr (Nat.le_add_right _ _)),
      getElem?_append_right (Nat.le_add_right _ _), Nat.add_sub_cancel_left]
  have hcat : zs = zs.take xs.length ++ q := by
    conv => lhs; rw [← take_append_drop xs.length zs, hdrop]
  refine ⟨zs.take xs.length, hcat, (perm_append_right_iff q).mp ?_⟩
  rw [← hcat]
  exact h.perm

end Within

/-- The exchange of a place and one under it that is greater, or none. -/
theorem raise_spec (hc : Compares cmp) {i j : Nat} (hi : i < arr.Length s) (hj : j < arr.Length s) :
    ∃ s', raise arr cmp s i j = some s' ∧
      (arr.items s' = arr.items s ∧ LeAt cmp (arr.items s) j i ∨
        arr.items s' = (arr.items s).swap i j ∧ LeAt cmp (arr.items s) i j) := by
  obtain ⟨v, hcmp, hle, hge⟩ := compare_leAt hc hi hj
  rw [raise, hcmp, some_bind]
  by_cases hlt : v < 0
  · obtain ⟨s', hex, hs'⟩ := exchange_eq hi hj
    rw [if_pos hlt]
    exact ⟨s', hex, .inr ⟨hs', hle (by omega)⟩⟩
  · rw [if_neg hlt]
    exact ⟨s, rfl, .inl ⟨rfl, hge hlt⟩⟩

/-- A child that tops its tree is compared with its parent, which tops the places `W` besides. -/
theorem raise_tops (hc : Compares cmp) {count index child : Nat} {W : Nat → Prop}
    (hchild : child = 2 * index + 1 ∨ child = 2 * index + 2) (hcount : child < count) (hlen : count ≤ arr.Length s)
    (htops : Tops cmp (arr.items s) count child)
    (hW : ∀ k, k < count → W k → LeAt cmp (arr.items s) k index) :
    ∃ s', raise arr cmp s index child = some s' ∧
      Within (fun k => k < count ∧ Under index k) (arr.items s) (arr.items s') ∧
      ∀ k, k < count → k = index ∨ W k ∨ Under child k → LeAt cmp (arr.items s') k index := by
  have hic : index < child := by omega
  have hi : index < arr.Length s := by omega
  have hj : child < arr.Length s := by omega
  have hunder : Under index child := .child .self hchild
  obtain ⟨s', hrun, hs⟩ := raise_spec hc hi hj
  refine ⟨s', hrun, ?_⟩
  rcases hs with ⟨hs, hle⟩ | ⟨hs, hle⟩
  · refine ⟨hs ▸ .refl _, fun k hk hor => ?_⟩
    rw [hs]
    rcases hor with rfl | hWk | hUk
    · exact leAt_refl hc _ _
    · exact hW k hk hWk
    · exact (htops k hk hUk).trans hc hj hle
  · refine ⟨hs ▸ .swap hi hj ⟨by omega, .self⟩ ⟨hcount, hunder⟩, fun k hk hor => ?_⟩
    rw [hs, leAt_swap hi hj, show swapPlace index child index = child from if_pos rfl, swapPlace]
    by_cases hki : k = index
    · rw [if_pos hki]
      exact leAt_refl hc _ _
    · rw [if_neg hki]
      by_cases hkc : k = child
      · rw [if_pos hkc]
        exact hle
      · rw [if_neg hkc]
        rcases hor with hor | hWk | hUk
        · exact absurd hor hki
        · exact (hW k hk hWk).trans hc hi hle
        · exact htops k hk hUk

/-- `SortBintreeAdapt` reorders the tree under the place, so that the place tops it. -/
theorem SortBintreeAdapt_spec (hc : Compares cmp) (count : Nat) :
    ∀ (depth index : Nat) (s : arr.State), count < index + depth → 0 < depth → count ≤ arr.Length s →
      ∃ s', SortBintreeAdapt arr cmp count depth index s = some s' ∧
        Within (fun k => k < count ∧ Under index k) (arr.items s) (arr.items s') ∧
        Tops cmp (arr.items s') count index
  | 0, _, _, _, hpos, _ => absurd hpos (Nat.lt_irrefl 0)
  | depth + 1, index, s, hdepth, _, hlen => by
    have hstay : count ≤ 2 * index + 1 → Tops cmp (arr.items s) count index := fun hle k hk hUk => by
      rcases hUk.cases with rfl | hUk | hUk
      · exact leAt_refl hc _ _
      · exact absurd hUk.le (by omega)
      · exact absurd hUk.le (by omega)
    rw [SortBintreeAdapt]
    by_cases hshort : count < 2
    · rw [if_pos hshort]
      exact ⟨s, rfl, .refl _, hstay (by omega)⟩
    rw [if_neg hshort]
    by_cases hleft : 2 * index + 1 < count
    · rw [if_pos hleft]
      -- the left child
      obtain ⟨s₁, hrun₁, hw₁, ht₁⟩ := SortBintreeAdapt_spec hc count depth (2 * index + 1) s (by omega) (by omega) hlen
      have hlen₁ : count ≤ arr.Length s₁ := by rw [Length, hw₁.length]; exact hlen
      obtain ⟨s₂, hrun₂, hw₂, ht₂⟩ := raise_tops hc (W := fun _ => False) (.inl rfl) hleft hlen₁ ht₁
        (fun _ _ h => h.elim)
      have hw₁₂ := (hw₁.mono fun k hk => ⟨hk.1, (Under.child .self (.inl rfl)).trans hk.2⟩).trans hw₂
      simp only [hrun₁, hrun₂, Option.bind_eq_bind, Option.bind_some]
      by_cases hright : 2 * index + 2 < count
      · rw [if_pos hright]
        -- the right child
        have hlen₂ : count ≤ arr.Length s₂ := by rw [Length, hw₁₂.length]; exact hlen
        obtain ⟨s₃, hrun₃, hw₃, ht₃⟩ := SortBintreeAdapt_spec hc count depth (2 * index + 2) s₂ (by omega) (by omega)
          hlen₂
        have hlen₃ : count ≤ arr.Length s₃ := by rw [Length, hw₃.length]; exact hlen₂
        have hapart : ∀ k, Under (2 * index + 1) k → ¬(k < count ∧ Under (2 * index + 2) k) :=
          fun k hk hk' => hk.disjoint hk'.2
        have hindex : ¬(index < count ∧ Under (2 * index + 2) index) := fun h => absurd h.2.le (by omega)
        obtain ⟨s₄, hrun₄, hw₄, ht₄⟩ := raise_tops hc (W := Under (2 * index + 1)) (.inr rfl) hright hlen₃ ht₃
          (fun k hk hWk => (hw₃.leAt (hapart k hWk) hindex).mpr (ht₂ k hk (.inr (.inr hWk))))
        simp only [hrun₃, hrun₄, Option.bind_some]
        refine ⟨s₄, rfl, (hw₁₂.trans (hw₃.mono fun k hk => ⟨hk.1, (Under.child .self (.inr rfl)).trans hk.2⟩)).trans
          hw₄, fun k hk hUk => ht₄ k hk hUk.cases⟩
      · rw [if_neg hright]
        refine ⟨s₂, rfl, hw₁₂, fun k hk hUk => ht₂ k hk ?_⟩
        rcases hUk.cases with hUk | hUk | hUk
        · exact .inl hUk
        · exact .inr (.inr hUk)
        · exact absurd hUk.le (by omega)
    · simp only [if_neg hleft, if_neg (show ¬2 * index + 2 < count by omega), some_bind]
      exact ⟨s, rfl, .refl _, hstay (by omega)⟩

/-- The loop that selects the bigger ones: what was greatest of the places up to `i` is among the first afterwards. -/
theorem selectBigger_spec (hc : Compares cmp) (last : Nat) :
    ∀ (i : Nat) (s : arr.State), i ≤ last → last < arr.Length s →
      (∀ k, i < k → k ≤ last → ∃ j, j ≤ i ∧ LeAt cmp (arr.items s) k j) →
      ∃ s', selectBigger arr cmp i s = some s' ∧ Within (· ≤ last) (arr.items s) (arr.items s') ∧
        ∀ k, k ≤ last → LeAt cmp (arr.items s') k 0
  | 0, s, _, _, htop => ⟨s, rfl, .refl _, fun k hk => by
    rcases Nat.eq_zero_or_pos k with rfl | hpos
    · exact leAt_refl hc _ _
    · obtain ⟨j, hj, hle⟩ := htop k hpos hk
      rwa [Nat.le_zero.mp hj] at hle⟩
  | i + 1, s, hi, hlast, htop => by
    have hp : i / 2 < arr.Length s := by omega
    have hi' : i + 1 < arr.Length s := by omega
    obtain ⟨s₁, hrun₁, hs₁⟩ := raise_spec hc hp hi'
    have hw₁ : Within (· ≤ last) (arr.items s) (arr.items s₁) := by
      rcases hs₁ with ⟨hs₁, -⟩ | ⟨hs₁, -⟩
      · exact hs₁ ▸ .refl _
      · exact hs₁ ▸ .swap hp hi' (by omega) hi
    have htop₁ : ∀ k, i < k → k ≤ last → ∃ j, j ≤ i ∧ LeAt cmp (arr.items s₁) k j := by
      intro k hk hkl
      rcases hs₁ with ⟨hs₁, hle⟩ | ⟨hs₁, hle⟩
      · rw [hs₁]
        rcases Nat.lt_or_eq_of_le (Nat.succ_le_of_lt hk) with hlt | rfl
        · obtain ⟨j, hj, hkj⟩ := htop k hlt hkl
          rcases Nat.lt_or_eq_of_le hj with hj | rfl
          · exact ⟨j, by omega, hkj⟩
          · exact ⟨i / 2, Nat.div_le_self _ _, hkj.trans hc hi' hle⟩
        · exact ⟨i / 2, Nat.div_le_self _ _, hle⟩
      · -- the parent has the greater item now
        have hparent : swapPlace (i / 2) (i + 1) (i / 2) = i + 1 := if_pos rfl
        rw [hs₁]
        rcases Nat.lt_or_eq_of_le (Nat.succ_le_of_lt hk) with hlt | rfl
        · have hsame : swapPlace (i / 2) (i + 1) k = k := by
            rw [swapPlace, if_neg (by omega), if_neg (by omega)]
          obtain ⟨j, hj, hkj⟩ := htop k hlt hkl
          by_cases hjp : j = i / 2 ∨ j = i + 1
          · refine ⟨i / 2, Nat.div_le_self _ _, ?_⟩
            rw [leAt_swap hp hi', hsame, hparent]
            rcases hjp with rfl | rfl
            · exact hkj.trans hc hp hle
            · exact hkj
          · refine ⟨j, by omega, ?_⟩
            rw [leAt_swap hp hi', hsame, swapPlace, if_neg (by omega), if_neg (by omega)]
            exact hkj
        · refine ⟨i / 2, Nat.div_le_self _ _, ?_⟩
          have hchild : swapPlace (i / 2) (i + 1) (i + 1) = i / 2 := by
            rw [swapPlace, if_neg (by omega), if_pos rfl]
          rw [leAt_swap hp hi', hparent, hchild]
          exact hle
    obtain ⟨s', hrun, hw, htop'⟩ := selectBigger_spec hc last i s₁ (by omega) (by rw [Length, hw₁.length]; exact hlast)
      htop₁
    refine ⟨s', ?_, hw₁.trans hw, htop'⟩
    rw [selectBigger, hrun₁]
    exact hrun

/-- The items from `count` on are in order, and at least the others. -/
def GreatestLast (cmp : α → α → Int) (xs : List α) (count : Nat) : Prop :=
  ∀ a b, a < b → count ≤ b → b < xs.length → LeAt cmp xs a b

theorem GreatestLast.within {xs ys : List α} {count : Nat} (h : GreatestLast cmp xs count)
    (hw : Within (· < count) xs ys) (hcount : count ≤ xs.length) : GreatestLast cmp ys count := by
  intro a b hab hb hbl x y hx hy
  rw [hw.same b (Nat.not_lt.mpr hb)] at hy
  rw [hw.length] at hbl
  -- wherever the item was before, it is at most the one of the place `b`
  by_cases ha : a < count
  · have htake : (xs.take count).length = count := length_take_of_le hcount
    have hcut : Within (· < (xs.take count).length) (xs.take count ++ xs.drop count) ys := by
      rwa [htake, take_append_drop]
    obtain ⟨zs, rfl, hperm⟩ := Within.append _ hcut
    have hzs : zs.length = count := hperm.length_eq.trans htake
    rw [getElem?_append_left (by omega)] at hx
    obtain ⟨k, hk, hkx⟩ := getElem_of_mem (hperm.mem_iff.mp (mem_of_getElem? hx))
    rw [getElem_take] at hkx
    exact h k b (by omega) hb hbl x y (List.getElem?_eq_some_iff.mpr ⟨by omega, hkx⟩) hy
  · rw [hw.same a ha] at hx
    exact h a b hab hb hbl x y hx hy

/-- One round: the first item goes behind the others, and the greatest of them comes to the front. -/
theorem bintreeLoop_step (hc : Compares cmp) (count : Nat) (hlen : count + 1 ≤ arr.Length s) :
    ∃ s₁ s₂, arr.exchange s 0 count = some s₁ ∧ arr.items s₁ = (arr.items s).swap 0 count ∧
      SortBintreeAdapt arr cmp count (count + 1) 0 s₁ = some s₂ ∧ Within (· < count) (arr.items s₁) (arr.items s₂) ∧
      ∀ k, k < count → LeAt cmp (arr.items s₂) k 0 := by
  obtain ⟨s₁, hex, hs₁⟩ := exchange_eq (s := s) (i := 0) (j := count) (by omega) (by omega)
  obtain ⟨s₂, hrun, hw, ht⟩ := SortBintreeAdapt_spec hc count (count + 1) 0 s₁ (by omega) (by omega)
    (by rw [Length, hs₁, length_swap]; exact Nat.le_of_succ_le hlen)
  exact ⟨s₁, s₂, hex, hs₁, hrun, hw.mono fun k hk => hk.1, fun k hk => ht k hk (under_zero k)⟩

theorem bintreeLoop_sorts (hc : Compares cmp) :
    ∀ (count : Nat) (s : arr.State), count ≤ arr.Length s → GreatestLast cmp (arr.items s) count →
      (∀ k, k < count → LeAt cmp (arr.items s) k 0) →
      ∃ s', bintreeLoop arr cmp count s = some s' ∧ (arr.items s').Perm (arr.items s) ∧ Sorted cmp (arr.items s')
  | 0, s, _, hlast, _ => ⟨s, rfl, .refl _, sorted_iff_leAt.mpr fun a b hab hb => hlast a b hab (Nat.zero_le b) hb⟩
  | count + 1, s, hlen, hlast, htop => by
    obtain ⟨s₁, s₂, hex, hs₁, hrun, hw, htop₂⟩ := bintreeLoop_step hc count hlen
    have h0 : 0 < (arr.items s).length := Nat.lt_of_lt_of_le (Nat.succ_pos count) hlen
    have hlen₁ : (arr.items s₁).length = (arr.items s).length := by rw [hs₁, length_swap]
    have hlen₂ : (arr.items s₂).length = (arr.items s₁).length := hw.length
    have hlast₁ : GreatestLast cmp (arr.items s₁) count := by
      intro a b hab hb hbl
      rw [hs₁, leAt_swap h0 (Nat.lt_of_succ_le hlen)]
      rcases Nat.lt_or_eq_of_le hb with hb | rfl
      · have hsame : swapPlace 0 count b = b := by
          rw [swapPlace, if_neg (by omega), if_neg (by omega)]
        have hlt : swapPlace 0 count a < b := by
          rw [swapPlace]
          split
          · exact hb
          · split <;> omega
        rw [hsame]
        exact hlast _ b hlt hb (by omega)
      · have hfirst : swapPlace 0 count count = 0 := by
          rw [swapPlace]
          split
          · assumption
          · exact if_pos rfl
        rw [hfirst]
        refine htop _ ?_
        rw [swapPlace]
        split
        · omega
        · split <;> omega
    have hlast₂ : GreatestLast cmp (arr.items s₂) count := hlast₁.within hw (by rw [Length] at hlen; omega)
    have hlenS : count ≤ arr.Length s₂ := by
      rw [Length, hlen₂, hlen₁]
      exact Nat.le_of_succ_le hlen
    obtain ⟨s', hloop, hperm, hso⟩ := bintreeLoop_sorts hc count s₂ hlenS hlast₂ htop₂
    refine ⟨s', ?_, hperm.trans (hw.perm.trans (hs₁ ▸ swap_perm _ _ _)), hso⟩
    simp only [bintreeLoop, hex, hrun, some_bind, hloop]

/-- The rounds reorder the first `count` items, whatever they are. -/
theorem bintreeLoop_within (hc : Compares cmp) :
    ∀ (count : Nat) (s : arr.State), count ≤ arr.Length s →
      ∃ s', bintreeLoop arr cmp count s = some s' ∧ Within (· < count) (arr.items s) (arr.items s')
  | 0, s, _ => ⟨s, rfl, .refl _⟩
  | count + 1, s, hlen => by
    obtain ⟨s₁, s₂, hex, hs₁, hrun, hw, -⟩ := bintreeLoop_step hc count hlen
    have h0 : 0 < (arr.items s).length := Nat.lt_of_lt_of_le (Nat.succ_pos count) hlen
    have hw₁ : Within (· < count + 1) (arr.items s) (arr.items s₁) :=
      hs₁ ▸ .swap h0 (Nat.lt_of_succ_le hlen) (Nat.succ_pos count) (Nat.lt_succ_self count)
    have hlenS : count ≤ arr.Length s₂ := by
      rw [Length, hw.length, hw₁.length]
      exact Nat.le_of_succ_le hlen
    obtain ⟨s', hloop, hw'⟩ := bintreeLoop_within hc count s₂ hlenS
    refine ⟨s', ?_, (hw₁.trans (hw.mono fun k hk => Nat.lt_succ_of_lt hk)).trans
      (hw'.mono fun k hk => Nat.lt_succ_of_lt hk)⟩
    simp only [bintreeLoop, hex, hrun, some_bind, hloop]

/-- The last of several items is greater than all others. -/
def LastGreatest (cmp : α → α → Int) (xs : List α) : Prop :=
  ∃ ys b, xs = ys ++ [b] ∧ ys ≠ [] ∧ ∀ a ∈ ys, cmp a b < 0

/-- The items that are selected first are those before the last one. -/
theorem selectBigger_before (hc : Compares cmp) {ys : List α} {b : α} (hs : arr.items s = ys ++ [b]) (hys : ys ≠ []) :
    ∃ s₁ zs, selectBigger arr cmp (arr.Length s - 2) s = some s₁ ∧ arr.items s₁ = zs ++ [b] ∧ zs.Perm ys ∧
      ∀ k, k < ys.length → LeAt cmp (arr.items s₁) k 0 := by
  have hlen : arr.Length s = ys.length + 1 := by rw [Length, hs, length_append, length_singleton]
  have hpos : 0 < ys.length := length_pos_of_ne_nil hys
  obtain ⟨s₁, hrun, hw, htop⟩ := selectBigger_spec hc (arr.Length s - 2) (arr.Length s - 2) s
    (Nat.le_refl _) (by omega) fun k hk hk' => absurd hk (Nat.not_lt.mpr hk')
  obtain ⟨zs, hzs, hperm⟩ := Within.append ys (hs ▸ hw.mono fun k hk => by omega)
  exact ⟨s₁, zs, hrun, hzs, hperm, fun k hk => htop k (by omega)⟩

theorem SortBintree_spec (hc : Compares cmp) (s : arr.State) :
    ∃ s', SortBintree arr cmp s = some s' ∧ (arr.items s').Perm (arr.items s) ∧
      (Sorted cmp (arr.items s') ↔ ¬LastGreatest cmp (arr.items s)) := by
  rcases eq_nil_or_concat (arr.items s) with hs | ⟨ys, b, hs⟩
  · refine ⟨s, if_pos (by rw [Length, hs]; exact Nat.zero_lt_two), .refl _, ?_⟩
    rw [hs]
    refine iff_of_true List.Pairwise.nil ?_
    rintro ⟨ys, b, h, -⟩
    exact cons_ne_nil _ _ (append_eq_nil_iff.mp h.symm).2
  rw [concat_eq_append] at hs
  have hlen : arr.Length s = ys.length + 1 := by rw [Length, hs, length_append, length_singleton]
  by_cases hys : ys = []
  · subst hys
    refine ⟨s, if_pos (by rw [hlen]; exact Nat.one_lt_two), .refl _, ?_⟩
    rw [hs]
    refine iff_of_true (pairwise_singleton _ _) ?_
    rintro ⟨zs, c, h, hzs, -⟩
    exact hzs (append_inj' h rfl).1.symm
  have hpos : 0 < ys.length := length_pos_of_ne_nil hys
  obtain ⟨s₁, zs, hsel, hs₁, hperm₁, htop⟩ := selectBigger_before hc hs hys
  have hzs : zs.length = ys.length := hperm₁.length_eq
  have hlen₁ : arr.Length s₁ = arr.Length s := by
    rw [Length, hs₁, hlen, length_append, length_singleton, hzs]
  have hrun : ∀ s', bintreeLoop arr cmp (arr.Length s) s₁ = some s' → SortBintree arr cmp s = some s' := fun s' h => by
    simp only [SortBintree, if_neg (show ¬arr.Length s < 2 by omega), hsel, some_bind, h]
  have hpermS : (arr.items s₁).Perm (arr.items s) := by
    rw [hs₁, hs]
    exact hperm₁.append_right [b]
  by_cases hgreat : ∀ a ∈ ys, cmp a b < 0
  · -- the first exchange takes a smaller item to the end, and no later one moves it
    obtain ⟨x, r, rfl⟩ : ∃ x r, zs = x :: r := exists_cons_of_ne_nil (ne_nil_of_length_pos (hzs ▸ hpos))
    have hr : r.length + 1 = ys.length := hzs
    obtain ⟨s₂, s₃, hex, hs₂, had, hw, -⟩ := bintreeLoop_step hc (s := s₁) ys.length (by omega)
    have hswap : arr.items s₂ = b :: r ++ [x] := by
      rw [hs₂, hs₁]
      exact swap_append [] x r b [] rfl (by rw [length_nil]; omega)
    obtain ⟨w, hs₃, hpermw⟩ := Within.append (b :: r) (hswap ▸ hr ▸ hw)
    have hwlen : w.length = ys.length := hpermw.length_eq.trans hr
    obtain ⟨s', hloop, hw'⟩ := bintreeLoop_within hc ys.length s₃
      (by rw [Length, hs₃, length_append, hwlen]; exact Nat.le_add_right _ _)
    obtain ⟨w', hs', hpermw'⟩ := Within.append w (hs₃ ▸ hwlen ▸ hw')
    refine ⟨s', hrun s' ?_, ?_, iff_of_false ?_ (not_not.mpr ⟨ys, b, hs, hys, hgreat⟩)⟩
    · rw [hlen, bintreeLoop]
      simp only [hex, had, some_bind, hloop]
    · refine (hw'.perm.trans (hw.perm.trans ?_)).trans hpermS
      exact hs₂ ▸ swap_perm _ _ _
    · intro hso
      rw [hs'] at hso
      have hb : b ∈ w' := hpermw'.mem_iff.mpr (hpermw.mem_iff.mpr mem_cons_self)
      have hbx := (pairwise_append.mp hso).2.2 b hb x mem_cons_self
      have hxb := hgreat x (hperm₁.mem_iff.mp mem_cons_self)
      have := (hc.flip x b).mp hxb
      omega
  · obtain ⟨a, ha, hab⟩ : ∃ a ∈ ys, ¬cmp a b < 0 := by
      by_contra hnot
      exact hgreat fun a ha => by_contra fun h => hnot ⟨a, ha, h⟩
    have hlast : LeAt cmp (arr.items s₁) ys.length 0 := by
      obtain ⟨k, hk, hka⟩ := getElem_of_mem (hperm₁.mem_iff.mpr ha)
      have hk' : k < (arr.items s₁).length := by
        rw [hs₁, length_append]
        omega
      have hget : (arr.items s₁)[k]? = some a := by
        rw [hs₁, getElem?_append_left hk, getElem?_eq_getElem hk, hka]
      refine LeAt.trans hc hk' ?_ (htop k (hzs ▸ hk))
      intro c d hc' hd
      rw [hs₁, ← hzs, getElem?_append_right (Nat.le_refl _), Nat.sub_self] at hc'
      rw [← Option.some.inj (hget.symm.trans hd), ← Option.some.inj hc']
      exact hc.le_of_not_lt hab
    obtain ⟨s', hloop, hperm, hso⟩ := bintreeLoop_sorts hc (arr.Length s) s₁ (Nat.le_of_eq hlen₁.symm)
      (fun c d _ hd hdl => absurd hdl (by rw [← hlen₁] at hd; exact Nat.not_lt.mpr hd))
      (fun k hk => by
        rcases Nat.lt_succ_iff_lt_or_eq.mp (hlen ▸ hk) with hk | rfl
        · exact htop k hk
        · exact hlast)
    refine ⟨s', hrun s' hloop, hperm.trans hpermS, iff_of_true hso ?_⟩
    rintro ⟨ys', b', h, -, hall⟩
    obtain ⟨rfl, hb⟩ := append_inj' (hs.symm.trans h) rfl
    rw [List.cons.injEq] at hb
    exact hab (hb.1 ▸ hall a ha)

/-! ## `SortQuick` -/

theorem tailDown_spec (cmp : α → α → Int) :
    ∀ (n : Nat) (P : List α) (v : α) (M Q : List α), M.length = n → arr.items s = P ++ v :: M ++ Q →
      ∃ M' B, M = M' ++ B ∧ tailDown arr cmp s P.length P.length n = some (P.length + M'.length) ∧
        (∀ b ∈ B, cmp v b ≤ 0) ∧ (M' = [] ∨ ∃ M₁ x, M' = M₁ ++ [x] ∧ ¬cmp v x ≤ 0)
  | 0, P, v, M, Q, hn, hs =>
    ⟨[], [], length_eq_zero_iff.mp hn, rfl, fun b hb => absurd hb not_mem_nil, .inl rfl⟩
  | n + 1, P, v, M, Q, hn, hs => by
    obtain ⟨M₁, x, rfl⟩ : ∃ M₁ x, M = M₁ ++ [x] :=
      ⟨_, _, (dropLast_append_getLast (ne_nil_of_length_eq_add_one hn)).symm⟩
    have hlen : M₁.length = n := by
      rw [length_append, length_singleton] at hn
      omega
    have hs' : arr.items s = P ++ v :: M₁ ++ x :: Q := by rw [hs]; simp
    have hcmp : arr.compare cmp s P.length (P.length + (n + 1)) = some (cmp v x) :=
      compare_eq hs' rfl (by rw [hlen])
    rw [tailDown, hcmp, some_bind]
    by_cases hle : cmp v x ≤ 0
    · obtain ⟨M', B, hM, hrun, hB, hend⟩ := tailDown_spec cmp n P v M₁ (x :: Q) hlen hs'
      rw [if_pos hle]
      refine ⟨M', B ++ [x], by rw [hM, append_assoc], hrun, fun b hb => ?_, hend⟩
      rcases mem_append.mp hb with hb | hb
      · exact hB b hb
      · rwa [mem_singleton.mp hb]
    · rw [if_neg hle]
      exact ⟨M₁ ++ [x], [], (append_nil _).symm, by rw [length_append, length_singleton, hlen],
        fun b hb => absurd hb not_mem_nil, .inr ⟨M₁, x, rfl, hle⟩⟩

theorem headUp_spec (cmp : α → α → Int) :
    ∀ (L P : List α) (v : α) (Q : List α), arr.items s = P ++ L ++ v :: Q →
      ∃ A L', L = A ++ L' ∧ headUp arr cmp s (P.length + L.length) L.length P.length = some (P.length + A.length) ∧
        (∀ a ∈ A, cmp a v ≤ 0) ∧ (L' = [] ∨ ∃ y M, L' = y :: M ∧ ¬cmp y v ≤ 0)
  | [], P, v, Q, hs => ⟨[], [], rfl, rfl, fun a ha => absurd ha not_mem_nil, .inl rfl⟩
  | x :: L, P, v, Q, hs => by
    have hcmp : arr.compare cmp s P.length (P.length + (x :: L).length) = some (cmp x v) := compare_eq hs rfl rfl
    rw [length_cons] at hcmp ⊢
    rw [headUp, hcmp, some_bind]
    by_cases hle : cmp x v ≤ 0
    · obtain ⟨A, L', hL, hrun, hA, hend⟩ := headUp_spec cmp L (P ++ [x]) v Q (by rw [hs]; simp)
      rw [length_append, length_singleton, Nat.add_assoc, Nat.add_comm 1, Nat.add_assoc,
        Nat.add_comm 1] at hrun
      rw [if_pos hle]
      refine ⟨x :: A, L', by rw [hL]; rfl, hrun, fun a ha => ?_, hend⟩
      rcases mem_cons.mp ha with rfl | ha
      · exact hle
      · exact hA a ha
    · rw [if_neg hle]
      exact ⟨[], x :: L, rfl, rfl, fun a ha => absurd ha not_mem_nil, .inr ⟨x, L, rfl, hle⟩⟩

/-- What is around the key when the loop ends: items at most the key before it, and at least the key behind it. -/
structure Around (cmp : α → α → Int) (v : α) (xs A B : List α) : Prop where
  perm : (A ++ v :: B).Perm xs
  before : ∀ a ∈ A, cmp a v ≤ 0
  behind : ∀ b ∈ B, cmp v b ≤ 0

theorem partitionLoop_stop (n head key : Nat) (s : arr.State) :
    partitionLoop arr cmp n head head key s = some (key, s) := by
  cases n <;> exact if_neg (Nat.lt_irrefl head)

/-- The key stands before the items `M`, which are still to be compared with it. -/
theorem partitionLoop_spec (hc : Compares cmp) :
    ∀ (n : Nat) (P : List α) (v : α) (M Q : List α) (s : arr.State), M.length ≤ n → arr.items s = P ++ v :: M ++ Q →
      ∃ s' A B, partitionLoop arr cmp n P.length (P.length + M.length) P.length s = some (P.length + A.length, s') ∧
        arr.items s' = P ++ A ++ v :: (B ++ Q) ∧ Around cmp v (v :: M) A B
  | n, P, v, [], Q, s, _, hs =>
    ⟨s, [], [], partitionLoop_stop n _ _ s, by rw [hs]; simp, .refl _, fun a ha => absurd ha not_mem_nil,
      fun b hb => absurd hb not_mem_nil⟩
  | 0, _, _, _ :: _, _, _, hn, _ => absurd hn (Nat.not_succ_le_zero _)
  | n + 1, P, v, m :: M, Q, s, hn, hs => by
    have hlt : P.length < P.length + (m :: M).length := Nat.lt_add_of_pos_right (Nat.succ_pos _)
    obtain ⟨M', B, hM, htail, hB, hend⟩ := tailDown_spec cmp (m :: M).length P v (m :: M) Q rfl hs
    rw [partitionLoop, if_pos hlt, Nat.add_sub_cancel_left, htail, some_bind]
    rcases hend with rfl | ⟨M₁, x, rfl, hxv⟩
    · -- nothing less than the key is left
      refine ⟨s, [], B, ?_, by rw [hs, hM]; simp, hM ▸ .refl _, fun a ha => absurd ha not_mem_nil, hB⟩
      simp only [length_nil, Nat.add_zero, moveKey, Nat.lt_irrefl, if_false, some_bind,
        Nat.sub_self, headUp, partitionLoop_stop]
    have hlen : (m :: M).length = M₁.length + 1 + B.length := by
      rw [hM, length_append, length_append, length_singleton]
    have hcount : (M₁ ++ [x]).length = (x :: M₁).length := by
      rw [length_append, length_singleton, length_cons]
    have hlt₁ : P.length < P.length + (x :: M₁).length := Nat.lt_add_of_pos_right (Nat.succ_pos _)
    -- the key goes to the place of `x`
    have hs' : arr.items s = P ++ v :: M₁ ++ x :: (B ++ Q) := by rw [hs, hM]; simp
    obtain ⟨⟨s₁, hex₁, hs₁⟩, -⟩ := exchange_middle (j := P.length + (x :: M₁).length) hs' rfl rfl
    have hs₁' : arr.items s₁ = P ++ x :: M₁ ++ v :: (B ++ Q) := hs₁
    obtain ⟨A, L', hL, hhead, hA, hend'⟩ := headUp_spec cmp (x :: M₁) P v (B ++ Q) hs₁'
    rw [hcount]
    simp only [moveKey, if_pos hlt₁, hex₁, Option.map_some, Nat.add_sub_cancel_left, Option.bind_eq_bind,
      Option.bind_some, hhead]
    have hperm₁ : (v :: m :: M).Perm (x :: M₁ ++ v :: B) := by
      rw [hM]
      exact (((perm_append_singleton x M₁).append_right B).cons v).trans perm_middle.symm
    rcases hend' with rfl | ⟨y, M₂, rfl, hyv⟩
    · -- nothing greater is before the key
      rw [append_nil] at hL
      refine ⟨s₁, A, B, ?_, by rw [hs₁', hL], hL ▸ hperm₁.symm, hA, hB⟩
      simp only [← hL, Nat.lt_irrefl, if_false, Option.bind_some, partitionLoop_stop]
    · -- the key goes to the place of `y`, which is to be compared again
      have hA1 : 1 ≤ A.length := by
        cases A with
        | nil =>
          rw [nil_append, List.cons.injEq] at hL
          have := hc.lt_of_not_le (hL.1 ▸ hxv)
          omega
        | cons a A => exact Nat.succ_le_succ (Nat.zero_le _)
      have hlen₁ : (x :: M₁).length = A.length + (M₂.length + 1) := by
        rw [hL, length_append, length_cons]
      have hlt₂ : P.length + A.length < P.length + (x :: M₁).length := by omega
      have hs₁'' : arr.items s₁ = P ++ A ++ y :: M₂ ++ v :: (B ++ Q) := by rw [hs₁', hL]; simp
      obtain ⟨-, s₂, hex₂, hs₂⟩ := exchange_middle (i := P.length + A.length) (j := P.length + (x :: M₁).length) hs₁''
        (by rw [length_append]) (by rw [length_append]; omega)
      have hrest : (M₂ ++ [y]).length = M₂.length + 1 := by rw [length_append, length_singleton]
      obtain ⟨s', A', B', hrun, hitems, haround⟩ := partitionLoop_spec hc n (P ++ A) v (M₂ ++ [y]) (B ++ Q) s₂
        (by rw [length_cons] at hlen₁; omega) (by rw [hs₂]; simp)
      rw [length_append, hrest, Nat.add_assoc, ← hlen₁, Nat.add_assoc] at hrun
      refine ⟨s', A ++ A', B' ++ B, ?_, by rw [hitems]; simp, ?_, ?_, ?_⟩
      · simp only [if_pos hlt₂, hex₂, Option.map_some, Option.bind_some, hrun, length_append]
      · have hperm₂ : (A ++ A' ++ v :: (B' ++ B)).Perm (A ++ (v :: (M₂ ++ [y])) ++ B) := by
          have := (haround.perm.append_left A).append_right B
          simpa using this
        have hback : (v :: (M₂ ++ [y]) ++ B).Perm (y :: M₂ ++ v :: B) :=
          (((perm_append_singleton y M₂).append_right B).cons v).trans perm_middle.symm
        refine (hperm₂.trans ?_).trans hperm₁.symm
        rw [hL, append_assoc A, append_assoc A]
        exact hback.append_left A
      · intro a ha
        rcases mem_append.mp ha with ha | ha
        · exact hA a ha
        · exact haround.before a ha
      · intro b hb
        rcases mem_append.mp hb with hb | hb
        · exact haround.behind b hb
        · exact hB b hb

theorem SortQuickSub_spec (hc : Compares cmp) :
    ∀ (depth : Nat) (P xs Q : List α) (s : arr.State), arr.items s = P ++ xs ++ Q → xs.length < depth →
      ∃ s' ys, SortQuickSub arr cmp depth P.length xs.length s = some s' ∧ arr.items s' = P ++ ys ++ Q ∧
        ys.Perm xs ∧ Sorted cmp ys
  | 0, _, _, _, _, _, hdepth => absurd hdepth (Nat.not_lt_zero _)
  | depth + 1, P, [], Q, s, hs, _ => ⟨s, [], if_pos Nat.zero_lt_two, hs, .refl _, List.Pairwise.nil⟩
  | depth + 1, P, [x], Q, s, hs, _ => ⟨s, [x], if_pos Nat.one_lt_two, hs, .refl _, pairwise_singleton _ _⟩
  | depth + 1, P, v :: m :: M, Q, s, hs, hdepth => by
    have hlens : ¬(v :: m :: M).length < 2 := Nat.not_lt.mpr (Nat.succ_le_succ (Nat.succ_le_succ (Nat.zero_le _)))
    have htail : P.length + (v :: m :: M).length - 1 = P.length + (m :: M).length := rfl
    obtain ⟨s₁, A, B, hpart, hs₁, haround⟩ := partitionLoop_spec hc (v :: m :: M).length P v (m :: M) Q s
      (Nat.le_succ _) hs
    have hsize : A.length + (B.length + 1) = (v :: m :: M).length := by
      rw [← haround.perm.length_eq, length_append, length_cons]
    obtain ⟨s₂, A', hrunA, hs₂, hpermA, hsoA⟩ := SortQuickSub_spec hc depth P A (v :: (B ++ Q)) s₁ hs₁
      (by omega)
    obtain ⟨s₃, B', hrunB, hs₃, hpermB, hsoB⟩ := SortQuickSub_spec hc depth (P ++ A' ++ [v]) B Q s₂
      (by rw [hs₂]; simp) (by omega)
    have hwrap : sub ((sub (v :: m :: M).length (P.length + A.length) + P.length) % 2 ^ 64) 1 = B.length := by
      have hlt := arr.length_lt s
      rw [hs, length_append, length_append] at hlt
      rw [sub, sub]
      omega
    have hplace : (P ++ A' ++ [v]).length = P.length + A.length + 1 := by
      rw [length_append, length_append, length_singleton, hpermA.length_eq]
    rw [hplace] at hrunB
    refine ⟨s₃, A' ++ v :: B', ?_, by rw [hs₃]; simp, ?_, ?_⟩
    · rw [SortQuickSub, if_neg hlens, htail]
      simp only [hpart, some_bind, Nat.add_sub_cancel_left, hrunA, hwrap, hrunB]
    · exact (hpermA.append (hpermB.cons v)).trans haround.perm
    · have hbefore : ∀ a ∈ A', cmp a v ≤ 0 := fun a ha => haround.before a (hpermA.mem_iff.mp ha)
      have hbehind : ∀ b ∈ B', cmp v b ≤ 0 := fun b hb => haround.behind b (hpermB.mem_iff.mp hb)
      refine pairwise_append.mpr ⟨hsoA, pairwise_cons.mpr ⟨hbehind, hsoB⟩, fun a ha b hb => ?_⟩
      rcases mem_cons.mp hb with rfl | hb
      · exact hbefore a ha
      · exact hc.trans a v b (hbefore a ha) (hbehind b hb)

theorem SortQuick_spec (hc : Compares cmp) (s : arr.State) :
    ∃ s', SortQuick arr cmp s = some s' ∧ (arr.items s').Perm (arr.items s) ∧ Sorted cmp (arr.items s') := by
  obtain ⟨s', ys, hrun, hs', hperm, hso⟩ := SortQuickSub_spec hc (arr.Length s + 1) [] (arr.items s) [] s
    (by rw [nil_append, append_nil]) (Nat.lt_succ_self _)
  rw [nil_append, append_nil] at hs'
  exact ⟨s', hrun, hs' ▸ hperm, hs' ▸ hso⟩

/-! ## All modes -/

/-- The modes that keep the order of equal items. -/
def keepsOrder : SortMode → Bool
  | .Bubble | .Insertion | .Merge => true
  | .Selection | .Heap | .Quick => false

/-- What `Sort` is for. -/
structure Sorts (arr : ArrayTrait α) (cmp : α → α → Int) (mode : SortMode) (s s' : arr.State) : Prop where
  run : sort arr cmp mode s = some s'
  perm : (arr.items s').Perm (arr.items s)
  sorted : Sorted cmp (arr.items s')
  stable : keepsOrder mode = true → Stable cmp (arr.items s) (arr.items s')

/-- The items that a mode can sort. -/
def Sortable (cmp : α → α → Int) (mode : SortMode) (xs : List α) : Prop :=
  match mode with
  | .Insertion | .Selection => xs ≠ []
  | .Heap => ¬LastGreatest cmp xs
  | .Bubble | .Merge | .Quick => True

theorem sort_empty {mode : SortMode} (hs : arr.items s = []) (hmode : ¬Sortable cmp mode (arr.items s)) :
    sort arr cmp mode s = none := by
  have hlen : arr.Length s = 0 := by rw [Length, hs]; rfl
  have hnone : ∀ i j, arr.compare cmp s i j = none := fun i j => by rw [compare, hs]; rfl
  have hex : ∀ i j, arr.exchange s i j = none := fun i j => if_neg fun h => Nat.not_lt_zero _ (hlen ▸ h.1)
  have hcount : sub 0 1 = 2 ^ 64 - 2 + 1 := rfl
  cases mode with
  | Insertion =>
    simp only [sort, SortInsertion, hlen, hcount, insertionLoop, sink, hnone]
    rfl
  | Selection =>
    simp only [sort, SortSelection, hlen, hcount, selectionLoop, hex]
    rfl
  | Bubble => exact absurd trivial hmode
  | Merge => exact absurd trivial hmode
  | Quick => exact absurd trivial hmode
  | Heap =>
    refine absurd ?_ hmode
    rintro ⟨ys, b, h, -⟩
    exact cons_ne_nil _ _ (append_eq_nil_iff.mp (h.symm.trans hs)).2

/-- Every mode sorts exactly the arrays that it can sort. -/
theorem sort_correct_iff (hc : Compares cmp) (mode : SortMode) (s : arr.State) :
    (∃ s', Sorts arr cmp mode s s') ↔ Sortable cmp mode (arr.items s) := by
  constructor
  · rintro ⟨s', h⟩
    by_contra hnot
    by_cases hempty : arr.items s = []
    · exact Option.some_ne_none s' (h.run.symm.trans (sort_empty hempty hnot))
    · cases mode with
      | Heap =>
          obtain ⟨s₁, hrun, -, hiff⟩ := SortBintree_spec hc s
          rw [← Option.some.inj (h.run.symm.trans hrun)] at hiff
          exact hnot (hiff.mp h.sorted)
      | Insertion => exact hnot hempty
      | Selection => exact hnot hempty
      | Bubble => exact hnot trivial
      | Merge => exact hnot trivial
      | Quick => exact hnot trivial
  · intro hsortable
    cases mode with
    | Bubble =>
        obtain ⟨s', hrun, hst, hso⟩ := SortBubble_spec hc s
        exact ⟨s', hrun, hst.perm, hso, fun _ => hst⟩
    | Insertion =>
        obtain ⟨s', hrun, hst, hso⟩ := SortInsertion_spec hc s (length_pos_of_ne_nil hsortable)
        exact ⟨s', hrun, hst.perm, hso, fun _ => hst⟩
    | Selection =>
        obtain ⟨s', hrun, hperm, hso⟩ := SortSelection_spec hc s (length_pos_of_ne_nil hsortable)
        exact ⟨s', hrun, hperm, hso, fun h => absurd h Bool.noConfusion⟩
    | Heap =>
        obtain ⟨s', hrun, hperm, hiff⟩ := SortBintree_spec hc s
        exact ⟨s', hrun, hperm, hiff.mpr hsortable, fun h => absurd h Bool.noConfusion⟩
    | Merge =>
        obtain ⟨s', hrun, hst, hso⟩ := SortMerge_spec hc s
        exact ⟨s', hrun, hst.perm, hso, fun _ => hst⟩
    | Quick =>
        obtain ⟨s', hrun, hperm, hso⟩ := SortQuick_spec hc s
        exact ⟨s', hrun, hperm, hso, fun h => absurd h Bool.noConfusion⟩

/-! ## An array of numbers -/

/-- Numbers in a list. -/
def numbers : ArrayTrait Nat where
  State := { xs : List Nat // xs.length < 2 ^ 63 }
  items := Subtype.val
  Exchange s i j := ⟨s.val.swap i j, by rw [length_swap]; exact s.property⟩
  items_Exchange _ _ _ _ _ := rfl
  length_lt s := s.property

def difference (a b : Nat) : Int := a - b

theorem compares_difference : Compares difference where
  flip a b := by
    simp only [difference]
    omega
  trans a b c := by
    simp only [difference]
    omega

def noNumbers : numbers.State := ⟨[], by show 0 < 2 ^ 63; omega⟩

def oneTwo : numbers.State := ⟨[1, 2], by show 2 < 2 ^ 63; omega⟩

def twoOne : numbers.State := ⟨[2, 1], by show 2 < 2 ^ 63; omega⟩

theorem sort_correct_at_two_one : ∃ s', Sorts numbers difference .Heap twoOne s' := by
  refine (sort_correct_iff compares_difference .Heap twoOne).mpr ?_
  rintro ⟨ys, b, h, -, hall⟩
  obtain ⟨rfl, hb⟩ := append_inj' (show [2] ++ [1] = ys ++ [b] from h) rfl
  rw [List.cons.injEq] at hb
  have := hall 2 mem_cons_self
  rw [← hb.1] at this
  exact absurd this (by decide)

theorem sort_fails_at_one_two :
    Compares difference ∧ (∀ s', ¬Sorts numbers difference .Heap oneTwo s') ∧
      (∀ s', ¬Sorts numbers difference .Insertion noNumbers s') ∧
      ∀ s', ¬Sorts numbers difference .Selection noNumbers s' := by
  refine ⟨compares_difference, fun s' h => ?_, fun s' h => ?_, fun s' h => ?_⟩
  · have hrun : sort numbers difference .Heap oneTwo = some twoOne := rfl
    have hso := h.sorted
    rw [Option.some.inj (h.run.symm.trans hrun)] at hso
    have := (pairwise_cons.mp hso).1 1 mem_cons_self
    exact absurd this (by decide)
  · exact Option.some_ne_none s' (h.run.symm.trans rfl)
  · exact Option.some_ne_none s' (h.run.symm.trans rfl)

end ArrayTrait

end Unisym.Sorting
