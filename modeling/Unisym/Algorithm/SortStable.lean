/-
# `SortStable` — the modes that keep the order of equal items

The items are cut around the places that an algorithm looks at, as `p ++ x :: m ++ y :: q`; an exchange of the two
places gives `p ++ y :: m ++ x :: q`.  Each loop has a lemma that says what it does to the middle of the items:

* a pass of `SortBubble` moves the greatest item to the end,
* `sink` puts one item into the sorted ones before it,
* `rotate` moves one item before a list, and `mergeLoop` merges two sorted lists.
-/
import Unisym.Algorithm.Sort
import Unisym.Library.Steps

namespace Unisym.Sorting

open Reorder List

namespace ArrayTrait

variable {α : Type} {arr : ArrayTrait α} {cmp : α → α → Int} {s : arr.State}

/-! ## Access -/

theorem compare_eq {p m q : List α} {x y : α} {i j : Nat} (hs : arr.items s = p ++ x :: m ++ y :: q)
    (hi : i = p.length) (hj : j = p.length + (m.length + 1)) : arr.compare cmp s i j = some (cmp x y) := by
  have hx : (arr.items s)[i]? = some x := by
    rw [hs, hi, append_assoc, getElem?_append_right (Nat.le_refl _), Nat.sub_self]
    rfl
  have hy : (arr.items s)[j]? = some y := by
    have hlen : j = (p ++ x :: m).length := by rw [hj, length_append, length_cons]
    rw [hs, hlen, getElem?_append_right (Nat.le_refl _), Nat.sub_self]
    rfl
  rw [compare, hx, hy]
  rfl

theorem exchange_eq {i j : Nat} (hi : i < arr.Length s) (hj : j < arr.Length s) :
    ∃ s', arr.exchange s i j = some s' ∧ arr.items s' = (arr.items s).swap i j :=
  ⟨_, if_pos ⟨hi, hj⟩, arr.items_Exchange s i j hi hj⟩

/-- The exchange of two items with a list between them, whichever is named first. -/
theorem exchange_middle {p m q : List α} {x y : α} {i j : Nat} (hs : arr.items s = p ++ x :: m ++ y :: q)
    (hi : i = p.length) (hj : j = p.length + (m.length + 1)) :
    (∃ s', arr.exchange s i j = some s' ∧ arr.items s' = p ++ y :: m ++ x :: q) ∧
      ∃ s', arr.exchange s j i = some s' ∧ arr.items s' = p ++ y :: m ++ x :: q := by
  have hlen : arr.Length s = p.length + (m.length + 1) + (q.length + 1) := by
    rw [Length, hs, length_append, length_append, length_cons, length_cons]
  have hi' : i < arr.Length s := by omega
  have hj' : j < arr.Length s := by omega
  have hswap : (arr.items s).swap i j = p ++ y :: m ++ x :: q := by rw [hs, swap_append p x m y q hi hj]
  obtain ⟨s₁, h₁, hs₁⟩ := exchange_eq hi' hj'
  obtain ⟨s₂, h₂, hs₂⟩ := exchange_eq hj' hi'
  exact ⟨⟨s₁, h₁, hs₁.trans hswap⟩, ⟨s₂, h₂, hs₂.trans (swap_comm.trans hswap)⟩⟩

/-! ## `SortBubble` -/

theorem bubblePass_spec (hc : Compares cmp) :
    ∀ (q₁ p : List α) (m : α) (q₂ : List α) (swapped : Bool) (s : arr.State), arr.items s = p ++ m :: q₁ ++ q₂ →
      (∀ a ∈ p, cmp a m ≤ 0) → (swapped = false → Sorted cmp (p ++ [m])) →
      ∃ swapped' s' p' m', bubblePass arr cmp q₁.length p.length swapped s = some (swapped', s') ∧
        arr.items s' = p' ++ m' :: q₂ ∧ Stable cmp (p ++ m :: q₁) (p' ++ [m']) ∧ (∀ a ∈ p', cmp a m' ≤ 0) ∧
        (swapped' = false → Sorted cmp (p' ++ [m']))
  | [], p, m, q₂, swapped, s, hs, hle, hsorted =>
    ⟨swapped, s, p, m, rfl, by rw [hs, append_assoc]; rfl, .refl _, hle, hsorted⟩
  | b :: q₁, p, m, q₂, swapped, s, hs, hle, hsorted => by
    have hs' : arr.items s = p ++ m :: [] ++ b :: (q₁ ++ q₂) := by
      rw [hs]
      simp
    have hcmp : arr.compare cmp s p.length (p.length + 1) = some (cmp m b) := compare_eq hs' rfl rfl
    rw [length_cons, bubblePass, hcmp, some_bind]
    have hlen : ∀ x : α, p.length + 1 = (p ++ [x]).length := fun x => by
      rw [length_append, length_singleton]
    by_cases hgt : cmp m b > 0
    · have hbm : cmp b m < 0 := (hc.flip b m).mpr hgt
      obtain ⟨⟨s₁, hex, hs₁⟩, -⟩ := exchange_middle (j := p.length + 1) hs' rfl rfl
      obtain ⟨swapped', s', p', m', hrun, hs'', hst, hle', hso⟩ := bubblePass_spec hc q₁ (p ++ [b]) m q₂ true s₁
        (by rw [hs₁]; simp)
        (fun a ha => by
          rcases mem_append.mp ha with ha | ha
          · exact hle a ha
          · rw [mem_singleton.mp ha]
            exact Int.le_of_lt hbm)
        (fun h => absurd h Bool.noConfusion)
      rw [if_pos hgt, hex, some_bind, hlen b]
      refine ⟨swapped', s', p', m', hrun, hs'', Stable.trans ?_ hst, hle', hso⟩
      have hfront := Stable.front hc (l := [m]) (b := b) (fun a ha => by rwa [mem_singleton.mp ha]) q₁
      have := hfront.append_left p
      rwa [append_assoc]
    · obtain ⟨swapped', s', p', m', hrun, hs'', hst, hle', hso⟩ := bubblePass_spec hc q₁ (p ++ [m]) b q₂ swapped s
        (by rw [hs]; simp)
        (fun a ha => by
          rcases mem_append.mp ha with ha | ha
          · exact hc.trans a m b (hle a ha) (by omega)
          · rw [mem_singleton.mp ha]
            omega)
        (fun h => by
          refine pairwise_append.mpr ⟨hsorted h, pairwise_singleton _ _, fun a ha x hx => ?_⟩
          rw [mem_singleton.mp hx]
          rcases mem_append.mp ha with ha | ha
          · exact hc.trans a m b (hle a ha) (by omega)
          · rw [mem_singleton.mp ha]
            omega)
      rw [if_neg hgt, hlen m]
      exact ⟨swapped', s', p', m', hrun, hs'', by rwa [append_assoc] at hst, hle', hso⟩

/-- The items `xs` are not looked at for the last time, and `ys` are behind them and sorted. -/
theorem bubbleLoop_spec (hc : Compares cmp) (count : Nat) :
    ∀ (n : Nat) (xs ys : List α) (s : arr.State), arr.items s = xs ++ ys → xs.length = n →
      xs.length + ys.length = count → Sorted cmp ys → (∀ a ∈ xs, ∀ b ∈ ys, cmp a b ≤ 0) →
      ∃ s', bubbleLoop arr cmp count n ys.length s = some s' ∧ Stable cmp (xs ++ ys) (arr.items s') ∧
        Sorted cmp (arr.items s')
  | 0, xs, ys, s, hs, hn, hcount, hys, _ => by
    rw [length_eq_zero_iff.mp hn, nil_append] at hs ⊢
    exact ⟨s, rfl, hs ▸ .refl _, hs ▸ hys⟩
  | n + 1, [], _, _, _, hn, _, _, _ => absurd hn (Nat.succ_ne_zero n).symm
  | n + 1, m :: q₁, ys, s, hs, hn, hcount, hys, hle => by
    rw [length_cons] at hn hcount
    have hcut : count - ys.length - 1 = q₁.length := by omega
    obtain ⟨swapped, s₁, p, m', hrun, hs₁, hst, hlem, hso⟩ := bubblePass_spec hc q₁ [] m ys false s hs
      (fun a ha => absurd ha not_mem_nil) (fun _ => pairwise_singleton _ _)
    have hmem : ∀ a ∈ p ++ [m'], a ∈ m :: q₁ := fun a ha => hst.perm.mem_iff.mp ha
    have hlast : ∀ b ∈ ys, cmp m' b ≤ 0 :=
      hle m' (hmem m' mem_append_cons_self)
    have hst' : Stable cmp (m :: q₁ ++ ys) (p ++ m' :: ys) := by
      have := hst.append_right ys
      rwa [nil_append, append_assoc p] at this
    rw [bubbleLoop, hcut, show (0 : Nat) = ([] : List α).length from rfl, hrun, some_bind]
    dsimp only
    cases swapped with
    | true =>
      have hlen : p.length = n := by
        have := hst.perm.length_eq
        rw [length_append, length_singleton, nil_append, length_cons] at this
        omega
      obtain ⟨s', hloop, hst'', hso'⟩ := bubbleLoop_spec hc count n p (m' :: ys) s₁ hs₁ hlen
        (by rw [length_cons]; omega)
        (pairwise_cons.mpr ⟨hlast, hys⟩)
        (fun a ha b hb => by
          rcases mem_cons.mp hb with rfl | hb
          · exact hlem a ha
          · exact hle a (hmem a (mem_append_left _ ha)) b hb)
      exact ⟨s', hloop, hst'.trans hst'', hso'⟩
    | false =>
      refine ⟨s₁, rfl, hs₁ ▸ hst', ?_⟩
      have hcat : arr.items s₁ = p ++ [m'] ++ ys := by rw [hs₁, append_assoc]; rfl
      rw [hcat]
      exact pairwise_append.mpr ⟨hso rfl, hys, fun a ha b hb => hle a (hmem a ha) b hb⟩

theorem SortBubble_spec (hc : Compares cmp) (s : arr.State) :
    ∃ s', SortBubble arr cmp s = some s' ∧ Stable cmp (arr.items s) (arr.items s') ∧ Sorted cmp (arr.items s') := by
  have h := bubbleLoop_spec hc (arr.Length s) (arr.Length s) (arr.items s) [] s (append_nil _).symm rfl rfl
    List.Pairwise.nil fun _ _ b hb => absurd hb not_mem_nil
  rwa [append_nil] at h

/-! ## `SortInsertion` -/

theorem sink_spec (hc : Compares cmp) :
    ∀ (n : Nat) (p : List α) (x : α) (q : List α) (s : arr.State), p.length = n → arr.items s = p ++ x :: q →
      Sorted cmp p →
      ∃ s' p', sink arr cmp n s = some s' ∧ arr.items s' = p' ++ q ∧ Stable cmp (p ++ [x]) p' ∧ Sorted cmp p'
  | 0, p, x, q, s, hn, hs, _ => by
    rw [length_eq_zero_iff.mp hn] at hs ⊢
    exact ⟨s, [x], rfl, hs, .refl _, pairwise_singleton _ _⟩
  | n + 1, p, x, q, s, hn, hs, hp => by
    have hne : p ≠ [] := ne_nil_of_length_eq_add_one hn
    obtain ⟨p₀, a, rfl⟩ : ∃ p₀ a, p = p₀ ++ [a] := ⟨_, _, (dropLast_append_getLast hne).symm⟩
    have hlen : p₀.length = n := by
      rw [length_append, length_singleton] at hn
      omega
    obtain ⟨hp₀, -, hpa⟩ := pairwise_append.mp hp
    have hs' : arr.items s = p₀ ++ a :: [] ++ x :: q := hs
    have hcmp : arr.compare cmp s n (n + 1) = some (cmp a x) := compare_eq hs' hlen.symm (by rw [hlen]; rfl)
    rw [sink, hcmp, some_bind]
    by_cases hgt : cmp a x > 0
    · obtain ⟨⟨s₁, hex, hs₁⟩, -⟩ := exchange_middle (j := n + 1) hs' hlen.symm (by rw [hlen]; rfl)
      obtain ⟨s', p', hrun, hs'', hst, hso⟩ := sink_spec hc n p₀ x (a :: q) s₁ hlen
        (by rw [hs₁, append_assoc]; rfl) hp₀
      rw [if_pos hgt, hex, some_bind]
      refine ⟨s', p' ++ [a], hrun, by rw [hs'', append_assoc]; rfl, ?_, ?_⟩
      · have hfront := Stable.front hc (l := [a]) (b := x) (fun b hb => by rwa [mem_singleton.mp hb]) []
        have hmove := (hfront.append_left p₀).trans ((append_assoc p₀ [x] [a]) ▸ hst.append_right [a])
        rwa [append_assoc]
      · refine pairwise_append.mpr ⟨hso, pairwise_singleton _ _, fun b hb c hc' => ?_⟩
        rw [mem_singleton.mp hc']
        rcases mem_append.mp (hst.perm.mem_iff.mp hb) with hb | hb
        · exact hpa b hb a mem_cons_self
        · rw [mem_singleton.mp hb]
          exact Int.le_of_lt ((hc.flip x a).mpr hgt)
    · rw [if_neg hgt]
      refine ⟨s, p₀ ++ [a] ++ [x], rfl, by rw [hs, append_assoc _ [x]]; rfl, .refl _, ?_⟩
      refine pairwise_append.mpr ⟨hp, pairwise_singleton _ _, fun b hb c hc' => ?_⟩
      rw [mem_singleton.mp hc']
      rcases mem_append.mp hb with hb | hb
      · exact hc.trans b a x (hpa b hb a mem_cons_self) (by omega)
      · rw [mem_singleton.mp hb]
        omega

theorem insertionLoop_spec (hc : Compares cmp) :
    ∀ (q p : List α) (s : arr.State), arr.items s = p ++ q → Sorted cmp p →
      ∃ s', insertionLoop arr cmp q.length p.length s = some s' ∧ Stable cmp (p ++ q) (arr.items s') ∧
        Sorted cmp (arr.items s')
  | [], p, s, hs, hp => by
    rw [append_nil] at hs ⊢
    exact ⟨s, rfl, hs ▸ .refl _, hs ▸ hp⟩
  | x :: q, p, s, hs, hp => by
    obtain ⟨s₁, p', hrun, hs₁, hst, hp'⟩ := sink_spec hc p.length p x q s rfl hs hp
    have hlen : p'.length = p.length + 1 := by
      rw [hst.perm.length_eq, length_append, length_singleton]
    obtain ⟨s', hloop, hst', hso⟩ := insertionLoop_spec hc q p' s₁ hs₁ hp'
    rw [hlen] at hloop
    rw [length_cons, insertionLoop, hrun]
    refine ⟨s', hloop, Stable.trans ?_ hst', hso⟩
    have := hst.append_right q
    rwa [append_assoc] at this

theorem sub_one {n : Nat} (hpos : 0 < n) (hlt : n < 2 ^ 63) : sub n 1 = n - 1 := by
  rw [sub]
  omega

theorem SortInsertion_spec (hc : Compares cmp) (s : arr.State) (hpos : 0 < arr.Length s) :
    ∃ s', SortInsertion arr cmp s = some s' ∧ Stable cmp (arr.items s) (arr.items s') ∧
      Sorted cmp (arr.items s') := by
  rw [SortInsertion, sub_one hpos (arr.length_lt s)]
  cases hs : arr.items s with
  | nil =>
    rw [Length, hs] at hpos
    exact absurd hpos (Nat.lt_irrefl _)
  | cons x q =>
    have h := insertionLoop_spec hc q [x] s hs (pairwise_singleton _ _)
    rwa [Length, hs, length_cons, Nat.add_sub_cancel]

/-! ## `SortMerge` -/

theorem rotate_spec :
    ∀ (l p : List α) (c : α) (q : List α) (s : arr.State), arr.items s = p ++ l ++ c :: q →
      ∃ s', rotate arr (p.length + l.length) l.length p.length s = some s' ∧ arr.items s' = p ++ c :: l ++ q
  | [], p, c, q, s, hs => ⟨s, rfl, by rw [hs, append_nil, append_assoc]; rfl⟩
  | x :: l, p, c, q, s, hs => by
    obtain ⟨-, s₁, hex, hs₁⟩ := exchange_middle (i := p.length) (j := p.length + (l.length + 1)) hs rfl rfl
    have hcat : arr.items s₁ = p ++ [c] ++ l ++ x :: q := by rw [hs₁, append_assoc p [c] l]; rfl
    obtain ⟨s', hrun, hs'⟩ := rotate_spec l (p ++ [c]) x q s₁ hcat
    rw [length_append, length_singleton, Nat.add_assoc, Nat.add_comm 1] at hrun
    rw [length_cons, rotate, hex]
    exact ⟨s', hrun, by rw [hs']; simp⟩

theorem mergeLoop_spec (hc : Compares cmp) :
    ∀ (n : Nat) (p l r q : List α) (s : arr.State), arr.items s = p ++ l ++ r ++ q → l.length + r.length ≤ n →
      Sorted cmp l → Sorted cmp r →
      ∃ s' w, mergeLoop arr cmp n p.length (p.length + l.length) l.length r.length s = some s' ∧
        arr.items s' = p ++ w ++ q ∧ Stable cmp (l ++ r) w ∧ Sorted cmp w
  | n, p, [], r, q, s, hs, _, _, hr => by
    refine ⟨s, r, ?_, by rw [hs, append_nil], .refl _, hr⟩
    cases n <;> exact if_neg fun h => h.1 rfl
  | n, p, a :: l, [], q, s, hs, _, hl, _ => by
    refine ⟨s, a :: l, ?_, by rw [hs, append_nil], by rw [append_nil]; exact .refl _, hl⟩
    cases n <;> exact if_neg fun h => h.2 rfl
  | 0, p, a :: l, b :: r, q, s, _, hn, _, _ => absurd hn (by rw [length_cons, length_cons]; omega)
  | n + 1, p, a :: l, b :: r, q, s, hs, hn, hl, hr => by
    have hboth : (a :: l).length ≠ 0 ∧ (b :: r).length ≠ 0 := ⟨Nat.succ_ne_zero _, Nat.succ_ne_zero _⟩
    have hs' : arr.items s = p ++ a :: l ++ b :: (r ++ q) := by rw [hs, append_assoc _ (b :: r)]; rfl
    have hcmp : arr.compare cmp s p.length (p.length + (a :: l).length) = some (cmp a b) :=
      compare_eq hs' rfl rfl
    rw [mergeLoop, if_pos hboth, hcmp, some_bind]
    obtain ⟨hal, hl'⟩ := pairwise_cons.mp hl
    obtain ⟨hbr, hr'⟩ := pairwise_cons.mp hr
    by_cases hle : cmp a b ≤ 0
    · obtain ⟨s', w, hrun, hs'', hst, hso⟩ := mergeLoop_spec hc n (p ++ [a]) l (b :: r) q s
        (by rw [hs]; simp) (by rw [length_cons] at hn; omega) hl' hr
      rw [length_append, length_singleton, Nat.add_assoc, Nat.add_comm 1] at hrun
      rw [if_pos hle]
      refine ⟨s', a :: w, hrun, by rw [hs'']; simp, hst.cons a, pairwise_cons.mpr ⟨fun x hx => ?_, hso⟩⟩
      rcases mem_append.mp (hst.perm.mem_iff.mp hx) with hx | hx
      · exact hal x hx
      · rcases mem_cons.mp hx with rfl | hx
        · exact hle
        · exact hc.trans a b x hle (hbr x hx)
    · have hba : cmp b a < 0 := hc.lt_of_not_le hle
      have hbl : ∀ x ∈ a :: l, cmp b x ≤ 0 := fun x hx => by
        rcases mem_cons.mp hx with rfl | hx
        · exact Int.le_of_lt hba
        · exact hc.trans b a x (Int.le_of_lt hba) (hal x hx)
      have hlb : ∀ x ∈ a :: l, 0 < cmp x b := fun x hx => by
        rcases mem_cons.mp hx with rfl | hx
        · omega
        · by_contra hnot
          exact hle (hc.trans a x b (hal x hx) (by omega))
      obtain ⟨s₁, hrot, hs₁⟩ := rotate_spec (a :: l) p b (r ++ q) s hs'
      obtain ⟨s', w, hrun, hs'', hst, hso⟩ := mergeLoop_spec hc n (p ++ [b]) (a :: l) r q s₁
        (by rw [hs₁]; simp) (by simp only [length_cons] at hn ⊢; omega) hl hr'
      have hplace : (p ++ [b]).length + (a :: l).length = p.length + (a :: l).length + 1 := by
        rw [length_append, length_singleton]
        omega
      rw [hplace, length_append, length_singleton] at hrun
      rw [if_neg hle, hrot, some_bind]
      refine ⟨s', b :: w, hrun, by rw [hs'']; simp, (Stable.front hc hlb r).trans (hst.cons b),
        pairwise_cons.mpr ⟨fun x hx => ?_, hso⟩⟩
      rcases mem_append.mp (hst.perm.mem_iff.mp hx) with hx | hx
      · exact hbl x hx
      · exact hbr x hx

theorem SortMergeSub_spec (hc : Compares cmp) :
    ∀ (depth : Nat) (p xs q : List α) (s : arr.State), arr.items s = p ++ xs ++ q → xs.length < depth →
      ∃ s' ys, SortMergeSub arr cmp depth p.length xs.length s = some s' ∧ arr.items s' = p ++ ys ++ q ∧
        Stable cmp xs ys ∧ Sorted cmp ys
  | 0, _, xs, _, _, _, hdepth => absurd hdepth (Nat.not_lt_zero _)
  | depth + 1, p, xs, q, s, hs, hdepth => by
    rw [SortMergeSub]
    by_cases hshort : xs.length < 2
    · rw [if_pos hshort]
      refine ⟨s, xs, rfl, hs, .refl _, ?_⟩
      match xs, hshort with
      | [], _ => exact List.Pairwise.nil
      | [x], _ => exact pairwise_singleton _ _
    · rw [if_neg hshort]
      -- the two halves
      have hleft : (xs.take (xs.length / 2)).length = xs.length / 2 := by
        rw [length_take]
        omega
      have hright : (xs.drop (xs.length / 2)).length = xs.length - xs.length / 2 := length_drop
      have hcat : xs.take (xs.length / 2) ++ xs.drop (xs.length / 2) = xs := take_append_drop _ _
      obtain ⟨s₁, l, hrun₁, hs₁, hst₁, hl⟩ := SortMergeSub_spec hc depth p (xs.take (xs.length / 2))
        (xs.drop (xs.length / 2) ++ q) s (by rw [hs, ← append_assoc (p ++ xs.take _), append_assoc p (xs.take _), hcat])
        (by rw [hleft]; omega)
      have hlen₁ : l.length = xs.length / 2 := by rw [hst₁.perm.length_eq, hleft]
      obtain ⟨s₂, r, hrun₂, hs₂, hst₂, hr⟩ := SortMergeSub_spec hc depth (p ++ l) (xs.drop (xs.length / 2)) q s₁
        (by rw [hs₁, append_assoc (p ++ l)]) (by rw [hright]; omega)
      have hlen₂ : r.length = xs.length - xs.length / 2 := by rw [hst₂.perm.length_eq, hright]
      obtain ⟨s₃, w, hrun₃, hs₃, hst₃, hw⟩ := mergeLoop_spec hc xs.length p l r q s₂ hs₂ (by omega) hl hr
      rw [hleft] at hrun₁
      rw [hright, length_append, hlen₁] at hrun₂
      rw [hlen₁, hlen₂] at hrun₃
      refine ⟨s₃, w, ?_, hs₃, ?_, hw⟩
      · simp only [hrun₁, hrun₂, some_bind, SortMerge_MergeArn, if_neg hshort, hrun₃]
      · have := ((hst₁.append_right _).trans (hst₂.append_left l)).trans hst₃
        rwa [hcat] at this

theorem SortMerge_spec (hc : Compares cmp) (s : arr.State) :
    ∃ s', SortMerge arr cmp s = some s' ∧ Stable cmp (arr.items s) (arr.items s') ∧ Sorted cmp (arr.items s') := by
  obtain ⟨s', ys, hrun, hs', hst, hso⟩ := SortMergeSub_spec hc (arr.Length s + 1) [] (arr.items s) [] s
    (by rw [nil_append, append_nil]) (Nat.lt_succ_self _)
  rw [nil_append, append_nil] at hs'
  exact ⟨s', hrun, hs' ▸ hst, hs' ▸ hso⟩

end ArrayTrait

end Unisym.Sorting
