/-
# `PoolMoves` — insertion and removal across page boundaries

`place` (the end of `SinglePool::Insert`) is `List.insertIdx` on the flat
list, `removeAt` (`SinglePool::Remove(idx, times)`) is `take ++ drop`.  Both
come from one invariant each of the loops that walk the pages: the two
(level, entry) pairs denote neighbouring flat indices, and the slots already
passed hold the shifted items.
-/
import Unisym.Mempool.PoolLayout

namespace Unisym.Mempool.Chain

open List

/-! ## The shifting loops -/

/-- `Insert`'s loop, from flat index `i` down to `i - n`. -/
theorem shiftRight_spec (n : Nat) : ∀ (c : Chain) (lp cd ep cs i : Nat),
    lp * cntSlicesPerPool + cd = i → cd < cntSlicesPerPool →
    (0 < n → ep * cntSlicesPerPool + cs + 1 = i ∧ cs < cntSlicesPerPool) →
    n ≤ i → i < cntSlicesPerPool * c.length →
    let r := shiftRight n c lp cd ep cs
    r.1.map SinglePool.slicecnt = c.map SinglePool.slicecnt ∧ r.1.skel = c.skel ∧
      r.2.1 * cntSlicesPerPool + r.2.2 = i - n ∧ r.2.2 < cntSlicesPerPool ∧
      ∀ j, r.1.itemAt j = if i - n < j ∧ j ≤ i then c.itemAt (j - 1) else c.itemAt j := by
  induction n with
  | zero =>
    intro c lp cd ep cs i hi hcd _ _ _
    refine ⟨rfl, rfl, hi, hcd, fun j => ?_⟩
    rw [if_neg (by omega)]
    rfl
  | succ n ih =>
    intro c lp cd ep cs i hi hcd hsrc hn hlen
    obtain ⟨hes, hcs⟩ := hsrc (Nat.succ_pos n)
    have hK : cntSlicesPerPool = 253 := rfl
    have hlp : lp < c.length := by rw [cntSlicesPerPool_eq] at *; omega
    have hitem : ∀ j, (c.setSlot lp cd (c.slot ep cs)).itemAt j =
        if j = i then c.itemAt (i - 1) else c.itemAt j := by
      intro j
      rw [itemAt_setSlot _ hlp hcd hi, itemAt_eq_slot (l := ep) (k := i - 1) hcs (by omega)]
    -- the source pair becomes the destination pair, one index to the left
    have step : ∀ ep' cs', (0 < n → ep' * cntSlicesPerPool + cs' + 1 = i - 1 ∧
          cs' < cntSlicesPerPool) →
        let r := shiftRight n (c.setSlot lp cd (c.slot ep cs)) ep cs ep' cs'
        r.1.map SinglePool.slicecnt = c.map SinglePool.slicecnt ∧ r.1.skel = c.skel ∧
          r.2.1 * cntSlicesPerPool + r.2.2 = i - (n + 1) ∧ r.2.2 < cntSlicesPerPool ∧
          ∀ j, r.1.itemAt j =
            if i - (n + 1) < j ∧ j ≤ i then c.itemAt (j - 1) else c.itemAt j := by
      intro ep' cs' hsrc'
      obtain ⟨h1, h2, h3, h4, h5⟩ := ih (c.setSlot lp cd (c.slot ep cs))
        ep cs ep' cs' (i - 1) (by omega) hcs hsrc' (by omega)
        (by rw [length_setSlot]; omega)
      refine ⟨by rw [h1, slicecnts_setSlot], by rw [h2, skel_setSlot], by omega, h4, ?_⟩
      intro j
      rw [h5 j, hitem, hitem]
      by_cases hj : j = i
      · subst hj
        rw [if_neg (by omega), if_pos rfl, if_pos (by omega)]
      · by_cases hj' : i - 1 - n < j ∧ j ≤ i - 1
        · rw [if_pos hj', if_neg (by omega), if_pos (by omega)]
        · rw [if_neg hj', if_neg hj, if_neg (by omega)]
    unfold shiftRight
    by_cases h0 : cs = 0
    · rw [if_pos h0]
      exact step _ _ (fun _ => by rw [cntSlicesPerPool_eq] at *; omega)
    · rw [if_neg h0]
      exact step _ _ (fun _ => by omega)

/-- `Remove`'s loop, with the destination at flat index `d` and the source
`times` further on. -/
theorem shiftLeft_spec (times n : Nat) : ∀ (c : Chain) (dp cd sp cs d : Nat),
    dp * cntSlicesPerPool + cd = d → cd < cntSlicesPerPool →
    sp * cntSlicesPerPool + cs = d + times → cs < cntSlicesPerPool →
    d + n ≤ cntSlicesPerPool * c.length →
    let r := shiftLeft n c dp cd sp cs
    r.1.map SinglePool.slicecnt = c.map SinglePool.slicecnt ∧ r.1.skel = c.skel ∧
      r.2.1 * cntSlicesPerPool + r.2.2 = d + n ∧ r.2.2 < cntSlicesPerPool ∧
      ∀ j, j < d + n →
        r.1.itemAt j = if j < d then c.itemAt j else c.itemAt (j + times) := by
  induction n with
  | zero =>
    intro c dp cd sp cs d hd hcd _ _ _
    exact ⟨rfl, rfl, hd, hcd, fun j hj => by rw [if_pos (by omega)]; rfl⟩
  | succ n ih =>
    intro c dp cd sp cs d hd hcd hs hcs hlen
    have hK : cntSlicesPerPool = 253 := rfl
    have hdp : dp < c.length := by rw [cntSlicesPerPool_eq] at *; omega
    have hitem : ∀ j, (c.setSlot dp cd (c.slot sp cs)).itemAt j =
        if j = d then c.itemAt (d + times) else c.itemAt j := by
      intro j
      rw [itemAt_setSlot _ hdp hcd hd, itemAt_eq_slot hcs hs]
    have step : ∀ dp' cd' sp' cs', dp' * cntSlicesPerPool + cd' = d + 1 →
        cd' < cntSlicesPerPool → sp' * cntSlicesPerPool + cs' = d + 1 + times →
        cs' < cntSlicesPerPool →
        let r := shiftLeft n (c.setSlot dp cd (c.slot sp cs)) dp' cd' sp' cs'
        r.1.map SinglePool.slicecnt = c.map SinglePool.slicecnt ∧ r.1.skel = c.skel ∧
          r.2.1 * cntSlicesPerPool + r.2.2 = d + (n + 1) ∧ r.2.2 < cntSlicesPerPool ∧
          ∀ j, j < d + (n + 1) →
            r.1.itemAt j = if j < d then c.itemAt j else c.itemAt (j + times) := by
      intro dp' cd' sp' cs' hd' hcd' hs' hcs'
      obtain ⟨h1, h2, h3, h4, h5⟩ := ih
        (c.setSlot dp cd (c.slot sp cs)) dp' cd' sp' cs' (d + 1) hd' hcd' hs' hcs'
        (by rw [length_setSlot]; omega)
      refine ⟨by rw [h1, slicecnts_setSlot], by rw [h2, skel_setSlot], by omega, h4, ?_⟩
      intro j hj
      rw [h5 j (by omega), hitem, hitem]
      by_cases hjd : j = d
      · subst hjd
        rw [if_pos (by omega), if_pos rfl, if_neg (by omega)]
      · by_cases hlt : j < d
        · rw [if_pos (by omega), if_neg hjd, if_pos hlt]
        · by_cases hz : j + times = d
          · omega
          · rw [if_neg (by omega), if_neg hz, if_neg hlt]
    have hpos := cntSlicesPerPool_pos
    -- where each pair goes, with and without a page boundary
    have wrap : ∀ {p q e : Nat}, p * cntSlicesPerPool + q = e → q < cntSlicesPerPool →
        q + 1 ≥ cntSlicesPerPool → (p + 1) * cntSlicesPerPool + 0 = e + 1 := by
      intro p q e h1 h2 h3
      rw [Nat.succ_mul]
      omega
    have hs' : d + times + 1 = d + 1 + times := by omega
    unfold shiftLeft
    simp only
    by_cases hc1 : cd + 1 ≥ cntSlicesPerPool <;> by_cases hc2 : cs + 1 ≥ cntSlicesPerPool
    · rw [if_pos hc1, if_pos hc2]
      exact step (dp + 1) 0 (sp + 1) 0 (wrap hd hcd hc1) hpos (hs' ▸ wrap hs hcs hc2) hpos
    · rw [if_pos hc1, if_neg hc2]
      exact step (dp + 1) 0 sp (cs + 1) (wrap hd hcd hc1) hpos (by omega) (by omega)
    · rw [if_neg hc1, if_pos hc2]
      exact step dp (cd + 1) (sp + 1) 0 (by omega) (by omega) (hs' ▸ wrap hs hcs hc2) hpos
    · rw [if_neg hc1, if_neg hc2]
      exact step dp (cd + 1) sp (cs + 1) (by omega) (by omega) (by omega) (by omega)

/-! ## Placing a slice -/

theorem lastPool_eq : ∀ {c : Chain} {t : Nat} (lev : Nat), Shape c t →
    t < cntSlicesPerPool * c.length → lastPool lev c = lev + t / cntSlicesPerPool
  | [], t, lev, _, ht => by simp at ht
  | [p], t, lev, h, ht => by
    simp only [length_cons, length_nil] at ht
    rw [lastPool, Nat.div_eq_of_lt (by omega)]
    · rfl
    · intro _ _ _ h; cases h
  | p :: q :: rest, t, lev, h, ht => by
    obtain ⟨hp, hc⟩ := shape_cons.mp h
    have hK : cntSlicesPerPool = 253 := rfl
    unfold lastPool
    by_cases hf : p.slicecnt ≥ cntSlicesPerPool
    · have ht' : t - cntSlicesPerPool < cntSlicesPerPool * (q :: rest).length := by
        simp only [length_cons, hK] at ht ⊢
        omega
      rw [if_pos hf, lastPool_eq (lev + 1) hc ht', hK]
      omega
    · rw [if_neg hf, hK]
      omega

variable {c c' : Chain} {t : Nat}

theorem Shape.of_same (h : Shape c t)
    (hs : c'.map SinglePool.slicecnt = c.map SinglePool.slicecnt) : Shape c' t := by
  have hlen : c'.length = c.length := by
    have := congrArg List.length hs
    simpa using this
  exact ⟨by rw [hs, hlen]; exact h.1, by rw [hlen]; exact h.2⟩

theorem length_eq_of_skel (h : c'.skel = c.skel) : c'.length = c.length := by
  have := congrArg List.length h
  simpa [skel] using this

theorem shape_setCnt {t' l n : Nat} (h : Shape c t)
    (ht' : t' ≤ cntSlicesPerPool * c.length)
    (hn : n = min cntSlicesPerPool (t' - l * cntSlicesPerPool))
    (hother : ∀ j, j < c.length → j ≠ l →
      min cntSlicesPerPool (t - j * cntSlicesPerPool) =
        min cntSlicesPerPool (t' - j * cntSlicesPerPool)) :
    Shape (c.setCnt l n) t' := by
  refine ⟨?_, by rwa [length_setCnt]⟩
  apply ext_getElem?
  intro j
  rw [length_setCnt, setCnt, getElem?_map, getElem?_modify]
  rcases Nat.lt_or_ge j c.length with hj | hj
  · have hcnt := h.cnt_eq hj
    unfold cnt at hcnt
    rw [cntsOf, getElem?_map, getElem?_range hj]
    rw [getElem?_eq_getElem hj] at hcnt ⊢
    by_cases hjl : l = j
    · subst hjl
      simpa using hn
    · simp only [hjl, if_false, Option.map_some, Option.map_eq_map] at hcnt ⊢
      rw [hcnt, hother j hj (Ne.symm hjl)]
  · rw [getElem?_eq_none hj, cntsOf, getElem?_eq_none (by simpa using hj)]
    rfl

theorem place_spec {i : Nat} (src : Slice) (h : Shape c t)
    (hroom : t < cntSlicesPerPool * c.length) (hidx : i ≤ t) :
    ∃ c', place c t i src = (true, c') ∧ Shape c' (t + 1) ∧ c'.skel = c.skel ∧
      flat c' = (flat c).insertIdx i src := by
  have hK : cntSlicesPerPool = 253 := rfl
  have hlast : lastPool 0 c = t / cntSlicesPerPool := by
    rw [lastPool_eq 0 h hroom, Nat.zero_add]
  have hlev : t / cntSlicesPerPool < c.length := by rw [cntSlicesPerPool_eq] at *; omega
  have hcnt : c.cnt (t / cntSlicesPerPool) = t % cntSlicesPerPool := by
    rw [h.cnt_eq hlev, hK]; omega
  -- what remains of both branches: the slots are shifted, `src` is in slot `i`
  have finish : ∀ c₁ : Chain, c₁.map SinglePool.slicecnt = c.map SinglePool.slicecnt →
      c₁.skel = c.skel →
      (∀ j, j ≤ t → c₁.itemAt j =
        if j < i then c.itemAt j else if j = i then src else c.itemAt (j - 1)) →
      Shape (c₁.setCnt (t / cntSlicesPerPool) (c.cnt (t / cntSlicesPerPool) + 1)) (t + 1) ∧
        (c₁.setCnt (t / cntSlicesPerPool) (c.cnt (t / cntSlicesPerPool) + 1)).skel = c.skel ∧
        flat (c₁.setCnt (t / cntSlicesPerPool) (c.cnt (t / cntSlicesPerPool) + 1)) =
          (flat c).insertIdx i src := by
    intro c₁ hs hk hitem
    have hlen : c₁.length = c.length := length_eq_of_skel hk
    have hshape : Shape (c₁.setCnt (t / cntSlicesPerPool)
        (c.cnt (t / cntSlicesPerPool) + 1)) (t + 1) := by
      refine shape_setCnt (h.of_same hs) (by rw [hlen]; omega) ?_ ?_
      · rw [hcnt, hK]; omega
      · intro j _ hj
        rw [cntSlicesPerPool_eq] at *; omega
    refine ⟨hshape, by rw [skel_setCnt, hk], ?_⟩
    refine hshape.flat_eq (by rw [length_insertIdx, h.length_flat, if_pos hidx]) ?_
    intro k hk'
    rw [itemAt_setCnt, hitem k (by omega), getElem?_insertIdx]
    by_cases h1 : k < i
    · rw [if_pos h1, if_pos h1, h.flat_getElem? (by omega)]
    · rw [if_neg h1, if_neg h1]
      by_cases h2 : k = i
      · rw [if_pos h2, if_pos h2, if_pos (by rw [h.length_flat]; omega)]
      · rw [if_neg h2, if_neg h2, h.flat_getElem? (by omega)]
  unfold place
  simp only [hlast]
  by_cases h0 : c.cnt (t / cntSlicesPerPool) = 0 ∧ t / cntSlicesPerPool = 0
  · -- the chain is empty
    have ht : t = 0 := by rw [cntSlicesPerPool_eq] at *; omega
    rw [if_pos h0, if_neg (by rw [ht]; decide)]
    refine ⟨_, rfl, finish _ (slicecnts_setSlot ..) (skel_setSlot ..) ?_⟩
    intro j hj
    rw [itemAt_setSlot (k := t) src hlev (Nat.mod_lt _ cntSlicesPerPool_pos) (Nat.div_add_mod' ..)]
    rw [if_pos (by omega), if_neg (by omega), if_pos (by omega)]
  · rw [if_neg h0]
    refine ⟨_, rfl, ?_⟩
    obtain ⟨h1, h2, h3, h4, h5⟩ := shiftRight_spec (t - i) c (t / cntSlicesPerPool)
      (t % cntSlicesPerPool)
      (if c.cnt (t / cntSlicesPerPool) = 0 then t / cntSlicesPerPool - 1
        else t / cntSlicesPerPool)
      ((t - 1) % cntSlicesPerPool) t (Nat.div_add_mod' ..) (Nat.mod_lt _ cntSlicesPerPool_pos)
      (by
        intro _
        refine ⟨?_, Nat.mod_lt _ (by decide)⟩
        rw [hcnt] at h0 ⊢
        split <;> (rw [cntSlicesPerPool_eq] at *; omega))
      (Nat.sub_le ..) hroom
    refine finish _ ?_ ?_ ?_
    · rw [slicecnts_setSlot, h1]
    · rw [skel_setSlot, h2]
    · intro j hj
      have hlen := length_eq_of_skel h2
      rw [itemAt_setSlot src (by rw [hlen]; rw [cntSlicesPerPool_eq] at *; omega) h4 h3, h5]
      by_cases hj1 : j < i
      · rw [if_neg (by omega), if_neg (by omega), if_pos hj1]
      · rw [if_neg hj1]
        by_cases hj2 : j = i
        · rw [if_pos (by omega), if_pos hj2]
        · rw [if_neg (by omega), if_pos (by omega), if_neg hj2]

/-! ## Removing slices -/

theorem clearRun_slicecnt : ∀ {c : Chain}, Packed c →
    (clearRun c).map SinglePool.slicecnt = List.replicate c.length 0
  | [], _ => rfl
  | p :: rest, h => by
    unfold clearRun
    by_cases hp : p.slicecnt = 0
    · rw [if_pos hp]
      have hrest : ∀ q ∈ rest, q.slicecnt = 0 := h.rest_empty (by rw [hp]; decide)
      rw [map_cons, length_cons, replicate_succ, hp]
      congr 1
      exact eq_replicate_iff.mpr ⟨by simp, by simpa using hrest⟩
    · rw [if_neg hp, map_cons, clearRun_slicecnt (packed_cons.mp h).2.1]
      rfl

theorem clearRun_slices {β : Type} : ∀ (c : Chain) (f : SinglePool → β),
    (∀ p n, f { p with slicecnt := n } = f p) → (clearRun c).map f = c.map f
  | [], _, _ => rfl
  | p :: rest, f, hf => by
    unfold clearRun
    split
    · rfl
    · rw [map_cons, map_cons, clearRun_slices rest f hf, hf]

theorem slot_eq_of_slices
    (h : c'.map SinglePool.slices = c.map SinglePool.slices) (l i : Nat) :
    c'.slot l i = c.slot l i := by
  have hl : (c'.map SinglePool.slices)[l]? = (c.map SinglePool.slices)[l]? := by rw [h]
  rw [getElem?_map, getElem?_map] at hl
  unfold slot
  cases h1 : c'[l]? <;> cases h2 : (c)[l]? <;> simp_all [SinglePool.slot]

/-- `Remove(idx, times)` cuts `times` items out of the flat list. -/
theorem removeAt_spec {i times : Nat} (h : Shape c t) (htimes : 0 < times)
    (hle : i + times ≤ t) :
    ∃ c', removeAt c i times = (true, c') ∧ Shape c' (t - times) ∧ c'.skel = c.skel ∧
      flat c' = (flat c).take i ++ (flat c).drop (i + times) := by
  have hK : cntSlicesPerPool = 253 := rfl
  have hroom := h.2
  unfold removeAt
  rw [if_neg (by omega)]
  simp only [h.lengthOf]
  rw [if_neg (by omega)]
  obtain ⟨h1, h2, h3, h4, h5⟩ := shiftLeft_spec times (t - i - times) c
    (i / cntSlicesPerPool) (i % cntSlicesPerPool)
    ((i + times) / cntSlicesPerPool) ((i + times) % cntSlicesPerPool) i
    (Nat.div_add_mod' ..) (Nat.mod_lt _ cntSlicesPerPool_pos) (Nat.div_add_mod' ..)
    (Nat.mod_lt _ cntSlicesPerPool_pos) (by omega)
  generalize hr : shiftLeft (t - i - times) c (i / cntSlicesPerPool)
    (i % cntSlicesPerPool) ((i + times) / cntSlicesPerPool)
    ((i + times) % cntSlicesPerPool) = r at h1 h2 h3 h4 h5 ⊢
  obtain ⟨c₁, dp, cd⟩ := r
  simp only at h1 h2 h3 h4 h5 ⊢
  have hlen : c₁.length = c.length := length_eq_of_skel h2
  have hdp : dp < c.length := by rw [cntSlicesPerPool_eq] at *; omega
  have hs₁ : Shape c₁ t := h.of_same h1
  -- the pools above `dp`, before they are cleared
  have hdrop : (c₁.setCnt dp cd).drop (dp + 1) = c₁.drop (dp + 1) := by
    rw [setCnt, drop_modify_of_lt _ _ _ _ (Nat.lt_succ_self dp)]
  have hpacked : Packed (c₁.drop (dp + 1)) := by
    obtain ⟨ha, hb⟩ := hs₁.packed
    exact ⟨fun p hp => ha p (mem_of_mem_drop hp), hb.sublist (drop_sublist ..)⟩
  have hmap : ∀ {β : Type} (f : SinglePool → β), (∀ p n, f { p with slicecnt := n } = f p) →
      ((c₁.setCnt dp cd).take (dp + 1) ++ clearRun ((c₁.setCnt dp cd).drop (dp + 1))).map f =
        c₁.map f := by
    intro β f hf
    rw [map_append, clearRun_slices _ f hf, ← map_append, take_append_drop,
      setCnt, map_modify_of_comp f _ (fun p => hf p cd)]
  refine ⟨_, rfl, ?_⟩
  obtain ⟨c', hc'⟩ : ∃ c' : Chain, (c₁.setCnt dp cd).take (dp + 1) ++
    clearRun ((c₁.setCnt dp cd).drop (dp + 1)) = c' := ⟨_, rfl⟩
  rw [hc']
  have hskel : c'.skel = c.skel := by
    rw [← hc', skel, hmap _ (fun _ _ => rfl)]; exact h2
  have hitem : ∀ j, c'.itemAt j = c₁.itemAt j := by
    intro j
    refine slot_eq_of_slices ?_ _ _
    rw [← hc', hmap _ (fun _ _ => rfl)]
  have hshape : Shape c' (t - times) := by
    refine ⟨?_, by rw [length_eq_of_skel hskel]; omega⟩
    rw [length_eq_of_skel hskel, ← hc', map_append, hdrop, clearRun_slicecnt hpacked]
    apply ext_getElem?
    intro j
    rcases Nat.lt_or_ge j c.length with hj | hj
    · rw [cntsOf, getElem?_map, getElem?_range hj]
      rcases Nat.lt_or_ge j (dp + 1) with hjd | hjd
      · rw [getElem?_append_left (by simp; omega), getElem?_map,
          getElem?_take_of_lt hjd, setCnt, getElem?_modify]
        have hcnt := hs₁.cnt_eq (l := j) (by omega)
        unfold cnt at hcnt
        rw [getElem?_eq_getElem (by omega)] at hcnt ⊢
        by_cases hjdp : dp = j
        · subst hjdp
          simp only [if_true, Option.map_some, Option.map_eq_map, Option.some.injEq]
          rw [cntSlicesPerPool_eq] at *; omega
        · simp only [hjdp, if_false, Option.map_some, Option.map_eq_map, Option.some.injEq]
            at hcnt ⊢
          rw [hcnt]
          rw [cntSlicesPerPool_eq] at *; omega
      · rw [getElem?_append_right (by simp; omega)]
        rw [getElem?_replicate_of_lt (by simp; omega)]
        simp only [Option.map_some, Option.some.injEq]
        rw [cntSlicesPerPool_eq] at *; omega
    · rw [getElem?_eq_none (by simp; omega), cntsOf, getElem?_eq_none (by simpa using hj)]
  refine ⟨hshape, hskel, ?_⟩
  have hlength : ((flat c).take i ++ (flat c).drop (i + times)).length = t - times := by
    rw [length_append, length_take, length_drop, h.length_flat]
    omega
  refine hshape.flat_eq hlength ?_
  intro k hk
  rw [hitem, h5 k (by omega)]
  by_cases hki : k < i
  · rw [if_pos hki, getElem?_append_left (by simp [h.length_flat]; omega),
      getElem?_take_of_lt hki, h.flat_getElem? (by omega)]
  · rw [if_neg hki, getElem?_append_right (by simp [h.length_flat]; omega),
      getElem?_drop, length_take, h.length_flat, Nat.min_eq_left (by omega)]
    rw [← h.flat_getElem? (k := k + times) (by omega)]
    congr 1
    omega

end Unisym.Mempool.Chain
