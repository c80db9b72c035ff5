/-
# `PoolLayout` — the paged list is a list

The slices of a chain of pools, read page by page, form one list `flat c`.
When the pages are filled from the left (`Packed`), the item with index `k` is
entry `k % CNT` of level `k / CNT`, and each function of `SinglePool.lean` acts
on `flat c` as the list operation it stands for:

    locate       indexing                 setAt        `List.set`
    removeAt     `take ++ drop`           place        `List.insertIdx`
    ifContainAll, ifContainNon            scans of the flat list

The loops that move slices across page boundaries are handled by counting:
`shiftLeft` and `shiftRight` walk with two (level, entry) pairs, and the one
invariant of both is which flat indices the pairs denote.
-/
import Unisym.Mempool.SinglePool
import Mathlib.Data.List.Range

namespace Unisym.Mempool

open List

namespace SinglePool

theorem live_length {p : SinglePool} (h : p.slicecnt ≤ cntSlicesPerPool) :
    p.live.length = p.slicecnt := by
  simp [live, h]

theorem live_getElem? {p : SinglePool} {i : Nat} (hi : i < p.slicecnt)
    (h : p.slicecnt ≤ cntSlicesPerPool) : p.live[i]? = some (p.slot i) := by
  have hlt : i < cntSlicesPerPool := lt_of_lt_of_le hi h
  simp [live, slot, hi, hlt]

@[simp] theorem slicecnt_setSlot (p : SinglePool) (i : Nat) (s : Slice) :
    (p.setSlot i s).slicecnt = p.slicecnt := rfl

@[simp] theorem address_setSlot (p : SinglePool) (i : Nat) (s : Slice) :
    (p.setSlot i s).address = p.address := rfl

@[simp] theorem ownerId_setSlot (p : SinglePool) (i : Nat) (s : Slice) :
    (p.setSlot i s).ownerId = p.ownerId := rfl

theorem slot_setSlot (p : SinglePool) (i j : Nat) (s : Slice) (hi : i < cntSlicesPerPool) :
    (p.setSlot i s).slot j = if i = j then s else p.slot j := by
  unfold slot setSlot
  by_cases h : i = j
  · subst h; simp [hi]
  · simp [h]

end SinglePool

namespace Chain

/-! ## The flat list and the shape of a packed chain -/

/-- The slices of a chain, in order. -/
def flat (c : Chain) : List Slice := c.flatMap SinglePool.live

/-- The pages are filled from the left: no pool holds more than it can, and
every pool before a non-empty one is full. -/
def Packed (c : Chain) : Prop :=
  (∀ p ∈ c, p.slicecnt ≤ cntSlicesPerPool) ∧
    c.Pairwise (fun p q => q.slicecnt ≠ 0 → p.slicecnt = cntSlicesPerPool)

/-- What no operation but growing changes: where the pools are stored and who
owns them. -/
def skel (c : Chain) : List (Nat × Nat) := c.map (fun p => (p.address, p.ownerId))

/-- `t` slices in `n` pages filled from the left. -/
def cntsOf (n t : Nat) : List Nat :=
  (List.range n).map (fun l => min cntSlicesPerPool (t - l * cntSlicesPerPool))

/-- The chain holds `t` slices, packed. -/
def Shape (c : Chain) (t : Nat) : Prop :=
  c.map SinglePool.slicecnt = cntsOf c.length t ∧ t ≤ cntSlicesPerPool * c.length

theorem cntSlicesPerPool_eq : cntSlicesPerPool = 253 := rfl

theorem cntSlicesPerPool_pos : 0 < cntSlicesPerPool := by rw [cntSlicesPerPool_eq]; omega

@[simp] theorem flat_nil : flat [] = [] := rfl

@[simp] theorem flat_cons (p : SinglePool) (c : Chain) : flat (p :: c) = p.live ++ flat c := rfl

@[simp] theorem flat_append (c d : Chain) : flat (c ++ d) = flat c ++ flat d :=
  flatMap_append

variable {c : Chain} {p : SinglePool} {t l k i : Nat}

theorem flat_eq_nil (h : ∀ p ∈ c, p.slicecnt = 0) : flat c = [] := by
  rw [flat, flatMap_eq_nil_iff]
  intro p hp
  simp [SinglePool.live, h p hp]

theorem packed_cons :
    Packed (p :: c) ↔
      p.slicecnt ≤ cntSlicesPerPool ∧ Packed c ∧
        ∀ q ∈ c, q.slicecnt ≠ 0 → p.slicecnt = cntSlicesPerPool := by
  simp only [Packed, mem_cons, forall_eq_or_imp, pairwise_cons]
  tauto

theorem Packed.rest_empty (h : Packed (p :: c))
    (hp : p.slicecnt < cntSlicesPerPool) : ∀ q ∈ c, q.slicecnt = 0 := by
  intro q hq
  by_contra hne
  exact absurd ((packed_cons.mp h).2.2 q hq hne) (Nat.ne_of_lt hp)

/-- A pool that is not full is the last one with anything in it. -/
theorem Packed.flat_of_not_full (h : Packed (p :: c))
    (hp : p.slicecnt < cntSlicesPerPool) : flat (p :: c) = p.live := by
  rw [flat_cons, flat_eq_nil (h.rest_empty hp), append_nil]

theorem cntsOf_succ (n t : Nat) :
    cntsOf (n + 1) t = min cntSlicesPerPool t :: cntsOf n (t - cntSlicesPerPool) := by
  unfold cntsOf
  rw [range_succ_eq_map, map_cons, map_map]
  refine congrArg₂ List.cons (by rw [Nat.zero_mul, Nat.sub_zero]) (map_congr_left ?_)
  intro l _
  rw [Function.comp_apply, Nat.succ_mul, Nat.add_comm, Nat.sub_add_eq]

theorem cntsOf_zero_right (n : Nat) : cntsOf n 0 = List.replicate n 0 := by
  unfold cntsOf
  simp

theorem shape_cons :
    Shape (p :: c) t ↔
      p.slicecnt = min cntSlicesPerPool t ∧ Shape c (t - cntSlicesPerPool) := by
  simp only [Shape, map_cons, length_cons, cntsOf_succ, List.cons.injEq, Nat.mul_succ,
    cntSlicesPerPool_eq]
  constructor
  · rintro ⟨⟨hp, hc⟩, ht⟩
    exact ⟨hp, hc, by omega⟩
  · rintro ⟨hp, hc, ht⟩
    exact ⟨⟨hp, hc⟩, by omega⟩

theorem shape_zero (h : ∀ p ∈ c, p.slicecnt = 0) : Shape c 0 := by
  refine ⟨?_, Nat.zero_le _⟩
  rw [cntsOf_zero_right]
  exact eq_replicate_iff.mpr ⟨by simp, by simpa using h⟩

/-- A packed chain has the shape of its number of slices. -/
theorem Packed.shape : ∀ {c : Chain}, Packed c → Shape c (flat c).length
  | [], _ => ⟨rfl, Nat.zero_le _⟩
  | p :: c, h => by
    obtain ⟨hp, hc, -⟩ := packed_cons.mp h
    rw [shape_cons]
    rcases Nat.lt_or_ge p.slicecnt cntSlicesPerPool with hlt | hge
    · have hrest := h.rest_empty hlt
      rw [h.flat_of_not_full hlt, SinglePool.live_length hp]
      refine ⟨by omega, ?_⟩
      rw [Nat.sub_eq_zero_of_le hp]
      exact shape_zero hrest
    · have hfull : p.slicecnt = cntSlicesPerPool := Nat.le_antisymm hp hge
      rw [flat_cons, length_append, SinglePool.live_length hp]
      refine ⟨by omega, ?_⟩
      have := Packed.shape hc
      rwa [hfull, Nat.add_sub_cancel_left]

theorem Shape.packed : ∀ {c : Chain} {t : Nat}, Shape c t → Packed c
  | [], _, _ => ⟨fun _ h => absurd h not_mem_nil, List.Pairwise.nil⟩
  | p :: c, t, h => by
    obtain ⟨hp, hc⟩ := shape_cons.mp h
    refine packed_cons.mpr ⟨by omega, Shape.packed hc, ?_⟩
    intro q hq hne
    by_contra hnf
    -- a pool that is not full leaves nothing for the rest
    have ht : t - cntSlicesPerPool = 0 := by omega
    rw [ht] at hc
    have hmem : q.slicecnt ∈ c.map SinglePool.slicecnt := mem_map_of_mem hq
    rw [hc.1, cntsOf_zero_right] at hmem
    exact hne (eq_of_mem_replicate hmem)

theorem Shape.length_flat : ∀ {c : Chain} {t : Nat}, Shape c t → (flat c).length = t
  | [], t, h => by
    have := h.2
    simp only [length_nil, Nat.mul_zero, Nat.le_zero] at this
    simp [this]
  | p :: c, t, h => by
    obtain ⟨hp, hc⟩ := shape_cons.mp h
    rw [flat_cons, length_append, hc.length_flat,
      SinglePool.live_length (by omega), hp]
    omega

theorem Shape.cnt_eq (h : Shape c t) (hl : l < c.length) :
    c.cnt l = min cntSlicesPerPool (t - l * cntSlicesPerPool) := by
  have hget : (c.map SinglePool.slicecnt)[l]? = (cntsOf c.length t)[l]? := by rw [h.1]
  rw [getElem?_map, cntsOf, getElem?_map, getElem?_range hl] at hget
  unfold cnt
  cases hc : (c)[l]? with
  | none => simp [hc] at hget
  | some p => simpa [hc] using hget

/-! ## Slots by flat index -/

theorem itemAt_cons_lt (h : k < cntSlicesPerPool) :
    itemAt (p :: c) k = p.slot k := by
  unfold itemAt slot
  rw [Nat.div_eq_of_lt h, Nat.mod_eq_of_lt h]
  rfl

theorem itemAt_cons_ge (h : cntSlicesPerPool ≤ k) :
    itemAt (p :: c) k = itemAt c (k - cntSlicesPerPool) := by
  unfold itemAt slot
  rw [cntSlicesPerPool_eq] at *
  have hd : k / 253 = (k - 253) / 253 + 1 := by omega
  have hm : k % 253 = (k - 253) % 253 := by omega
  rw [hd, hm, getElem?_cons_succ]

theorem Shape.flat_getElem? : ∀ {c : Chain} {t k : Nat}, Shape c t → k < t →
    (flat c)[k]? = some (c.itemAt k)
  | [], t, k, h, hk => by
    have := h.2
    simp at this
    omega
  | p :: c, t, k, h, hk => by
    obtain ⟨hp, hc⟩ := shape_cons.mp h
    have hle : p.slicecnt ≤ cntSlicesPerPool := by omega
    rw [flat_cons]
    rcases Nat.lt_or_ge k cntSlicesPerPool with hlt | hge
    · rw [itemAt_cons_lt hlt, getElem?_append_left (by rw [SinglePool.live_length hle]; omega)]
      exact SinglePool.live_getElem? (by omega) hle
    · rw [itemAt_cons_ge hge, getElem?_append_right (by rw [SinglePool.live_length hle]; omega),
        SinglePool.live_length hle]
      have hcnt : p.slicecnt = cntSlicesPerPool := by omega
      rw [hcnt]
      exact hc.flat_getElem? (by omega)

theorem Shape.flat_eq {l : List Slice} (h : Shape c t)
    (hl : l.length = t) (hget : ∀ k, k < t → l[k]? = some (c.itemAt k)) : flat c = l := by
  apply ext_getElem?
  intro k
  rcases Nat.lt_or_ge k t with hk | hk
  · rw [h.flat_getElem? hk, hget k hk]
  · rw [getElem?_eq_none (by rw [h.length_flat]; exact hk),
      getElem?_eq_none (by rw [hl]; exact hk)]

theorem Shape.lengthOf : ∀ {c : Chain} {t : Nat}, Shape c t → c.lengthOf = t
  | [], t, h => by
    have := h.2
    simp only [length_nil, Nat.mul_zero, Nat.le_zero] at this
    simp [Chain.lengthOf, this]
  | [p], t, h => by
    obtain ⟨hp, hc⟩ := shape_cons.mp h
    have := hc.2
    simp only [length_nil, Nat.mul_zero, Nat.le_zero] at this
    simp only [Chain.lengthOf]
    omega
  | p :: q :: rest, t, h => by
    obtain ⟨hp, hc⟩ := shape_cons.mp h
    have ih := hc.lengthOf
    simp only [Chain.lengthOf, ih]
    have : cntSlicesPerPool = 253 := rfl
    split <;> omega

theorem Shape.level_lt (h : Shape c t) (hk : k < t) :
    k / cntSlicesPerPool < c.length := by
  have := h.2
  rw [cntSlicesPerPool_eq] at *
  omega

theorem Shape.locate (h : Shape c t) (k : Nat) :
    c.locate k = (flat c)[k]? := by
  rcases Nat.lt_or_ge k t with hk | hk
  · rw [h.flat_getElem? hk]
    have hlev := h.level_lt hk
    have hcnt := h.cnt_eq hlev
    unfold Chain.locate itemAt slot
    unfold cnt at hcnt
    rw [getElem?_eq_getElem hlev] at hcnt ⊢
    simp only at hcnt ⊢
    rw [if_neg]
    rw [hcnt, cntSlicesPerPool_eq]
    omega
  · rw [getElem?_eq_none (by rw [h.length_flat]; exact hk)]
    unfold Chain.locate
    cases hc : (c)[k / cntSlicesPerPool]? with
    | none => rfl
    | some p =>
      have hlev : k / cntSlicesPerPool < c.length := (List.getElem?_eq_some_iff.mp hc).1
      have hcnt := h.cnt_eq hlev
      simp only [cnt, hc] at hcnt
      simp only
      rw [if_pos]
      rw [hcnt, cntSlicesPerPool_eq]
      omega

/-! ## Writing slots and counts -/

@[simp] theorem length_setSlot (c : Chain) (l i : Nat) (s : Slice) :
    (c.setSlot l i s).length = c.length := by simp [setSlot]

@[simp] theorem length_setCnt (c : Chain) (l n : Nat) : (c.setCnt l n).length = c.length := by
  simp [setCnt]

theorem map_modify_of_comp {α β : Type*} (f : α → β) (g : α → α) (h : ∀ a, f (g a) = f a) :
    ∀ (l : List α) (i : Nat), (l.modify i g).map f = l.map f := by
  intro l i
  apply ext_getElem?
  intro j
  rw [getElem?_map, getElem?_map, getElem?_modify]
  cases l[j]? with
  | none => rfl
  | some a =>
    by_cases hij : i = j <;> simp [hij, h]

@[simp] theorem slicecnts_setSlot (c : Chain) (l i : Nat) (s : Slice) :
    (c.setSlot l i s).map SinglePool.slicecnt = c.map SinglePool.slicecnt :=
  map_modify_of_comp _ (fun p => p.setSlot i s) (fun _ => rfl) c l

@[simp] theorem skel_setSlot (c : Chain) (l i : Nat) (s : Slice) :
    (c.setSlot l i s).skel = c.skel :=
  map_modify_of_comp (fun p : SinglePool => (p.address, p.ownerId))
    (fun p => p.setSlot i s) (fun _ => rfl) c l

@[simp] theorem skel_setCnt (c : Chain) (l n : Nat) : (c.setCnt l n).skel = c.skel :=
  map_modify_of_comp (fun p : SinglePool => (p.address, p.ownerId))
    (fun p => { p with slicecnt := n }) (fun _ => rfl) c l

theorem slot_setSlot (s : Slice) (hl : l < c.length)
    (hi : i < cntSlicesPerPool) (l' i' : Nat) :
    (c.setSlot l i s).slot l' i' = if l = l' ∧ i = i' then s else c.slot l' i' := by
  unfold slot setSlot
  rw [getElem?_modify]
  by_cases h : l = l'
  · subst h
    rw [getElem?_eq_getElem hl]
    simp [SinglePool.slot_setSlot _ _ _ _ hi]
  · simp only [h, if_false, false_and]
    cases (c)[l']? <;> rfl

@[simp] theorem slot_setCnt (c : Chain) (l n l' i' : Nat) :
    (c.setCnt l n).slot l' i' = c.slot l' i' := by
  unfold slot setCnt
  rw [getElem?_modify]
  cases (c)[l']? with
  | none => rfl
  | some p => by_cases h : l = l' <;> simp [h, SinglePool.slot]

@[simp] theorem itemAt_setCnt (c : Chain) (l n k : Nat) :
    (c.setCnt l n).itemAt k = c.itemAt k := slot_setCnt ..

theorem itemAt_eq_slot (hi : i < cntSlicesPerPool)
    (h : l * cntSlicesPerPool + i = k) : c.itemAt k = c.slot l i := by
  unfold itemAt
  rw [cntSlicesPerPool_eq] at *
  rw [show k / 253 = l by omega, show k % 253 = i by omega]

theorem itemAt_setSlot (s : Slice) (hl : l < c.length)
    (hi : i < cntSlicesPerPool) (h : l * cntSlicesPerPool + i = k) (j : Nat) :
    (c.setSlot l i s).itemAt j = if j = k then s else c.itemAt j := by
  unfold itemAt
  rw [slot_setSlot s hl hi]
  rw [cntSlicesPerPool_eq] at *
  by_cases hjk : j = k
  · subst hjk
    rw [if_pos ⟨by omega, by omega⟩, if_pos rfl]
  · rw [if_neg (by omega), if_neg hjk]

theorem Shape.setSlot (h : Shape c t) (l i : Nat) (s : Slice) :
    Shape (c.setSlot l i s) t := by
  simpa [Shape] using h

theorem Shape.setAt (h : Shape c t) (k : Nat) (s : Slice) :
    Shape (c.setAt k s) t := h.setSlot ..

@[simp] theorem skel_setAt (c : Chain) (k : Nat) (s : Slice) : (c.setAt k s).skel = c.skel :=
  skel_setSlot ..

theorem itemAt_setAt (h : Shape c t) (hk : k < t) (s : Slice) (j : Nat) :
    (c.setAt k s).itemAt j = if j = k then s else c.itemAt j :=
  itemAt_setSlot s (h.level_lt hk) (Nat.mod_lt _ cntSlicesPerPool_pos) (Nat.div_add_mod' k _) j

theorem Shape.flat_setAt (h : Shape c t) (hk : k < t) (s : Slice) :
    flat (c.setAt k s) = (flat c).set k s := by
  refine (h.setAt k s).flat_eq (by rw [length_set, h.length_flat]) ?_
  intro j hj
  rw [itemAt_setAt h hk, getElem?_set, h.length_flat, h.flat_getElem? hj]
  by_cases hkj : k = j
  · subst hkj; simp [hk]
  · rw [if_neg hkj, if_neg (Ne.symm hkj)]

end Chain

end Unisym.Mempool
