/-
# `PoolEdit` — insertion and removal where nothing has to grow

An `Edit c c' b` is what every operation with room left does: the chain keeps
its pools, satisfies its invariant, and stands for the bytes `b`.  The three
ways `Insert` stores a slice (into the slice before it, into the slice after
it, as an entry of its own) and the four ways `Remove` cuts one are each an
edit of the middle of the flat list, closed by the interval library.
-/
import Unisym.Mempool.PoolSet
import Mathlib.Order.Interval.Set.LinearOrder

namespace Unisym.Mempool.Chain

open Unisym.Intervals List

/-- What an operation without growth leaves. -/
structure Edit (c c' : Chain) (b : Set Nat) : Prop where
  inv : Inv c'
  bytes : c'.bytes = b
  skel : c'.skel = c.skel
  length_le : (flat c').length ≤ (flat c).length + 1

variable {c : Chain} {l₁ l₂ : List Slice} {x : Slice}

theorem Edit.of_flat {c' : Chain} {t : Nat} {l : List Slice} {b : Set Nat} (hc : c ≠ [])
    (hshape : Shape c' t) (hskel : c'.skel = c.skel) (hl : flat c' = l) (hsep : Sep l)
    (hw : ∀ s ∈ l, s.NoWrap) (hb : bytesOf l = b) (hlen : l.length ≤ (flat c).length + 1) :
    Edit c c' b where
  inv :=
    { nonempty := by
        intro h
        apply hc
        rw [← length_eq_zero_iff, ← length_eq_of_skel hskel, h, length_nil]
      packed := hshape.packed
      sep := hl ▸ hsep
      noWrap := hl ▸ hw }
  bytes := by rw [Chain.bytes, hl, hb]
  skel := hskel
  length_le := by rw [hl]; exact hlen

/-- A separated list whose head lies beyond `b` lies beyond `b`. -/
theorem lt_of_head {b : Nat} {z : Slice} {r : List Slice} (h : Sep (z :: r))
    (hz : b < z.address) : ∀ w ∈ z :: r, b < w.address := by
  obtain ⟨hp, -, hlt⟩ := separated_cons.mp h
  intro w hw
  rcases mem_cons.mp hw with rfl | hw
  · exact hz
  · have := hlt w hw; omega

theorem flat_getElem?_append (l₁ : List Slice) (x : Slice) (l₂ : List Slice) :
    (l₁ ++ x :: l₂)[l₁.length]? = some x := by simp

theorem set_append_cons (l₁ : List Slice) (x y : Slice) (l₂ : List Slice) :
    (l₁ ++ x :: l₂).set l₁.length y = l₁ ++ y :: l₂ := by simp

theorem insertIdx_append (x : Slice) (l₂ : List Slice) :
    ∀ l₁ : List Slice, (l₁ ++ l₂).insertIdx l₁.length x = l₁ ++ x :: l₂
  | [] => by simp
  | y :: l₁ => by simp [insertIdx_append x l₂ l₁]

theorem take_append_drop_succ (x y : Slice) (l₂ : List Slice) : ∀ l₁ : List Slice,
    (l₁ ++ x :: y :: l₂).take (l₁.length + 1) ++ (l₁ ++ x :: y :: l₂).drop (l₁.length + 1 + 1) =
      l₁ ++ [x] ++ l₂
  | [] => by simp
  | z :: l₁ => by
    simp only [cons_append, length_cons, take_succ_cons, drop_succ_cons]
    rw [take_append_drop_succ x y l₂ l₁]

theorem Inv.flat_setAt (h : Inv c)
    (hl : flat c = l₁ ++ x :: l₂) (y : Slice) :
    flat (c.setAt l₁.length y) = l₁ ++ y :: l₂ := by
  rw [h.shape.flat_setAt (by rw [hl]; simp), hl, set_append_cons]

theorem Inv.locate_append (h : Inv c)
    (hl : flat c = l₁ ++ l₂) : c.locate l₁.length = l₂.head? := by
  rw [h.shape.locate, hl, getElem?_append_right (Nat.le_refl _), Nat.sub_self]
  cases l₂ <;> rfl

/-! ## Writing one slot of the flat list -/

/-- One slice that keeps its distance in the place of a middle part. -/
theorem Inv.edit {c' : Chain} {t : Nat} {m : List Slice} {y : Slice} {b : Set Nat} (h : Inv c)
    (hl : flat c = l₁ ++ (m ++ l₂)) (hshape : Shape c' t) (hskel : c'.skel = c.skel)
    (hflat : flat c' = l₁ ++ y :: l₂) (hy : y.address < y.fin) (hyw : y.NoWrap)
    (hleft : ∀ w ∈ l₁, w.fin < y.address) (hright : ∀ w ∈ l₂, y.fin < w.address)
    (hb : bytesOf (l₁ ++ y :: l₂) = b) : Edit c c' b := by
  have hsep : Sep (l₁ ++ (m ++ l₂)) := hl ▸ h.sep
  refine Edit.of_flat h.nonempty hshape hskel hflat ?_ ?_ hb ?_
  · refine hsep.replace (separated_singleton.mpr hy) ?_ ?_
    · intro w hw v hv
      rw [mem_singleton.mp hv]; exact hleft w hw
    · intro v hv w hw
      rw [mem_singleton.mp hv]; exact hright w hw
  · intro w hw
    rcases mem_append.mp hw with hw | hw
    · exact h.noWrap w (by rw [hl]; exact mem_append_left _ hw)
    · rcases mem_cons.mp hw with rfl | hw
      · exact hyw
      · exact h.noWrap w (by rw [hl]; simp [hw])
  · simp only [hl, length_append, length_cons]
    omega

/-- Overwriting the slice `x` of the flat list by one that keeps its distance. -/
theorem Inv.edit_setAt {y : Slice} {b : Set Nat}
    (h : Inv c) (hl : flat c = l₁ ++ x :: l₂) (hy : y.address < y.fin) (hyw : y.NoWrap)
    (hleft : ∀ w ∈ l₁, w.fin < y.address) (hright : ∀ w ∈ l₂, y.fin < w.address)
    (hb : bytesOf (l₁ ++ y :: l₂) = b) :
    Edit c (c.setAt l₁.length y) b :=
  h.edit (m := [x]) hl (h.shape.setAt _ _) (skel_setAt ..) (h.flat_setAt hl y) hy hyw hleft hright hb

theorem Inv.neighbours (h : Inv c)
    (hl : flat c = l₁ ++ x :: l₂) :
    x.address < x.fin ∧ x.NoWrap ∧ (∀ w ∈ l₁, w.fin < x.address) ∧ ∀ w ∈ l₂, x.fin < w.address := by
  have hsep := h.sep
  rw [hl] at hsep
  obtain ⟨-, h₂, h₁₂⟩ := separated_append.mp hsep
  obtain ⟨hx, -, hr⟩ := separated_cons.mp h₂
  exact ⟨hx, h.noWrap x (by rw [hl]; simp), fun w hw => h₁₂ w hw x mem_cons_self, hr⟩

/-! ## Insertion -/

section Insert
variable {c : Chain} {src : Slice} {l₁ l₂ : List Slice}

theorem bytesOf_join {x : Slice} (y : Slice) (hx : x.address ≤ x.fin)
    (hs : src.address ≤ src.fin) (h1 : y.address = x.address) (h2 : x.fin = src.address)
    (h3 : y.fin = src.fin) : bytesOf [y] = bytesOf [x] ∪ src.bytes := by
  rw [bytesOf_cons, bytesOf_cons, Slice.bytes, Slice.bytes, Slice.bytes, h1, h3, ← h2,
    Set.union_right_comm, Set.Ico_union_Ico_eq_Ico hx (h2 ▸ hs)]

section

variable (h : Inv c) (hw : src.NoWrap) (hpos : 0 < src.length) (hl : flat c = l₁ ++ l₂) (hg : Gap src l₁ l₂)
include h hw hpos hl hg

/-- "see left": either it does not apply and the slices before `src` keep a
distance, or it stores `src`. -/
theorem seeLeft_spec : (seeLeft c l₁.length src = none ∧ ∀ x ∈ l₁, x.fin < src.address) ∨
      ∃ c', seeLeft c l₁.length src = some (true, c') ∧ Edit c c' (c.bytes ∪ src.bytes) := by
  have hsf : src.fin = src.address + src.length := rfl
  rcases eq_nil_or_concat l₁ with rfl | ⟨k, x, rfl⟩
  · exact Or.inl ⟨by simp [seeLeft], fun _ h => absurd h not_mem_nil⟩
  rw [concat_eq_append] at *
  have hl' : flat c = k ++ x :: l₂ := by rw [hl]; simp
  obtain ⟨hx, hxw, hk, hr⟩ := h.neighbours hl'
  have hxle : x.fin ≤ src.address := hg.1 x (by simp)
  have hloc : c.locate ((k ++ [x]).length - 1) = some x := by
    rw [length_append, length_singleton, Nat.add_sub_cancel, h.locate_append hl']
    rfl
  by_cases htouch : x.fin = src.address
  · right
    have hxf : x.fin = x.address + x.length := rfl
    have hlen : wadd x.length src.length = x.length + src.length :=
      wadd_eq (by unfold Slice.NoWrap at hw; omega)
    have hxw' : (Slice.mk x.address (x.length + src.length)).NoWrap := by
      unfold Slice.NoWrap at *; simp only; omega
    have hfin : (Slice.mk x.address (x.length + src.length)).fin = src.fin := by
      simp only [Slice.fin_mk]; omega
    unfold seeLeft
    rw [if_pos (by simp), hloc]
    simp only [Option.getD_some]
    rw [if_pos (by rw [hxw.endo]; exact htouch), hlen]
    have hlen1 : (k ++ [x]).length - 1 = k.length := by simp
    have hlen2 : (k ++ [x]).length = k.length + 1 := by simp
    rw [hlen1, hlen2]
    have hbase : ∀ {r : List Slice}, (∀ w ∈ r, src.fin < w.address) → flat c = k ++ x :: r →
        Edit c (c.setAt k.length ⟨x.address, x.length + src.length⟩) (c.bytes ∪ src.bytes) := by
      intro r hr hlr
      refine h.edit_setAt hlr (by rw [hfin]; simp only; omega) hxw' hk
        (fun w hw => by rw [hfin]; exact hr w hw) ?_
      rw [Chain.bytes, hlr]
      exact cover_replace_union (m := [x]) (n := [⟨x.address, x.length + src.length⟩])
        (bytesOf_join _ (by omega) (by omega) rfl htouch hfin)
    -- the slice after the widened one
    have hflat1 := h.flat_setAt hl' ⟨x.address, x.length + src.length⟩
    have hshape1 : Shape (c.setAt k.length ⟨x.address, x.length + src.length⟩) (flat c).length :=
      h.shape.setAt _ _
    have hnext : (c.setAt k.length ⟨x.address, x.length + src.length⟩).locate (k.length + 1) =
        l₂.head? := by
      rw [hshape1.locate, hflat1]
      cases l₂ <;> simp
    rw [hnext]
    cases l₂ with
    | nil => exact ⟨_, rfl, hbase (fun _ h => absurd h not_mem_nil) hl'⟩
    | cons z r =>
      have hsepzr : Sep (z :: r) := by
        have := h.sep; rw [hl] at this; exact (separated_append.mp this).2.1
      have hzle : src.fin ≤ z.address := hg.2 z mem_cons_self
      simp only [head?_cons]
      rw [hxw'.endo, hfin]
      by_cases htz : src.fin = z.address
      · -- `src` closes the gap between `x` and `z`
        rw [if_pos htz]
        have hzf : z.fin = z.address + z.length := rfl
        have hz := h.sep.lt (x := z) (by rw [hl]; simp)
        have hzw := h.noWrap z (by rw [hl]; simp)
        have hlen3 : wadd (x.length + src.length) z.length = x.length + src.length + z.length :=
          wadd_eq (by unfold Slice.NoWrap at hzw; omega)
        rw [hlen3]
        have hshape2 : Shape ((c.setAt k.length ⟨x.address, x.length + src.length⟩).setAt
            k.length ⟨x.address, x.length + src.length + z.length⟩) (flat c).length :=
          hshape1.setAt _ _
        have hidx : k.length + 1 + 1 ≤ (flat c).length := by
          rw [hl']; simp only [length_append, length_cons]; omega
        obtain ⟨c', hc', hshape', hskel', hflat'⟩ := removeAt_spec hshape2 Nat.one_pos hidx
        refine ⟨c', by rw [hc'], ?_⟩
        have hflat2 : flat c' = k ++ ⟨x.address, x.length + src.length + z.length⟩ :: r := by
          rw [hflat', hshape1.flat_setAt (by omega), hflat1, set_append_cons, take_append_drop_succ]
          exact (append_cons ..).symm
        have hfin3 : (Slice.mk x.address (x.length + src.length + z.length)).fin = z.fin := by
          simp only [Slice.fin_mk]; omega
        have hzr := (separated_cons.mp hsepzr).2.2
        refine h.edit (m := [x, z]) hl' hshape' (by rw [hskel', skel_setAt, skel_setAt])
          hflat2 (by rw [hfin3]; simp only; omega) ?_ hk (fun w hw => by rw [hfin3]; exact hzr w hw) ?_
        · unfold Slice.NoWrap at *; simp only; omega
        · rw [Chain.bytes, hl']
          refine cover_replace_union (m := [x, z]) (n := [⟨x.address, x.length + src.length + z.length⟩]) ?_
          show bytesOf _ = bytesOf _ ∪ _
          have hj : Slice.bytes ⟨x.address, x.length + src.length + z.length⟩ =
              x.bytes ∪ src.bytes ∪ z.bytes := by
            rw [Slice.bytes, Slice.bytes, Slice.bytes, Slice.bytes, hfin3, htouch,
              Set.Ico_union_Ico_eq_Ico (by omega) (by omega), htz,
              Set.Ico_union_Ico_eq_Ico (by omega) (by omega)]
          rw [bytesOf_cons, bytesOf_cons, bytesOf_cons, hj]
          ext a
          simp only [Set.mem_union]
          tauto
      · rw [if_neg htz]
        exact ⟨_, rfl, hbase (lt_of_head hsepzr (by omega)) hl'⟩
  · left
    refine ⟨?_, ?_⟩
    · unfold seeLeft
      rw [if_pos (by simp), hloc]
      simp only [Option.getD_some]
      rw [if_neg (by rw [hxw.endo]; exact htouch)]
    · intro w hw
      rcases mem_append.mp hw with hw | hw
      · have := hk w hw; omega
      · rw [mem_singleton.mp hw]; omega

/-- "see right": either it does not apply and the slices after `src` keep a
distance, or it stores `src`. -/
theorem seeRight_spec (hleft : ∀ x ∈ l₁, x.fin < src.address) :
    (seeRight c l₁.length src = none ∧ ∀ y ∈ l₂, src.fin < y.address) ∨
      ∃ c', seeRight c l₁.length src = some c' ∧ Edit c c' (c.bytes ∪ src.bytes) := by
  have hsf : src.fin = src.address + src.length := rfl
  unfold seeRight
  rw [h.locate_append hl]
  cases l₂ with
  | nil => exact Or.inl ⟨rfl, fun _ h => absurd h not_mem_nil⟩
  | cons z r =>
    obtain ⟨hz, hzw, -, hr⟩ := h.neighbours hl
    have hzle : src.fin ≤ z.address := hg.2 z mem_cons_self
    have hsepzr : Sep (z :: r) := by
      have := h.sep; rw [hl] at this; exact (separated_append.mp this).2.1
    have hzf : z.fin = z.address + z.length := rfl
    simp only [head?_cons, hw.endo]
    by_cases htz : src.fin = z.address
    · right
      rw [if_pos htz]
      refine ⟨_, rfl, ?_⟩
      have hlen : wadd z.length src.length = src.length + z.length := by
        rw [Nat.add_comm src.length]
        exact wadd_eq (by unfold Slice.NoWrap at hzw; omega)
      have hfin : (Slice.mk src.address (src.length + z.length)).fin = z.fin := by
        simp only [Slice.fin_mk]; omega
      rw [hlen]
      refine h.edit_setAt hl (by rw [hfin]; simp only; omega) ?_ hleft
        (fun w hw => by rw [hfin]; exact hr w hw) ?_
      · unfold Slice.NoWrap at *; simp only; omega
      · rw [Chain.bytes, hl]
        refine cover_replace_union (m := [z]) (n := [⟨src.address, src.length + z.length⟩]) ?_
        show bytesOf _ = bytesOf _ ∪ _
        rw [bytesOf_cons, bytesOf_cons, Slice.bytes, Slice.bytes, Slice.bytes, hfin,
          Set.union_right_comm, htz, Set.union_comm (Set.Ico z.address _)]
        rw [Set.Ico_union_Ico_eq_Ico (by omega) (by omega)]
    · left
      exact ⟨if_neg htz, lt_of_head hsepzr (by omega)⟩

end

/-- "see left" does not apply where the slice before keeps a distance. -/
theorem seeLeft_none (h : Inv c) (hl : flat c = l₁ ++ l₂) (hleft : ∀ x ∈ l₁, x.fin < src.address)
    (c' : Chain) : seeLeft c l₁.length src ≠ some (true, c') := by
  unfold seeLeft
  rcases eq_nil_or_concat l₁ with rfl | ⟨k, x, rfl⟩
  · simp
  rw [concat_eq_append] at *
  have hl' : flat c = k ++ x :: l₂ := by rw [hl]; simp
  have hxw := (h.neighbours hl').2.1
  have hx := hleft x (by simp)
  have hloc : c.locate ((k ++ [x]).length - 1) = some x := by
    rw [length_append, length_singleton, Nat.add_sub_cancel, h.locate_append hl']
    rfl
  rw [if_pos (by simp), hloc]
  simp only [Option.getD_some]
  rw [if_neg (by rw [hxw.endo]; omega)]
  simp

/-- "see right" does not apply where the slice after keeps a distance. -/
theorem seeRight_none (h : Inv c) (hw : src.NoWrap) (hl : flat c = l₁ ++ l₂)
    (hright : ∀ y ∈ l₂, src.fin < y.address) (c' : Chain) :
    seeRight c l₁.length src ≠ some c' := by
  unfold seeRight
  rw [h.locate_append hl]
  cases l₂ with
  | nil => simp
  | cons z r =>
    have hz := hright z mem_cons_self
    simp only [head?_cons]
    rw [if_neg (by rw [hw.endo]; omega)]
    simp

/-- A chain whose tail is not full has room for one more slice. -/
theorem Inv.room (h : Inv c) (hroom : c.tailFull = false) :
    (flat c).length < cntSlicesPerPool * c.length := by
  have hlen : 0 < c.length := length_pos_iff.mpr h.nonempty
  have hcnt := h.shape.cnt_eq (l := c.length - 1) (by omega)
  have hlt : c.cnt (c.length - 1) + 2 < cntSlicesPerPool := by
    simpa [tailFull, tailCnt] using hroom
  rw [hcnt] at hlt
  rw [cntSlicesPerPool_eq] at *
  omega

theorem insert_room (host : Option Nat) (fuel : Nat) (h : Inv c) (hw : src.NoWrap)
    (hpos : 0 < src.length) (hl : flat c = l₁ ++ l₂) (hg : Gap src l₁ l₂)
    (hroom : c.tailFull = false) :
    ∃ c', insert host (fuel + 1) c l₁.length src = some (true, c') ∧
      Edit c c' (c.bytes ∪ src.bytes) := by
  have hsf : src.fin = src.address + src.length := rfl
  unfold insert
  simp only [h.shape.lengthOf]
  rw [if_neg (by rw [hl]; simp)]
  rcases seeLeft_spec h hw hpos hl hg with ⟨h1, hleft⟩ | ⟨c', h1, hedit⟩
  · rcases seeRight_spec h hw hpos hl hg hleft with ⟨h2, hright⟩ | ⟨c', h2, hedit⟩
    · rw [h1, h2]
      simp only [hroom, Bool.false_eq_true, if_false]
      obtain ⟨c', hc', hshape, hskel, hflat⟩ := place_spec src h.shape (h.room hroom)
        (i := l₁.length) (by rw [hl]; simp)
      refine ⟨c', by rw [hc'], ?_⟩
      rw [hl, insertIdx_append] at hflat
      refine h.edit (m := []) hl hshape hskel hflat (by omega) hw hleft hright ?_
      rw [Chain.bytes, hl]
      refine cover_replace_union (m := []) (n := [src]) ?_
      rw [cover_cons, Set.union_comm]
      rfl
    · rw [h1, h2]; exact ⟨c', rfl, hedit⟩
  · rw [h1]; exact ⟨c', rfl, hedit⟩

end Insert

/-! ## Removal -/

section Remove
variable {c : Chain} {s x : Slice} {l₁ l₂ : List Slice}

@[simp] theorem length_setAt (c : Chain) (k : Nat) (s : Slice) : (c.setAt k s).length = c.length :=
  length_setSlot ..

theorem cnt_setAt (c : Chain) (k : Nat) (s : Slice) (l : Nat) : (c.setAt k s).cnt l = c.cnt l := by
  have h : ∀ d : Chain, d.cnt l = ((d.map SinglePool.slicecnt)[l]?).getD 0 := by
    intro d
    unfold cnt
    rw [getElem?_map]
    cases d[l]? <;> rfl
  rw [h, h, setAt, slicecnts_setSlot]

theorem tailFull_setAt (c : Chain) (k : Nat) (s : Slice) :
    (c.setAt k s).tailFull = c.tailFull := by
  unfold tailFull tailCnt
  rw [cnt_setAt, length_setAt]

theorem Edit.trans {c₀ c₁ c₂ : Chain} {b₁ b₂ : Set Nat} (h : Edit c₁ c₂ b₂) (h₁ : Edit c₀ c₁ b₁)
    (hlen : (flat c₁).length = (flat c₀).length) : Edit c₀ c₂ b₂ :=
  ⟨h.inv, h.bytes, h.skel.trans h₁.skel, by have := h.length_le; omega⟩

/-- The bytes left when `s` is cut out of the element `x`. -/
theorem bytes_cut {m : List Slice} (h : Inv c) (hl : flat c = l₁ ++ x :: l₂)
    (hx1 : x.address ≤ s.address) (hpos : 0 < s.length) (hx2 : s.fin ≤ x.fin)
    (hm : bytesOf m = Set.Ico x.address s.address ∪ Set.Ico s.fin x.fin) :
    bytesOf (l₁ ++ (m ++ l₂)) = c.bytes \ s.bytes := by
  have hsf : s.fin = s.address + s.length := rfl
  have hsep : Sep (l₁ ++ ([x] ++ l₂)) := by simpa [hl] using h.sep
  rw [Chain.bytes, hl]
  refine cover_replace_diff (m := [x]) hsep ?_ ?_
  · intro a ha
    rw [cover_cons, cover_nil, Set.union_empty]
    exact ⟨le_trans hx1 ha.1, lt_of_lt_of_le ha.2 hx2⟩
  · refine hm.trans ?_
    rw [cover_cons, cover_nil, Set.union_empty]
    exact (Ico_diff_Ico_of_subset hx1 (by omega) hx2).symm

/-- Where `ifContainAll` finds the parent, and what `Remove` computes of it. -/
theorem remove_parent (h : Inv c) (hs : s.NoWrap) (hl : flat c = l₁ ++ x :: l₂)
    (hx1 : x.address ≤ s.address) (hx2 : s.fin ≤ x.fin) :
    c.itemAt l₁.length = x ∧ wsub s.address x.address = s.address - x.address ∧
      wsub x.endo s.endo = x.fin - s.fin := by
  have hxw := (h.neighbours hl).2.1
  have hsf : s.fin = s.address + s.length := rfl
  have hxf : x.fin = x.address + x.length := rfl
  refine ⟨?_, wsub_eq hx1 ?_, ?_⟩
  · have hget := h.shape.flat_getElem? (k := l₁.length) (by rw [hl]; simp)
    rw [hl, flat_getElem?_append] at hget
    exact (Option.some.inj hget).symm
  · unfold Slice.NoWrap at hs; omega
  · rw [hxw.endo, hs.endo]
    exact wsub_eq hx2 hxw

/-- `Remove` where the tail has room, or where the slice is cut from an end of
its parent. -/
theorem remove_room (host : Option Nat) (fuel : Nat) (h : Inv c) (hs : s.NoWrap)
    (hpos : 0 < s.length) (hl : flat c = l₁ ++ x :: l₂) (hx1 : x.address ≤ s.address)
    (hx2 : s.fin ≤ x.fin) (hroom : x.address < s.address → s.fin < x.fin → c.tailFull = false) :
    ∃ c', removeSlice host (fuel + 2) c s = some (true, c') ∧ Edit c c' (c.bytes \ s.bytes) := by
  obtain ⟨hx, hxw, hk, hr⟩ := h.neighbours hl
  obtain ⟨hitem, hleft, hright⟩ := remove_parent h hs hl hx1 hx2
  have hsf : s.fin = s.address + s.length := rfl
  have hxf : x.fin = x.address + x.length := rfl
  have hfind : ifContainAll s 0 c = some l₁.length := by
    rw [ifContainAll_eq s 0 h.packed, hl, scanAll_hit hs hpos (hl ▸ h.sep)
      (fun y hy => h.noWrap y (hl ▸ hy)) hx1 hx2, Nat.zero_mul, Nat.zero_add]
    rfl
  unfold removeSlice
  rw [hfind]
  simp only [hitem, hleft, hright]
  rw [hs.endo]
  by_cases h1 : s.address - x.address = 0 <;> by_cases h2 : x.fin - s.fin = 0
  · -- the whole parent
    rw [if_pos ⟨h1, h2⟩]
    obtain ⟨c', hc', hshape, hskel, hflat⟩ := removeAt_spec h.shape (i := l₁.length)
      Nat.one_pos (by rw [hl]; simp)
    refine ⟨c', by rw [hc'], ?_⟩
    have hflat' : flat c' = l₁ ++ ([] ++ l₂) := by
      rw [hflat, hl]
      simp
    have hsep : Sep (l₁ ++ ([x] ++ l₂)) := by simpa [hl] using h.sep
    have hx₁₂ : ∀ w ∈ l₁, ∀ z ∈ l₂, w.fin < z.address := by
      intro w hw z hz
      have := hk w hw
      have := hr z hz
      omega
    refine Edit.of_flat h.nonempty hshape hskel hflat' ?_ ?_ ?_ ?_
    · rw [nil_append]
      obtain ⟨a1, a2, -⟩ := separated_append.mp hsep
      exact separated_append.mpr ⟨a1, (separated_append.mp a2).2.1, hx₁₂⟩
    · intro w hw
      exact h.noWrap w (by
        rw [hl]
        simp only [nil_append, mem_append, mem_cons] at hw ⊢
        tauto)
    · refine bytes_cut h hl hx1 hpos hx2 ?_
      rw [Set.Ico_eq_empty (by omega), Set.Ico_eq_empty (by omega), Set.union_empty]
      exact cover_nil
    · simp only [hl, nil_append, length_append, length_cons]
      omega
  · -- the front of the parent
    rw [if_neg (by tauto), if_neg (by omega), if_pos ⟨h1, by omega⟩]
    refine ⟨_, rfl, ?_⟩
    have hfin : (Slice.mk s.fin (x.fin - s.fin)).fin = x.fin := by
      simp only [Slice.fin_mk]; omega
    refine h.edit_setAt hl (by rw [hfin]; simp only; omega) ?_ ?_ ?_ ?_
    · unfold Slice.NoWrap at *; simp only; omega
    · intro w hw; have := hk w hw; simp only; omega
    · intro w hw; rw [hfin]; exact hr w hw
    · refine bytes_cut (m := [⟨s.fin, x.fin - s.fin⟩]) h hl hx1 hpos hx2 ?_
      rw [bytesOf_singleton, Slice.bytes, hfin, Set.Ico_eq_empty (a := x.address) (by omega),
        Set.empty_union]
  · -- the back of the parent
    rw [if_neg (by tauto), if_pos ⟨by omega, h2⟩]
    refine ⟨_, rfl, ?_⟩
    have hfin : (Slice.mk x.address (s.address - x.address)).fin = s.address := by
      simp only [Slice.fin_mk]; omega
    refine h.edit_setAt hl (by rw [hfin]; simp only; omega) ?_ hk ?_ ?_
    · unfold Slice.NoWrap at *; simp only; omega
    · intro w hw; have := hr w hw; rw [hfin]; omega
    · refine bytes_cut (m := [⟨x.address, s.address - x.address⟩]) h hl hx1 hpos hx2 ?_
      rw [bytesOf_singleton, Slice.bytes, hfin, Set.Ico_eq_empty (a := s.fin) (by omega),
        Set.union_empty]
  · -- the middle: the parent is truncated, the right part inserted after it
    rw [if_neg (by tauto), if_neg (by omega), if_neg (by omega),
      hroom (by omega) (by omega)]
    simp only [Bool.false_eq_true, if_false]
    have hfin1 : (Slice.mk x.address (s.address - x.address)).fin = s.address := by
      simp only [Slice.fin_mk]; omega
    have hfin2 : (Slice.mk s.fin (x.fin - s.fin)).fin = x.fin := by
      simp only [Slice.fin_mk]; omega
    have hedit1 : Edit c (c.setAt l₁.length ⟨x.address, s.address - x.address⟩)
        (bytesOf (l₁ ++ ⟨x.address, s.address - x.address⟩ :: l₂)) := by
      refine h.edit_setAt hl (by rw [hfin1]; simp only; omega) ?_ hk ?_ rfl
      · unfold Slice.NoWrap at *; simp only; omega
      · intro w hw; have := hr w hw; rw [hfin1]; omega
    have hflat1 := h.flat_setAt hl ⟨x.address, s.address - x.address⟩
    have hflat1' : flat (c.setAt l₁.length ⟨x.address, s.address - x.address⟩) =
        (l₁ ++ [⟨x.address, s.address - x.address⟩]) ++ l₂ := by
      rw [hflat1]; simp
    have hgap : Gap ⟨s.fin, x.fin - s.fin⟩ (l₁ ++ [⟨x.address, s.address - x.address⟩]) l₂ := by
      refine ⟨fun w hw => ?_, fun w hw => ?_⟩
      · simp only [mem_append, mem_singleton] at hw
        rcases hw with hw | rfl
        · have := hk w hw; simp only; omega
        · rw [hfin1]; simp only; omega
      · have := hr w hw
        rw [hfin2]; omega
    obtain ⟨c', hc', hedit⟩ := insert_room host fuel hedit1.inv
      (by unfold Slice.NoWrap at *; simp only; omega) (by simp only; omega) hflat1' hgap
      (by rw [tailFull_setAt]; exact hroom (by omega) (by omega))
    rw [length_append, length_singleton] at hc'
    rw [hc']
    refine ⟨c', rfl, ?_⟩
    have htrans := hedit.trans hedit1 (by rw [hflat1, hl]; simp)
    refine ⟨htrans.inv, ?_, htrans.skel, htrans.length_le⟩
    rw [htrans.bytes, hedit1.bytes]
    have hcut := bytes_cut (m := [⟨x.address, s.address - x.address⟩, ⟨s.fin, x.fin - s.fin⟩])
      h hl hx1 hpos hx2 (by
        rw [bytesOf_cons, bytesOf_singleton, Slice.bytes, Slice.bytes, hfin1, hfin2])
    rw [← hcut]
    simp only [bytesOf_append, bytesOf_cons, cons_append, nil_append]
    ext a
    simp only [Set.mem_union]
    tauto

end Remove

end Unisym.Mempool.Chain
