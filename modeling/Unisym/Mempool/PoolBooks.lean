/-
# `PoolBooks` — the books of the allocator

A byte the allocator has is free or it is in a storage page: the page of a pool
or the page of a page-table node.  `Books` says what one state has that another
had not: `got` bytes came in, `lent` bytes went out, and what moved besides
moved from the free set to the storage pages.  A `Remove` that succeeds lends
its slice, an `Append` that succeeds gets it; whether an `Append` succeeds is
decided by `Chain.Starved`.
-/
import Unisym.Mempool.HeapInv

namespace Unisym.Mempool

/-! ## Storage pages -/

/-- The pages that pools and page-table nodes are stored in. -/
def storageOf (c : Chain) (N : Nat → Nat → Option Nat) : Set Nat :=
  {b | (∃ i, b ∈ storePage c i) ∨ ∃ l q, b ∈ nodeBytes N l q}

/-- The storage pages of a state. -/
def storage (m : Mempool) : Set Nat := storageOf m.available m.nodeAt

/-- From `c` and `N` to `c'` and `N'`, `got` came in and `lent` went out. -/
structure Books (c c' : Chain) (N N' : Nat → Nat → Option Nat) (got lent : Set Nat) : Prop where
  storage : storageOf c N ⊆ storageOf c' N'
  covered : lent ⊆ c.bytes ∪ got
  free : ∃ pages ⊆ storageOf c' N', c'.bytes = ((c.bytes ∪ got) \ lent) \ pages
  kept : c'.bytes ∪ storageOf c' N' ∪ lent = c.bytes ∪ storageOf c N ∪ got

section
variable {c c' c'' : Chain} {N N' N'' : Nat → Nat → Option Nat} {got lent : Set Nat}

theorem Books.refl (c : Chain) (N : Nat → Nat → Option Nat) : Books c c N N ∅ ∅ where
  storage := Set.Subset.rfl
  covered := Set.empty_subset _
  free := ⟨∅, Set.empty_subset _, by simp only [Set.union_empty, Set.sdiff_empty]⟩
  kept := rfl

theorem Books.free_subset (h : Books c c' N N' got lent) : c'.bytes ⊆ c.bytes ∪ got := by
  obtain ⟨pages, -, heq⟩ := h.free
  rw [heq]
  exact Set.sdiff_subset.trans Set.sdiff_subset

theorem Books.trans (h : Books c c' N N' got lent) (h' : Books c' c'' N' N'' ∅ ∅) :
    Books c c'' N N'' got lent := by
  obtain ⟨pages, hst, heq⟩ := h.free
  obtain ⟨pages', hst', heq'⟩ := h'.free
  have hk := h'.kept
  rw [Set.union_empty, Set.union_empty] at hk
  refine ⟨h.storage.trans h'.storage, h.covered,
    ⟨pages ∪ pages', Set.union_subset (hst.trans h'.storage) hst', ?_⟩, by rw [hk, h.kept]⟩
  rw [heq', heq, Set.union_empty, Set.sdiff_empty, Set.sdiff_sdiff]

theorem Books.then (h : Books c c' N N' ∅ ∅) (h' : Books c' c'' N' N'' got lent) :
    Books c c'' N N'' got lent := by
  obtain ⟨pages, hst, heq⟩ := h.free
  obtain ⟨pages', hst', heq'⟩ := h'.free
  have hsub := h.free_subset
  have hk := h.kept
  rw [Set.union_empty] at hsub
  rw [Set.union_empty, Set.union_empty] at hk
  refine ⟨h.storage.trans h'.storage, h'.covered.trans (Set.union_subset_union_left _ hsub),
    ⟨pages \ got ∪ pages', Set.union_subset (Set.sdiff_subset.trans (hst.trans h'.storage)) hst', ?_⟩,
    by rw [h'.kept, hk]⟩
  rw [heq', heq]
  ext b
  simp only [Set.mem_union, Set.mem_sdiff, Set.mem_empty_iff_false]
  tauto

theorem Books.pass {lent' : Set Nat} (h : Books c c' N N' got ∅)
    (h' : Books c' c'' N' N'' ∅ lent') : Books c c'' N N'' got lent' := by
  obtain ⟨pages, hst, heq⟩ := h.free
  obtain ⟨pages', hst', heq'⟩ := h'.free
  have hk := h.kept
  have hl := h'.covered
  rw [Set.union_empty] at hk hl
  refine ⟨h.storage.trans h'.storage, hl.trans h.free_subset,
    ⟨pages ∪ pages', Set.union_subset (hst.trans h'.storage) hst', ?_⟩,
    by rw [h'.kept, Set.union_empty, hk]⟩
  rw [heq', heq]
  ext b
  simp only [Set.mem_union, Set.mem_sdiff, Set.mem_empty_iff_false]
  tauto

theorem Books.back (h : Books c c' N N' got lent) (h' : Books c' c'' N' N'' lent ∅) :
    Books c c'' N N'' got ∅ := by
  obtain ⟨pages, hst, heq⟩ := h.free
  obtain ⟨pages', hst', heq'⟩ := h'.free
  refine ⟨h.storage.trans h'.storage, Set.empty_subset _,
    ⟨pages \ lent ∪ pages', Set.union_subset (Set.sdiff_subset.trans (hst.trans h'.storage)) hst', ?_⟩,
    by rw [h'.kept, h.kept]⟩
  rw [heq', heq]
  ext b
  have hl := @h.covered b
  simp only [Set.mem_union, Set.mem_sdiff, Set.mem_empty_iff_false] at hl ⊢
  tauto

theorem Books.toNode {l q a : Nat} (h : Books c c' N N ∅ (page a)) (hnew : N l q = none) :
    Books c c' N (addNode N l q a) ∅ ∅ := by
  have hst : storageOf c' (addNode N l q a) = storageOf c' N ∪ page a := by
    ext b
    constructor
    · rintro (hb | ⟨l', q', hb⟩)
      · exact Or.inl (Or.inl hb)
      · by_cases hlq : l' = l ∧ q' = q
        · obtain ⟨rfl, rfl⟩ := hlq
          rw [nodeBytes, addNode_self] at hb
          exact Or.inr hb
        · rw [nodeBytes, addNode_ne hlq] at hb
          exact Or.inl (Or.inr ⟨l', q', hb⟩)
    · rintro ((hb | ⟨l', q', hb⟩) | hb)
      · exact Or.inl hb
      · refine Or.inr ⟨l', q', ?_⟩
        by_cases hlq : l' = l ∧ q' = q
        · obtain ⟨rfl, rfl⟩ := hlq
          rw [nodeBytes, hnew] at hb
          exact absurd hb (Set.notMem_empty b)
        · rw [nodeBytes, addNode_ne hlq]
          exact hb
      · exact Or.inr ⟨l, q, by rw [nodeBytes, addNode_self]; exact hb⟩
  obtain ⟨pages, hpages, heq⟩ := h.free
  refine ⟨h.storage.trans (by rw [hst]; exact Set.subset_union_left), Set.empty_subset _,
    ⟨page a ∪ pages, ?_, ?_⟩, ?_⟩
  · rw [hst]
    exact Set.union_subset Set.subset_union_right (hpages.trans Set.subset_union_left)
  · rw [heq, Set.sdiff_empty, Set.sdiff_sdiff]
  · rw [hst, Set.union_empty, ← h.kept, Set.union_assoc]

/-! ## The two calls -/

section Chains
variable {host : Option Nat} {taken : Set Nat} {s : Slice}

theorem Chain.Growth.storageOf (h : Chain.Growth host c c' taken) (hne : c ≠ []) :
    storageOf c' N = Mempool.storageOf c N ∪ taken := by
  ext b
  have hlast : b ∉ Mempool.storePage c (c.length - 1) := by
    rw [storePage_last hne]
    exact Set.notMem_empty b
  constructor
  · rintro (⟨i, hb⟩ | hb)
    · rw [h.storePage hne] at hb
      by_cases hi : i = c.length - 1
      · rw [if_pos hi] at hb
        exact Or.inr hb
      · rw [if_neg hi] at hb
        exact Or.inl (Or.inl ⟨i, hb⟩)
    · exact Or.inl (Or.inr hb)
  · rintro ((⟨i, hb⟩ | hb) | hb)
    · refine Or.inl ⟨i, ?_⟩
      have hi : i ≠ c.length - 1 := by
        rintro rfl
        exact hlast hb
      rw [h.storePage hne, if_neg hi]
      exact hb
    · exact Or.inr hb
    · refine Or.inl ⟨c.length - 1, ?_⟩
      rw [h.storePage hne, if_pos rfl]
      exact hb

theorem Chain.Done.lends (hd : Chain.Done host s c c' taken (c.bytes \ s.bytes)) (hne : c ≠ [])
    (hsub : s.bytes ⊆ c.bytes) : Books c c' N N ∅ s.bytes := by
  have hst := hd.growth.storageOf (N := N) hne
  refine ⟨by rw [hst]; exact Set.subset_union_left, hsub.trans Set.subset_union_left,
    ⟨taken, by rw [hst]; exact Set.subset_union_right, by rw [Set.union_empty]; exact hd.bytes⟩, ?_⟩
  have htaken := hd.growth.subset
  rw [hst, hd.bytes]
  ext b
  have h1 := @hsub b
  have h2 := @htaken b
  simp only [Set.mem_union, Set.mem_sdiff, Set.mem_empty_iff_false]
  tauto

theorem Chain.Done.gets (hd : Chain.Done host s c c' taken (c.bytes ∪ s.bytes)) (hne : c ≠ []) :
    Books c c' N N s.bytes ∅ := by
  have hst := hd.growth.storageOf (N := N) hne
  refine ⟨by rw [hst]; exact Set.subset_union_left, Set.empty_subset _,
    ⟨taken, by rw [hst]; exact Set.subset_union_right, by rw [Set.sdiff_empty]; exact hd.bytes⟩, ?_⟩
  have htaken := hd.growth.subset
  rw [hst, hd.bytes]
  ext b
  have h2 := @htaken b
  simp only [Set.mem_union, Set.mem_sdiff, Set.mem_empty_iff_false]
  tauto

end Chains

end

/-! ## When `Append` succeeds -/

/-- `Append` has nowhere to put a slice: the last pool is full, the slice touches
no slice of the chain, and there is no storage for another pool. -/
def Chain.Starved (host : Option Nat) (c : Chain) (s : Slice) : Prop :=
  c.tailFull = true ∧ (∀ x ∈ Chain.flat c, x.fin < s.address ∨ s.fin < x.address) ∧
    Chain.newStorage host c none = none

/-- A slice none of whose bytes is present is taken in, unless the chain is
starved. -/
theorem Chain.append_ok {host : Option Nat} {c : Chain} {s : Slice} (h : c.Inv) (hs : s.NoWrap)
    (hpos : 0 < s.length) (hd : Disjoint s.bytes c.bytes) (hst : ¬Chain.Starved host c s) :
    ∃ c', c.append host s = some (true, c') := by
  rcases (Chain.append_spec h hs hpos : c.append host s = some (false, c) ∨ _) with
    hfalse | ⟨c', -, htrue, -⟩
  · exfalso
    by_cases hg : Chain.Grows host c s
    · obtain ⟨a, c', htrue, -⟩ := Chain.append_grows h hs hpos hg
      rw [hfalse] at htrue
      simp at htrue
    -- the chain does not grow: there is room, or the slice touches another
    have hnear : c.tailFull = true → ¬∀ x ∈ Chain.flat c, x.fin < s.address ∨ s.fin < x.address := by
      intro hfull hfar
      refine hst ⟨hfull, hfar, ?_⟩
      by_contra hne
      exact hg ⟨hfull, hfar, hne⟩
    obtain ⟨k₁, k₂, hk, hgk⟩ := Chain.exists_gap hpos h.sep hd
    obtain ⟨idx, hidx⟩ := Chain.ifContainNon_gap h hs hpos hk hgk
    obtain ⟨l₁, l₂, hl, rfl, hgap⟩ := Chain.ifContainNon_spec h hs hidx
    unfold Chain.append Chain.callDepth at hfalse
    simp only [hidx] at hfalse
    cases hroom : c.tailFull with
    | false =>
      obtain ⟨c', hc', -⟩ := Chain.insert_room host 7 h hs hpos hl hgap hroom
      rw [hc'] at hfalse
      simp at hfalse
    | true =>
      unfold Chain.insert at hfalse
      simp only [h.shape.lengthOf] at hfalse
      rw [if_neg (by rw [hl]; simp)] at hfalse
      rcases Chain.seeLeft_spec h hs hpos hl hgap with ⟨h1, hleft⟩ | ⟨c', h1, -⟩
      · rcases Chain.seeRight_spec h hs hpos hl hgap hleft with ⟨h2, hright⟩ | ⟨c', h2, -⟩
        · refine hnear hroom fun x hx => ?_
          rw [hl] at hx
          exact (List.mem_append.mp hx).imp (hleft x) (hright x)
        · rw [h1, h2] at hfalse
          simp at hfalse
      · rw [h1] at hfalse
        simp at hfalse
  · exact ⟨c', htrue⟩

section Calls
variable {h : Host} {m : Mempool} {N : Nat → Nat → Option Nat} {s : Slice}

open Ownership in
theorem Owned.free_apart {blocks runs : Nat → Option Nat} {own : Nat → Option Owner}
    (ho : Owned m blocks runs N own) : Disjoint m.available.bytes (storageOf m.available N) := by
  rw [← ho.free, Set.disjoint_left]
  rintro b hb (⟨i, hi⟩ | ⟨l, q, hn⟩)
  · rw [← ho.stores] at hi
    exact Set.disjoint_left.mp (disjoint_held own (by simp)) hb hi
  · rw [← ho.nodes] at hn
    exact Set.disjoint_left.mp (disjoint_held own (by simp)) hb hn

section

variable (hc : m.available.Inv) (hs : s.NoWrap) (hpos : 0 < s.length)
include hc hs hpos

/-- `pool_available.Remove`: nothing, or the slice is lent out. -/
theorem takeAvail_spec : takeAvail h m s = (false, { m with tick := m.tick + 1 }) ∨
      ∃ c', takeAvail h m s = (true, { m with available := c', tick := m.tick + 1 }) ∧ c'.Inv ∧
        s.bytes ⊆ m.available.bytes ∧ c'.bytes ⊆ m.available.bytes \ s.bytes ∧
        ∀ N, Books m.available c' N N ∅ s.bytes := by
  unfold takeAvail
  rcases Chain.remove_spec hc hs hpos with hr | ⟨c', taken, hr, hsub, hd⟩
  · left; rw [hr]
  · right
    rw [hr]
    refine ⟨c', rfl, hd.inv, hsub, ?_, fun N => hd.lends hc.nonempty hsub⟩
    rw [hd.bytes]
    exact Set.sdiff_subset

/-- `pool_available.Append`: nothing, or the slice comes in. -/
theorem giveAvail_spec : giveAvail h m s = (false, { m with tick := m.tick + 1 }) ∨
      ∃ c', giveAvail h m s = (true, { m with available := c', tick := m.tick + 1 }) ∧ c'.Inv ∧
        s.bytes ⊆ c'.bytes ∧ ∀ N, Books m.available c' N N s.bytes ∅ := by
  unfold giveAvail
  rcases Chain.append_spec hc hs hpos with hr | ⟨c', taken, hr, -, hd⟩
  · left; rw [hr]
  · right
    rw [hr]
    refine ⟨c', rfl, hd.inv, ?_, fun N => hd.gets hc.nonempty⟩
    rw [hd.bytes]
    exact fun b hb => ⟨Or.inr hb, Set.disjoint_right.mp hd.apart hb⟩

theorem takeAvail_books {m' : Mempool} (ht : takeAvail h m s = (true, m')) :
    s.bytes ⊆ m.available.bytes ∧ m'.available.bytes ⊆ m.available.bytes \ s.bytes ∧
      ∀ N, Books m.available m'.available N N ∅ s.bytes := by
  rcases takeAvail_spec (h := h) hc hs hpos with hf | ⟨c', htrue, -, hin, hout, hbooks⟩
  · rw [ht] at hf
    simp at hf
  · rw [ht] at htrue
    cases htrue
    exact ⟨hin, hout, hbooks⟩

theorem giveAvail_books {m' : Mempool} (hg : giveAvail h m s = (true, m')) :
    s.bytes ⊆ m'.available.bytes ∧ ∀ N, Books m.available m'.available N N s.bytes ∅ := by
  rcases giveAvail_spec (h := h) hc hs hpos with hf | ⟨c', htrue, -, hin, hbooks⟩
  · rw [hg] at hf
    simp at hf
  · rw [hg] at htrue
    cases htrue
    exact ⟨hin, hbooks⟩

theorem giveAvail_ok (hd : Disjoint s.bytes m.available.bytes)
    (hst : ¬Chain.Starved (h.pool m.tick) m.available s) : (giveAvail h m s).1 = true := by
  obtain ⟨c', hc'⟩ := Chain.append_ok hc hs hpos hd hst
  unfold giveAvail
  rw [hc']

end

end Calls

end Unisym.Mempool
