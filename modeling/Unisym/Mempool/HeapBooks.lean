/-
# `HeapBooks` — partial deallocation keeps the books

A byte of the allocator is free, in storage, or in the hands of a caller
(`World.accounted`).  `World.Kept` says that two worlds account for the same
bytes of the ranges the first had; every call that meets `Call.Books` keeps them,
so that a run which gives back all it took leaves the free set it found, less
storage pages.

`Call.Books` asks that a deallocation be of at most the size of the block.  The
code cuts a larger one down to the size, and then moves the header behind the
block and hands back sixteen bytes too few (`deallocate_more_than_block`).
-/
import Unisym.Mempool.HeapContract

namespace Unisym.Mempool

open Ownership Function

/-! ## Where the bytes are -/

/-- The bytes in the hands of callers. -/
def World.lentOut (w : World) : Set Nat :=
  {b | ∃ p, b ∈ blockBytes w.blocks p} ∪ {b | ∃ a, b ∈ runBytes w.runs a}

/-- The bytes the allocator answers for. -/
def World.accounted (w : World) : Set Nat :=
  w.pool.available.bytes ∪ storage w.pool ∪ w.lentOut

/-- `w'` accounts for the same bytes as `w`, of the ranges `w` had. -/
structure World.Kept (w w' : World) : Prop where
  storage : storage w.pool ⊆ storage w'.pool
  managed : managedBytes w.pool ⊆ managedBytes w'.pool
  same : ∀ b ∈ managedBytes w.pool, b ∈ w'.accounted ↔ b ∈ w.accounted

theorem World.Kept.refl (w : World) : w.Kept w :=
  ⟨Set.Subset.rfl, Set.Subset.rfl, fun _ _ => Iff.rfl⟩

theorem World.Kept.trans {w₁ w₂ w₃ : World} (h : w₁.Kept w₂) (h' : w₂.Kept w₃) : w₁.Kept w₃ :=
  ⟨h.storage.trans h'.storage, h.managed.trans h'.managed,
    fun b hb => (h'.same b (h.managed hb)).trans (h.same b hb)⟩

theorem union_share {f g : Nat → Set Nat} {p : Nat} (hne : ∀ x, x ≠ p → g x = f x) :
    {b | ∃ x, b ∈ g x} ∪ f p = {b | ∃ x, b ∈ f x} ∪ g p := by
  ext b
  constructor
  · rintro (⟨x, hx⟩ | hb)
    · by_cases hxp : x = p
      · exact Or.inr (hxp ▸ hx)
      · exact Or.inl ⟨x, hne x hxp ▸ hx⟩
    · exact Or.inl ⟨p, hb⟩
  · rintro (⟨x, hx⟩ | hb)
    · by_cases hxp : x = p
      · exact Or.inr (hxp ▸ hx)
      · exact Or.inl ⟨x, (hne x hxp).symm ▸ hx⟩
    · exact Or.inl ⟨p, hb⟩

section
variable {h : Host} {m m' : Mempool} {blocks runs : Nat → Option Nat} {limit : Nat} {fromSelf : Bool}
  {w w' : World}

theorem blocks_update (blocks : Nat → Option Nat) (p : Nat) (v : Option Nat) :
    {b | ∃ x, b ∈ blockBytes (update blocks p v) x} ∪ blockBytes blocks p =
      {b | ∃ x, b ∈ blockBytes blocks x} ∪ blockBytes (update blocks p v) p :=
  union_share fun _ hx => blockBytes_update_ne hx

theorem runs_update (runs : Nat → Option Nat) (a : Nat) (v : Option Nat) :
    {b | ∃ x, b ∈ runBytes (update runs a v) x} ∪ runBytes runs a =
      {b | ∃ x, b ∈ runBytes runs x} ∪ runBytes (update runs a v) a :=
  union_share fun _ hx => runBytes_update_ne hx

variable {p s n ptr size : Nat}

theorem lentOut_addBlock (hp : blocks p = none) :
    (⟨m', update blocks p (some s), runs⟩ : World).lentOut =
      (⟨m, blocks, runs⟩ : World).lentOut ∪ Set.Ico (p - headerSize) (p + s) := by
  have hb := blocks_update blocks p (some s)
  rw [blockBytes_none hp, Set.union_empty, blockBytes_some (update_self ..)] at hb
  unfold World.lentOut
  rw [hb, Set.union_right_comm]

theorem lentOut_dropBlock (p : Nat) :
    (⟨m, blocks, runs⟩ : World).lentOut =
      (⟨m', update blocks p none, runs⟩ : World).lentOut ∪ blockBytes blocks p := by
  have hb := blocks_update blocks p none
  rw [show blockBytes (update blocks p none) p = ∅ from blockBytes_none (update_self ..),
    Set.union_empty] at hb
  unfold World.lentOut
  rw [Set.union_right_comm, ← hb]

theorem lentOut_addRun {a : Nat} (ha : runs a = none) :
    (⟨m', blocks, update runs a (some n)⟩ : World).lentOut =
      (⟨m, blocks, runs⟩ : World).lentOut ∪ Set.Ico a (a + n * mempoolPageSize) := by
  have hb := runs_update runs a (some n)
  rw [runBytes_none ha, Set.union_empty, runBytes_some (update_self ..)] at hb
  unfold World.lentOut
  rw [hb, Set.union_assoc]

theorem lentOut_dropRun (a : Nat) :
    (⟨m, blocks, runs⟩ : World).lentOut =
      (⟨m', blocks, update runs a none⟩ : World).lentOut ∪ runBytes runs a := by
  have hb := runs_update runs a none
  rw [show runBytes (update runs a none) a = ∅ from runBytes_none (update_self ..),
    Set.union_empty] at hb
  unfold World.lentOut
  rw [Set.union_assoc, ← hb]

/-- The front of a block that was given back, where the rest stays a block. -/
theorem lentOut_cutBlock {k : Nat} (hp : blocks p = some s) (h16 : headerSize ≤ p) (hk0 : 0 < k)
    (hk : k < s) (hnone : blocks (p + k) = none) :
    (⟨m, blocks, runs⟩ : World).lentOut = (⟨m', cutBlock blocks p s k, runs⟩ : World).lentOut ∪
      Set.Ico (p - headerSize) (p - headerSize + k) := by
  have hcut : cutBlock blocks p s k = update (update blocks p none) (p + k) (some (s - k)) := by
    unfold cutBlock
    rw [if_neg (by omega), if_pos hk]
  have hnone' : update blocks p none (p + k) = none := by
    rw [update_of_ne (by omega)]
    exact hnone
  have hparts : Set.Ico (p + k - headerSize) (p + k + (s - k)) ∪
      Set.Ico (p - headerSize) (p - headerSize + k) = Set.Ico (p - headerSize) (p + s) := by
    rw [Set.union_comm, show p + k - headerSize = p - headerSize + k by omega,
      show p + k + (s - k) = p + s by omega]
    exact Set.Ico_union_Ico_eq_Ico (by omega) (by omega)
  rw [hcut, lentOut_addBlock (m := m) hnone', Set.union_assoc, hparts, ← blockBytes_some hp]
  exact lentOut_dropBlock p

/-! ## Calls -/

theorem World.Kept.lend {lent : Set Nat} (hl : Lends h w.pool w'.pool lent)
    (hf : HostFresh h w.pool) (hout : w'.lentOut = w.lentOut ∪ lent) : w.Kept w' := by
  obtain ⟨hman, added, hadd, hbooks⟩ := hl
  have hnew : ∀ b ∈ managedBytes w.pool, b ∉ added := by
    intro b hb hin
    rcases hadd with rfl | ⟨-, t, raw, size, ht, hraw, rfl⟩
    · exact hin
    · exact Set.disjoint_left.mp (hf t ht size raw hraw).2.2 hin hb
  refine ⟨hbooks.storage, fun b ⟨s, hs, hbs⟩ => ⟨s, hman hs, hbs⟩, fun b hbm => ?_⟩
  have hk := Set.ext_iff.mp hbooks.kept b
  have hn := hnew b hbm
  unfold World.accounted Mempool.storage
  rw [hout]
  simp only [Set.mem_union] at hk ⊢
  tauto

theorem World.Kept.give {got : Set Nat}
    (hb : Books w.pool.available w'.pool.available w.pool.nodeAt w'.pool.nodeAt got ∅)
    (hs : Same w.pool w'.pool) (hout : w.lentOut = w'.lentOut ∪ got) : w.Kept w' := by
  refine ⟨hb.storage, fun b ⟨s, hs', hbs⟩ => ⟨s, hs.managed ▸ hs', hbs⟩, fun b _ => ?_⟩
  have hk := Set.ext_iff.mp hb.kept b
  unfold World.accounted Mempool.storage
  rw [hout]
  simp only [Set.mem_union, Set.mem_empty_iff_false] at hk ⊢
  tauto

theorem World.Kept.still (hb : Books w.pool.available w'.pool.available w.pool.nodeAt w'.pool.nodeAt ∅ ∅)
    (hs : Same w.pool w'.pool) (hblocks : w'.blocks = w.blocks) (hruns : w'.runs = w.runs) :
    w.Kept w' := by
  refine .give hb hs ?_
  unfold World.lentOut
  rw [hblocks, hruns, Set.union_empty]

/-- What `deallocate(ptr, size)` hands back of a block of `n` bytes. -/
def recovered (ptr size n : Nat) : Slice :=
  ⟨ptr - headerSize, if size = 0 ∨ size = n then headerSize + n else min n size⟩

/-- When a call keeps the books. -/
def Call.Books (h : Host) (w : World) : Call → Prop
  | .allocate size alignment boundary =>
      isPageRequest size alignment boundary = true →
        PagesKept h w.pool (blockSize size / mempoolPageSize) alignment
  | .allocatePages n alignment => PagesKept h w.pool n alignment
  | .deallocate ptr size =>
      ∀ n, w.runs ptr = none → w.blocks ptr = some n →
        size ≤ n ∧ ¬routed w.pool ptr ∧ ¬routed w.pool (ptr + size) ∧
          ¬Chain.Starved (h.pool w.pool.tick) w.pool.available (recovered ptr size n)
  | .deallocatePages _ => True
  | .write _ => True
  | _ => False

section

variable (hh : Heap m blocks runs)
include hh

theorem Heap.apart_inside {k : Nat} (hp : blocks p = some s) (hk0 : 0 < k) (hk : k < s) :
    blocks (p + k) = none := by
  obtain ⟨N, leaf, own, hc, -⟩ := hh
  obtain ⟨h16, -⟩ := hc.headers p s hp
  refine hc.owned.block_none hc.headers (k := .block p) (a := p + k - 1) (by simp; omega) ?_
    (by unfold headerSize at *; omega) (by omega)
  rw [hc.owned.blocks, blockBytes_some hp]
  exact ⟨by omega, by omega⟩

theorem Heap.header (hp : blocks p = some s) : headerSize ≤ p ∧ 0 < s ∧ p + s < wordSize := by
  obtain ⟨N, leaf, own, hc, -⟩ := hh
  obtain ⟨h16, hs, hfin, -⟩ := hc.headers p s hp
  exact ⟨h16, hs, hfin⟩

theorem Heap.block_apart (p : Nat) : Disjoint m.available.bytes (blockBytes blocks p) := by
  obtain ⟨N, leaf, own, hc, -⟩ := hh
  rw [← hc.owned.free, ← hc.owned.blocks]
  exact disjoint_held own (by simp)

theorem Heap.run_none (hp : blocks p = some s) : runs p = none := by
  obtain ⟨N, leaf, own, hc, -, hr⟩ := hh
  obtain ⟨h16, hs, -⟩ := hc.headers p s hp
  cases hrun : runs p with
  | none => rfl
  | some n =>
    obtain ⟨-, -, hn, -⟩ := hr hrun
    have hblock : p ∈ held own (.block p) := by
      rw [hc.owned.blocks, blockBytes_some hp]
      exact ⟨Nat.sub_le .., by omega⟩
    have hin : p ∈ held own (.run p) := by
      rw [hc.owned.runs, runBytes_some hrun]
      exact ⟨le_refl _, Nat.lt_add_of_pos_right (Nat.mul_pos hn mempoolPageSize_pos)⟩
    exact absurd hin (Set.disjoint_left.mp (disjoint_held own (by simp)) hblock)

theorem Heap.lentOut_apart : Disjoint (m.available.bytes ∪ storage m) (⟨m, blocks, runs⟩ : World).lentOut := by
  obtain ⟨N, leaf, own, hc, -⟩ := hh
  have hkind : ∀ b ∈ m.available.bytes ∪ storage m, ∃ k, own b = some k ∧
      (k = .free ∨ (∃ i, k = .store i) ∨ ∃ l q, k = .node l q) := by
    rintro b (hb | ⟨i, hb⟩ | ⟨l, q, hb⟩)
    · rw [← hc.owned.free] at hb
      exact ⟨_, hb, Or.inl rfl⟩
    · rw [← hc.owned.stores] at hb
      exact ⟨_, hb, Or.inr (Or.inl ⟨i, rfl⟩)⟩
    · rw [hc.nodeAt_eq, ← hc.owned.nodes] at hb
      exact ⟨_, hb, Or.inr (Or.inr ⟨l, q, rfl⟩)⟩
  rw [Set.disjoint_left]
  rintro b hb (⟨p, hp⟩ | ⟨a, ha⟩)
  · obtain ⟨k, hk, hcase⟩ := hkind b hb
    rw [← hc.owned.blocks] at hp
    rw [mem_held.mp hp] at hk
    cases hk
    simp at hcase
  · obtain ⟨k, hk, hcase⟩ := hkind b hb
    rw [← hc.owned.runs] at ha
    rw [mem_held.mp ha] at hk
    cases hk
    simp at hcase

end

/-! ## Deallocation of a block -/

/-- What a deallocation of `size` of the `n` bytes of the block at `ptr` is to do. -/
structure Released (h : Host) (w : World) (ptr size n : Nat) : Prop where
  answer : (deallocate h w.pool ptr size).1 = true
  freed : ∃ pages ⊆ storage (deallocate h w.pool ptr size).2,
    (deallocate h w.pool ptr size).2.available.bytes = (w.pool.available.bytes ∪
      Set.Ico (ptr - headerSize) (if size < n then ptr - headerSize + size else ptr + n)) \ pages
  gone : (w.step h (.deallocate ptr size)).blocks ptr = none
  rest : size < n → (w.step h (.deallocate ptr size)).blocks (ptr + size) = some (n - size) ∧
    (deallocate h (deallocate h w.pool ptr size).2 (ptr + size) 0).1 = true

theorem step_deallocate_block (size : Nat) (hrun : w.runs ptr = none)
    (hblk : w.blocks ptr = some n) (hroute : ¬routed w.pool ptr)
    (hok : (deallocateBlock h w.pool ptr size).1 = true) :
    w.step h (.deallocate ptr size) =
      ⟨(deallocateBlock h w.pool ptr size).2, cutBlock w.blocks ptr n size, w.runs⟩ := by
  have hdeal : deallocate h w.pool ptr size = deallocateBlock h w.pool ptr size := if_neg hroute
  unfold World.step perform World.live
  dsimp only
  rw [hdeal, hrun, hblk, hok]
  simp only [Bool.toNat_true, Nat.one_ne_zero, and_false, if_false]

section

variable (hw : World.Inv limit fromSelf w) (hrun : w.runs ptr = none) (hblk : w.blocks ptr = some n)
include hw hrun hblk

theorem World.Inv.release_whole (hsize : size = 0 ∨ size = n) (hb : Call.Books h w (.deallocate ptr size)) :
    Books w.pool.available (deallocate h w.pool ptr size).2.available w.pool.nodeAt
        (deallocate h w.pool ptr size).2.nodeAt (Set.Ico (ptr - headerSize) (ptr + n)) ∅ ∧
      (deallocate h w.pool ptr size).1 = true ∧ Same w.pool (deallocate h w.pool ptr size).2 ∧
      w.step h (.deallocate ptr size) =
        ⟨(deallocate h w.pool ptr size).2, update w.blocks ptr none, w.runs⟩ := by
  obtain ⟨-, hroute, -, hst⟩ := hb n hrun hblk
  have hdeal : deallocate h w.pool ptr size = deallocateBlock h w.pool ptr size := if_neg hroute
  obtain ⟨ok, m', hd, hsame, hans, hbooks, -⟩ := hw.heap.deallocateBlock_whole (h := h) hblk hsize
  unfold recovered at hst
  rw [if_pos hsize] at hst
  have hok := hans hst
  subst hok
  have hstep := step_deallocate_block (h := h) size hrun hblk hroute (by rw [hd])
  rw [hstep, hdeal, hd]
  rw [if_pos rfl, blockBytes_some hblk] at hbooks
  refine ⟨hbooks, rfl, hsame, ?_⟩
  unfold cutBlock
  rw [if_pos hsize]

/-- `deallocate` of the front of a block: the rest is a block whose own deallocation
finds the front in the free set and joins it. -/
theorem World.Inv.release_part (h0 : 0 < size) (hlt : size < n) (hb : Call.Books h w (.deallocate ptr size)) :
    Books w.pool.available (deallocate h w.pool ptr size).2.available w.pool.nodeAt
        (deallocate h w.pool ptr size).2.nodeAt
        (Set.Ico (ptr - headerSize) (ptr - headerSize + size)) ∅ ∧
      (deallocate h w.pool ptr size).1 = true ∧ Same w.pool (deallocate h w.pool ptr size).2 ∧
      w.step h (.deallocate ptr size) =
        ⟨(deallocate h w.pool ptr size).2, cutBlock w.blocks ptr n size, w.runs⟩ ∧
      (deallocate h (deallocate h w.pool ptr size).2 (ptr + size) 0).1 = true := by
  obtain ⟨-, hroute, hroute', hst⟩ := hb n hrun hblk
  have hdeal : deallocate h w.pool ptr size = deallocateBlock h w.pool ptr size := if_neg hroute
  obtain ⟨h16, hn, hfin⟩ := hw.heap.header hblk
  have hmin : min n size = size := Nat.min_eq_right (Nat.le_of_lt hlt)
  obtain ⟨ok, m', hd, hsame, htable, hans, hbooks, hheap⟩ :=
    hw.heap.deallocateBlock_part (h := h) hblk (show size ≠ 0 by omega) (show size ≠ n by omega)
  have hpart : ¬(size = 0 ∨ size = n) := by omega
  unfold recovered at hst
  rw [if_neg hpart] at hst
  have hok := hans hst
  subst hok
  rw [hmin] at hbooks
  obtain ⟨hin, hbooks⟩ := hbooks rfl
  have hstep := step_deallocate_block (h := h) size hrun hblk hroute (by rw [hd])
  rw [hstep, hdeal, hd]
  refine ⟨hbooks, rfl, hsame, rfl, ?_⟩
  -- the rest
  have hrest : cutBlock w.blocks ptr n size (ptr + size) = some (n - size) := by
    unfold cutBlock
    rw [if_neg (by omega), if_pos hlt, update_self]
  have hnot : ¬routed m' (ptr + size) := by
    unfold routed at hroute' ⊢
    rwa [htable.leaves]
  obtain ⟨ok, m₂, hd₂, -, hans₂, -⟩ := hheap.deallocateBlock_whole (h := h) hrest (Or.inl rfl)
  have hdeal₂ : deallocate h m' (ptr + size) 0 = deallocateBlock h m' (ptr + size) 0 := if_neg hnot
  dsimp only
  rw [hdeal₂, hd₂]
  refine hans₂ fun hstarved => ?_
  -- the last free byte before the rest is the end of a slice
  have hbyte := hin (a := ptr - headerSize + size - 1) ⟨by omega, by omega⟩
  obtain ⟨x, hx, hx1, hx2⟩ := hbyte
  have hfar := hstarved.2.1 x hx
  have hend : x.fin ≤ ptr + size - headerSize := by
    by_contra hgt
    have hfree : ptr + size - headerSize ∈ m'.available.bytes := ⟨x, hx, by omega, by omega⟩
    refine Set.disjoint_left.mp (hheap.block_apart (ptr + size)) hfree ?_
    rw [blockBytes_some hrest]
    exact ⟨le_refl _, by omega⟩
  simp only [Slice.fin_mk] at hfar
  omega

/-- A deallocation that meets its condition does what it is to do. -/
theorem World.Inv.released (h0 : 0 < size) (hb : Call.Books h w (.deallocate ptr size)) :
    Released h w ptr size n := by
  obtain ⟨hle, -⟩ := hb n hrun hblk
  rcases Nat.lt_or_ge size n with hlt | hge
  · obtain ⟨hbooks, hok, -, hstep, hrest⟩ := hw.release_part hrun hblk h0 hlt hb
    obtain ⟨pages, hpages, heq⟩ := hbooks.free
    have hcut : cutBlock w.blocks ptr n size =
        update (update w.blocks ptr none) (ptr + size) (some (n - size)) := by
      unfold cutBlock
      rw [if_neg (by omega), if_pos hlt]
    refine ⟨hok, ⟨pages, hpages, ?_⟩, ?_, fun _ => ⟨?_, hrest⟩⟩
    · rw [if_pos hlt, heq, Set.sdiff_empty]
    · rw [hstep, hcut]
      exact (update_of_ne (by omega) _ _).trans (update_self ..)
    · rw [hstep, hcut]
      exact update_self ..
  · obtain ⟨hbooks, hok, -, hstep⟩ := hw.release_whole hrun hblk (Or.inr (by omega)) hb
    obtain ⟨pages, hpages, heq⟩ := hbooks.free
    refine ⟨hok, ⟨pages, hpages, ?_⟩, ?_, fun hlt => absurd hlt (by omega)⟩
    · rw [if_neg (by omega), heq, Set.sdiff_empty]
    · rw [hstep]
      exact update_self ..

end

/-! ## Every call -/

section

variable (hw : World.Inv limit fromSelf w)
include hw

theorem World.Inv.kept_run (hroute : routed w.pool ptr) (hun : Unaliased w.runs ptr)
    (hblk : w.runs ptr = none → w.blocks ptr = none) : w.Kept (w.step h (.deallocate ptr size)) := by
  have hdeal : Mempool.deallocate h w.pool ptr size = Mempool.deallocatePages h w.pool ptr :=
    if_pos hroute
  obtain ⟨ok, m', hok, hsame, hbooks, hcase⟩ := hw.heap.deallocatePages (h := h) hun
  unfold World.step perform World.live
  dsimp only
  rw [hdeal, hok]
  rcases hcase with ⟨rfl, -⟩ | ⟨rfl, hne, -⟩
  · cases hrun : w.runs ptr with
    | some n => exact .still hbooks hsame rfl rfl
    | none =>
      rw [hblk hrun]
      exact .still hbooks hsame rfl rfl
  · obtain ⟨n, hn⟩ := Option.ne_none_iff_exists'.mp hne
    rw [hn]
    exact .give hbooks hsame (lentOut_dropRun ptr)

theorem World.Inv.kept_block (hrun : w.runs ptr = none) (hblk : w.blocks ptr = some n)
    (hb : Call.Books h w (.deallocate ptr size)) : w.Kept (w.step h (.deallocate ptr size)) := by
  obtain ⟨hle, -⟩ := hb n hrun hblk
  obtain ⟨h16, -⟩ := hw.heap.header hblk
  by_cases hsize : size = 0 ∨ size = n
  · obtain ⟨hbooks, -, hsame, hstep⟩ := hw.release_whole hrun hblk hsize hb
    rw [hstep]
    refine .give hbooks hsame ?_
    rw [← blockBytes_some hblk]
    exact lentOut_dropBlock ptr
  · have h0 : 0 < size := by omega
    have hlt : size < n := by omega
    obtain ⟨hbooks, -, hsame, hstep, -⟩ := hw.release_part hrun hblk h0 hlt hb
    rw [hstep]
    exact .give hbooks hsame
      (lentOut_cutBlock hblk h16 h0 hlt (hw.heap.apart_inside hblk h0 hlt))

theorem World.Inv.kept_pages {alignment a : Nat} {m' : Mempool} (hf : HostFresh h w.pool)
    (hfit : PagesFit h w.pool n alignment) (hb : PagesKept h w.pool n alignment)
    (ha : Mempool.allocatePages h w.pool n alignment = (a, m')) :
    w.Kept ⟨m', w.blocks, if a = 0 then w.runs else update w.runs a (some n)⟩ := by
  obtain ⟨a', m'', ha', -, hbooks, hcase⟩ := hw.heap.allocatePages hf hfit
  rw [ha] at ha'
  cases ha'
  refine .lend (hbooks hb) hf ?_
  rcases hcase with ⟨rfl, -⟩ | ⟨hpos, -, -, hnone, -⟩
  · rw [if_pos rfl, lentRun_zero, Set.union_empty]
    rfl
  · rw [if_neg (Nat.ne_of_gt hpos), lentRun_pos hpos]
    exact lentOut_addRun hnone

theorem World.Inv.kept_step {c : Call} (hok : c.Ok h limit w) (hb : c.Books h w) : w.Kept (w.step h c) := by
  cases c with
  | reset => exact absurd hb id
  | resetWith s => exact absurd hb id
  | append s => exact absurd hb id
  | reserve s => exact absurd hb id
  | allocate size alignment boundary =>
    obtain ⟨⟨hfresh, -⟩, hfit⟩ := hok
    unfold World.step perform World.live
    dsimp only
    by_cases hpage : isPageRequest size alignment boundary = true
    · rw [if_pos hpage] at hfit
      have hall : Mempool.allocate h w.pool size alignment boundary =
          Mempool.allocatePages h w.pool (blockSize size / mempoolPageSize) alignment := if_pos hpage
      rcases hr : Mempool.allocatePages h w.pool (blockSize size / mempoolPageSize) alignment with
        ⟨a, m'⟩
      have hk := hw.kept_pages hfresh hfit (hb hpage) hr
      rw [hall, hr, hpage]
      dsimp only at hk ⊢
      by_cases ha : a = 0
      · rw [if_pos ha] at hk ⊢
        exact hk
      · rw [if_neg ha] at hk ⊢
        exact hk
    · rw [if_neg hpage] at hfit
      rw [Bool.not_eq_true] at hpage
      obtain ⟨a, m', ha, -, hbooks, hcase⟩ := hw.heap.allocate_block hfresh hpage hfit
      rw [ha, hpage]
      refine .lend hbooks hfresh ?_
      rcases hcase with ⟨rfl, -⟩ | ⟨hpos, hnone, -⟩
      · rw [lentBlock_zero, Set.union_empty]
        rfl
      · simp only [if_neg (Nat.ne_of_gt hpos), Bool.false_eq_true, if_false]
        rw [lentBlock_pos hpos]
        exact lentOut_addBlock hnone
  | deallocate ptr size =>
    rcases hw.deallocate_cases hok with ⟨hroute, hun, hblk⟩ | ⟨hroute, hrun, hsmall⟩
    · exact hw.kept_run hroute hun hblk
    · cases hblk : w.blocks ptr with
      | some n => exact hw.kept_block hrun hblk hb
      | none =>
        have hd : Mempool.deallocate h w.pool ptr size = (false, w.pool) :=
          (if_neg hroute).trans (if_pos (hsmall hblk))
        unfold World.step perform World.live
        dsimp only
        rw [hd, hrun, hblk]
        exact .still (Books.refl _ _) (Same.refl _) rfl rfl
  | allocatePages n alignment =>
    obtain ⟨⟨hfresh, -⟩, hfit⟩ := hok
    rcases hr : Mempool.allocatePages h w.pool n alignment with ⟨a, m'⟩
    have hk := hw.kept_pages hfresh hfit hb hr
    unfold World.step perform World.live
    dsimp only at hk ⊢
    rw [hr]
    by_cases ha : a = 0
    · rw [if_pos ha] at hk ⊢
      exact hk
    · rw [if_neg ha] at hk ⊢
      exact hk
  | deallocatePages ptr =>
    obtain ⟨ok, m', hd, hsame, hbooks, hcase⟩ := hw.heap.deallocatePages (h := h) (hw.unaliased hok)
    unfold World.step perform World.live
    dsimp only
    rw [hd]
    rcases hcase with ⟨rfl, -⟩ | ⟨rfl, -, -⟩
    · exact .still hbooks hsame rfl rfl
    · exact .give hbooks hsame (lentOut_dropRun ptr)
  | write mem =>
    have htable := (hw.heap.write hok).2
    refine .still ?_ ⟨rfl, rfl, rfl, rfl, rfl, le_refl _⟩ rfl rfl
    show Unisym.Mempool.Books w.pool.available w.pool.available w.pool.nodeAt
      (Mempool.nodeAt { w.pool with mem }) ∅ ∅
    rw [htable.nodes]
    exact Books.refl _ _

end

/-! ## Runs -/

/-- Every call of a run is `Ok` and keeps the books. -/
def BooksRun (h : Host) (limit : Nat) : World → List Call → Prop
  | _, [] => True
  | w, c :: cs => (c.Ok h limit w ∧ c.Books h w) ∧ BooksRun h limit (w.step h c) cs

theorem World.Inv.keeps (hlim : limit + 4096 ≤ wordSize) : ∀ (cs : List Call) {w : World},
    World.Inv limit fromSelf w → BooksRun h limit w cs →
      World.Inv limit fromSelf (w.run h cs) ∧ w.Kept (w.run h cs)
  | [], w, hw, _ => ⟨hw, .refl w⟩
  | c :: cs, w, hw, hrun => by
    obtain ⟨⟨hok, hb⟩, hrest⟩ := hrun
    obtain ⟨hw', hk⟩ := (hw.step (h := h) hlim hok).keeps hlim cs hrest
    exact ⟨hw', (hw.kept_step hok hb).trans hk⟩

theorem BooksRun.append : ∀ {cs₁ cs₂ : List Call} {w : World}, BooksRun h limit w (cs₁ ++ cs₂) →
    BooksRun h limit w cs₁ ∧ BooksRun h limit (w.run h cs₁) cs₂
  | [], _, _, hrun => ⟨trivial, hrun⟩
  | _ :: _, _, _, hrun => by
    obtain ⟨hc, hrest⟩ := hrun
    obtain ⟨h1, h2⟩ := BooksRun.append hrest
    exact ⟨⟨hc, h1⟩, h2⟩

/-- When all that was taken is back, the free set is the earlier one less storage. -/
theorem World.Kept.restored (hk : w.Kept w') (hw : World.Inv limit fromSelf w)
    (hw' : World.Inv limit fromSelf w') (hblocks : w'.blocks = w.blocks) (hruns : w'.runs = w.runs) :
    w'.pool.available.bytes ∩ managedBytes w.pool = w.pool.available.bytes \ Mempool.storage w'.pool := by
  have hlent : w'.lentOut = w.lentOut := by
    unfold World.lentOut
    rw [hblocks, hruns]
  have hin : w.pool.available.bytes ⊆ managedBytes w.pool := by
    obtain ⟨N, leaf, own, hc, -⟩ := hw.heap
    rw [← hc.owned.free]
    exact hc.owned.inside_held _
  have hd := Set.disjoint_left.mp hw.heap.lentOut_apart
  have hd' := Set.disjoint_left.mp hw'.heap.lentOut_apart
  have hfree' := Set.disjoint_left.mp hw'.heap.free_apart
  ext b
  constructor
  · rintro ⟨hb, hbm⟩
    refine ⟨?_, hfree' hb⟩
    have hacc := (hk.same b hbm).mp (Or.inl (Or.inl hb))
    rcases hacc with (hacc | hacc) | hacc
    · exact hacc
    · exact absurd (hk.storage hacc) (hfree' hb)
    · exact absurd (show b ∈ w'.lentOut from hlent.symm ▸ hacc) (hd' (Or.inl hb))
  · rintro ⟨hb, hst⟩
    have hbm := hin hb
    refine ⟨?_, hbm⟩
    have hacc := (hk.same b hbm).mpr (Or.inl (Or.inl hb))
    rcases hacc with (hacc | hacc) | hacc
    · exact hacc
    · exact absurd hacc hst
    · exact absurd (show b ∈ w.lentOut from hlent ▸ hacc) (hd (Or.inl hb))

end

/-- In every run whose calls keep the books, every deallocation of a live block does
what it is to do, and a run that gives back all it took restores the free set. -/
theorem deallocate_keeps_books (h : Host) {limit : Nat} {fromSelf : Bool} {w : World} {cs : List Call}
    (hlim : limit + 4096 ≤ wordSize) (hw : World.Inv limit fromSelf w)
    (hrun : BooksRun h limit w cs) :
    (∀ cs₁ ptr size cs₂ n, cs = cs₁ ++ .deallocate ptr size :: cs₂ → 0 < size →
      (w.run h cs₁).blocks ptr = some n → Released h (w.run h cs₁) ptr size n) ∧
    ((w.run h cs).blocks = w.blocks → (w.run h cs).runs = w.runs →
      (w.run h cs).pool.available.bytes ∩ managedBytes w.pool =
        w.pool.available.bytes \ storage (w.run h cs).pool) := by
  constructor
  · rintro cs₁ ptr size cs₂ n rfl h0 hblk
    obtain ⟨hrun₁, ⟨-, hb⟩, -⟩ := hrun.append
    obtain ⟨hw₁, -⟩ := hw.keeps hlim cs₁ hrun₁
    exact hw₁.released (hw₁.heap.run_none hblk) hblk h0 hb
  · intro hblocks hruns
    obtain ⟨hw', hk⟩ := hw.keeps hlim cs hrun
    exact hk.restored hw hw' hblocks hruns

/-- One page, and a block of 32 bytes at its start. -/
def onePage : World :=
  (World.init false 0x40000 false (fun _ => 0)).step noHost (.append ⟨0x10000, 0x1000⟩)

theorem onePage_inv : World.Inv (2 ^ 48) false onePage :=
  (World.Inv.init (2 ^ 48) false 0x40000 false (fun _ => 0)).step (by decide)
    ⟨by decide, by decide, by simp [managedBytes, World.init, Mempool.init], fun h => by cases h⟩

theorem onePage_allocate : Call.Ok noHost (2 ^ 48) onePage (.allocate 32 0 0) := by
  refine ⟨⟨fun t _ size raw hr => absurd hr (by simp [noHost]),
    fun t size raw hr => absurd hr (by simp [noHost])⟩, fun header hfit => ?_, fun hok =>
      absurd hok (by decide)⟩
  have hflat : Chain.flat onePage.pool.available = [⟨0x10000, 0x1000⟩] := by decide +kernel
  have hfirst : (usedSlices onePage.pool.available).findSome? (fitBlock (shiftOne 0) (boundOf 0 0)
      (blockSize 32)) = some 0x10000 := by decide +kernel
  rw [hfirst] at hfit
  cases hfit
  exact ⟨⟨0x10000, 0x1000⟩, by rw [hflat]; exact List.mem_singleton.mpr rfl, by decide, by decide⟩

/-- Eight of 32 bytes. -/
theorem deallocate_keeps_books_eight :
    Released noHost (onePage.run noHost [.allocate 32 0 0]) 0x10010 8 32 := by
  have hblk : (onePage.run noHost [.allocate 32 0 0]).blocks 0x10010 = some 32 := by decide +kernel
  have hbooks : Call.Ok noHost (2 ^ 48) (onePage.run noHost [.allocate 32 0 0])
        (.deallocate 0x10010 8) ∧
      Call.Books noHost (onePage.run noHost [.allocate 32 0 0]) (.deallocate 0x10010 8) → BooksRun
        noHost (2 ^ 48) onePage [.allocate 32 0 0, .deallocate 0x10010 8] := fun hd =>
    ⟨⟨onePage_allocate, fun h => absurd h (by decide)⟩, hd, trivial⟩
  refine (deallocate_keeps_books noHost (by decide) onePage_inv (hbooks ⟨?_, ?_⟩)).1
    [.allocate 32 0 0] 0x10010 8 [] 32 rfl (by decide) hblk
  · refine Or.inr (Or.inl ⟨fun hnone => ?_, Or.inl (le_refl _)⟩)
    exact absurd (hblk.symm.trans hnone) (by simp)
  · intro n _ hn
    have hn32 : n = 32 := Option.some.inj (hn.symm.trans hblk)
    subst hn32
    exact ⟨by decide, fun hr => absurd hr.2.1 (by decide), fun hr => absurd hr.2.1 (by decide),
      fun hst => absurd hst.1 (by decide +kernel)⟩

/-- One byte more than the block has: the call succeeds, no block is left, and the
last sixteen bytes are not free. -/
theorem deallocate_more_than_block :
    (onePage.run noHost [.allocate 32 0 0]).blocks 0x10010 = some 32 ∧
    (deallocate noHost (onePage.run noHost [.allocate 32 0 0]).pool 0x10010 33).1 = true ∧
    (onePage.run noHost [.allocate 32 0 0, .deallocate 0x10010 33]).blocks 0x10010 = none ∧
    ¬Set.Ico (0x10010 - headerSize) (0x10010 + 32) ⊆
      (deallocate noHost (onePage.run noHost [.allocate 32 0 0]).pool 0x10010 33).2.available.bytes := by
  refine ⟨by decide +kernel, by decide +kernel, by decide +kernel, fun hsub => ?_⟩
  have hflat : Chain.flat (deallocate noHost (onePage.run noHost [.allocate 32 0 0]).pool
      0x10010 33).2.available = [⟨0x10000, 32⟩, ⟨0x10030, 0xFD0⟩] := by decide +kernel
  have hin := hsub (a := 0x1002F) ⟨by decide, by decide⟩
  rw [Chain.bytes, hflat] at hin
  obtain ⟨s, hs, h1, h2⟩ := hin
  rcases List.mem_cons.mp hs with rfl | hs
  · exact absurd h2 (by decide)
  · rw [List.mem_singleton.mp hs] at h1
    exact absurd h1 (by decide)

end Unisym.Mempool
