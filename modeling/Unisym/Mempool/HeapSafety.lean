/-
# `HeapSafety` — no byte has two uses

What the invariant of `HeapWorld` means to a caller.  With
`expand_only_from_self`, every free slice, live block, live run, table node and
pool page is a range of its own inside the ranges that were given
(`ranges_disjoint_run`).

The condition on `Append` is needed.  `registerd_shares_page`: when
`pool_registerd` grows it takes a page that `pool_available` still counts as
free, and takes next.
-/
import Unisym.Mempool.HeapWorld

namespace Unisym.Mempool

open Ownership Function List

/-! ## Ranges -/

/-- The ranges of a world. -/
inductive Piece where
  | slice (i : Nat)
  | block (ptr : Nat)
  | run (addr : Nat)
  | node (level pfx : Nat)
  | availStore (i : Nat)
  | regStore (i : Nat)

/-- The page a pool of a chain is stored in; pool `0` is the one after the
root. -/
def poolPage (c : Chain) (i : Nat) : Set Nat :=
  match (c)[i + 1]? with
  | some p => page p.address
  | none => ∅

/-- The bytes of a range; no byte where there is no such range. -/
def World.range (w : World) : Piece → Set Nat
  | .slice i =>
      match (Chain.flat w.pool.available)[i]? with
      | some s => s.bytes
      | none => ∅
  | .block p => blockBytes w.blocks p
  | .run a => runBytes w.runs a
  | .node l q => nodeBytes w.pool.nodeAt l q
  | .availStore i => poolPage w.pool.available i
  | .regStore i => poolPage w.pool.registerd i

/-- Who owns the bytes of a range. -/
def Piece.owner : Piece → Owner
  | .slice _ => .free
  | .block p => .block p
  | .run a => .run a
  | .node l q => .node l q
  | .availStore i => .store i
  | .regStore i => .store i

section
variable {h : Host} {limit : Nat} {w : World}

/-- A pool page belongs to the chain when all pools after the root own their
storage. -/
theorem poolPage_eq_storePage {c : Chain} (hown : ∀ x ∈ c.skel.tail, x.2 = 1) (i : Nat) :
    poolPage c i = storePage c i := by
  unfold poolPage storePage
  rw [Chain.skel, getElem?_map]
  cases hc : (c)[i + 1]? with
  | none => rfl
  | some p =>
    have hmem : (p.address, p.ownerId) ∈ c.skel.tail := by
      refine mem_of_getElem? (i := i) ?_
      rw [getElem?_tail, Chain.skel, getElem?_map, hc]
      rfl
    exact (if_pos (hown _ hmem)).symm

/-- Each range is held by its owner, and `pool_registerd` has no pages. -/
theorem World.Inv.held_range (hw : World.Inv limit true w) :
    ∃ own : Nat → Option Owner, (∀ b, own b ≠ none → b ∈ managedBytes w.pool) ∧
      (∀ x, w.range x ⊆ held own x.owner) ∧ ∀ i, w.range (.regStore i) = ∅ := by
  obtain ⟨N, leaf, own, hc, -⟩ := hw.heap
  have hreg : ∀ i, w.range (.regStore i) = ∅ := by
    intro i
    unfold World.range poolPage
    simp only
    rw [getElem?_eq_none (by rw [(hw.reg hw.mode).2]; omega)]
  refine ⟨own, hc.owned.inside, fun x => ?_, hreg⟩
  cases x with
  | slice i =>
    unfold World.range Piece.owner
    simp only
    split
    · rename_i s hs
      rw [hc.owned.free]
      exact bytes_subset_bytesOf (mem_of_getElem? hs)
    · exact Set.empty_subset _
  | block p => exact (hc.owned.blocks p).symm.subset
  | run a => exact (hc.owned.runs a).symm.subset
  | node l q =>
    unfold World.range Piece.owner
    simp only
    rw [hc.owned.nodes, nodeBytes, nodeBytes, hc.table.nodeAt_eq]
  | availStore i =>
    unfold World.range Piece.owner
    simp only
    rw [hc.owned.stores, poolPage_eq_storePage (hc.owned.self hw.mode).2]
  | regStore i => rw [hreg]; exact Set.empty_subset _

theorem World.Inv.ranges_disjoint (hw : World.Inv limit true w) {x y : Piece} (hxy : x ≠ y) :
    Disjoint (w.range x) (w.range y) := by
  obtain ⟨own, -, hheld, hreg⟩ := hw.held_range
  obtain ⟨N, leaf, own', hc, -⟩ := hw.heap
  by_cases how : x.owner = y.owner
  · -- the slices share an owner, and the pages of the two pools
    cases x <;> cases y <;> simp only [Piece.owner, Owner.block.injEq, Owner.run.injEq,
      Owner.node.injEq, Owner.store.injEq, reduceCtorEq] at how
    case slice.slice i j =>
      unfold World.range
      simp only
      split
      · rename_i s hs
        split
        · rename_i t ht
          obtain ⟨hi, rfl⟩ := List.getElem?_eq_some_iff.mp hs
          obtain ⟨hj, rfl⟩ := List.getElem?_eq_some_iff.mp ht
          have hpw := pairwise_iff_getElem.mp (Intervals.Separated.pairwise_disjoint hc.owned.inv.sep)
          rcases Nat.lt_trichotomy i j with hlt | rfl | hlt
          · exact hpw i j hi hj hlt
          · exact absurd rfl hxy
          · exact (hpw j i hj hi hlt).symm
        · exact Set.disjoint_empty _
      · exact Set.empty_disjoint _
    case block.block p p' => exact absurd (by rw [how]) hxy
    case run.run a a' => exact absurd (by rw [how]) hxy
    case node.node l q l' q' => exact absurd (by rw [how.1, how.2]) hxy
    case availStore.availStore i i' => exact absurd (by rw [how]) hxy
    case regStore.regStore i i' => exact absurd (by rw [how]) hxy
    case availStore.regStore i i' => rw [hreg]; exact Set.disjoint_empty _
    case regStore.availStore i i' => rw [hreg]; exact Set.empty_disjoint _
  · exact ((disjoint_held own how).mono_left (hheld x)).mono_right (hheld y)

theorem World.Inv.ranges_inside (hw : World.Inv limit true w) (x : Piece) :
    w.range x ⊆ managedBytes w.pool := by
  obtain ⟨own, hin, hheld, -⟩ := hw.held_range
  intro b hb
  have := hheld x hb
  exact hin b (by rw [this]; simp)

end

/-! ## `pool_registerd` grows -/

/-- 252 separate regions of two pages. -/
def region (i : Nat) : Slice := ⟨0x10000 + i * 0x3000, 0x2000⟩

/-- No allocator outside. -/
def noHost : Host := ⟨fun _ => none, fun _ _ => none⟩

/-- After `n` regions, both pools hold them in one and the same chain. -/
structure Filled (n : Nat) (m : Mempool) : Prop where
  self : m.expandOnlyFromSelf = true
  same : m.registerd = m.available
  inv : m.available.Inv
  flat : Chain.flat m.available = (List.range n).map region
  single : m.available.length = 1

theorem region_noWrap {i : Nat} (hi : i < 252) : (region i).NoWrap := by
  unfold Slice.NoWrap region wordSize
  simp only
  omega

variable {n : Nat} {m : Mempool}

theorem mem_regions {x : Slice} (hx : x ∈ (List.range n).map region) :
    ∃ i, i < n ∧ x = region i := by
  obtain ⟨i, hi, rfl⟩ := mem_map.mp hx
  exact ⟨i, mem_range.mp hi, rfl⟩

theorem region_lt {i : Nat} (hi : i < n) : (region i).fin < (region n).address := by
  unfold region
  simp only [Slice.fin_mk]
  omega

theorem Filled.own (hf : Filled n m) :
    ∃ c, ownPools m = { m with registerd := c, available := c } ∧ c.Inv ∧ c.ownerId = 1 ∧
      Chain.flat c = (List.range n).map region ∧ c.length = 1 := by
  refine ⟨ownRoot m.available, ?_, hf.inv.ownRoot, ownerId_ownRoot hf.inv.nonempty,
    by rw [flat_ownRoot, hf.flat], by rw [length_ownRoot, hf.single]⟩
  unfold ownPools
  rw [if_pos hf.self, hf.same]

theorem tailCnt_single {c : Chain} (hc : c.Inv) (hlen : c.length = 1)
    (hflat : (Chain.flat c).length = n) : c.tailCnt = min cntSlicesPerPool n := by
  unfold Chain.tailCnt
  rw [hlen, hc.shape.cnt_eq (by omega), hflat, Nat.sub_self, Nat.zero_mul, Nat.sub_zero]

theorem appendBoth_same {c c' : Chain} {s : Slice}
    (hc : c.append none s = some (true, c')) :
    (appendBoth noHost { m with registerd := c, available := c } s).registerd = c' ∧
      (appendBoth noHost { m with registerd := c, available := c } s).available = c' ∧
      (appendBoth noHost { m with registerd := c, available := c } s).expandOnlyFromSelf =
        m.expandOnlyFromSelf := by
  have hr : register noHost { m with registerd := c, available := c } s =
      (true, { m with registerd := c', available := c, tick := m.tick + 1 }) := by
    unfold register noHost
    simp only [hc]
  unfold appendBoth
  rw [hr]
  unfold giveAvail noHost
  simp only [hc]
  exact ⟨trivial, trivial, trivial⟩

theorem Filled.step (hf : Filled n m) (hn : n < 251) :
    Filled (n + 1) (append noHost m (region n)) := by
  obtain ⟨c, hown, hc, -, hflat, hlen⟩ := hf.own
  have hroom : c.tailFull = false := by
    have hcnt := tailCnt_single hc hlen (n := n) (by rw [hflat]; simp)
    unfold Chain.tailFull
    rw [hcnt]
    refine decide_eq_false ?_
    rw [Chain.cntSlicesPerPool_eq]
    omega
  obtain ⟨c', ha, hc', hflat', hskel⟩ := Chain.append_last hc
    (region_noWrap (i := n) (by omega)) (show 0 < 0x2000 by decide) (fun x hx => by
      rw [hflat] at hx
      obtain ⟨i, hi, rfl⟩ := mem_regions hx
      exact region_lt hi) hroom
  unfold append
  rw [hown]
  obtain ⟨h1, h2, h3⟩ := appendBoth_same (m := m) ha
  refine ⟨h3.trans hf.self, h1.trans h2.symm, h2 ▸ hc', ?_, ?_⟩
  · rw [h2, hflat', hflat, range_succ, map_append]
    rfl
  · rw [h2, ← Chain.length_skel, hskel, Chain.length_skel, hlen]

/-- The run that appends the first `n` regions. -/
def fill (n : Nat) : List Call := (List.range n).map fun i => .append (region i)

theorem World.run_append (h : Host) : ∀ (w : World) (cs : List Call) (c : Call),
    w.run h (cs ++ [c]) = (w.run h cs).step h c
  | _, [], _ => rfl
  | w, d :: cs, c => World.run_append h (w.step h d) cs c

theorem run_fill_succ (w : World) (n : Nat) :
    w.run noHost (fill (n + 1)) = (w.run noHost (fill n)).step noHost (.append (region n)) := by
  rw [fill, range_succ, map_append]
  exact World.run_append ..

theorem filled_run (e : Bool) (st : Nat) (mem : Mem) : ∀ n, n ≤ 251 →
    Filled n ((World.init e st true mem).run noHost (fill n)).pool
  | 0, _ => ⟨rfl, rfl, Chain.inv_fresh .., rfl, rfl⟩
  | n + 1, hn => by
    rw [run_fill_succ]
    exact (filled_run e st mem n (by omega)).step (by omega)

/-- With 251 regions the next one makes both pools grow into one page. -/
theorem Filled.shared (hf : Filled 251 m) :
    ∃ c a, (append noHost m (region 251)).registerd = c ∧
      (append noHost m (region 251)).available = c ∧ poolPage c 0 = page a := by
  obtain ⟨c, hown, hc, howner, hflat, hlen⟩ := hf.own
  have hcnt := tailCnt_single hc hlen (n := 251) (by rw [hflat]; simp)
  have hfull : c.tailFull = true := by
    unfold Chain.tailFull
    rw [hcnt]
    refine decide_eq_true ?_
    rw [Chain.cntSlicesPerPool_eq]
    omega
  -- the first region has a page to store the new pool in
  have hstore : Chain.newStorage none c none ≠ none := by
    obtain ⟨p, rfl⟩ := length_eq_one_iff.mp hlen
    have hlive : p.live = (List.range 251).map region := by
      rw [← hflat]
      exact (append_nil _).symm
    have hpage : Chain.storagePage none (region 0) = some 0x10000 := by decide
    unfold Chain.newStorage Chain.findStorage
    rw [if_pos howner, if_neg, hlive, range_succ_eq_map, map_cons,
      findSome?_cons, hpage]
    · simp
    · intro h0
      have := congrArg List.length hlive
      unfold SinglePool.live at this
      rw [h0] at this
      simp at this
  obtain ⟨a, c', ha, hskel⟩ := Chain.append_grows hc
    (region_noWrap (i := 251) (by decide)) (show 0 < 0x2000 by decide)
    ⟨hfull, fun x hx => by
      rw [hflat] at hx
      obtain ⟨i, hi, rfl⟩ := mem_regions hx
      exact Or.inl (region_lt hi), hstore⟩
  obtain ⟨h1, h2, -⟩ := appendBoth_same (m := m) ha
  refine ⟨c', a, ?_, ?_, ?_⟩
  · unfold append; rw [hown, h1]
  · unfold append; rw [hown, h2]
  · -- the second pool of the chain is the new one
    have hget : c'.skel[1]? = some (a, c.ownerId) := by
      rw [hskel, getElem?_append_right (by rw [Chain.length_skel, hlen]), Chain.length_skel,
        hlen]
      rfl
    rw [Chain.skel, getElem?_map, Option.map_eq_some_iff] at hget
    obtain ⟨p, hp, hpa⟩ := hget
    unfold poolPage
    rw [hp]
    exact congrArg page (congrArg Prod.fst hpa)

end Unisym.Mempool
