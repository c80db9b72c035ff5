/-
# `SinglePool` — the paged slice list of `mempool.cpp`

A `SinglePool` page holds `CNT_SLICES_PER_POOL` slices and links to the next
page.  The chain of pages is a list here: the root pool is its head, a pool is
named by its level, `nextpool` is the level above and `leftpool` the level
below, and a chain grows at its end only, where the source grows it.

Every function is the source's, loop by loop.  Machine words are naturals with
`wadd`/`wsub` where the source's additions and subtractions can wrap.  The
three functions that call each other (`PrepareNextPool`, `SinglePool::Insert`,
`SinglePool::Remove(Slice)`) carry a bound on the depth of the calls; `none`
means that the bound was too small, which `PoolSet` shows never happens.
-/
import Mathlib.Data.Vector.Basic

namespace Unisym.Mempool

/-! ## Machine words -/

/-- `stduint` is the 64-bit machine word. -/
def wordSize : Nat := 2 ^ 64

/-- Word addition. -/
def wadd (a b : Nat) : Nat := (a + b) % wordSize

/-- Word subtraction, for `b` a word. -/
def wsub (a b : Nat) : Nat := (a + wordSize - b) % wordSize

/-- The macro `floorAlign(align, val)`. -/
def floorAlign (align val : Nat) : Nat := val / align * align

/-- The macro `ceilAlign(align, val)`. -/
def ceilAlign (align val : Nat) : Nat := floorAlign align (wadd val (wsub align 1))

theorem wadd_eq {a b : Nat} (h : a + b < wordSize) : wadd a b = a + b :=
  Nat.mod_eq_of_lt h

theorem wsub_eq {a b : Nat} (hb : b ≤ a) (ha : a < wordSize) : wsub a b = a - b := by
  unfold wsub wordSize at *
  omega

/-! ## Slices -/

/-- `Slice_T<byte>`. -/
structure Slice where
  address : Nat
  length : Nat
  deriving DecidableEq, Repr, Inhabited

/-- `getEndoaddr`, the word `address + length`. -/
def Slice.endo (s : Slice) : Nat := wadd s.address s.length

/-- The end of the slice as a number, without wrap-around. -/
def Slice.fin (s : Slice) : Nat := s.address + s.length

/-- The slice does not wrap: its end is a machine word (the check of
`Mempool::Reserve`). -/
def Slice.NoWrap (s : Slice) : Prop := s.address + s.length < wordSize

instance (s : Slice) : Decidable s.NoWrap := inferInstanceAs (Decidable (_ < _))

theorem Slice.NoWrap.endo {s : Slice} (h : s.NoWrap) : s.endo = s.fin := wadd_eq h

@[simp] theorem Slice.fin_mk (a n : Nat) : (Slice.mk a n).fin = a + n := rfl

/-! ## Pools -/

/-- `CNT_SLICES_PER_POOL`, that is `0x1000 / sizeof(Slice) - 3`. -/
def cntSlicesPerPool : Nat := 0x1000 / 16 - 3

/-- `pool_size` of `PrepareNextPool`: one pool is stored in one page. -/
def poolSize : Nat := 0x1000

/-- One pool.  `address` is where the object itself is stored. -/
structure SinglePool where
  address : Nat
  ownerId : Nat
  slicecnt : Nat
  slices : Vector Slice cntSlicesPerPool

/-- A chain of pools, from the root along `nextpool`. -/
abbrev Chain := List SinglePool

namespace SinglePool

/-- `SinglePool()`: every field is zero. -/
def fresh (address ownerId : Nat) : SinglePool :=
  ⟨address, ownerId, 0, Vector.replicate cntSlicesPerPool ⟨0, 0⟩⟩

/-- `slices[i]`. -/
def slot (p : SinglePool) (i : Nat) : Slice := p.slices[i]?.getD ⟨0, 0⟩

/-- `slices[i] = s`. -/
def setSlot (p : SinglePool) (i : Nat) (s : Slice) : SinglePool :=
  { p with slices := p.slices.setIfInBounds i s }

/-- The slices in use, which `for0(i, slicecnt)` visits. -/
def live (p : SinglePool) : List Slice := p.slices.toList.take p.slicecnt

end SinglePool

namespace Chain

/-- `slices[i]` of the pool at level `lev`. -/
def slot (c : Chain) (lev i : Nat) : Slice :=
  match (c)[lev]? with
  | some p => p.slot i
  | none => ⟨0, 0⟩

/-- `slices[i] = s` in the pool at level `lev`. -/
def setSlot (c : Chain) (lev i : Nat) (s : Slice) : Chain :=
  c.modify lev (fun p => p.setSlot i s)

/-- `slicecnt = n` in the pool at level `lev`. -/
def setCnt (c : Chain) (lev n : Nat) : Chain :=
  c.modify lev (fun p => { p with slicecnt := n })

/-- `slicecnt` of the pool at level `lev`. -/
def cnt (c : Chain) (lev : Nat) : Nat :=
  match (c)[lev]? with
  | some p => p.slicecnt
  | none => 0

/-- The slot of the item with index `idx`: level `idx / CNT`, entry `idx % CNT`. -/
def itemAt (c : Chain) (idx : Nat) : Slice :=
  c.slot (idx / cntSlicesPerPool) (idx % cntSlicesPerPool)

/-- Overwrite the slot of the item with index `idx`. -/
def setAt (c : Chain) (idx : Nat) (s : Slice) : Chain :=
  c.setSlot (idx / cntSlicesPerPool) (idx % cntSlicesPerPool) s

/-- `root->owner_id`. -/
def ownerId (c : Chain) : Nat :=
  match c with
  | [] => 0
  | p :: _ => p.ownerId

/-- `SinglePool::Length`. -/
def lengthOf : Chain → Nat
  | [] => 0
  | [p] => p.slicecnt
  | p :: q :: rest => if p.slicecnt = 0 then 0 else p.slicecnt + lengthOf (q :: rest)

def locate (c : Chain) (idx : Nat) : Option Slice :=
  match (c)[idx / cntSlicesPerPool]? with
  | none => none
  | some p =>
      if p.slicecnt ≤ idx % cntSlicesPerPool then none
      else some (p.slot (idx % cntSlicesPerPool))

/-! ### Scans -/

/-- The inner loop of `ifContainAll`: `none` when it runs off the pool,
otherwise what the function returns. -/
def scanAll (slice : Slice) (base : Nat) : List Slice → Option (Option Nat)
  | [] => none
  | p :: ps =>
      if p.address > slice.address then some none
      else if p.endo ≥ slice.endo then some (some base)
      else scanAll slice (base + 1) ps

/-- `SinglePool::ifContainAll`, from level `lev` on; `none` is the `-1`. -/
def ifContainAll (slice : Slice) (lev : Nat) : Chain → Option Nat
  | [] => none
  | p :: rest =>
      if p.slicecnt = 0 then none
      else match scanAll slice (lev * cntSlicesPerPool) p.live with
        | some r => r
        | none => ifContainAll slice (lev + 1) rest

/-- The inner loop of `ifContainNon`. -/
def scanNon (slice : Slice) (base : Nat) : List Slice → Option (Option Nat)
  | [] => none
  | p :: ps =>
      if p.address ≥ slice.endo then some (some base)
      else if p.endo > slice.address then some none
      else scanNon slice (base + 1) ps

/-- The outer loop of `ifContainNon`; `none` when it runs off the chain. -/
def scanNonFrom (slice : Slice) (lev : Nat) : Chain → Option (Option Nat)
  | [] => none
  | p :: rest =>
      if p.slicecnt = 0 then none
      else match scanNon slice (lev * cntSlicesPerPool) p.live with
        | some r => some r
        | none => scanNonFrom slice (lev + 1) rest

def ifContainNon (c : Chain) (slice : Slice) : Option Nat :=
  match scanNonFrom slice 0 c with
  | some r => r
  | none => some c.lengthOf

/-! ### Moving slices -/

/-- The loop of `Remove(idx, times)`: `*dst = *src`, then both step right,
across a pool boundary where there is one. -/
def shiftLeft : Nat → Chain → Nat → Nat → Nat → Nat → Chain × Nat × Nat
  | 0, c, dstPool, cntDst, _, _ => (c, dstPool, cntDst)
  | n + 1, c, dstPool, cntDst, srcPool, cntSrc =>
      let c := c.setSlot dstPool cntDst (c.slot srcPool cntSrc)
      let dst := if cntDst + 1 ≥ cntSlicesPerPool then (dstPool + 1, 0) else (dstPool, cntDst + 1)
      let src := if cntSrc + 1 ≥ cntSlicesPerPool then (srcPool + 1, 0) else (srcPool, cntSrc + 1)
      shiftLeft n c dst.1 dst.2 src.1 src.2

/-- The last loop of `Remove(idx, times)`: pools are emptied up to the first
one that is empty already. -/
def clearRun : Chain → Chain
  | [] => []
  | p :: rest => if p.slicecnt = 0 then p :: rest else { p with slicecnt := 0 } :: clearRun rest

/-- `SinglePool::Remove(idx, times)`. -/
def removeAt (c : Chain) (idx times : Nat) : Bool × Chain :=
  if times = 0 then (true, c)
  else
    let count := c.lengthOf
    if count = 0 ∨ idx + times > count then (false, c)
    else
      let r := shiftLeft (count - idx - times) c (idx / cntSlicesPerPool) (idx % cntSlicesPerPool)
        ((idx + times) / cntSlicesPerPool) ((idx + times) % cntSlicesPerPool)
      let c := r.1.setCnt r.2.1 r.2.2
      (true, c.take (r.2.1 + 1) ++ clearRun (c.drop (r.2.1 + 1)))

/-- The loop of `Insert`: `last_pool->slices[cnt_dst] = ento_pool->slices[cnt_src]`,
then both step left.  The left neighbour of the root is null in the source; the
loop ends before it is used. -/
def shiftRight : Nat → Chain → Nat → Nat → Nat → Nat → Chain × Nat × Nat
  | 0, c, lastPool, cntDst, _, _ => (c, lastPool, cntDst)
  | n + 1, c, lastPool, cntDst, entoPool, cntSrc =>
      let c := c.setSlot lastPool cntDst (c.slot entoPool cntSrc)
      if cntSrc = 0 then shiftRight n c entoPool cntSrc (entoPool - 1) (cntSlicesPerPool - 1)
      else shiftRight n c entoPool cntSrc entoPool (cntSrc - 1)

/-- The pool `Insert` extends: the first one that is not full, or the last. -/
def lastPool : Nat → Chain → Nat
  | lev, p :: q :: rest =>
      if p.slicecnt ≥ cntSlicesPerPool then lastPool (lev + 1) (q :: rest) else lev
  | lev, _ => lev

/-- The part of `Insert` after its loop: shift the tail right and store `src`. -/
def place (c : Chain) (totalLen idx : Nat) (src : Slice) : Bool × Chain :=
  let last := lastPool 0 c
  let cntDst := totalLen % cntSlicesPerPool
  if c.cnt last = 0 ∧ last = 0 then
    if cntDst ≠ 0 then (false, c)
    else (true, (c.setSlot last cntDst src).setCnt last (c.cnt last + 1))
  else
    let cntSrc := (totalLen - 1) % cntSlicesPerPool
    let ento := if c.cnt last = 0 then last - 1 else last
    let r := shiftRight (totalLen - idx) c last cntDst ento cntSrc
    (true, (r.1.setSlot r.2.1 r.2.2 src).setCnt last (c.cnt last + 1))

/-! ### Coalescing -/

/-- "see left": `src` continues the slice before it, and may close the gap to
the slice after it. -/
def seeLeft (c : Chain) (idx : Nat) (src : Slice) : Option (Bool × Chain) :=
  if idx > 0 then
    let left := (c.locate (idx - 1)).getD ⟨0, 0⟩
    if left.endo = src.address then
      let left : Slice := ⟨left.address, wadd left.length src.length⟩
      let c := c.setAt (idx - 1) left
      match c.locate idx with
      | none => some (true, c)
      | some p =>
          if left.endo = p.address then
            some ((c.setAt (idx - 1) ⟨left.address, wadd left.length p.length⟩).removeAt idx 1)
          else some (true, c)
    else none
  else none

/-- "see right": `src` ends where the slice after it begins. -/
def seeRight (c : Chain) (idx : Nat) (src : Slice) : Option Chain :=
  match c.locate idx with
  | none => none
  | some p =>
      if src.endo = p.address then some (c.setAt idx ⟨src.address, wadd p.length src.length⟩)
      else none

/-- `physical_tail->slicecnt`. -/
def tailCnt (c : Chain) : Nat := c.cnt (c.length - 1)

/-- `physical_tail->slicecnt >= CNT_SLICES_PER_POOL - 2`: the tail cannot take
both the split of a storage slice and the pending insertion. -/
def tailFull (c : Chain) : Bool := c.tailCnt ≥ cntSlicesPerPool - 2

/-! ### Growing -/

/-- The page of a free slice that `PrepareNextPool` would store a pool in. -/
def storagePage (excluded : Option Slice) (p : Slice) : Option Nat :=
  if p.length < poolSize then none
  else
    let addr := ceilAlign poolSize p.address
    -- a pending removal must not become storage for the pool being grown
    let addr := match excluded with
      | some x =>
          if addr < x.endo ∧ wadd addr poolSize > x.address then ceilAlign poolSize x.endo
          else addr
      | none => addr
    if addr ≥ p.address ∧ addr ≤ p.endo ∧ poolSize ≤ p.endo - addr then some addr else none

/-- The search of `PrepareNextPool` over the chain.  The page at address zero
is a null pointer: the search then leaves the pool and goes on with the next. -/
def findStorage (excluded : Option Slice) : Chain → Option Nat
  | [] => none
  | p :: rest =>
      if p.slicecnt = 0 then none
      else match p.live.findSome? (storagePage excluded) with
        | some addr => if addr = 0 then findStorage excluded rest else some addr
        | none => findStorage excluded rest

mutual

/-- `PrepareNextPool(root, tail, excluded)`.  `host` is what the allocator
outside the pool answers when a pool that does not own its storage asks it. -/
def prepareNextPool (host : Option Nat) : Nat → Chain → Option Slice → Option (Bool × Chain)
  | 0, _, _ => none
  | fuel + 1, c, excluded =>
      if c.ownerId = 1 then
        match findStorage excluded c with
        | none => some (false, c)
        | some addr =>
            match removeSlice host fuel (c ++ [SinglePool.fresh addr c.ownerId]) ⟨addr, poolSize⟩ with
            | none => none
            | some (true, c') => some (true, c')
            | some (false, c') => some (false, c'.take c.length)
      else
        match host with
        | none => some (false, c)
        | some addr => some (true, c ++ [SinglePool.fresh addr c.ownerId])

/-- `SinglePool::Remove(slice)`. -/
def removeSlice (host : Option Nat) : Nat → Chain → Slice → Option (Bool × Chain)
  | 0, _, _ => none
  | fuel + 1, c, slice =>
      match ifContainAll slice 0 c with
      | none => some (false, c)
      | some idx =>
          let parent := c.itemAt idx
          let leftLen := wsub slice.address parent.address
          let rightLen := wsub parent.endo slice.endo
          if leftLen = 0 ∧ rightLen = 0 then some (c.removeAt idx 1)
          else if leftLen > 0 ∧ rightLen = 0 then
            some (true, c.setAt idx ⟨parent.address, leftLen⟩)
          else if leftLen = 0 ∧ rightLen > 0 then
            some (true, c.setAt idx ⟨slice.endo, rightLen⟩)
          else if c.tailFull then
            -- growing may move slices or split the parent: look the slice up again
            match prepareNextPool host fuel c (some slice) with
            | none => none
            | some (false, c') => some (false, c')
            | some (true, c') => removeSlice host fuel c' slice
          else
            match insert host fuel (c.setAt idx ⟨parent.address, leftLen⟩) (idx + 1)
                ⟨slice.endo, rightLen⟩ with
            | none => none
            | some (true, c') => some (true, c')
            | some (false, c') => some (false, c'.setAt idx ⟨(c'.itemAt idx).address, parent.length⟩)

def insert (host : Option Nat) : Nat → Chain → Nat → Slice → Option (Bool × Chain)
  | 0, _, _, _ => none
  | fuel + 1, c, idx, src =>
      let totalLen := c.lengthOf
      if idx > totalLen then some (false, c)
      else match seeLeft c idx src with
        | some r => some r
        | none =>
            match seeRight c idx src with
            | some c' => some (true, c')
            | none =>
                if c.tailFull then
                  match prepareNextPool host fuel c none with
                  | none => none
                  | some (false, c') => some (false, c')
                  | some (true, c') =>
                      -- the slices may have moved
                      match c'.ifContainNon src with
                      | none => some (false, c')
                      | some idx' => insert host fuel c' idx' src
                else some (place c totalLen idx src)

end

/-- The depth of calls that `Append` and `Remove` are given. -/
def callDepth : Nat := 8

def append (host : Option Nat) (c : Chain) (slice : Slice) : Option (Bool × Chain) :=
  match c.ifContainNon slice with
  | none => some (false, c)
  | some idx => insert host callDepth c idx slice

def remove (host : Option Nat) (c : Chain) (slice : Slice) : Option (Bool × Chain) :=
  removeSlice host callDepth c slice

end Chain

end Unisym.Mempool
