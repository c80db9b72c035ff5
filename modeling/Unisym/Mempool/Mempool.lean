/-
# `Mempool` — the allocator over the two pools

`Mempool` keeps two chains of pools (the ranges it was given, and what of them
is free), a sparse page table in the memory it manages, and the memory itself:
block headers and page-table nodes are bytes of `mem`, read and written where
the source reads and writes them.  Chains of pools are values here, not bytes
of `mem`; that is the same thing as long as a pool's page is nobody else's,
which is the subject of `HeapInv`.

The allocator outside (`uni_default_allocator`) is a parameter, a `Host` whose
answers are indexed by a clock that every question advances.  `managed` is a
history variable: the ranges `Append` was called with since the last `Reset`.
-/
import Unisym.Library.ByteMem
import Unisym.Mempool.SinglePool

namespace Unisym

namespace Mempool

/-! ## Constants -/

def mempoolPageShift : Nat := 12

def mempoolPageSize : Nat := 4096

def pageMetaEntryCount : Nat := 512

/-- `PAGE_META_LEVELS`, for `MEMPOOL_ADDR_BITS = 48`. -/
def pageMetaLevels : Nat := 4

def pageMetaFree : Nat := 0

def pageMetaCont : Nat := 2 ^ 64 - 1

/-- `sizeof(Header)`. -/
def headerSize : Nat := 16

/-- The value of `Header::prop`. -/
def headerProp : Nat := 0xFEDC5AA5

/-! ## State -/

/-- The allocator outside the pool.  `pool t` answers a request for the storage
of a `SinglePool`, `raw t size` one for `size` bytes. -/
structure Host where
  pool : Nat → Option Nat
  raw : Nat → Nat → Option Nat

end Mempool

open Mempool in
structure Mempool where
  registerd : Chain
  available : Chain
  pageRoot : Nat
  enableAutoExpand : Bool
  autoExpandStep : Nat
  expandOnlyFromSelf : Bool
  mem : Mem
  tick : Nat
  managed : List Slice

namespace Mempool

variable (h : Host)

/-- A machine word of the managed memory. -/
def word (m : Mempool) (a : Nat) : Nat := m.mem.readLE a 8

/-- Store a machine word. -/
def setWord (m : Mempool) (a v : Nat) : Mempool := { m with mem := m.mem.writeLE a 8 v }

/-- `pool_available.Remove(slice)`. -/
def takeAvail (m : Mempool) (s : Slice) : Bool × Mempool :=
  match m.available.remove (h.pool m.tick) s with
  | some (ok, c) => (ok, { m with available := c, tick := m.tick + 1 })
  | none => (false, m)

/-- `pool_available.Append(slice)`. -/
def giveAvail (m : Mempool) (s : Slice) : Bool × Mempool :=
  match m.available.append (h.pool m.tick) s with
  | some (ok, c) => (ok, { m with available := c, tick := m.tick + 1 })
  | none => (false, m)

/-- `pool_registerd.Append(slice)`. -/
def register (m : Mempool) (s : Slice) : Bool × Mempool :=
  match m.registerd.append (h.pool m.tick) s with
  | some (ok, c) => (ok, { m with registerd := c, tick := m.tick + 1 })
  | none => (false, m)

/-! ## Setting up -/

/-- The root of a chain, with `owner_id` set. -/
def ownRoot : Chain → Chain
  | [] => []
  | p :: rest => { p with ownerId := 1 } :: rest

/-- The assignments of `owner_id` under `expand_only_from_self`. -/
def ownPools (m : Mempool) : Mempool :=
  if m.expandOnlyFromSelf then
    { m with registerd := ownRoot m.registerd, available := ownRoot m.available }
  else m

/-- `Mempool()`, with the public fields as the caller sets them and the memory
as it is. -/
def init (enableAutoExpand : Bool) (autoExpandStep : Nat) (expandOnlyFromSelf : Bool)
    (mem : Mem) : Mempool :=
  { registerd := [SinglePool.fresh 0 0], available := [SinglePool.fresh 0 0], pageRoot := 0,
    enableAutoExpand, autoExpandStep, expandOnlyFromSelf, mem, tick := 0, managed := [] }

def reset (m : Mempool) : Mempool :=
  ownPools { m with
    registerd := [SinglePool.fresh 0 0], available := [SinglePool.fresh 0 0], pageRoot := 0,
    managed := [] }

/-- The two `Append`s of a range. -/
def appendBoth (m : Mempool) (s : Slice) : Mempool :=
  { (giveAvail h (register h m s).2 s).2 with managed := s :: m.managed }

/-- `Reset(slice)`. -/
def resetWith (m : Mempool) (s : Slice) : Mempool := appendBoth h (reset m) s

def append (m : Mempool) (s : Slice) : Mempool := appendBoth h (ownPools m) s

def reserve (m : Mempool) (s : Slice) : Bool × Mempool :=
  if s.length = 0 ∨ s.length > wsub (wordSize - 1) s.address then (false, m)
  else takeAvail h m s

def expand (m : Mempool) (minSize : Nat) : Bool × Mempool :=
  if m.expandOnlyFromSelf then (false, m)
  else
    let reqSize := max minSize m.autoExpandStep
    let size1 := ceilAlign m.autoExpandStep reqSize
    match h.raw m.tick size1 with
    | some raw => (true, append h { m with tick := m.tick + 1 } ⟨raw, size1⟩)
    | none =>
        let m := { m with tick := m.tick + 1 }
        let size2 := ceilAlign 0x1000 reqSize
        match h.raw m.tick size2 with
        | some raw => (true, append h { m with tick := m.tick + 1 } ⟨raw, size2⟩)
        | none => (false, { m with tick := m.tick + 1 })

/-! ## The page table -/

/-- `MemSet(node, 0, MEMPOOL_PAGE_SIZE)`. -/
def clearPage (m : Mempool) (a : Nat) : Mempool := { m with mem := m.mem.fill a mempoolPageSize 0 }

/-- The loop of `allocate_meta_page` over the slices; `0` is the null pointer.
A failing `Remove` leaves the pool as it was, so that the loop goes on over the
same slices. -/
def metaPageFrom (m : Mempool) : List Slice → Nat × Mempool
  | [] => (0, m)
  | p :: rest =>
      if p.length < mempoolPageSize then metaPageFrom m rest
      else
        let addr := ceilAlign mempoolPageSize p.address
        if wadd addr mempoolPageSize > p.endo then metaPageFrom m rest
        else match takeAvail h m ⟨addr, mempoolPageSize⟩ with
          | (false, m) => metaPageFrom m rest
          | (true, m) => (addr, clearPage m addr)

def allocateMetaPage (m : Mempool) : Nat × Mempool :=
  metaPageFrom h m (m.available.flatMap SinglePool.live)

def ensurePageRoot (m : Mempool) : Bool × Mempool :=
  if m.pageRoot ≠ 0 then (true, m)
  else
    let r := allocateMetaPage h m
    (r.1 ≠ 0, { r.2 with pageRoot := r.1 })

/-- `(page_no >> (level * PAGE_META_LEVEL_BITS)) & (PAGE_META_ENTRY_COUNT - 1)`. -/
def entryIndex (level pageNo : Nat) : Nat := pageNo / 512 ^ level % pageMetaEntryCount

/-- `&node->entries[i]`. -/
def entryAddr (node i : Nat) : Nat := node + 8 * i

/-- The loop of `get_leaf_entry` with `create` false. -/
def walk (m : Mempool) (pageNo : Nat) : Nat → Nat → Option Nat
  | 0, node => some (entryAddr node (entryIndex 0 pageNo))
  | level + 1, node =>
      let child := m.word (entryAddr node (entryIndex (level + 1) pageNo))
      if child = 0 then none else walk m pageNo level child

/-- `get_leaf_entry(page_no, false)`: where the entry is. -/
def getLeafEntry (m : Mempool) (pageNo : Nat) : Option Nat :=
  if m.pageRoot = 0 then none else walk m pageNo (pageMetaLevels - 1) m.pageRoot

/-- The loop of `get_leaf_entry` with `create` true. -/
def walkCreate (pageNo : Nat) : Nat → Nat → Mempool → Option Nat × Mempool
  | 0, node, m => (some (entryAddr node (entryIndex 0 pageNo)), m)
  | level + 1, node, m =>
      let entry := entryAddr node (entryIndex (level + 1) pageNo)
      let child := m.word entry
      if child ≠ 0 then walkCreate pageNo level child m
      else
        let r := allocateMetaPage h m
        if r.1 = 0 then (none, r.2)
        else walkCreate pageNo level r.1 (r.2.setWord entry r.1)

/-- `get_leaf_entry(page_no, true)`. -/
def makeLeafEntry (m : Mempool) (pageNo : Nat) : Option Nat × Mempool :=
  if m.pageRoot = 0 then (none, m) else walkCreate h pageNo (pageMetaLevels - 1) m.pageRoot m

/-- What the page table says of a page; an absent entry reads as free. -/
def leafEntry (m : Mempool) (pageNo : Nat) : Nat :=
  match m.getLeafEntry pageNo with
  | some e => m.word e
  | none => pageMetaFree

/-- `*get_leaf_entry(page_no, false) = v`. -/
def setLeafEntry (m : Mempool) (pageNo v : Nat) : Mempool :=
  match m.getLeafEntry pageNo with
  | some e => m.setWord e v
  | none => m

/-! ## Page allocation -/

/-- The search of `allocate_pages` for an aligned free run; `0` when there is
none (and a run at address zero does not count). -/
def findRun (align size : Nat) : Chain → Nat
  | [] => 0
  | p :: rest =>
      match p.live.find? (fun s => wadd (ceilAlign align s.address) size ≤ s.endo) with
      | none => findRun align size rest
      | some s =>
          if ceilAlign align s.address = 0 then findRun align size rest
          else ceilAlign align s.address

/-- The loop that builds every page-table path and confirms that the leaf
entries are free. -/
def buildPaths (firstPage : Nat) : Nat → Nat → Mempool → Bool × Mempool
  | 0, _, m => (true, m)
  | n + 1, p, m =>
      match makeLeafEntry h m (firstPage + p) with
      | (none, m) => (false, m)
      | (some e, m) =>
          if m.word e ≠ pageMetaFree then (false, m) else buildPaths firstPage n (p + 1) m

/-- The loop that sets the entries of a run. -/
def setEntries (firstPage : Nat) (value : Nat → Nat) : Nat → Nat → Mempool → Mempool
  | 0, _, m => m
  | n + 1, p, m => setEntries firstPage value n (p + 1) (m.setLeafEntry (firstPage + p) (value p))

/-- The lambda `attempt_alloc`. -/
def attemptAlloc (pageCount align size : Nat) (m : Mempool) : Nat × Mempool :=
  match ensurePageRoot h m with
  | (false, m) => (0, m)
  | (true, m) =>
      let addr := findRun align size m.available
      if addr = 0 then (0, m)
      else match takeAvail h m ⟨addr, size⟩ with
        | (false, m) => (0, m)
        | (true, m) =>
            let firstPage := addr / mempoolPageSize
            match buildPaths h firstPage pageCount 0 m with
            -- roll back; keep built empty nodes
            | (false, m) => (0, (giveAvail h m ⟨addr, size⟩).2)
            | (true, m) =>
                (addr, setEntries firstPage (fun p => if p = 0 then pageCount else pageMetaCont)
                  pageCount 0 m)

/-- `_IMM1 << shift`. -/
def shiftOne (shift : Nat) : Nat := 2 ^ shift % wordSize

/-- The alignment `allocate_pages` works with. -/
def pageAlign (alignment : Nat) : Nat := shiftOne (max alignment mempoolPageShift)

def allocatePages (m : Mempool) (pageCount alignment : Nat) : Nat × Mempool :=
  if pageCount = 0 ∨ pageCount = pageMetaCont then (0, m)
  else if pageCount > (wordSize - 1) / mempoolPageSize then (0, m)
  else
    let align := pageAlign alignment
    let size := pageCount * mempoolPageSize
    let r := attemptAlloc h pageCount align size m
    if r.1 ≠ 0 then r
    else if r.2.enableAutoExpand then
      match expand h r.2 (wadd size align) with
      | (true, m) => attemptAlloc h pageCount align size m
      | (false, m) => (0, m)
    else r

/-- The loop of `deallocate_pages` that verifies the run. -/
def runIntact (m : Mempool) (firstPage : Nat) : Nat → Nat → Bool
  | 0, _ => true
  | n + 1, p =>
      match m.getLeafEntry (firstPage + p) with
      | none => false
      | some e => if m.word e ≠ pageMetaCont then false else runIntact m firstPage n (p + 1)

def deallocatePages (m : Mempool) (ptr : Nat) : Bool × Mempool :=
  if ptr = 0 ∨ ptr % mempoolPageSize ≠ 0 ∨ m.pageRoot = 0 then (false, m)
  else
    let firstPage := ptr / mempoolPageSize
    match m.getLeafEntry firstPage with
    | none => (false, m)
    | some e =>
        let pageCount := m.word e
        if pageCount = pageMetaFree ∨ pageCount = pageMetaCont then (false, m)
        else if pageCount > (wordSize - 1) / mempoolPageSize then (false, m)
        else if !m.runIntact firstPage (pageCount - 1) 1 then (false, m)
        else match giveAvail h m ⟨ptr, pageCount * mempoolPageSize⟩ with
          | (false, m) => (false, m)
          | (true, m) => (true, setEntries firstPage (fun _ => pageMetaFree) pageCount 0 m)

/-! ## Block allocation -/

/-- The slices that a loop which stops at the first empty pool visits. -/
def usedSlices (c : Chain) : List Slice :=
  (c.takeWhile (fun p => p.slicecnt ≠ 0)).flatMap SinglePool.live

/-- The first address for the data of a block cut from `p`. -/
def nextAlign (align bound size : Nat) (p : Slice) : Nat :=
  let next := ceilAlign align (wadd p.address headerSize)
  -- over bound
  if bound > 1 ∧ floorAlign bound next ≠ floorAlign bound (wsub (wadd next size) 1) then
    wadd (floorAlign bound next) bound
  else next

/-- Where the header goes when a block of `size` bytes is cut from `p`. -/
def fitBlock (align bound size : Nat) (p : Slice) : Option Nat :=
  if p.length < wadd headerSize size then none
  else
    let next := nextAlign align bound size p
    if align ≤ 1 ∧ next = wadd p.address headerSize then some p.address
    else if wadd next size ≤ p.endo then some (wsub next headerSize)
    else none

/-- The loop of `allocate`; `none` when no slice fits. -/
def allocOnce (align bound size : Nat) (m : Mempool) : Option (Nat × Mempool) :=
  match (usedSlices m.available).findSome? (fitBlock align bound size) with
  | none => none
  | some header =>
      match takeAvail h m ⟨header, wadd headerSize size⟩ with
      | (false, m) => some (0, m)
      | (true, m) =>
          some (wadd header headerSize, (m.setWord header size).setWord (header + 8) headerProp)

/-- `bound` of `allocate`. -/
def boundOf (alignment boundary : Nat) : Nat :=
  if boundary ≤ alignment then 0 else if boundary = 0 then 0 else shiftOne boundary

/-- `size` of `allocate`, after `if (!size) size = 1`. -/
def blockSize (size : Nat) : Nat := if size = 0 then 1 else size

/-- The requests `allocate` passes to `allocate_pages`. -/
def isPageRequest (size alignment boundary : Nat) : Bool :=
  alignment ≥ mempoolPageShift ∧ boundOf alignment boundary = 0 ∧
    blockSize size % mempoolPageSize = 0

def allocate (m : Mempool) (size alignment boundary : Nat) : Nat × Mempool :=
  let align := shiftOne alignment
  let bound := boundOf alignment boundary
  let blk := blockSize size
  if isPageRequest size alignment boundary then
    allocatePages h m (blk / mempoolPageSize) alignment
  else if bound > 0 ∧ blk > bound then (0, m)
  else match allocOnce h align bound blk m with
    | some r => r
    | none =>
        if m.enableAutoExpand then
          match expand h m (wadd (wadd headerSize blk) (max bound align)) with
          | (true, m) => (allocOnce h align bound blk m).getD (0, m)
          | (false, m) => (0, m)
        else (0, m)

/-- The part of `deallocate` for a block with a header. -/
def deallocateBlock (m : Mempool) (ptr size : Nat) : Bool × Mempool :=
  if ptr < headerSize then (false, m)
  else
    let header := ptr - headerSize
    let headSize := m.word header
    if m.word (header + 8) ≠ headerProp ∨ headSize = 0 then (false, m)
    else
      let size := if size = 0 then headSize else size
      if size = headSize then giveAvail h m ⟨header, wadd headerSize size⟩
      else
        -- moving the header before the rest of the block
        let deallocSize := min headSize size
        let newHeader := ptr + deallocSize - headerSize
        let m := (m.setWord newHeader (headSize - deallocSize)).setWord (newHeader + 8) headerProp
        giveAvail h m ⟨header, deallocSize⟩

def deallocate (m : Mempool) (ptr size : Nat) : Bool × Mempool :=
  if ptr ≠ 0 ∧ ptr % mempoolPageSize = 0 ∧
      m.leafEntry (ptr / mempoolPageSize) ≠ pageMetaFree then
    deallocatePages h m ptr
  else deallocateBlock h m ptr size

end Mempool

end Unisym
