/-
# `HeapWorld` — runs of the allocator

A `World` is the allocator together with what its callers hold: the live blocks
and the live page runs.  `Call` is one call of the public interface (or a
caller writing to its own memory), `World.step` performs it, `Call.Ok` is the
condition under which it keeps the invariant `World.Inv`, and `World.Inv.run`
carries the invariant along every run whose calls are `Ok`.

The parameter `limit` bounds the addresses of the ranges the allocator is
given.  Up to 2^48 the page table tells all pages apart, and `deallocate` and
`deallocate_pages` may be called with more than live pointers.
-/
import Unisym.Mempool.HeapBlocks

namespace Unisym.Mempool

open Ownership Function

/-- The allocator, the live blocks (data address to size) and the live page
runs (address to page count). -/
structure World where
  pool : Mempool
  blocks : Nat → Option Nat
  runs : Nat → Option Nat

inductive Call where
  | reset
  | resetWith (s : Slice)
  | append (s : Slice)
  | reserve (s : Slice)
  | allocate (size alignment boundary : Nat)
  | deallocate (ptr size : Nat)
  | allocatePages (pageCount alignment : Nat)
  | deallocatePages (ptr : Nat)
  /-- A caller writes to memory. -/
  | write (mem : Mem)

/-- Perform a call: its answer (`0` is null, or false) and the allocator after
it. -/
def perform (h : Host) (m : Mempool) : Call → Nat × Mempool
  | .reset => (1, reset m)
  | .resetWith s => (1, resetWith h m s)
  | .append s => (1, append h m s)
  | .reserve s => let r := reserve h m s; (r.1.toNat, r.2)
  | .allocate size alignment boundary => allocate h m size alignment boundary
  | .deallocate ptr size => let r := deallocate h m ptr size; (r.1.toNat, r.2)
  | .allocatePages n alignment => allocatePages h m n alignment
  | .deallocatePages ptr => let r := deallocatePages h m ptr; (r.1.toNat, r.2)
  | .write mem => (1, { m with mem })

/-- The live blocks and runs after a call that was answered `r`. -/
def World.live (w : World) (r : Nat) : Call → (Nat → Option Nat) × (Nat → Option Nat)
  | .reset => (fun _ => none, fun _ => none)
  | .resetWith _ => (fun _ => none, fun _ => none)
  | .allocate size alignment boundary =>
      if r = 0 then (w.blocks, w.runs)
      else if isPageRequest size alignment boundary then
        (w.blocks, update w.runs r (some (blockSize size / mempoolPageSize)))
      else (update w.blocks r (some (blockSize size)), w.runs)
  | .allocatePages n _ =>
      if r = 0 then (w.blocks, w.runs) else (w.blocks, update w.runs r (some n))
  | .deallocate ptr size =>
      match w.runs ptr, w.blocks ptr with
      | some _, _ => if r = 0 then (w.blocks, w.runs) else (w.blocks, update w.runs ptr none)
      | none, some s =>
          if (size = 0 ∨ size = s) ∧ r = 0 then (w.blocks, w.runs)
          else (cutBlock w.blocks ptr s size, w.runs)
      | none, none => (w.blocks, w.runs)
  | .deallocatePages ptr =>
      if r = 0 then (w.blocks, w.runs) else (w.blocks, update w.runs ptr none)
  | _ => (w.blocks, w.runs)

def World.step (h : Host) (w : World) (c : Call) : World :=
  let r := perform h w.pool c
  ⟨r.2, (w.live r.1 c).1, (w.live r.1 c).2⟩

def World.run (h : Host) : World → List Call → World
  | w, [] => w
  | w, c :: cs => World.run h (w.step h c) cs

/-- A `Mempool` nothing was done with. -/
def World.init (enableAutoExpand : Bool) (autoExpandStep : Nat) (expandOnlyFromSelf : Bool)
    (mem : Mem) : World :=
  ⟨Mempool.init enableAutoExpand autoExpandStep expandOnlyFromSelf mem, fun _ => none,
    fun _ => none⟩

/-- `deallocate` takes `ptr` for a page run. -/
def routed (m : Mempool) (ptr : Nat) : Prop :=
  ptr ≠ 0 ∧ ptr % mempoolPageSize = 0 ∧ m.leafEntry (ptr / mempoolPageSize) ≠ pageMetaFree

/-- The ranges of the outer allocator lie below `limit` and are new. -/
def HostOk (h : Host) (limit : Nat) (m : Mempool) : Prop :=
  HostFresh h m ∧ ∀ t size raw, h.raw t size = some raw → raw + size ≤ limit

/-- When a call keeps the invariant. -/
def Call.Ok (h : Host) (limit : Nat) (w : World) : Call → Prop
  | .reset => True
  | .resetWith s => 0 < s.length ∧ s.fin ≤ limit
  | .append s =>
      0 < s.length ∧ s.fin ≤ limit ∧ Disjoint s.bytes (managedBytes w.pool) ∧
        -- a `pool_registerd` that owns its storage does not grow
        (w.pool.expandOnlyFromSelf = true →
          ¬Chain.Grows (h.pool w.pool.tick) (ownPools w.pool).registerd s)
  | .reserve s => s.address < wordSize
  | .allocate size alignment boundary =>
      HostOk h limit w.pool ∧
        if isPageRequest size alignment boundary then
          PagesFit h w.pool (blockSize size / mempoolPageSize) alignment
        else BlocksFit h w.pool size alignment boundary
  | .deallocate ptr _ =>
      w.runs ptr ≠ none ∨ (w.blocks ptr ≠ none ∧ (limit ≤ 2 ^ 48 ∨ ¬routed w.pool ptr)) ∨
        (limit ≤ 2 ^ 48 ∧ ptr < 2 ^ 48 ∧ routed w.pool ptr) ∨ ptr < headerSize
  | .allocatePages n alignment => HostOk h limit w.pool ∧ PagesFit h w.pool n alignment
  | .deallocatePages ptr => w.runs ptr ≠ none ∨ (limit ≤ 2 ^ 48 ∧ ptr < 2 ^ 48)
  | .write mem =>
      ∀ b, (∀ p s, w.blocks p = some s → b ∉ Set.Ico p (p + s)) →
        (∀ a, b ∉ runBytes w.runs a) → mem b = w.pool.mem b

/-- Every call of a run is `Ok` where it is made. -/
def OkRun (h : Host) (limit : Nat) : World → List Call → Prop
  | _, [] => True
  | w, c :: cs => c.Ok h limit w ∧ OkRun h limit (w.step h c) cs

/-- The invariant of runs. -/
structure World.Inv (limit : Nat) (fromSelf : Bool) (w : World) : Prop where
  mode : w.pool.expandOnlyFromSelf = fromSelf
  heap : Heap w.pool w.blocks w.runs
  bound : ∀ s ∈ w.pool.managed, s.fin ≤ limit
  reg : w.pool.expandOnlyFromSelf = true →
    w.pool.registerd.Inv ∧ w.pool.registerd.length = 1

section
variable {h : Host} {m : Mempool} {blocks runs : Nat → Option Nat} {limit : Nat} {fromSelf : Bool}
  {w : World}

/-! ## Setting up -/

theorem heap_empty (hav : m.available = [SinglePool.fresh 0 m.available.ownerId])
    (hroot : m.pageRoot = 0) (hman : m.managed = []) :
    Heap m (fun _ => none) (fun _ => none) := by
  have hempty : ∀ k : Owner, held (fun _ => (none : Option Owner)) k = (∅ : Set Nat) := by
    intro k
    ext b
    simp [mem_held]
  refine ⟨fun _ _ => none, fun _ => 0, fun _ => none, ⟨⟨⟨?_, ?_, ?_, ?_, ?_, ?_⟩, ?_, ?_, ?_⟩, ?_, ?_⟩,
    ?_, ?_⟩
  · rw [hav]; exact Chain.inv_fresh ..
  · rw [hempty, hav, Chain.bytes, Chain.flat_fresh, bytesOf_nil]
  · intro i
    rw [hempty, hav]
    unfold storePage Chain.skel
    simp
  · intro b hb; exact absurd rfl hb
  · rw [hman]; simp
  · intro _
    refine ⟨Or.inr hman, ?_⟩
    rw [hav]
    simp [Chain.skel]
  · exact fun _ => hempty _
  · exact fun _ => hempty _
  · exact fun _ _ => hempty _
  · exact ⟨by rw [hroot]; rfl, by simp, by simp, by simp, by simp, by simp, by simp⟩
  · intro p s hp; simp at hp
  · exact ⟨by simp, by simp, fun _ => rfl, by simp⟩
  · intro a n ha; simp at ha

theorem World.Inv.init (limit : Nat) (e : Bool) (st : Nat) (fromSelf : Bool) (mem : Mem) :
    World.Inv limit fromSelf (World.init e st fromSelf mem) where
  mode := rfl
  heap := heap_empty rfl rfl rfl
  bound := by simp [World.init, Mempool.init]
  reg _ := ⟨Chain.inv_fresh .., rfl⟩

theorem reset_eq (m : Mempool) : ∃ o, reset m = { m with
    registerd := [SinglePool.fresh 0 o], available := [SinglePool.fresh 0 o], pageRoot := 0,
    managed := [] } ∧ (m.expandOnlyFromSelf = true → o = 1) := by
  unfold reset ownPools
  dsimp only
  by_cases hself : m.expandOnlyFromSelf = true
  · rw [if_pos hself]; exact ⟨1, rfl, fun _ => rfl⟩
  · rw [if_neg hself]; exact ⟨0, rfl, fun hs => absurd hs hself⟩

/-! ### The owner of the root -/

theorem flat_ownRoot (c : Chain) : Chain.flat (ownRoot c) = Chain.flat c := by
  cases c <;> rfl

theorem ownerId_ownRoot {c : Chain} (hne : c ≠ []) : (ownRoot c).ownerId = 1 := by
  cases c with
  | nil => exact absurd rfl hne
  | cons => rfl

theorem length_ownRoot (c : Chain) : (ownRoot c).length = c.length := by
  cases c <;> rfl

theorem skel_tail_ownRoot (c : Chain) : (ownRoot c).skel.tail = c.skel.tail := by
  cases c <;> rfl

theorem Chain.Inv.ownRoot {c : Chain} (hc : c.Inv) : (ownRoot c).Inv where
  nonempty := by
    intro hn
    have := length_ownRoot c
    rw [hn] at this
    exact hc.nonempty (List.length_eq_zero_iff.mp this.symm)
  packed := by
    cases c with
    | nil => exact absurd rfl hc.nonempty
    | cons p rest =>
      obtain ⟨h1, h2, h3⟩ := Chain.packed_cons.mp hc.packed
      exact Chain.packed_cons.mpr ⟨h1, h2, h3⟩
  sep := by rw [flat_ownRoot]; exact hc.sep
  noWrap := by rw [flat_ownRoot]; exact hc.noWrap

theorem storePage_ownRoot (c : Chain) (i : Nat) : storePage (ownRoot c) i = storePage c i := by
  cases c <;> rfl

theorem Heap.ownPools (hh : Heap m blocks runs) : Heap (ownPools m) blocks runs := by
  unfold Mempool.ownPools
  split
  · rename_i hself
    obtain ⟨N, leaf, own, hc, hl, hr⟩ := hh
    refine ⟨N, leaf, own, hc.of_owned ?_ rfl rfl, hl, hr⟩
    refine ⟨⟨hc.owned.inv.ownRoot, ?_, fun i => ?_, hc.owned.inside, hc.owned.low, fun _ => ?_⟩,
      hc.owned.blocks, hc.owned.runs, hc.owned.nodes⟩
    · rw [hc.owned.free, Chain.bytes, Chain.bytes]
      show _ = bytesOf (Chain.flat (ownRoot m.available))
      rw [flat_ownRoot]
    · rw [hc.owned.stores]
      exact (storePage_ownRoot ..).symm
    · refine ⟨Or.inl (ownerId_ownRoot hc.owned.inv.nonempty), ?_⟩
      show ∀ x ∈ (ownRoot m.available).skel.tail, x.2 = 1
      rw [skel_tail_ownRoot]
      exact (hc.owned.self hself).2
  · exact hh

/-! ## One step -/

theorem World.Inv.of_evolves (hw : World.Inv limit fromSelf w) {m' : Mempool} (hh : Heap m' blocks runs)
    (he : Evolves h w.pool m') (hb : ∀ t size raw, h.raw t size = some raw → raw + size ≤ limit) :
    World.Inv limit fromSelf ⟨m', blocks, runs⟩ where
  mode := he.self.trans hw.mode
  heap := hh
  bound s hs := (he.managed s hs).elim (hw.bound s) (fun ⟨t, ht⟩ => hb t _ _ ht)
  reg hself := by
    have hself' : w.pool.expandOnlyFromSelf = true := he.self ▸ hself
    obtain ⟨hreg, -⟩ := he.keeps hself'
    show m'.registerd.Inv ∧ m'.registerd.length = 1
    rw [hreg]
    exact hw.reg hself'

theorem World.Inv.of_same (hw : World.Inv limit fromSelf w) {m' : Mempool} (hh : Heap m' blocks runs)
    (hs : Same w.pool m') : World.Inv limit fromSelf ⟨m', blocks, runs⟩ where
  mode := hs.self.trans hw.mode
  heap := hh
  bound s hs' := hw.bound s (hs.managed ▸ hs')
  reg hself := by
    show m'.registerd.Inv ∧ m'.registerd.length = 1
    rw [hs.registerd]
    exact hw.reg (hs.self ▸ hself)

/-- A new range for a pool whose roots are owned as they should be. -/
theorem World.Inv.appendBoth (hw : World.Inv limit fromSelf w) (hlim : limit + 4096 ≤ wordSize) {s : Slice}
    (hpos : 0 < s.length) (hfin : s.fin ≤ limit) (hd : Disjoint s.bytes (managedBytes w.pool))
    (hown : w.pool.expandOnlyFromSelf = true → w.pool.available.ownerId = 1)
    (hng : w.pool.expandOnlyFromSelf = true →
      ¬Chain.Grows (h.pool w.pool.tick) w.pool.registerd s) :
    World.Inv limit fromSelf ⟨Mempool.appendBoth h w.pool s, w.blocks, w.runs⟩ := by
  obtain ⟨h1, h2, -, -, h5, -⟩ := appendBoth_fields h w.pool s
  have hnw : s.NoWrap := by
    have : s.fin = s.address + s.length := rfl
    unfold Slice.NoWrap
    omega
  refine ⟨h5.trans hw.mode, hw.heap.appendBoth hpos (by omega) hd hown, ?_, ?_⟩
  · intro r hr
    rw [show (World.mk (Mempool.appendBoth h w.pool s) w.blocks w.runs).pool.managed = _ from h1]
      at hr
    rcases List.mem_cons.mp hr with rfl | hr
    · exact hfin
    · exact hw.bound r hr
  · intro hself
    have hself' : w.pool.expandOnlyFromSelf = true := h5 ▸ hself
    obtain ⟨hinv, hlen⟩ := hw.reg hself'
    show (Mempool.appendBoth h w.pool s).registerd.Inv ∧
      (Mempool.appendBoth h w.pool s).registerd.length = 1
    rw [h2]
    unfold register
    rcases Chain.append_spec hinv hnw hpos with
      ha | ⟨c', taken, ha, -, hdone⟩
    · rw [ha]; exact ⟨hinv, hlen⟩
    · have hskel := Chain.append_skel hinv hnw hpos (hng hself') ha
      rw [ha]
      exact ⟨hdone.inv, by rw [← Chain.length_skel, hskel, Chain.length_skel]; exact hlen⟩

/-- Below 2^48, a page is its own key, and no page of another run has it. -/
theorem Heap.unaliased (hh : Heap m blocks runs) (hb : ∀ s ∈ m.managed, s.fin ≤ 2 ^ 48) {p : Nat}
    (hp : p < 2 ^ 48) : Unaliased runs p := by
  obtain ⟨N, leaf, own, hc, -, hr⟩ := hh
  intro a n i ha hi _ hkey
  obtain ⟨-, hal, hn, -, -⟩ := hr ha
  -- the run lies in a managed range
  have hin : a + i * mempoolPageSize ∈ held own (.run a) := by
    rw [hc.owned.runs, runBytes_some ha]
    exact ⟨by omega, Nat.add_lt_add_left (Nat.mul_lt_mul_of_pos_right hi mempoolPageSize_pos) a⟩
  obtain ⟨s, hs, -, hlt⟩ := hc.owned.inside _ (by rw [hin]; simp)
  have := hb s hs
  unfold runKey key mempoolPageSize at *
  omega

theorem LeafOk.unaliased {leaf : Nat → Nat} (hl : LeafOk runs leaf) {p : Nat}
    (hp : runs p ≠ none) (hr : RunsOk runs) : Unaliased runs p := by
  intro a n i ha hi hle hkey
  obtain ⟨n', hn'⟩ := Option.ne_none_iff_exists'.mp hp
  have hap := hl.apart ha hn' hi (hr hn').2.2.1 (j := 0) (by rw [hkey]; rfl)
  subst hap
  unfold runKey key at hkey
  omega

/-- Below 2^48, `deallocate` does not take a live block for a run. -/
theorem Heap.block_not_routed (hh : Heap m blocks runs) (hb : ∀ s ∈ m.managed, s.fin ≤ 2 ^ 48)
    {p : Nat} (hp : blocks p ≠ none) : ¬routed m p := by
  rintro ⟨-, hal, hentry⟩
  have hh' := hh
  obtain ⟨N, leaf, own, hc, hl, hr⟩ := hh
  obtain ⟨s, hs⟩ := Option.ne_none_iff_exists'.mp hp
  obtain ⟨h16, hpos, -⟩ := hc.headers p s hs
  rw [hc.table.leafEntry_eq] at hentry
  have hin : p ∈ held own (.block p) := by
    rw [hc.owned.blocks, blockBytes_some hs]
    exact ⟨Nat.sub_le .., by omega⟩
  have hlt : p < 2 ^ 48 := by
    obtain ⟨r, hr', -, hlt⟩ := hc.owned.inside p (by rw [hin]; simp)
    exact lt_of_lt_of_le hlt (hb r hr')
  have hun := hh'.unaliased hb hlt
  have hex : ∃ a n i, runs a = some n ∧ i < n ∧ runKey a i = key (p / mempoolPageSize) := by
    by_contra hno
    push Not at hno
    exact hentry (hl.free fun a n i ha hi => hno a n i ha hi)
  obtain ⟨a, n, i, ha, hi, hkey⟩ := hex
  obtain ⟨-, hal', hn, -, -⟩ := hr ha
  -- the run has the page of the block, which the block owns
  have hrun : a + i * mempoolPageSize ∈ held own (.run a) := by
    rw [hc.owned.runs, runBytes_some ha]
    exact ⟨by omega, Nat.add_lt_add_left (Nat.mul_lt_mul_of_pos_right hi mempoolPageSize_pos) a⟩
  obtain ⟨s', hs', -, hlt'⟩ := hc.owned.inside _ (by rw [hrun]; simp)
  have hpa : p = a + i * mempoolPageSize := by
    have := hb s' hs'
    unfold runKey key mempoolPageSize at *
    omega
  rw [← hpa] at hrun
  exact Set.disjoint_left.mp (disjoint_held own (by simp)) hrun hin

theorem World.Inv.deallocate_run (hw : World.Inv limit fromSelf w) {ptr size : Nat}
    (hroute : routed w.pool ptr) (hun : Unaliased w.runs ptr)
    (hblk : w.runs ptr = none → w.blocks ptr = none) :
    World.Inv limit fromSelf (w.step h (.deallocate ptr size)) := by
  have hdeal : Mempool.deallocate h w.pool ptr size = Mempool.deallocatePages h w.pool ptr :=
    if_pos hroute
  obtain ⟨ok, m', hok, hsame, -, hcase⟩ := hw.heap.deallocatePages (h := h) hun
  unfold World.step perform World.live
  dsimp only
  rw [hdeal, hok]
  rcases hcase with ⟨rfl, hh⟩ | ⟨rfl, hne, hh⟩
  · cases hrun : w.runs ptr with
    | some n => exact hw.of_same hh hsame
    | none => rw [hblk hrun]; exact hw.of_same hh hsame
  · obtain ⟨n, hn⟩ := Option.ne_none_iff_exists'.mp hne
    rw [hn]
    exact hw.of_same hh hsame

theorem Heap.routed_of_run (hh : Heap m blocks runs) {p : Nat} (hp : runs p ≠ none) :
    routed m p := by
  obtain ⟨N, leaf, own, hc, hl, hr⟩ := hh
  obtain ⟨n, hn⟩ := Option.ne_none_iff_exists'.mp hp
  obtain ⟨h1, h2, h3, -⟩ := hr hn
  refine ⟨by omega, h2, ?_⟩
  rw [hc.table.leafEntry_eq]
  exact hl.ne_free hr hn h3

theorem World.Inv.unaliased (hw : World.Inv limit fromSelf w) {ptr : Nat}
    (hok : w.runs ptr ≠ none ∨ (limit ≤ 2 ^ 48 ∧ ptr < 2 ^ 48)) : Unaliased w.runs ptr := by
  rcases hok with hne | ⟨hl, hlt⟩
  · obtain ⟨N, leaf, own, hc, hl, hr⟩ := id hw.heap
    exact hl.unaliased hne hr
  · exact hw.heap.unaliased (fun s hs => (hw.bound s hs).trans hl) hlt

/-- A pointer goes to the pages, where its key is its own, or to the blocks. -/
theorem World.Inv.deallocate_cases (hw : World.Inv limit fromSelf w) {ptr size : Nat}
    (hok : (Call.deallocate ptr size).Ok h limit w) :
    routed w.pool ptr ∧ Unaliased w.runs ptr ∧ (w.runs ptr = none → w.blocks ptr = none) ∨
      ¬routed w.pool ptr ∧ w.runs ptr = none ∧ (w.blocks ptr = none → ptr < headerSize) := by
  by_cases hrun : w.runs ptr = none
  · by_cases hroute : routed w.pool ptr
    · have hblock (hl : limit ≤ 2 ^ 48) (hb : w.blocks ptr ≠ none) : False :=
        hw.heap.block_not_routed (fun s hs => (hw.bound s hs).trans hl) hb hroute
      rcases hok with hr | ⟨hb, hb'⟩ | ⟨hl, hlt, -⟩ | hsmall
      · exact absurd hrun hr
      · exact (hblock (hb'.resolve_right fun hn => hn hroute) hb).elim
      · exact .inl ⟨hroute, hw.unaliased (.inr ⟨hl, hlt⟩), fun _ => not_not.mp (hblock hl)⟩
      · exfalso
        obtain ⟨h1, h2, -⟩ := hroute
        unfold headerSize mempoolPageSize at *
        omega
    · refine .inr ⟨hroute, hrun, fun hnone => ?_⟩
      rcases hok with hr | ⟨hb, -⟩ | ⟨-, -, hr⟩ | hsmall
      · exact absurd hrun hr
      · exact absurd hnone hb
      · exact absurd hr hroute
      · exact hsmall
  · exact .inl ⟨hw.heap.routed_of_run hrun, hw.unaliased (.inl hrun), fun hn => absurd hn hrun⟩

theorem Heap.write (hh : Heap m blocks runs) {mem : Mem}
    (hok : ∀ b, (∀ p s, blocks p = some s → b ∉ Set.Ico p (p + s)) →
      (∀ a, b ∉ runBytes runs a) → mem b = m.mem b) :
    Heap { m with mem } blocks runs ∧ SameTable m { m with mem } := by
  obtain ⟨N, leaf, own, hc, hl, hr⟩ := hh
  -- the table and the headers are not the callers' memory
  have hagree : ∀ (S : Set Nat), (∀ p s, blocks p = some s → Disjoint S (Set.Ico p (p + s))) →
      (∀ a, Disjoint S (runBytes runs a)) → Mem.AgreeOn S m.mem mem := by
    intro S h1 h2 b hb
    exact hok b (fun p s hp hin => Set.disjoint_left.mp (h1 p s hp) hb hin)
      (fun a hin => Set.disjoint_left.mp (h2 a) hb hin)
  have hdata : ∀ {p s}, blocks p = some s → Set.Ico p (p + s) ⊆ held own (.block p) := by
    intro p s hp
    rw [hc.owned.blocks, blockBytes_some hp]
    exact Set.Ico_subset_Ico_left (Nat.sub_le ..)
  have hc' : Core { m with mem } blocks runs N leaf own := by
    refine hc.of_writes (hc.owned.congr rfl rfl rfl) rfl (fun l q => ?_) fun p s hp => ?_
    · refine hagree _ (fun p s hp => ?_) (fun a => ?_)
      · exact (disjoint_held own (by simp)).mono_right (hdata hp)
      · rw [← hc.owned.runs]
        exact disjoint_held own (by simp)
    obtain ⟨h16, hpos, hlt, w1, w2⟩ := hc.headers p s hp
    have hhead : Mem.AgreeOn (Set.Ico (p - headerSize) p) m.mem mem := by
      have hsub : Set.Ico (p - headerSize) p ⊆ held own (.block p) := by
        rw [hc.owned.blocks, blockBytes_some hp]
        exact Set.Ico_subset_Ico_right (by omega)
      refine hagree _ (fun p' s' hp' => ?_) (fun a => ?_)
      · by_cases hpp : p' = p
        · subst hpp
          rw [Set.disjoint_left]
          rintro b ⟨-, h1⟩ ⟨h2, -⟩
          omega
        · exact ((disjoint_held own (by simpa using Ne.symm hpp)).mono_left hsub).mono_right
            (hdata hp')
      · rw [← hc.owned.runs]
        exact (disjoint_held own (by simp)).mono_left hsub
    have hh16 : headerSize = 16 := rfl
    refine ⟨h16, hpos, hlt, ?_, ?_⟩
    · rw [← w1]
      exact word_congr (m := m) (hhead.mono (Set.Ico_subset_Ico_right (by omega)))
    · rw [← w2]
      exact word_congr (m := m) (hhead.mono (Set.Ico_subset_Ico (by omega) (by omega)))
  exact ⟨⟨N, leaf, own, hc', hl, hr⟩, hc.sameTable hc'⟩

theorem World.Inv.step (hw : World.Inv limit fromSelf w) (hlim : limit + 4096 ≤ wordSize) {c : Call}
    (hok : c.Ok h limit w) : World.Inv limit fromSelf (w.step h c) := by
  cases c with
  | reset =>
    obtain ⟨o, hreset, ho⟩ := reset_eq w.pool
    show World.Inv limit fromSelf ⟨reset w.pool, _, _⟩
    rw [hreset]
    exact ⟨hw.mode, heap_empty rfl rfl rfl, by simp, fun _ => ⟨Chain.inv_fresh .., rfl⟩⟩
  | resetWith s =>
    obtain ⟨hpos, hfin⟩ := hok
    obtain ⟨o, hreset, ho⟩ := reset_eq w.pool
    show World.Inv limit fromSelf ⟨Mempool.appendBoth h (reset w.pool) s, _, _⟩
    rw [hreset]
    have hw0 : World.Inv limit fromSelf ⟨{ w.pool with
        registerd := [SinglePool.fresh 0 o], available := [SinglePool.fresh 0 o], pageRoot := 0,
        managed := [] }, fun _ => none, fun _ => none⟩ :=
      ⟨hw.mode, heap_empty rfl rfl rfl, by simp, fun _ => ⟨Chain.inv_fresh .., rfl⟩⟩
    refine hw0.appendBoth hlim hpos hfin ?_ ho ?_
    · simp [managedBytes]
    · rintro - ⟨hfull, -⟩
      rw [Chain.tailFull_of_length (Chain.inv_fresh 0 o) (n := 0) rfl
        (by rw [Chain.flat_fresh]; exact Nat.zero_le _)] at hfull
      simp at hfull
  | append s =>
    obtain ⟨hpos, hfin, hd, hng⟩ := hok
    show World.Inv limit fromSelf ⟨Mempool.appendBoth h (Mempool.ownPools w.pool) s, w.blocks, w.runs⟩
    have hfields : (Mempool.ownPools w.pool).managed = w.pool.managed ∧
        (Mempool.ownPools w.pool).expandOnlyFromSelf = w.pool.expandOnlyFromSelf ∧
        (Mempool.ownPools w.pool).tick = w.pool.tick := by
      unfold Mempool.ownPools
      split <;> exact ⟨rfl, rfl, rfl⟩
    obtain ⟨hf1, hf2, hf3⟩ := hfields
    have hreg : w.pool.expandOnlyFromSelf = true →
        (Mempool.ownPools w.pool).registerd = ownRoot w.pool.registerd ∧
        (Mempool.ownPools w.pool).available = ownRoot w.pool.available := by
      intro hself
      unfold Mempool.ownPools
      rw [if_pos hself]
      exact ⟨rfl, rfl⟩
    have hw' : World.Inv limit fromSelf ⟨Mempool.ownPools w.pool, w.blocks, w.runs⟩ := by
      refine ⟨hf2.trans hw.mode, hw.heap.ownPools, by rw [hf1]; exact hw.bound, fun hself => ?_⟩
      rw [hf2] at hself
      rw [(hreg hself).1, length_ownRoot]
      exact ⟨(hw.reg hself).1.ownRoot, (hw.reg hself).2⟩
    refine hw'.appendBoth hlim hpos hfin ?_ ?_ ?_
    · unfold managedBytes at *
      rwa [hf1]
    · intro hself
      rw [hf2] at hself
      obtain ⟨N, leaf, own, hc, -⟩ := hw.heap
      rw [(hreg hself).2]
      exact ownerId_ownRoot hc.owned.inv.nonempty
    · intro hself
      rw [hf2] at hself
      rw [hf3]
      exact hng hself
  | reserve s =>
    obtain ⟨ok, m', hr, hsame, hh⟩ := hw.heap.reserve (h := h) hok
    unfold World.step perform World.live
    dsimp only
    rw [hr]
    exact hw.of_same hh hsame
  | allocate size alignment boundary =>
    obtain ⟨⟨hfresh, hbound⟩, hfit⟩ := hok
    unfold World.step perform World.live
    dsimp only
    by_cases hpage : isPageRequest size alignment boundary = true
    · rw [if_pos hpage] at hfit
      have hall : Mempool.allocate h w.pool size alignment boundary =
          Mempool.allocatePages h w.pool (blockSize size / mempoolPageSize) alignment := if_pos hpage
      obtain ⟨a, m', ha, he, -, hcase⟩ := hw.heap.allocatePages hfresh hfit
      rw [hall, ha, hpage]
      rcases hcase with ⟨rfl, hh⟩ | ⟨hpos, -, -, -, hh⟩
      · exact hw.of_evolves hh he hbound
      · simp only [if_neg (Nat.ne_of_gt hpos), if_true]
        exact hw.of_evolves hh he hbound
    · rw [if_neg hpage] at hfit
      rw [Bool.not_eq_true] at hpage
      obtain ⟨a, m', ha, he, -, hcase⟩ := hw.heap.allocate_block hfresh hpage hfit
      rw [ha, hpage]
      rcases hcase with ⟨rfl, hh⟩ | ⟨hpos, -, hh⟩
      · exact hw.of_evolves hh he hbound
      · simp only [if_neg (Nat.ne_of_gt hpos), Bool.false_eq_true, if_false]
        exact hw.of_evolves hh he hbound
  | deallocate ptr size =>
    rcases hw.deallocate_cases hok with ⟨hroute, hun, hblk⟩ | ⟨hroute, hrun, hsmall⟩
    · exact hw.deallocate_run hroute hun hblk
    · have hdeal : Mempool.deallocate h w.pool ptr size =
          Mempool.deallocateBlock h w.pool ptr size := if_neg hroute
      unfold World.step perform World.live
      dsimp only
      rw [hdeal, hrun]
      cases hb : w.blocks ptr with
      | some s =>
        by_cases hsize : size = 0 ∨ size = s
        · obtain ⟨ok, m', hd, hsame, -, -, hcase⟩ :=
            hw.heap.deallocateBlock_whole (h := h) hb hsize
          rw [hd]
          rcases hcase with ⟨rfl, hh⟩ | ⟨rfl, hh⟩
          · simp only [Bool.toNat_false, and_true, if_pos hsize]
            exact hw.of_same hh hsame
          · have hcut : cutBlock w.blocks ptr s size = update w.blocks ptr none :=
              if_pos hsize
            simp only [Bool.toNat_true, Nat.one_ne_zero, and_false, if_false, hcut]
            exact hw.of_same hh hsame
        · obtain ⟨ok, m', hd, hsame, -, -, -, hh⟩ := hw.heap.deallocateBlock_part (h := h) hb
            (fun h0 => hsize (Or.inl h0)) (fun h0 => hsize (Or.inr h0))
          rw [hd]
          simp only [hsize, false_and, if_false]
          exact hw.of_same hh hsame
      | none =>
        have hd : Mempool.deallocateBlock h w.pool ptr size = (false, w.pool) := if_pos (hsmall hb)
        rw [hd]
        exact ⟨hw.mode, hw.heap, hw.bound, hw.reg⟩
  | allocatePages n alignment =>
    obtain ⟨⟨hfresh, hbound⟩, hfit⟩ := hok
    obtain ⟨a, m', ha, he, -, hcase⟩ := hw.heap.allocatePages hfresh hfit
    unfold World.step perform World.live
    dsimp only
    rw [ha]
    rcases hcase with ⟨rfl, hh⟩ | ⟨hpos, -, -, -, hh⟩
    · exact hw.of_evolves hh he hbound
    · simp only [if_neg (Nat.ne_of_gt hpos)]
      exact hw.of_evolves hh he hbound
  | deallocatePages ptr =>
    obtain ⟨ok, m', hd, hsame, -, hcase⟩ := hw.heap.deallocatePages (h := h) (hw.unaliased hok)
    unfold World.step perform World.live
    dsimp only
    rw [hd]
    rcases hcase with ⟨rfl, hh⟩ | ⟨rfl, -, hh⟩
    · exact hw.of_same hh hsame
    · exact hw.of_same hh hsame
  | write mem =>
    exact ⟨hw.mode, (hw.heap.write hok).1, hw.bound, hw.reg⟩

theorem World.Inv.run (hlim : limit + 4096 ≤ wordSize) : ∀ (cs : List Call) {w : World},
    World.Inv limit fromSelf w → OkRun h limit w cs → World.Inv limit fromSelf (w.run h cs)
  | [], _, hw, _ => hw
  | c :: cs, w, hw, hok =>
    have hw' : World.Inv limit fromSelf (w.step h c) := hw.step hlim hok.1
    hw'.run hlim cs hok.2

/-- A world that `Ok` calls lead to. -/
def Reachable (h : Host) (limit : Nat) (fromSelf : Bool) (w : World) : Prop :=
  ∃ e st mem cs, OkRun h limit (World.init e st fromSelf mem) cs ∧
    w = (World.init e st fromSelf mem).run h cs

theorem Reachable.inv (hlim : limit + 4096 ≤ wordSize) (hr : Reachable h limit fromSelf w) :
    World.Inv limit fromSelf w := by
  obtain ⟨e, st, mem, cs, hok, rfl⟩ := hr
  exact World.Inv.run hlim cs (World.Inv.init limit e st fromSelf mem) hok

end

end Unisym.Mempool
