/-
# `HeapCalls` — the calls of the allocator keep the heap

`Heap m blocks runs` says that the allocator's state is consistent with a set
of live blocks and a set of live page runs.  Each public function has one
theorem: from `Heap` it leads to `Heap`, with the block or run it returned or
took back added to or removed from the live ones, and a call that fails leaves
the live ones as they were.

`RunFits` and `BlockFits` are what the searches of `allocate_pages` and
`allocate` intend and do not check: the range they pick lies in a free slice.
Their word additions can wrap, and a range that wraps passes their tests.
-/
import Unisym.Mempool.PageRuns

namespace Unisym.Mempool

open Ownership Function

/-- The allocator is consistent with the live blocks and runs. -/
def Heap (m : Mempool) (blocks runs : Nat → Option Nat) : Prop :=
  ∃ N leaf own, Core m blocks runs N leaf own ∧ LeafOk runs leaf ∧ RunsOk runs

/-- The ranges that the outer allocator may still hand out are new, not empty,
and keep away from the last page of the address space. -/
def HostFresh (h : Host) (m : Mempool) : Prop :=
  ∀ t, m.tick ≤ t → ∀ size raw, h.raw t size = some raw →
    0 < size ∧ raw + size + 4096 ≤ wordSize ∧ Disjoint (Set.Ico raw (raw + size)) (managedBytes m)

/-- What any allocation or deallocation leaves alone. -/
structure Evolves (h : Host) (m m' : Mempool) : Prop where
  autoExpand : m'.enableAutoExpand = m.enableAutoExpand
  step : m'.autoExpandStep = m.autoExpandStep
  self : m'.expandOnlyFromSelf = m.expandOnlyFromSelf
  tick : m.tick ≤ m'.tick
  keeps : m.expandOnlyFromSelf = true → m'.registerd = m.registerd ∧ m'.managed = m.managed
  managed : ∀ s ∈ m'.managed, s ∈ m.managed ∨ ∃ t, h.raw t s.length = some s.address

section
variable {h : Host} {m m' : Mempool} {blocks runs : Nat → Option Nat}

theorem Heap.inv (hh : Heap m blocks runs) : m.available.Inv := by
  obtain ⟨N, leaf, own, hc, -⟩ := hh
  exact hc.owned.inv

variable {N : Nat → Nat → Option Nat} {leaf : Nat → Nat} {own : Nat → Option Owner} {s : Slice}
  {n p : Nat}

theorem Core.nodeAt_eq
    (hc : Core m blocks runs N leaf own) : m.nodeAt = N :=
  funext fun l => funext fun q => hc.table.nodeAt_eq l q

/-- Two states with the same page table. -/
structure SameTable (m m' : Mempool) : Prop where
  nodes : m'.nodeAt = m.nodeAt
  leaves : ∀ p, m'.leafEntry p = m.leafEntry p

theorem Core.sameTable {blocks' runs' : Nat → Option Nat} {own' : Nat → Option Owner} (hc : Core m blocks runs N leaf own)
    (hc' : Core m' blocks' runs' N leaf own') : SameTable m m' :=
  ⟨hc'.nodeAt_eq.trans hc.nodeAt_eq.symm,
    fun p => (hc'.table.leafEntry_eq p).trans (hc.table.leafEntry_eq p).symm⟩

theorem Heap.free_apart (hh : Heap m blocks runs) : Disjoint m.available.bytes (storage m) := by
  obtain ⟨N, leaf, own, hc, -⟩ := hh
  unfold storage
  rw [hc.nodeAt_eq]
  exact hc.owned.free_apart

theorem Same.evolves (hs : Same m m') : Evolves h m m' :=
  ⟨hs.autoExpand, hs.step, hs.self, hs.tick, fun _ => ⟨hs.registerd, hs.managed⟩,
    fun _ hr => Or.inl (hs.managed ▸ hr)⟩

theorem Evolves.trans {m₁ m₂ m₃ : Mempool} (h₁ : Evolves h m₁ m₂) (h₂ : Evolves h m₂ m₃) :
    Evolves h m₁ m₃ where
  autoExpand := h₂.autoExpand.trans h₁.autoExpand
  step := h₂.step.trans h₁.step
  self := h₂.self.trans h₁.self
  tick := h₁.tick.trans h₂.tick
  keeps hself := by
    obtain ⟨a1, a2⟩ := h₁.keeps hself
    obtain ⟨b1, b2⟩ := h₂.keeps (h₁.self.trans hself)
    exact ⟨b1.trans a1, b2.trans a2⟩
  managed s hs := (h₂.managed s hs).elim (h₁.managed s) Or.inr

theorem HostFresh.same (hf : HostFresh h m) (hs : Same m m') : HostFresh h m' := by
  intro t ht size raw hr
  have := hf t (hs.tick.trans ht) size raw hr
  unfold managedBytes at *
  rwa [hs.managed]

/-! ## Ranges given to the allocator -/

theorem register_eq (h : Host) (m : Mempool) (s : Slice) :
    ∃ c t, (register h m s).2 = { m with registerd := c, tick := t } ∧ m.tick ≤ t := by
  unfold register
  cases m.registerd.append (h.pool m.tick) s with
  | none => exact ⟨_, _, rfl, le_refl _⟩
  | some r => exact ⟨_, _, rfl, Nat.le_succ _⟩

theorem giveAvail_managed (h : Host) (m : Mempool) (s : Slice) (l : List Slice) :
    (giveAvail h { m with managed := l } s).2 = { (giveAvail h m s).2 with managed := l } := by
  unfold giveAvail
  simp only
  cases m.available.append (h.pool m.tick) s <;> rfl

theorem Owned.manage
    (ho : Owned m blocks runs N own) (hlow : s.fin + 4096 ≤ wordSize)
    (hown : m.expandOnlyFromSelf = true → m.available.ownerId = 1) :
    Owned { m with managed := s :: m.managed } blocks runs N own where
  inv := ho.inv
  free := ho.free
  stores := ho.stores
  inside b hb := by
    obtain ⟨r, hr, hbr⟩ := ho.inside b hb
    exact ⟨r, List.mem_cons_of_mem _ hr, hbr⟩
  low := by
    intro r hr
    rcases List.mem_cons.mp hr with rfl | hr
    · exact hlow
    · exact ho.low r hr
  self hself := ⟨Or.inl (hown hself), (ho.self hself).2⟩
  blocks := ho.blocks
  runs := ho.runs
  nodes := ho.nodes

theorem Heap.appendBoth (hh : Heap m blocks runs) (hpos : 0 < s.length)
    (hlow : s.fin + 4096 ≤ wordSize) (hd : Disjoint s.bytes (managedBytes m))
    (hown : m.expandOnlyFromSelf = true → m.available.ownerId = 1) :
    Heap (appendBoth h m s) blocks runs := by
  obtain ⟨N, leaf, own, hc, hl, hr⟩ := hh
  obtain ⟨c, t, hreg, -⟩ := register_eq h m s
  have ho : Owned { (register h m s).2 with managed := s :: m.managed } blocks runs N own := by
    refine (hc.owned.manage hlow hown).congr ?_ ?_ ?_ <;> rw [hreg]
  have hin : ∀ k, Disjoint (held own k) s.bytes := fun k =>
    hd.symm.mono_left (hc.owned.inside_held k)
  have hroot : (register h m s).2.pageRoot = m.pageRoot := by rw [hreg]
  have hmem : (register h m s).2.mem = m.mem := by rw [hreg]
  have hnw : s.NoWrap := by
    have : s.fin = s.address + s.length := rfl
    unfold Slice.NoWrap
    omega
  have happ : Mempool.appendBoth h m s =
      (giveAvail h { (register h m s).2 with managed := s :: m.managed } s).2 := by
    unfold Mempool.appendBoth
    exact (giveAvail_managed h (register h m s).2 s (s :: m.managed)).symm
  rw [happ]
  rcases ho.toPools.give (h := h) hnw hpos (fun b hb => ⟨s, List.mem_cons_self, hb⟩)
    (fun i => hin _) with hg | ⟨c', own', taken, hg, hpools, -, -, -, hheld⟩
  · rw [hg]
    exact ⟨N, leaf, own, hc.of_owned (ho.congr rfl rfl rfl) hmem hroot, hl, hr⟩
  · rw [hg]
    have hkeep : ∀ {k : Owner}, k.client = true → held own' k = held own k := by
      intro k hk
      rw [hheld k hk]
      exact sdiff_eq_left.mpr (hin k)
    have ho' : Owned _ blocks runs N own' :=
      ⟨hpools, fun p => by rw [hkeep rfl, ho.blocks], fun a => by rw [hkeep rfl, ho.runs],
        fun l q => by rw [hkeep rfl, ho.nodes]⟩
    exact ⟨N, leaf, own', hc.of_owned ho' hmem hroot, hl, hr⟩

theorem appendBoth_fields (h : Host) (m : Mempool) (s : Slice) :
    (appendBoth h m s).managed = s :: m.managed ∧
      (appendBoth h m s).registerd = (register h m s).2.registerd ∧
      (appendBoth h m s).enableAutoExpand = m.enableAutoExpand ∧
      (appendBoth h m s).autoExpandStep = m.autoExpandStep ∧
      (appendBoth h m s).expandOnlyFromSelf = m.expandOnlyFromSelf ∧
      m.tick ≤ (appendBoth h m s).tick := by
  obtain ⟨c, t, hreg, ht⟩ := register_eq h m s
  unfold appendBoth giveAvail
  rw [hreg]
  cases m.available.append (h.pool t) s with
  | none =>
    simp only
    exact ⟨trivial, trivial, trivial, trivial, trivial, ht⟩
  | some r =>
    simp only
    exact ⟨trivial, trivial, trivial, trivial, trivial, ht.trans (Nat.le_succ _)⟩

/-- The answers of the outer allocator are ranges that do not wrap. -/
def HostValid (h : Host) (m : Mempool) : Prop :=
  ∀ t, m.tick ≤ t → ∀ size raw, h.raw t size = some raw → 0 < size ∧ raw + size < wordSize

/-- The bytes an `Expand` may have added: those of one answer of the outer allocator. -/
def Added (h : Host) (m : Mempool) (added : Set Nat) : Prop :=
  added = ∅ ∨ (m.enableAutoExpand = true ∧
    ∃ t raw size, m.tick ≤ t ∧ h.raw t size = some raw ∧ added = Set.Ico raw (raw + size))

theorem HostFresh.valid (hf : HostFresh h m) : HostValid h m := by
  intro t ht size raw hr
  obtain ⟨hpos, hlow, -⟩ := hf t ht size raw hr
  exact ⟨hpos, by omega⟩

theorem appendBoth_books (hc : m.available.Inv) (hs : s.NoWrap) (hpos : 0 < s.length) :
    (appendBoth h m s).available.Inv ∧ (appendBoth h m s).nodeAt = m.nodeAt ∧
      ∃ added, (added = ∅ ∨ added = s.bytes) ∧
        ∀ N, Books m.available (appendBoth h m s).available N N added ∅ := by
  obtain ⟨c, t, hreg, -⟩ := register_eq h m s
  unfold appendBoth
  rw [hreg]
  rcases giveAvail_spec (h := h) (m := { m with registerd := c, tick := t }) hc hs hpos with
    hg | ⟨c', hg, hc', -, hbooks⟩
  · rw [hg]
    exact ⟨hc, nodeAt_congr rfl rfl, ∅, Or.inl rfl, fun N => Books.refl _ N⟩
  · rw [hg]
    exact ⟨hc', nodeAt_congr rfl rfl, s.bytes, Or.inr rfl, hbooks⟩

/-- From `m` to `m'`, `lent` was lent out, and one answer of the outer allocator may
have come in. -/
structure Lends (h : Host) (m m' : Mempool) (lent : Set Nat) : Prop where
  managed : m.managed ⊆ m'.managed
  books : ∃ added, Added h m added ∧
    Books m.available m'.available m.nodeAt m'.nodeAt added lent

theorem Lends.refl (h : Host) (m : Mempool) : Lends h m m ∅ :=
  ⟨List.Subset.refl _, ∅, Or.inl rfl, Books.refl _ _⟩

theorem expand_books (hc : m.available.Inv) (hv : HostValid h m)
    (hexp : m.enableAutoExpand = true) (minSize : Nat) :
    (expand h m minSize).2.available.Inv ∧ (expand h m minSize).2.nodeAt = m.nodeAt ∧
      m.managed ⊆ (expand h m minSize).2.managed ∧ ∃ added, Added h m added ∧
        ∀ N, Books m.available (expand h m minSize).2.available N N added ∅ := by
  have hnone : ∀ t, Chain.Inv { m with tick := t }.available ∧
      { m with tick := t }.nodeAt = m.nodeAt ∧ m.managed ⊆ { m with tick := t }.managed ∧
        ∃ added, Added h m added ∧ ∀ N, Books m.available { m with tick := t }.available N N added ∅ :=
    fun t => ⟨hc, nodeAt_congr rfl rfl, List.Subset.refl _, ∅, Or.inl rfl, fun N => Books.refl _ N⟩
  unfold Mempool.expand
  by_cases hself : m.expandOnlyFromSelf = true
  · rw [if_pos hself]
    exact hnone m.tick
  rw [if_neg hself]
  have hans : ∀ (t : Nat) (size raw : Nat), m.tick ≤ t → h.raw t size = some raw →
      (append h { m with tick := t + 1 } ⟨raw, size⟩).available.Inv ∧
        (append h { m with tick := t + 1 } ⟨raw, size⟩).nodeAt = m.nodeAt ∧
        m.managed ⊆ (append h { m with tick := t + 1 } ⟨raw, size⟩).managed ∧
        ∃ added, Added h m added ∧
          ∀ N, Books m.available (append h { m with tick := t + 1 } ⟨raw, size⟩).available N N
            added ∅ := by
    intro t size raw ht hraw
    obtain ⟨hpos, hnw⟩ := hv t ht size raw hraw
    have happ : append h { m with tick := t + 1 } ⟨raw, size⟩ =
        Mempool.appendBoth h { m with tick := t + 1 } ⟨raw, size⟩ := by
      unfold Mempool.append ownPools
      rw [if_neg hself]
    obtain ⟨hinv, hnodes, added, hadd, hbooks⟩ := appendBoth_books (h := h)
      (m := { m with tick := t + 1 }) (s := ⟨raw, size⟩) hc hnw hpos
    obtain ⟨hman, -⟩ := appendBoth_fields h { m with tick := t + 1 } ⟨raw, size⟩
    rw [happ]
    refine ⟨hinv, hnodes.trans (nodeAt_congr rfl rfl), ?_, added, ?_, hbooks⟩
    · rw [hman]
      exact List.subset_cons_self _ _
    rcases hadd with rfl | rfl
    · exact Or.inl rfl
    · exact Or.inr ⟨hexp, t, raw, size, ht, hraw, rfl⟩
  dsimp only
  cases h1 : h.raw m.tick (ceilAlign m.autoExpandStep (max minSize m.autoExpandStep)) with
  | some raw => exact hans _ _ _ (le_refl _) h1
  | none =>
    dsimp only
    cases h2 : h.raw (m.tick + 1) (ceilAlign 0x1000 (max minSize m.autoExpandStep)) with
    | some raw => exact hans _ _ _ (Nat.le_succ _) h2
    | none => exact hnone _

theorem Heap.expand (hh : Heap m blocks runs) (hf : HostFresh h m) (minSize : Nat) :
    ∃ ok m', expand h m minSize = (ok, m') ∧ Heap m' blocks runs ∧ Evolves h m m' ∧
      (m.expandOnlyFromSelf = true → ok = false) := by
  unfold Mempool.expand
  by_cases hself : m.expandOnlyFromSelf = true
  · rw [if_pos hself]
    exact ⟨false, m, rfl, hh, (Same.refl m).evolves, fun _ => rfl⟩
  rw [if_neg hself]
  have htick : ∀ {m : Mempool}, Heap m blocks runs → ∀ t, Heap { m with tick := t } blocks runs := by
    rintro m ⟨N, leaf, own, hc, hrest⟩ t
    exact ⟨N, leaf, own, hc.of_owned (hc.owned.congr rfl rfl rfl) rfl rfl, hrest⟩
  -- an answer of the host is appended
  have hans : ∀ (t : Nat) (size raw : Nat), m.tick ≤ t → h.raw t size = some raw →
      Heap (append h { m with tick := t + 1 } ⟨raw, size⟩) blocks runs ∧
        Evolves h m (append h { m with tick := t + 1 } ⟨raw, size⟩) := by
    intro t size raw ht hraw
    obtain ⟨hpos, hlow, hd⟩ := hf t ht size raw hraw
    have happ : append h { m with tick := t + 1 } ⟨raw, size⟩ =
        Mempool.appendBoth h { m with tick := t + 1 } ⟨raw, size⟩ := by
      unfold Mempool.append ownPools
      rw [if_neg hself]
    rw [happ]
    obtain ⟨h1, -, h3, h4, h5, h6⟩ := appendBoth_fields h { m with tick := t + 1 } ⟨raw, size⟩
    refine ⟨(htick hh _).appendBoth hpos hlow hd (fun hs => absurd hs hself), h3, h4, h5,
      by simp only at h6; omega, fun hs => absurd hs hself, ?_⟩
    intro s hs
    rw [h1] at hs
    rcases List.mem_cons.mp hs with rfl | hs
    · exact Or.inr ⟨t, hraw⟩
    · exact Or.inl hs
  dsimp only
  cases h1 : h.raw m.tick (ceilAlign m.autoExpandStep (max minSize m.autoExpandStep)) with
  | some raw =>
    obtain ⟨ha, he⟩ := hans _ _ _ (le_refl _) h1
    exact ⟨true, _, rfl, ha, he, fun hs => absurd hs hself⟩
  | none =>
    dsimp only
    cases h2 : h.raw (m.tick + 1) (ceilAlign 0x1000 (max minSize m.autoExpandStep)) with
    | some raw =>
      obtain ⟨ha, he⟩ := hans _ _ _ (Nat.le_succ _) h2
      exact ⟨true, _, rfl, ha, he, fun hs => absurd hs hself⟩
    | none =>
      refine ⟨false, _, rfl, htick hh _, ?_, fun hs => absurd hs hself⟩
      exact Same.evolves ⟨rfl, rfl, rfl, rfl, rfl, by simp only; omega⟩

/-! ## Page runs -/

/-- The run that `allocate_pages` picks lies in a free slice. -/
def RunFits (c : Chain) (align size : Nat) : Prop :=
  findRun align size c ≠ 0 →
    ∃ s ∈ Chain.flat c, s.address ≤ findRun align size c ∧ findRun align size c + size ≤ s.fin

theorem findRun_dvd (align size : Nat) : ∀ c : Chain, align ∣ findRun align size c
  | [] => Nat.dvd_zero _
  | p :: rest => by
    unfold findRun
    split
    · exact findRun_dvd align size rest
    · split
      · exact findRun_dvd align size rest
      · exact ⟨_, Nat.mul_comm ..⟩

/-- The rollback of `attempt_alloc`, where it comes to one, finds the pool able to
take the run back. -/
def RollbackOk (h : Host) (m : Mempool) (pageCount align size : Nat) : Prop :=
  let m₁ := (ensurePageRoot h m).2
  let run : Slice := ⟨findRun align size m₁.available, size⟩
  let paths := buildPaths h (run.address / mempoolPageSize) pageCount 0 (takeAvail h m₁ run).2
  paths.1 = false → ¬Chain.Starved (h.pool paths.2.tick) paths.2.available run

/-- What an attempt lends out. -/
def lentRun (a n : Nat) : Set Nat := if a = 0 then ∅ else Set.Ico a (a + n * mempoolPageSize)

theorem lentRun_zero (n : Nat) : lentRun 0 n = ∅ := if_pos rfl

theorem lentRun_pos {a : Nat} (ha : 0 < a) (n : Nat) :
    lentRun a n = Set.Ico a (a + n * mempoolPageSize) := if_neg (Nat.ne_of_gt ha)

theorem Heap.attemptAlloc (hh : Heap m blocks runs) {align : Nat} (hn : 0 < n)
    (hcont : n ≠ pageMetaCont) (hal : mempoolPageSize ∣ align)
    (hfit : RunFits (ensurePageRoot h m).2.available align (n * mempoolPageSize)) :
    ∃ a m', attemptAlloc h n align (n * mempoolPageSize) m = (a, m') ∧ Same m m' ∧
      (0 ∉ m.available.bytes → RollbackOk h m n align (n * mempoolPageSize) →
        Books m.available m'.available m.nodeAt m'.nodeAt ∅ (lentRun a n)) ∧
      ((a = 0 ∧ Heap m' blocks runs) ∨
        (0 < a ∧ align ∣ a ∧ a + n * mempoolPageSize < wordSize ∧ runs a = none ∧
          Heap m' blocks (update runs a (some n)))) := by
  obtain ⟨N, leaf, own, hc, hl, hr⟩ := hh
  obtain ⟨ok, m₁, N₁, own₁, h1, hc₁, hs₁, hb₁, -⟩ := ensurePageRoot_spec (h := h) hc
  rw [h1] at hfit
  -- nothing is lent before the run is taken
  have hearly : ∀ {m' : Mempool}, m'.available = m₁.available → m'.nodeAt = N₁ →
      0 ∉ m.available.bytes →
        Books m.available m'.available m.nodeAt m'.nodeAt ∅ (lentRun 0 n) := by
    intro m' hav hN h0
    rw [lentRun_zero, hav, hN, hc.nodeAt_eq]
    exact hb₁.books h0
  unfold RollbackOk
  unfold Mempool.attemptAlloc
  rw [h1]
  cases ok with
  | false =>
    exact ⟨0, m₁, rfl, hs₁, fun h0 _ => hearly rfl hc₁.nodeAt_eq h0,
      Or.inl ⟨rfl, N₁, leaf, own₁, hc₁, hl, hr⟩⟩
  | true =>
  simp only
  generalize ha : findRun align (n * mempoolPageSize) m₁.available = a
  unfold RunFits at hfit
  rw [ha] at hfit
  have hdvd : align ∣ a := ha ▸ findRun_dvd ..
  by_cases ha0 : a = 0
  · rw [if_pos ha0]
    exact ⟨0, m₁, rfl, hs₁, fun h0 _ => hearly rfl hc₁.nodeAt_eq h0,
      Or.inl ⟨rfl, N₁, leaf, own₁, hc₁, hl, hr⟩⟩
  rw [if_neg ha0]
  obtain ⟨s, hs, -, hfin⟩ := hfit ha0
  have hnw : a + n * mempoolPageSize < wordSize := lt_of_le_of_lt hfin (hc₁.owned.inv.noWrap s hs)
  have hpos : 0 < n * mempoolPageSize := Nat.mul_pos hn mempoolPageSize_pos
  rcases hc₁.owned.take_run (h := h) hr hn hnw with ht | ⟨c', own₂, ht, hnone, ho₂⟩
  · rw [ht]
    have hc' : Core { m₁ with tick := m₁.tick + 1 } blocks runs N₁ leaf own₁ :=
      hc₁.of_owned (hc₁.owned.congr rfl rfl rfl) rfl rfl
    exact ⟨0, _, rfl, hs₁.trans ⟨rfl, rfl, rfl, rfl, rfl, Nat.le_succ _⟩,
      fun h0 _ => hearly rfl hc'.nodeAt_eq h0, Or.inl ⟨rfl, N₁, leaf, own₁, hc', hl, hr⟩⟩
  obtain ⟨-, hout, hlend⟩ := takeAvail_books (s := ⟨a, n * mempoolPageSize⟩) hc₁.owned.inv hnw hpos ht
  rw [ht]
  have hs₂ := hs₁.trans (show Same m₁ { m₁ with available := c', tick := m₁.tick + 1 } from
    ⟨rfl, rfl, rfl, rfl, rfl, Nat.le_succ _⟩)
  have hc₂ := hc₁.of_owned ho₂ rfl rfl
  obtain ⟨ok, m₃, N₃, own₃, h3, hc₃, hs₃, hb₃, -, hpaths⟩ :=
    buildPaths_spec (h := h) (a / mempoolPageSize) n 0 hc₂
  have hbooks : 0 ∉ m.available.bytes →
      Books m.available m₃.available N N₃ ∅ (⟨a, n * mempoolPageSize⟩ : Slice).bytes := fun h0 =>
    ((hb₁.books h0).then (hlend N₁)).trans
      (hb₃.books fun hin' => h0 (hb₁.free (hout.trans Set.sdiff_subset hin')))
  simp only
  rw [h3]
  cases ok with
  | false =>
    -- roll back
    have hbytes : (⟨a, n * mempoolPageSize⟩ : Slice).bytes = held own₃ (.run a) := by
      rw [hc₃.owned.runs, runBytes_some (update_self ..)]
      rfl
    obtain ⟨ok, c₄, own₄, h4, hp₄, hempty, hkeep⟩ := hc₃.owned.toPools.discard (h := h)
      (s := ⟨a, n * mempoolPageSize⟩) hnw hpos (k := .run a) rfl hbytes
    have hc₄ : Core { m₃ with available := c₄, tick := m₃.tick + 1 } blocks runs N₃ leaf own₄ := by
      refine hc₃.of_owned ⟨hp₄, fun p => by rw [hkeep _ rfl (by simp), hc₃.owned.blocks],
        fun a' => ?_, fun l q => by rw [hkeep _ rfl (by simp), hc₃.owned.nodes]⟩ rfl rfl
      by_cases haa : a' = a
      · rw [haa, hempty, runBytes_none hnone]
      · rw [hkeep _ rfl (by simpa using haa), hc₃.owned.runs, runBytes_update_ne haa]
    simp only
    rw [h4]
    refine ⟨0, _, rfl, (hs₂.trans hs₃).trans ⟨rfl, rfl, rfl, rfl, rfl, Nat.le_succ _⟩,
      fun h0 hroll => ?_, Or.inl ⟨rfl, N₃, leaf, own₄, hc₄, hl, hr⟩⟩
    have hok : ok = true := by
      have hgive := giveAvail_ok (h := h) (s := ⟨a, n * mempoolPageSize⟩) hc₃.owned.inv hnw hpos (by
        rw [hbytes, ← hc₃.owned.free]
        exact disjoint_held own₃ (by simp)) (hroll trivial)
      rw [h4] at hgive
      exact hgive
    subst hok
    rw [lentRun_zero, hc.nodeAt_eq, hc₄.nodeAt_eq]
    refine (hbooks h0).back ?_
    exact (giveAvail_books (s := ⟨a, n * mempoolPageSize⟩) hc₃.owned.inv hnw hpos h4).2 N₃
  | true =>
    simp only
    have hn' : n < wordSize := by
      have := Nat.le_mul_of_pos_right n mempoolPageSize_pos
      omega
    obtain ⟨hc₄, hs₄, hav⟩ := hc₃.setEntries (a / mempoolPageSize)
      (fun p => if p = 0 then n else pageMetaCont)
      (fun i => by split; exacts [hn', by decide]) n 0
      (fun j h1 h2 => (hpaths rfl j h1 h2).2)
    refine ⟨a, _, rfl, (hs₂.trans hs₃).trans hs₄, fun h0 _ => ?_,
      Or.inr ⟨Nat.pos_of_ne_zero ha0, hdvd, hnw, hnone, N₃, _, own₃, hc₄, ?_, ?_⟩⟩
    · rw [lentRun_pos (Nat.pos_of_ne_zero ha0), hav, hc.nodeAt_eq, hc₄.nodeAt_eq]
      exact hbooks h0
    · exact hl.add hr hn hnone (fun j hj => (hpaths rfl j (Nat.zero_le _) (by omega)).1)
    · exact hr.add (Nat.pos_of_ne_zero ha0) (Nat.mod_eq_zero_of_dvd (hal.trans hdvd)) hn hcont hnw

/-- Every attempt of `allocate_pages` picks a run that fits. -/
def PagesFit (h : Host) (m : Mempool) (pageCount alignment : Nat) : Prop :=
  RunFits (ensurePageRoot h m).2.available (pageAlign alignment) (pageCount * mempoolPageSize) ∧
    let first := attemptAlloc h pageCount (pageAlign alignment) (pageCount * mempoolPageSize) m
    let again := expand h first.2 (wadd (pageCount * mempoolPageSize) (pageAlign alignment))
    again.1 = true → RunFits (ensurePageRoot h again.2).2.available (pageAlign alignment)
      (pageCount * mempoolPageSize)

/-- No attempt of `allocate_pages` makes a table node of a page at address zero, and
a rollback finds the pool able to take its run back. -/
def PagesKept (h : Host) (m : Mempool) (pageCount alignment : Nat) : Prop :=
  let align := pageAlign alignment
  let size := pageCount * mempoolPageSize
  (0 ∉ m.available.bytes ∧ RollbackOk h m pageCount align size) ∧
    let again := expand h (attemptAlloc h pageCount align size m).2 (wadd size align)
    again.1 = true → 0 ∉ again.2.available.bytes ∧ RollbackOk h again.2 pageCount align size

theorem pageAlign_dvd (alignment : Nat) : mempoolPageSize ∣ pageAlign alignment := by
  unfold pageAlign shiftOne wordSize
  rcases Nat.lt_or_ge (max alignment mempoolPageShift) 64 with hlt | hge
  · rw [Nat.mod_eq_of_lt (Nat.pow_lt_pow_right (by omega) hlt)]
    have : mempoolPageSize = 2 ^ 12 := rfl
    rw [this]
    exact Nat.pow_dvd_pow 2 (le_max_right ..)
  · rw [Nat.mod_eq_zero_of_dvd (Nat.pow_dvd_pow 2 hge)]
    exact Nat.dvd_zero _

theorem Heap.allocatePages (hh : Heap m blocks runs) (hf : HostFresh h m) {alignment : Nat}
    (hfit : PagesFit h m n alignment) :
    ∃ a m', allocatePages h m n alignment = (a, m') ∧ Evolves h m m' ∧
      (PagesKept h m n alignment → Lends h m m' (lentRun a n)) ∧
      ((a = 0 ∧ Heap m' blocks runs) ∨
        (0 < a ∧ pageAlign alignment ∣ a ∧ a + n * mempoolPageSize < wordSize ∧ runs a = none ∧
          Heap m' blocks (update runs a (some n)))) := by
  have hnone : PagesKept h m n alignment → Lends h m m (lentRun 0 n) := fun _ => by
    rw [lentRun_zero]
    exact Lends.refl h m
  unfold Mempool.allocatePages
  by_cases h0 : n = 0 ∨ n = pageMetaCont
  · rw [if_pos h0]
    exact ⟨0, m, rfl, (Same.refl m).evolves, hnone, Or.inl ⟨rfl, hh⟩⟩
  rw [if_neg h0]
  by_cases hbig : n > (wordSize - 1) / mempoolPageSize
  · rw [if_pos hbig]
    exact ⟨0, m, rfl, (Same.refl m).evolves, hnone, Or.inl ⟨rfl, hh⟩⟩
  rw [if_neg hbig]
  have hn : 0 < n := by omega
  have hcont : n ≠ pageMetaCont := fun he => h0 (Or.inr he)
  obtain ⟨a, m₁, h1, hs₁, hb₁, hcase⟩ :=
    hh.attemptAlloc (h := h) hn hcont (pageAlign_dvd alignment) hfit.1
  have hfit2 := hfit.2
  unfold PagesKept
  simp only [h1] at hfit2 ⊢
  -- the books when the first attempt is the only one
  have honce : 0 ∉ m.available.bytes ∧
      RollbackOk h m n (pageAlign alignment) (n * mempoolPageSize) →
      Lends h m m₁ (lentRun a n) := fun hk =>
    ⟨hs₁.managed ▸ List.Subset.refl _, ∅, Or.inl rfl, hb₁ hk.1 hk.2⟩
  rcases hcase with ⟨rfl, hh₁⟩ | ⟨hpos, hdvd, hnw, hnone, hh₁⟩
  · simp only [ne_eq, not_true_eq_false, if_false]
    by_cases hexp : m₁.enableAutoExpand = true
    · rw [if_pos hexp]
      obtain ⟨ok, m₂, h2, hh₂, he₂, -⟩ := hh₁.expand (hf.same hs₁)
        (wadd (n * mempoolPageSize) (pageAlign alignment))
      obtain ⟨-, hnodes, hman, added, hadd, hb₂⟩ := expand_books (h := h) hh₁.inv (hf.same hs₁).valid
        hexp (wadd (n * mempoolPageSize) (pageAlign alignment))
      rw [h2] at hfit2 hnodes hman hb₂ ⊢
      rw [hs₁.managed] at hman
      have hadd' : Added h m added := hadd.imp_right fun ⟨_, t, raw, size, ht, hrest⟩ =>
        ⟨hs₁.autoExpand ▸ hexp, t, raw, size, hs₁.tick.trans ht, hrest⟩
      have htwo : 0 ∉ m.available.bytes ∧
          RollbackOk h m n (pageAlign alignment) (n * mempoolPageSize) →
          Books m.available m₂.available m.nodeAt m₂.nodeAt added ∅ := by
        intro hk
        have hb := hb₁ hk.1 hk.2
        rw [lentRun_zero] at hb
        rw [hnodes]
        exact hb.then (hb₂ _)
      cases ok with
      | false =>
        refine ⟨0, m₂, rfl, hs₁.evolves.trans he₂, fun hk => ⟨hman, added, hadd', ?_⟩,
          Or.inl ⟨rfl, hh₂⟩⟩
        rw [lentRun_zero]
        exact htwo hk.1
      | true =>
        obtain ⟨a, m₃, h3, hs₃, hb₃, hcase⟩ :=
          hh₂.attemptAlloc (h := h) hn hcont (pageAlign_dvd alignment) (hfit2 rfl)
        refine ⟨a, m₃, h3, (hs₁.evolves.trans he₂).trans hs₃.evolves,
          fun hk => ⟨hs₃.managed ▸ hman, added, hadd', ?_⟩, hcase⟩
        obtain ⟨h01, h02⟩ := hk.2 rfl
        exact (htwo hk.1).pass (hb₃ h01 h02)
    · rw [if_neg hexp]
      exact ⟨0, m₁, rfl, hs₁.evolves, fun hk => honce hk.1, Or.inl ⟨rfl, hh₁⟩⟩
  · rw [if_pos (Nat.ne_of_gt hpos)]
    exact ⟨a, m₁, rfl, hs₁.evolves, fun hk => honce hk.1,
      Or.inr ⟨hpos, hdvd, hnw, hnone, hh₁⟩⟩

theorem runIntact_of (t : Table m N leaf)
    (first : Nat) : ∀ (n p : Nat),
      (∀ j, p ≤ j → j < p + n → leaf (key (first + j)) = pageMetaCont) →
      runIntact m first n p = true
  | 0, _, _ => rfl
  | n + 1, p, hall => by
    have hp := hall p (le_refl _) (by omega)
    obtain ⟨b, hb⟩ := t.cover (k := key (first + p)) (by rw [hp]; decide)
    have hw := t.leaves hb (key (first + p) % 512) (Nat.mod_lt _ (by decide))
    rw [Nat.div_add_mod', hp] at hw
    unfold runIntact
    rw [t.getLeafEntry_eq, hb]
    simp only [Option.map_some, hw, ne_eq, not_true_eq_false, if_false]
    exact runIntact_of t first n (p + 1) (fun j h1 h2 => hall j (by omega) (by omega))

/-- No page of another run shares the table entry of the page at `p`. -/
def Unaliased (runs : Nat → Option Nat) (p : Nat) : Prop :=
  ∀ a n i, runs a = some n → i < n → n ≤ 2 ^ 36 → runKey a i = key (p / mempoolPageSize) →
    p / mempoolPageSize = a / mempoolPageSize + i

/-- A page table that shows a run head at `p` shows a live run. -/
theorem LeafOk.head_of (hl : LeafOk runs leaf) (hr : RunsOk runs)
    (hal : p % mempoolPageSize = 0) (hun : Unaliased runs p)
    (h0 : leaf (key (p / mempoolPageSize)) ≠ pageMetaFree)
    (h1 : leaf (key (p / mempoolPageSize)) ≠ pageMetaCont) :
    ∃ n, runs p = some n ∧ n ≤ 2 ^ 36 ∧ leaf (key (p / mempoolPageSize)) = n := by
  have hex : ∃ a n i, runs a = some n ∧ i < n ∧ runKey a i = key (p / mempoolPageSize) := by
    by_contra hno
    push Not at hno
    exact h0 (hl.free fun a n i ha hi => hno a n i ha hi)
  obtain ⟨a, n, i, ha, hi, hkey⟩ := hex
  have hi0 : i = 0 := by
    by_contra hne
    exact h1 (hkey ▸ hl.cont ha (Nat.pos_of_ne_zero hne) hi)
  subst hi0
  rcases hl.head ha with ⟨hle, hval⟩ | ⟨-, hval⟩
  · have hpa := hun a n 0 ha hi hle hkey
    obtain ⟨-, hal', -⟩ := hr ha
    have : p = a := by unfold mempoolPageSize at *; omega
    subst this
    exact ⟨n, ha, hle, hkey ▸ hval⟩
  · exact absurd (hkey ▸ hval) h1

/-- `deallocate_pages` on the head of a live run: what it does is decided by
whether the pool takes the run back. -/
theorem Heap.deallocatePages_run (hh : Heap m blocks runs) (hp : runs p = some n)
    (hn : n ≤ 2 ^ 36) :
    deallocatePages h m p =
      match giveAvail h m ⟨p, n * mempoolPageSize⟩ with
      | (false, m) => (false, m)
      | (true, m) =>
        (true, setEntries (p / mempoolPageSize) (fun _ => pageMetaFree) n 0 m) := by
  obtain ⟨N, leaf, own, hc, hl, hr⟩ := hh
  obtain ⟨hpos, hal, hn0, hcont, hfin⟩ := hr hp
  have hleaf : leaf (key (p / mempoolPageSize)) = n :=
    (hl.head hp).elim (fun h => h.2) (fun h => absurd h.1 (by omega))
  obtain ⟨b, hb⟩ := hc.table.cover (k := key (p / mempoolPageSize)) (by rw [hleaf]; omega)
  have hroot : m.pageRoot ≠ 0 := by
    intro hr0
    rw [hc.table.no_nodes hr0] at hb
    simp at hb
  have hw := hc.table.leaves hb (key (p / mempoolPageSize) % 512) (Nat.mod_lt _ (by decide))
  rw [Nat.div_add_mod', hleaf] at hw
  have hintact : runIntact m (p / mempoolPageSize) (n - 1) 1 = true := by
    refine runIntact_of hc.table _ _ _ fun j h1 h2 => hl.cont hp (by omega) (by omega)
  have hfree : ¬(n = pageMetaFree ∨ n = pageMetaCont) := by
    unfold pageMetaFree; omega
  have hbig : ¬n > (wordSize - 1) / mempoolPageSize := by
    rw [gt_iff_lt, not_lt, Nat.le_div_iff_mul_le mempoolPageSize_pos]
    omega
  unfold Mempool.deallocatePages
  rw [if_neg (by omega)]
  dsimp only
  rw [hc.table.getLeafEntry_eq, hb]
  rw [Option.map_some]
  dsimp only
  rcases hgive : giveAvail h m ⟨p, n * mempoolPageSize⟩ with ⟨ok, m'⟩
  cases ok <;>
    simp only [hw, hintact, if_neg hfree, if_neg hbig, hgive, Bool.not_true, Bool.false_eq_true,
      if_false]

/-- `deallocate_pages`: it frees a live run, or changes nothing. -/
theorem Heap.deallocatePages (hh : Heap m blocks runs) (hun : Unaliased runs p) :
    ∃ ok m', deallocatePages h m p = (ok, m') ∧ Same m m' ∧
      Books m.available m'.available m.nodeAt m'.nodeAt (if ok then runBytes runs p else ∅) ∅ ∧
      ((ok = false ∧ Heap m' blocks runs) ∨
        (ok = true ∧ runs p ≠ none ∧ Heap m' blocks (update runs p none))) := by
  have hfail : ∀ m', m' = m → ∃ ok m'', (false, m') = (ok, m'') ∧ Same m m'' ∧
      Books m.available m''.available m.nodeAt m''.nodeAt (if ok then runBytes runs p else ∅) ∅ ∧
      ((ok = false ∧ Heap m'' blocks runs) ∨
        (ok = true ∧ runs p ≠ none ∧ Heap m'' blocks (update runs p none))) := by
    rintro _ rfl
    exact ⟨false, _, rfl, Same.refl _, Books.refl _ _, Or.inl ⟨rfl, hh⟩⟩
  by_cases hlive : ∃ n, runs p = some n ∧ n ≤ 2 ^ 36
  · obtain ⟨n, hp, hn⟩ := hlive
    rw [hh.deallocatePages_run hp hn]
    obtain ⟨N, leaf, own, hc, hl, hr⟩ := hh
    obtain ⟨-, -, hn0, -, hnw⟩ := hr hp
    rcases hc.owned.give_run (h := h) hr hp with hg | ⟨c', own', taken, hg, -, -, ho'⟩
    · rw [hg]
      have hc' : Core { m with tick := m.tick + 1 } blocks runs N leaf own :=
        hc.of_owned (hc.owned.congr rfl rfl rfl) rfl rfl
      refine ⟨false, _, rfl, ⟨rfl, rfl, rfl, rfl, rfl, Nat.le_succ _⟩, ?_,
        Or.inl ⟨rfl, N, leaf, own, hc', hl, hr⟩⟩
      rw [hc'.nodeAt_eq, hc.nodeAt_eq]
      exact Books.refl _ _
    · obtain ⟨-, hbooks⟩ := giveAvail_books (s := ⟨p, n * mempoolPageSize⟩) hc.owned.inv hnw
        (Nat.mul_pos hn0 mempoolPageSize_pos) hg
      rw [hg]
      have hc' := hc.of_owned ho' rfl rfl
      obtain ⟨hc₂, hs₂, hav⟩ := hc'.setEntries (p / mempoolPageSize) (fun _ => pageMetaFree)
        (fun _ => by decide) n 0 (fun j _ hj => hc.table.cover (hl.ne_free hr hp (by omega)))
      have hs₁ : Same m { m with available := c', tick := m.tick + 1 } :=
        ⟨rfl, rfl, rfl, rfl, rfl, Nat.le_succ _⟩
      refine ⟨true, _, rfl, hs₁.trans hs₂, ?_,
        Or.inr ⟨rfl, by rw [hp]; simp, N, _, own', hc₂, hl.remove hr hp, hr.remove p⟩⟩
      rw [if_pos rfl, runBytes_some hp, hav, hc₂.nodeAt_eq, hc.nodeAt_eq]
      exact hbooks N
  · obtain ⟨N, leaf, own, hc, hl, hr⟩ := id hh
    unfold Mempool.deallocatePages
    split
    · exact hfail m rfl
    rename_i hpre
    dsimp only
    rw [hc.table.getLeafEntry_eq]
    cases hb : N 0 (key (p / mempoolPageSize) / 512) with
    | none => exact hfail m rfl
    | some b =>
      have hw := hc.table.leaves hb (key (p / mempoolPageSize) % 512) (Nat.mod_lt _ (by decide))
      rw [Nat.div_add_mod'] at hw
      simp only [Option.map_some, hw]
      by_cases h0 : leaf (key (p / mempoolPageSize)) = pageMetaFree ∨
          leaf (key (p / mempoolPageSize)) = pageMetaCont
      · rw [if_pos h0]
        exact hfail m rfl
      · obtain ⟨n, hn, hle, -⟩ := hl.head_of hr (by omega) hun (fun he => h0 (Or.inl he))
          (fun he => h0 (Or.inr he))
        exact absurd ⟨n, hn, hle⟩ hlive

theorem Heap.reserve (hh : Heap m blocks runs) (hword : s.address < wordSize) :
    ∃ ok m', reserve h m s = (ok, m') ∧ Same m m' ∧ Heap m' blocks runs := by
  unfold Mempool.reserve
  split
  · exact ⟨false, m, rfl, Same.refl m, hh⟩
  rename_i hs
  obtain ⟨N, leaf, own, hc, hl, hr⟩ := hh
  have hnw : s.NoWrap := by
    unfold Slice.NoWrap wsub wordSize at *
    omega
  rcases hc.owned.toPools.take (h := h) (k := none) hnw (by omega) (fun _ hk => by simp at hk) with
    ht | ⟨c', own', ht, hpools, -, hheld⟩
  · rw [ht]
    exact ⟨false, _, rfl, ⟨rfl, rfl, rfl, rfl, rfl, Nat.le_succ _⟩, N, leaf, own,
      hc.of_owned (hc.owned.congr rfl rfl rfl) rfl rfl, hl, hr⟩
  · rw [ht]
    refine ⟨true, _, rfl, ⟨rfl, rfl, rfl, rfl, rfl, Nat.le_succ _⟩, N, leaf, own',
      hc.of_owned ⟨hpools, fun p => ?_, fun a => ?_, fun l q => ?_⟩ rfl rfl, hl, hr⟩
    · rw [hheld _ rfl, if_neg (by simp), hc.owned.blocks]
    · rw [hheld _ rfl, if_neg (by simp), hc.owned.runs]
    · rw [hheld _ rfl, if_neg (by simp), hc.owned.nodes]

end

end Unisym.Mempool
