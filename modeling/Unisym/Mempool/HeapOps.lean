/-
# `HeapOps` — what each operation does to the heap

One specification for each function of the allocator, over `Core`: the
ownership map, the table and the headers together.  A page-table node is made
out of the pool in the middle of the walk, so `walkCreate_spec` and
`buildPaths_spec` carry a growing node map; the run that is being allocated is
owned by its address from the moment it is taken, which is what keeps the new
nodes out of it.
-/
import Unisym.Mempool.PoolBooks

namespace Unisym.Mempool

open Ownership

/-- Ownership, table and headers. -/
structure Core (m : Mempool) (blocks runs : Nat → Option Nat) (N : Nat → Nat → Option Nat)
    (leaf : Nat → Nat) (own : Nat → Option Owner) : Prop where
  owned : Owned m blocks runs N own
  table : Table m N leaf
  headers : Headers m blocks

section
variable {h : Host} {blocks runs : Nat → Option Nat}

/-! ## Page-table nodes -/

theorem ceilAlign_page {x : Nat} (hx : x + 4095 < wordSize) :
    ceilAlign mempoolPageSize x = (x + 4095) / 4096 * 4096 := by
  unfold ceilAlign floorAlign wadd wsub mempoolPageSize wordSize at *
  omega

variable {m m' : Mempool} {a l q : Nat} {N : Nat → Nat → Option Nat} {own : Nat → Option Owner}
  {leaf : Nat → Nat}

theorem word_clearPage {i : Nat} (hi : i < 512) :
    (m.clearPage a).word (entryAddr a i) = 0 := by
  refine Mem.readLE_fill_zero _ _ _ _ _ ?_ ?_
  · unfold entryAddr; omega
  · unfold entryAddr mempoolPageSize; omega

theorem mempoolPageSize_pos : 0 < mempoolPageSize := by decide

/-- What `allocate_meta_page` leaves: a cleared page `a` for the node `(l, q)`, or
nothing. -/
structure MetaMade (blocks runs : Nat → Option Nat) (N : Nat → Nat → Option Nat) (l q : Nat)
    (own : Nat → Option Owner) (m m' : Mempool) (a : Nat) : Prop where
  same : Same m m'
  root : m'.pageRoot = m.pageRoot
  mem : ∀ k, k.client = true → Mem.AgreeOn (held own k) m.mem m'.mem
  made : (a = 0 ∧ ∃ own', Owned m' blocks runs N own') ∨
    (0 < a ∧ (∃ own', Owned m' blocks runs (addNode N l q a) own') ∧
      ∀ i < 512, m'.word (entryAddr a i) = 0)

theorem MetaMade.tick {t : Nat} (ht : m.tick ≤ t)
    (hm : MetaMade blocks runs N l q own { m with tick := t } m' a) :
    MetaMade blocks runs N l q own m m' a :=
  ⟨⟨hm.same.1, hm.same.2, hm.same.3, hm.same.4, hm.same.5, ht.trans hm.same.6⟩, hm.root, hm.mem, hm.made⟩

theorem clearPage_agree {k : Owner}
    (hmem : m'.mem = m.mem) (hfree : page a ⊆ held own .free) (hk : k.client = true) :
    Mem.AgreeOn (held own k) m.mem (m'.clearPage a).mem := by
  have hd : Disjoint (held own k) (page a) := by
    refine (disjoint_held own ?_).mono_right hfree
    rintro rfl
    simp [Owner.client] at hk
  rw [← hmem]
  exact Mem.agreeOn_fill _ hd

theorem metaPageFrom_spec (hnew : N l q = none) :
    ∀ (L : List Slice) {m : Mempool} {own : Nat → Option Owner}, Owned m blocks runs N own →
      (∀ p ∈ L, p.fin + 4096 ≤ wordSize) →
      ∃ a m', metaPageFrom h m L = (a, m') ∧ MetaMade blocks runs N l q own m m' a
  | [], m, own, ho, _ =>
    ⟨0, m, rfl, Same.refl m, rfl, fun k _ => Mem.AgreeOn.refl (held own k) m.mem,
      Or.inl ⟨rfl, own, ho⟩⟩
  | p :: L, m, own, ho, hL => by
    have ih : ∀ {m' : Mempool}, Owned m' blocks runs N own →
        ∃ a m₂, metaPageFrom h m' L = (a, m₂) ∧ MetaMade blocks runs N l q own m' m₂ a :=
      fun ho' => metaPageFrom_spec hnew L ho' (fun x hx => hL x (List.mem_cons_of_mem _ hx))
    have hp := hL p List.mem_cons_self
    have hpf : p.fin = p.address + p.length := rfl
    unfold metaPageFrom
    by_cases hlen : p.length < mempoolPageSize
    · rw [if_pos hlen]; exact ih ho
    rw [if_neg hlen]
    have hx : p.address + 4095 < wordSize := by unfold mempoolPageSize at hlen; omega
    simp only [ceilAlign_page hx]
    generalize ha : (p.address + 4095) / 4096 * 4096 = a
    have hnw : (⟨a, mempoolPageSize⟩ : Slice).NoWrap := by
      unfold Slice.NoWrap mempoolPageSize at *
      simp only
      omega
    split
    · exact ih ho
    -- after a failing `Remove` the loop goes on
    have hfail : ∃ a' m', metaPageFrom h { m with tick := m.tick + 1 } L = (a', m') ∧
        MetaMade blocks runs N l q own m m' a' := by
      obtain ⟨a', m', h1, h2⟩ := ih
        (show Owned { m with tick := m.tick + 1 } blocks runs N own from ho.congr rfl rfl rfl)
      exact ⟨a', m', h1, h2.tick (Nat.le_succ _)⟩
    by_cases ha0 : a = 0
    · -- the page at address zero is lost
      rcases ho.toPools.take (h := h) (k := none) hnw mempoolPageSize_pos
        (fun _ hk => by simp at hk) with ht | ⟨c', own', ht, hpools, hfree, hheld⟩
      · rw [ht]; exact hfail
      rw [ht]
      refine ⟨a, _, rfl, ⟨rfl, rfl, rfl, rfl, rfl, Nat.le_succ _⟩, rfl,
        fun k hk => clearPage_agree rfl hfree hk, Or.inl ⟨ha0, own', ?_⟩⟩
      exact ⟨⟨hpools.inv, hpools.free, hpools.stores, hpools.inside, hpools.low, hpools.self⟩,
        fun _ => by rw [hheld _ rfl, if_neg (by simp), ho.blocks],
        fun _ => by rw [hheld _ rfl, if_neg (by simp), ho.runs],
        fun _ _ => by rw [hheld _ rfl, if_neg (by simp), ho.nodes]⟩
    · rcases ho.toPools.take (h := h) (k := some (.node l q)) hnw mempoolPageSize_pos
        (fun _ hk => by cases hk; rfl) with ht | ⟨c', own', ht, hpools, hfree, hheld⟩
      · rw [ht]; exact hfail
      rw [ht]
      refine ⟨a, _, rfl, ⟨rfl, rfl, rfl, rfl, rfl, Nat.le_succ _⟩, rfl,
        fun k hk => clearPage_agree rfl hfree hk,
        Or.inr ⟨Nat.pos_of_ne_zero ha0, ⟨own', ?_⟩, fun i hi => word_clearPage hi⟩⟩
      refine ⟨⟨hpools.inv, hpools.free, hpools.stores, hpools.inside, hpools.low, hpools.self⟩,
        fun _ => by rw [hheld _ rfl, if_neg (by simp), ho.blocks],
        fun _ => by rw [hheld _ rfl, if_neg (by simp), ho.runs], fun l' q' => ?_⟩
      rw [hheld _ rfl, ho.nodes]
      by_cases hlq : l' = l ∧ q' = q
      · obtain ⟨rfl, rfl⟩ := hlq
        rw [if_pos rfl, nodeBytes, nodeBytes, hnew, addNode_self, Set.empty_union]
        rfl
      · rw [if_neg (by simpa using fun h1 h2 => hlq ⟨h1.symm, h2.symm⟩), nodeBytes, nodeBytes,
          addNode_ne hlq]

theorem Pools.slice_low (hp : Pools m own) {s : Slice}
    (hs : s ∈ Chain.flat m.available) : s.fin + 4096 ≤ wordSize := by
  have hpos := hp.inv.sep.lt hs
  have hb : s.fin - 1 ∈ held own .free := by
    rw [hp.free]
    exact bytes_subset_bytesOf hs ⟨by omega, by omega⟩
  obtain ⟨r, hr, -, hlt⟩ := hp.inside _ (by rw [hb]; simp)
  have := hp.low r hr
  omega

theorem allocateMetaPage_spec (hnew : N l q = none) (ho : Owned m blocks runs N own) :
    ∃ a m', allocateMetaPage h m = (a, m') ∧ MetaMade blocks runs N l q own m m' a :=
  metaPageFrom_spec hnew _ ho (fun _ hp => ho.toPools.slice_low hp)

/-- The pages that became nodes came out of the free set, and nothing else moved;
a page at address zero would be lost. -/
structure Balance (c c' : Chain) (N N' : Nat → Nat → Option Nat) : Prop where
  free : c'.bytes ⊆ c.bytes
  books : 0 ∉ c.bytes → Books c c' N N' ∅ ∅

theorem Balance.refl (c : Chain) (N : Nat → Nat → Option Nat) : Balance c c N N :=
  ⟨Set.Subset.rfl, fun _ => Books.refl c N⟩

theorem Balance.trans {c₁ c₂ c₃ : Chain} {N₁ N₂ N₃ : Nat → Nat → Option Nat}
    (h₁ : Balance c₁ c₂ N₁ N₂) (h₂ : Balance c₂ c₃ N₂ N₃) : Balance c₁ c₃ N₁ N₃ :=
  ⟨h₂.free.trans h₁.free, fun h0 => (h₁.books h0).trans (h₂.books fun hin => h0 (h₁.free hin))⟩

theorem metaPageFrom_balance (hnew : N l q = none) :
    ∀ (L : List Slice) {m m' : Mempool} {a : Nat}, m.available.Inv →
      (∀ p ∈ L, p.fin + 4096 ≤ wordSize) → metaPageFrom h m L = (a, m') →
      Balance m.available m'.available N (if a = 0 then N else addNode N l q a)
  | [], m, m', a, _, _, ha => by
    cases ha
    exact Balance.refl m.available N
  | p :: L, m, m', a, hc, hL, ha => by
    have ih : ∀ {m₁ : Mempool}, metaPageFrom h m₁ L = (a, m') → m₁.available = m.available →
        Balance m.available m'.available N (if a = 0 then N else addNode N l q a) := by
      intro m₁ ha₁ h₁
      rw [← h₁] at hc ⊢
      exact metaPageFrom_balance hnew L hc (fun x hx => hL x (List.mem_cons_of_mem _ hx)) ha₁
    have hp := hL p List.mem_cons_self
    have hpf : p.fin = p.address + p.length := rfl
    unfold metaPageFrom at ha
    by_cases hlen : p.length < mempoolPageSize
    · rw [if_pos hlen] at ha
      exact ih ha rfl
    rw [if_neg hlen] at ha
    have hx : p.address + 4095 < wordSize := by unfold mempoolPageSize at hlen; omega
    simp only [ceilAlign_page hx] at ha
    generalize hb : (p.address + 4095) / 4096 * 4096 = b at ha
    have hnw : (⟨b, mempoolPageSize⟩ : Slice).NoWrap := by
      unfold Slice.NoWrap mempoolPageSize at *
      simp only
      omega
    split at ha
    · exact ih ha rfl
    rcases takeAvail_spec (h := h) hc hnw mempoolPageSize_pos with ht | ⟨c', ht, -, hin, hout, hbooks⟩
    · rw [ht] at ha
      change metaPageFrom h { m with tick := m.tick + 1 } L = (a, m') at ha
      exact ih ha rfl
    rw [ht] at ha
    change (b, clearPage { m with available := c', tick := m.tick + 1 } b) = (a, m') at ha
    cases ha
    refine ⟨hout.trans Set.sdiff_subset, fun h0 => ?_⟩
    have ha0 : a ≠ 0 := by
      rintro rfl
      exact h0 (hin ⟨le_refl _, by rw [Slice.fin_mk]; exact mempoolPageSize_pos⟩)
    rw [if_neg ha0]
    exact (hbooks N).toNode hnew

theorem allocateMetaPage_balance (hnew : N l q = none) (ho : Owned m blocks runs N own)
    (ha : allocateMetaPage h m = (a, m')) :
    Balance m.available m'.available N (if a = 0 then N else addNode N l q a) :=
  metaPageFrom_balance hnew _ ho.inv (fun _ hp => ho.toPools.slice_low hp) ha

theorem Core.frame_meta
    {own' : Nat → Option Owner} (hc : Core m blocks runs N leaf own)
    (hroot : m'.pageRoot = m.pageRoot)
    (hmem : ∀ k, k.client = true → Mem.AgreeOn (held own k) m.mem m'.mem)
    (ho : Owned m' blocks runs N own') : Core m' blocks runs N leaf own' :=
  ⟨ho, hc.table.frame hroot (fun hN _ hi => hc.owned.node_word hN hi (hmem _ rfl)),
    hc.headers.frame fun p _ _ => hc.owned.blocks p ▸ hmem (.block p) rfl⟩

theorem ensurePageRoot_spec (hc : Core m blocks runs N leaf own) :
    ∃ ok m' N' own', ensurePageRoot h m = (ok, m') ∧ Core m' blocks runs N' leaf own' ∧
      Same m m' ∧ Balance m.available m'.available N N' ∧ (ok = true → m'.pageRoot ≠ 0) := by
  unfold ensurePageRoot
  by_cases hr : m.pageRoot = 0
  · rw [if_neg (by simpa using hr)]
    have hnone := hc.table.no_nodes hr
    obtain ⟨a, m', ha, ⟨hsame, hroot, hmem, hcase⟩⟩ :=
      allocateMetaPage_spec (h := h) (hnone 3 0) hc.owned
    have hbal := allocateMetaPage_balance (hnone 3 0) hc.owned ha
    rw [ha]
    rcases hcase with ⟨rfl, own', ho⟩ | ⟨hpos, ⟨own', ho⟩, hzero⟩
    · have hc' := hc.frame_meta hroot hmem ho
      refine ⟨false, { m' with pageRoot := 0 }, N, own', by simp, ?_, ?_, hbal, by simp⟩
      · refine ⟨hc'.owned.congr rfl rfl rfl, ?_, hc'.headers⟩
        exact hc'.table.frame (by rw [hroot, hr]) (fun _ _ _ => rfl)
      · exact ⟨hsame.1, hsame.2, hsame.3, hsame.4, hsame.5, hsame.6⟩
    · refine ⟨true, { m' with pageRoot := a }, addNode N 3 0 a, own',
        by simp [Nat.ne_of_gt hpos], ?_, ?_, ?_, fun _ => Nat.ne_of_gt hpos⟩
      · refine ⟨ho.congr rfl rfl rfl, hc.table.makeRoot hr hpos rfl hzero, ?_⟩
        exact hc.headers.frame fun p _ _ => hc.owned.blocks p ▸ hmem (.block p) rfl
      · exact ⟨hsame.1, hsame.2, hsame.3, hsame.4, hsame.5, hsame.6⟩
      · rw [if_neg (Nat.ne_of_gt hpos)] at hbal
        exact hbal
  · rw [if_pos hr]
    exact ⟨true, m, N, own, rfl, hc, Same.refl m, Balance.refl m.available N, fun _ => hr⟩

/-- The nodes of `N` are nodes of `N'`. -/
def Extends (N N' : Nat → Nat → Option Nat) : Prop :=
  ∀ {l q a}, N l q = some a → N' l q = some a

theorem walkCreate_spec (p : Nat) : ∀ {l a : Nat} {m : Mempool} {N : Nat → Nat → Option Nat}
    {leaf : Nat → Nat} {own : Nat → Option Owner}, Core m blocks runs N leaf own → l ≤ 3 →
      N l (key p / 512 ^ (l + 1)) = some a →
      ∃ e m' N' own', walkCreate h p l a m = (e, m') ∧ Core m' blocks runs N' leaf own' ∧
        Same m m' ∧ Balance m.available m'.available N N' ∧ Extends N N' ∧
        ∀ x, e = some x → ∃ b, N' 0 (key p / 512) = some b ∧ x = entryAddr b (key p % 512)
  | 0, a, m, N, leaf, own, hc, _, ha => by
    rw [Nat.zero_add, Nat.pow_one] at ha
    refine ⟨_, m, N, own, rfl, hc, Same.refl m, Balance.refl m.available N, fun h => h, ?_⟩
    intro x hx
    rw [entryIndex_key (by omega), Nat.pow_zero, Nat.div_one] at hx
    exact ⟨a, ha, (Option.some.inj hx).symm⟩
  | l + 1, a, m, N, leaf, own, hc, hl, ha => by
    have hi := entryIndex_lt (l + 1) p
    have hchild := hc.table.inner ha _ hi
    rw [prefix_step hl] at hchild
    unfold walkCreate
    simp only [hchild]
    cases hn : N l (key p / 512 ^ (l + 1)) with
    | some c =>
      have hc0 := Nat.ne_of_gt (hc.table.pos hn)
      simp only [Option.getD_some]
      rw [if_pos hc0]
      exact walkCreate_spec p hc (by omega) hn
    | none =>
      simp only [Option.getD_none, ne_eq, not_true_eq_false, if_false]
      obtain ⟨b, m₁, hb, ⟨hsame, hroot, hmem, hcase⟩⟩ :=
        allocateMetaPage_spec (h := h) hn hc.owned
      have hbal := allocateMetaPage_balance hn hc.owned hb
      rw [hb]
      rcases hcase with ⟨rfl, own', ho⟩ | ⟨hpos, ⟨own', ho⟩, hzero⟩
      · rw [if_pos rfl]
        exact ⟨none, m₁, N, own', rfl, hc.frame_meta hroot hmem ho, hsame, hbal, fun h => h,
          by simp⟩
      · rw [if_neg (Nat.ne_of_gt hpos)]
        rw [if_neg (Nat.ne_of_gt hpos)] at hbal
        -- link the new node under `a`
        have hpar : N (l + 1) (key p / 512 ^ (l + 1) / 512) = some a := by
          rw [Nat.div_div_eq_div_mul, ← Nat.pow_succ]; exact ha
        have hmod : key p / 512 ^ (l + 1) % 512 = entryIndex (l + 1) p :=
          (entryIndex_key hl p).symm
        have hnew : addNode N l (key p / 512 ^ (l + 1)) b l (key p / 512 ^ (l + 1)) = some b :=
          addNode_self ..
        have hpar' := addNode_of_some (a := b) hn hpar
        have htable : Table (m₁.setWord (entryAddr a (entryIndex (l + 1) p)) b)
            (addNode N l (key p / 512 ^ (l + 1)) b) leaf := by
          refine hc.table.link (by omega) hn hpar hpos hroot ?_ ?_ ?_
          · intro i hi'
            rw [ho.setWord_entry hnew hpar' hi' hi (by omega)]
            exact hzero i hi'
          · rw [hmod]
            exact word_setWord (ho.node_lt hnew)
          · intro l' q' a' hN i hi' hne
            rw [ho.setWord_entry (addNode_of_some hn hN) hpar' hi' hi (by rw [← hmod]; exact hne)]
            exact hc.owned.node_word hN hi' (hmem _ rfl)
        have hhead : Headers m₁ blocks :=
          hc.headers.frame fun p _ _ => hc.owned.blocks p ▸ hmem (.block p) rfl
        have hc' : Core (m₁.setWord (entryAddr a (entryIndex (l + 1) p)) b) blocks runs
            (addNode N l (key p / 512 ^ (l + 1)) b) leaf own' :=
          ⟨ho.congr rfl rfl rfl, htable, ho.headers_setWord hpar' hi hhead⟩
        obtain ⟨e, m₂, N', own₂, he, hc₂, hsame₂, hbal₂, hext, hx⟩ :=
          walkCreate_spec p hc' (by omega) hnew
        refine ⟨e, m₂, N', own₂, he, hc₂, ?_, hbal.trans hbal₂,
          fun hN => hext (addNode_of_some hn hN), hx⟩
        exact hsame.trans ⟨hsame₂.1, hsame₂.2, hsame₂.3, hsame₂.4, hsame₂.5, hsame₂.6⟩

theorem makeLeafEntry_spec (hc : Core m blocks runs N leaf own) (p : Nat) :
    ∃ e m' N' own', makeLeafEntry h m p = (e, m') ∧ Core m' blocks runs N' leaf own' ∧
      Same m m' ∧ Balance m.available m'.available N N' ∧ Extends N N' ∧
      ∀ x, e = some x → ∃ b, N' 0 (key p / 512) = some b ∧ x = entryAddr b (key p % 512) := by
  unfold makeLeafEntry
  cases hr : N 3 0 with
  | none =>
    rw [if_pos (by rw [hc.table.root, hr]; rfl)]
    exact ⟨none, m, N, own, rfl, hc, Same.refl m, Balance.refl m.available N, fun h => h, by simp⟩
  | some r =>
    have hroot : m.pageRoot = r := by rw [hc.table.root, hr]; rfl
    rw [hroot, if_neg (Nat.ne_of_gt (hc.table.pos hr))]
    exact walkCreate_spec p hc (l := 3) (by omega) (by rw [key_root]; exact hr)

/-- The paths of all pages of a run exist and their entries are free. -/
theorem buildPaths_spec (first : Nat) : ∀ (n p : Nat) {m : Mempool} {N : Nat → Nat → Option Nat}
    {leaf : Nat → Nat} {own : Nat → Option Owner}, Core m blocks runs N leaf own →
      ∃ ok m' N' own', buildPaths h first n p m = (ok, m') ∧ Core m' blocks runs N' leaf own' ∧
        Same m m' ∧ Balance m.available m'.available N N' ∧ Extends N N' ∧
        (ok = true → ∀ j, p ≤ j → j < p + n →
          leaf (key (first + j)) = pageMetaFree ∧ ∃ b, N' 0 (key (first + j) / 512) = some b)
  | 0, p, m, N, leaf, own, hc =>
    ⟨true, m, N, own, rfl, hc, Same.refl m, Balance.refl m.available N, fun h => h,
      fun _ j h1 h2 => by omega⟩
  | n + 1, p, m, N, leaf, own, hc => by
    obtain ⟨e, m₁, N₁, own₁, he, hc₁, hsame, hbal, hext, hx⟩ :=
      makeLeafEntry_spec (h := h) hc (first + p)
    unfold buildPaths
    rw [he]
    cases e with
    | none => exact ⟨false, m₁, N₁, own₁, rfl, hc₁, hsame, hbal, hext, by simp⟩
    | some x =>
      obtain ⟨b, hb, rfl⟩ := hx x rfl
      have hword := hc₁.table.leaves hb (key (first + p) % 512) (Nat.mod_lt _ (by decide))
      rw [Nat.div_add_mod'] at hword
      simp only [hword]
      by_cases hfree : leaf (key (first + p)) = pageMetaFree
      · rw [if_neg (by simpa using hfree)]
        obtain ⟨ok, m₂, N₂, own₂, h2, hc₂, hsame₂, hbal₂, hext₂, hall⟩ :=
          buildPaths_spec first n (p + 1) hc₁
        refine ⟨ok, m₂, N₂, own₂, h2, hc₂, hsame.trans hsame₂, hbal.trans hbal₂,
          fun hN => hext₂ (hext hN), ?_⟩
        intro hok j hj1 hj2
        rcases Nat.eq_or_lt_of_le hj1 with rfl | hlt
        · exact ⟨hfree, b, hext₂ hb⟩
        · exact hall hok j hlt (by omega)
      · rw [if_pos hfree]
        exact ⟨false, m₁, N₁, own₁, rfl, hc₁, hsame, hbal, hext, by simp⟩

end

end Unisym.Mempool
