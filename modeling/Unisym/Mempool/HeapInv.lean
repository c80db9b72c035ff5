/-
# `HeapInv` — every byte of the heap has one owner

The invariant of the allocator is an ownership map on bytes: a byte belongs to
the free set, to a live block, to a live page run, to a page-table node, to the
page of a pool, or to nobody.  `Pools` ties the map to `pool_available`,
`Owned` to the live blocks, runs and nodes; `Table` (of `PageTable`) and
`Headers` say what the memory they own holds.

Each operation of the source is then one or two transfers of ownership:

    takeAvail    free ⟶ the new owner, and perhaps a page ⟶ a new pool
    giveAvail    the old owner ⟶ free, and perhaps a page ⟶ a new pool
-/
import Unisym.Library.Ownership
import Unisym.Mempool.PageTable
import Unisym.Mempool.PoolSpec

namespace Unisym.Mempool

open Ownership List

/-- Who a byte can belong to. -/
inductive Owner where
  | free
  | block (ptr : Nat)
  | run (addr : Nat)
  | node (level pfx : Nat)
  | store (i : Nat)
  deriving DecidableEq

/-- The owners outside the pool itself. -/
def Owner.client : Owner → Bool
  | .free => false
  | .store _ => false
  | _ => true

/-! ## The pool -/

/-- The page of the `i`-th pool after the root, when the chain gave it. -/
def storePage (c : Chain) (i : Nat) : Set Nat :=
  match c.skel[i + 1]? with
  | some (a, o) => if o = 1 then page a else ∅
  | none => ∅

/-- The bytes of the ranges the allocator was given. -/
def managedBytes (m : Mempool) : Set Nat := {b | ∃ s ∈ m.managed, b ∈ s.bytes}

/-- The pool and the ownership map agree. -/
structure Pools (m : Mempool) (own : Nat → Option Owner) : Prop where
  inv : m.available.Inv
  free : held own .free = m.available.bytes
  stores : ∀ i, held own (.store i) = storePage m.available i
  inside : ∀ b, own b ≠ none → b ∈ managedBytes m
  /-- No range reaches into the last page of the address space. -/
  low : ∀ s ∈ m.managed, s.fin + 4096 ≤ wordSize
  self : m.expandOnlyFromSelf = true →
    (m.available.ownerId = 1 ∨ m.managed = []) ∧ ∀ x ∈ m.available.skel.tail, x.2 = 1

/-- The fields that no operation on `pool_available` changes; the clock goes on. -/
structure Same (m m' : Mempool) : Prop where
  registerd : m'.registerd = m.registerd
  autoExpand : m'.enableAutoExpand = m.enableAutoExpand
  step : m'.autoExpandStep = m.autoExpandStep
  self : m'.expandOnlyFromSelf = m.expandOnlyFromSelf
  managed : m'.managed = m.managed
  tick : m.tick ≤ m'.tick

theorem Same.refl (m : Mempool) : Same m m := ⟨rfl, rfl, rfl, rfl, rfl, le_refl _⟩

theorem Same.trans {m₁ m₂ m₃ : Mempool} (h : Same m₁ m₂) (h' : Same m₂ m₃) : Same m₁ m₃ :=
  ⟨h'.1.trans h.1, h'.2.trans h.2, h'.3.trans h.3, h'.4.trans h.4, h'.5.trans h.5,
    h.6.trans h'.6⟩

section Chains
variable {host : Option Nat} {c c' : Chain} {taken : Set Nat}

theorem Chain.ownerId_skel (c : Chain) : c.ownerId = (c.skel.head?.map Prod.snd).getD 0 := by
  cases c <;> rfl

theorem Chain.length_skel (c : Chain) : c.skel.length = c.length := length_map ..

theorem head?_append_of_ne_nil {α : Type*} {l : List α} (h : l ≠ []) (r : List α) :
    (l ++ r).head? = l.head? := by
  cases l with
  | nil => exact absurd rfl h
  | cons => rfl

theorem Chain.skel_ne_nil (h : c ≠ []) : c.skel ≠ [] := by
  simpa [Chain.skel] using h

theorem Chain.Growth.ownerId (h : Chain.Growth host c c' taken) (hne : c ≠ []) :
    c'.ownerId = c.ownerId := by
  rw [Chain.ownerId_skel, Chain.ownerId_skel]
  cases h with
  | none hskel => rw [hskel]
  | own _ _ hskel => rw [hskel, head?_append_of_ne_nil (Chain.skel_ne_nil hne)]
  | host _ _ hskel => rw [hskel, head?_append_of_ne_nil (Chain.skel_ne_nil hne)]

theorem storePage_last (hne : c ≠ []) : storePage c (c.length - 1) = ∅ := by
  have hlen := length_pos_iff.mpr hne
  unfold storePage
  rw [getElem?_eq_none (by rw [Chain.length_skel]; omega)]

theorem Chain.Growth.storePage (h : Chain.Growth host c c' taken) (hne : c ≠ []) (i : Nat) :
    storePage c' i = if i = c.length - 1 then taken else Mempool.storePage c i := by
  have hlen := length_pos_iff.mpr hne
  have key : ∀ (a o : Nat) (s : Set Nat), c'.skel = c.skel ++ [(a, o)] →
      (if o = 1 then page a else ∅) = s →
        Mempool.storePage c' i = if i = c.length - 1 then s else Mempool.storePage c i := by
    intro a o s hskel hs
    unfold Mempool.storePage
    by_cases hi : i = c.length - 1
    · rw [if_pos hi, hskel, getElem?_append_right (by rw [Chain.length_skel]; omega),
        Chain.length_skel, show i + 1 - c.length = 0 by omega]
      exact hs
    · rw [if_neg hi]
      rcases Nat.lt_or_ge (i + 1) c.length with hlt | hle
      · rw [hskel, getElem?_append_left (by rw [Chain.length_skel]; exact hlt)]
      · rw [hskel, getElem?_eq_none (by simp [Chain.length_skel]; omega),
          getElem?_eq_none (by rw [Chain.length_skel]; exact hle)]
  cases h with
  | none hskel =>
    split
    · rename_i hi
      have : Mempool.storePage c' i = Mempool.storePage c i := by
        unfold Mempool.storePage; rw [hskel]
      rw [this, hi, storePage_last hne]
    · unfold Mempool.storePage; rw [hskel]
  | own _ howner hskel => exact key _ _ _ hskel (if_pos howner)
  | host _ howner hskel => exact key _ _ _ hskel (if_neg howner)

theorem Chain.Growth.owners (h : Chain.Growth host c c' taken) (hne : c ≠ [])
    (hown : c.ownerId = 1) (hall : ∀ x ∈ c.skel.tail, x.2 = 1) : ∀ x ∈ c'.skel.tail, x.2 = 1 := by
  cases h with
  | none hskel => rw [hskel]; exact hall
  | own _ _ hskel =>
    rw [hskel, tail_append_of_ne_nil (Chain.skel_ne_nil hne)]
    intro x hx
    rcases mem_append.mp hx with hx | hx
    · exact hall x hx
    · rw [mem_singleton.mp hx]; exact hown
  | host _ howner => exact absurd hown howner

end Chains

section Transfer
variable {h : Host} {m : Mempool} {own : Nat → Option Owner} {s : Slice}

theorem managed_ne_nil {b : Nat} (hb : b ∈ managedBytes m) :
    m.managed ≠ [] := by
  obtain ⟨s, hs, -⟩ := hb
  exact ne_nil_of_mem hs

theorem mem_bytes_address (hpos : 0 < s.length) : s.address ∈ s.bytes :=
  ⟨le_refl _, by unfold Slice.fin; omega⟩

section

variable (hp : Pools m own) (hs : s.NoWrap) (hpos : 0 < s.length)
include hp hs hpos

/-- Taking free bytes out of the pool for a client, or for nobody. -/
theorem Pools.take {k : Option Owner} (hk : ∀ k', k = some k' → k'.client = true) :
    takeAvail h m s = (false, { m with tick := m.tick + 1 }) ∨
      ∃ c' own', takeAvail h m s = (true, { m with available := c', tick := m.tick + 1 }) ∧
        Pools { m with available := c', tick := m.tick + 1 } own' ∧
        s.bytes ⊆ held own .free ∧
        ∀ k', k'.client = true → held own' k' =
          if k = some k' then held own k' ∪ s.bytes else held own k' := by
  have hkf : k ≠ some .free := fun hf => by simpa [Owner.client] using hk _ hf
  have hks : ∀ i, k ≠ some (.store i) := fun i hf => by simpa [Owner.client] using hk _ hf
  unfold takeAvail
  rcases Chain.remove_spec hp.inv hs hpos with hr | ⟨c', taken, hr, hsub, hd⟩
  · left; rw [hr]
  right
  rw [hr]
  have hfree : s.bytes ⊆ held own .free := by rw [hp.free]; exact hsub
  have htaken : taken ⊆ held own .free := by rw [hp.free]; exact hd.growth.subset
  refine ⟨c', assign (assign own taken (some (.store (m.available.length - 1)))) s.bytes k, rfl,
    ⟨hd.inv, ?_, ?_, ?_, hp.low, ?_⟩, hfree, ?_⟩
  · rw [held_assign_ne hkf, held_assign_ne (by simp), hp.free]
    show _ = c'.bytes
    rw [hd.bytes, Set.sdiff_sdiff_comm]
  · intro i
    show _ = storePage c' i
    rw [held_assign_ne (hks i), hd.growth.storePage hp.inv.nonempty]
    by_cases hi : i = m.available.length - 1
    · rw [if_pos hi, hi, held_assign_self, hp.stores, storePage_last hp.inv.nonempty,
        Set.empty_union]
      exact sdiff_eq_left.mpr hd.apart
    · rw [if_neg hi, held_assign_other (by simpa using fun h => hi h.symm) (by simp)
        htaken, hp.stores]
      refine sdiff_eq_left.mpr ?_
      rw [← hp.stores]
      exact (disjoint_held own (by simp)).mono_right hfree
  · intro b hb
    by_cases hbs : b ∈ s.bytes
    · exact hp.inside b (by rw [hfree hbs]; simp)
    · rw [assign_of_not_mem hbs] at hb
      by_cases hbt : b ∈ taken
      · exact hp.inside b (by rw [htaken hbt]; simp)
      · rw [assign_of_not_mem hbt] at hb
        exact hp.inside b hb
  · intro hself
    obtain ⟨h1, h2⟩ := hp.self hself
    have hown : m.available.ownerId = 1 := by
      refine h1.resolve_right (managed_ne_nil (hp.inside s.address ?_))
      rw [hfree (mem_bytes_address hpos)]
      simp
    exact ⟨Or.inl ((hd.growth.ownerId hp.inv.nonempty).trans hown),
      hd.growth.owners hp.inv.nonempty hown h2⟩
  · intro k' hk'
    have hne : (.free : Owner) ≠ k' := by rintro rfl; simp [Owner.client] at hk'
    have hold : held (assign own taken (some (.store (m.available.length - 1)))) k' =
        held own k' := by
      refine held_assign_other ?_ hne htaken
      rintro hf
      rw [Option.some.injEq] at hf
      subst hf
      simp [Owner.client] at hk'
    split
    · rename_i hkk
      rw [hkk, held_assign_self, hold]
    · rename_i hkk
      rw [held_assign_ne hkk, hold]
      exact sdiff_eq_left.mpr ((disjoint_held own hne.symm).mono_right hfree)

/-- Handing bytes of the managed ranges, which no pool is stored in, to the
pool. -/
theorem Pools.give (hman : s.bytes ⊆ managedBytes m) (hst : ∀ i, Disjoint (held own (.store i)) s.bytes) :
    giveAvail h m s = (false, { m with tick := m.tick + 1 }) ∨
      ∃ c' own' taken, giveAvail h m s = (true, { m with available := c', tick := m.tick + 1 }) ∧
        Pools { m with available := c', tick := m.tick + 1 } own' ∧
        Chain.Growth (h.pool m.tick) m.available c' taken ∧
        c'.bytes = (m.available.bytes ∪ s.bytes) \ taken ∧
        Disjoint s.bytes (held own .free) ∧
        ∀ k', k'.client = true → held own' k' = held own k' \ s.bytes := by
  unfold giveAvail
  rcases Chain.append_spec hp.inv hs hpos with
    hr | ⟨c', taken, hr, hdisj, hd⟩
  · left; rw [hr]
  right
  rw [hr]
  have htaken : taken ⊆ held own .free := by rw [hp.free]; exact hd.growth.subset
  refine ⟨c', assign (assign own s.bytes (some .free)) taken
    (some (.store (m.available.length - 1))), taken, rfl,
    ⟨hd.inv, ?_, ?_, ?_, hp.low, ?_⟩, hd.growth, hd.bytes, by rw [hp.free]; exact hdisj, ?_⟩
  · rw [held_assign_ne (by simp), held_assign_self, hp.free]
    exact hd.bytes.symm
  · intro i
    show _ = storePage c' i
    have hs' : held (assign own s.bytes (some .free)) (.store i) = held own (.store i) :=
      held_assign_frame (by simp) (hst i)
    rw [hd.growth.storePage hp.inv.nonempty]
    by_cases hi : i = m.available.length - 1
    · rw [if_pos hi, hi, held_assign_self, ← hi, hs', hp.stores, hi, storePage_last hp.inv.nonempty,
        Set.empty_union]
    · rw [if_neg hi, held_assign_ne (by simpa using fun h => hi h.symm), hs', ← hp.stores]
      exact sdiff_eq_left.mpr ((disjoint_held own (by simp)).mono_right htaken)
  · intro b hb
    by_cases hbt : b ∈ taken
    · exact hp.inside b (by rw [htaken hbt]; simp)
    · rw [assign_of_not_mem hbt] at hb
      by_cases hbs : b ∈ s.bytes
      · exact hman hbs
      · rw [assign_of_not_mem hbs] at hb
        exact hp.inside b hb
  · intro hself
    obtain ⟨h1, h2⟩ := hp.self hself
    have hown : m.available.ownerId = 1 :=
      h1.resolve_right (managed_ne_nil (hman (mem_bytes_address hpos)))
    exact ⟨Or.inl ((hd.growth.ownerId hp.inv.nonempty).trans hown),
      hd.growth.owners hp.inv.nonempty hown h2⟩
  · intro k' hk'
    have hne : (.free : Owner) ≠ k' := by rintro rfl; simp [Owner.client] at hk'
    have hne' : (some (.store (m.available.length - 1)) : Option Owner) ≠ some k' := by
      rintro hf
      rw [Option.some.injEq] at hf
      subst hf
      simp [Owner.client] at hk'
    rw [held_assign_ne hne', held_assign_ne (by simpa using hne)]
    exact sdiff_eq_left.mpr (((disjoint_held own hne.symm).mono_right htaken).mono_left
      Set.sdiff_subset)

/-- Handing all that a client holds to the pool; where the pool cannot take it,
it belongs to nobody. -/
theorem Pools.discard {k : Owner} (hk : k.client = true) (hbytes : s.bytes = held own k) :
    ∃ ok c' own', giveAvail h m s = (ok, { m with available := c', tick := m.tick + 1 }) ∧
      Pools { m with available := c', tick := m.tick + 1 } own' ∧ held own' k = ∅ ∧
      ∀ k', k'.client = true → k' ≠ k → held own' k' = held own k' := by
  have hkf : k ≠ .free := by rintro rfl; simp [Owner.client] at hk
  have hks : ∀ i, k ≠ .store i := by rintro i rfl; simp [Owner.client] at hk
  have hin : s.bytes ⊆ managedBytes m := fun b hb => hp.inside b (by
    rw [hbytes] at hb
    rw [hb]
    simp)
  rcases hp.give (h := h) hs hpos hin
    (fun i => by rw [hbytes]; exact disjoint_held own (hks i).symm) with
    hg | ⟨c', own', taken, hg, hpools, -, -, -, hheld⟩
  · have hne : ∀ {k' : Owner}, k' ≠ k → held (assign own (held own k) none) k' = held own k' :=
      fun hk' => held_assign_other (by simp) hk'.symm (le_refl _)
    refine ⟨false, m.available, assign own (held own k) none, hg,
      ⟨hp.inv, by rw [hne hkf.symm, hp.free], fun i => by rw [hne (hks i).symm, hp.stores], ?_, hp.low,
        hp.self⟩, by rw [held_assign_ne (by simp), Set.sdiff_self], fun k' _ hk' => hne hk'⟩
    intro b hb
    by_cases hbk : b ∈ held own k
    · rw [assign_of_mem hbk] at hb; exact absurd rfl hb
    · rw [assign_of_not_mem hbk] at hb; exact hp.inside b hb
  · refine ⟨true, c', own', hg, hpools, ?_, fun k' hk' hne => ?_⟩
    · rw [hheld k hk, hbytes, Set.sdiff_self]
    · rw [hheld k' hk', hbytes]
      exact sdiff_eq_left.mpr (disjoint_held own hne)

end

end Transfer

/-! ## Blocks, runs and nodes -/

/-- A block with its header. -/
def blockBytes (blocks : Nat → Option Nat) (p : Nat) : Set Nat :=
  match blocks p with
  | some s => Set.Ico (p - headerSize) (p + s)
  | none => ∅

/-- A page run. -/
def runBytes (runs : Nat → Option Nat) (a : Nat) : Set Nat :=
  match runs a with
  | some n => Set.Ico a (a + n * mempoolPageSize)
  | none => ∅

/-- The page of a page-table node. -/
def nodeBytes (N : Nat → Nat → Option Nat) (l q : Nat) : Set Nat :=
  match N l q with
  | some a => page a
  | none => ∅

/-- The ownership map and what is live. -/
structure Owned (m : Mempool) (blocks runs : Nat → Option Nat) (N : Nat → Nat → Option Nat)
    (own : Nat → Option Owner) : Prop extends Pools m own where
  blocks : ∀ p, held own (.block p) = blockBytes blocks p
  runs : ∀ a, held own (.run a) = runBytes runs a
  nodes : ∀ l q, held own (.node l q) = nodeBytes N l q

/-- Every live block has its header. -/
def Headers (m : Mempool) (blocks : Nat → Option Nat) : Prop :=
  ∀ p s, blocks p = some s → headerSize ≤ p ∧ 0 < s ∧ p + s < wordSize ∧
    m.word (p - headerSize) = s ∧ m.word (p - headerSize + 8) = headerProp

theorem word_congr {m m' : Mempool} {a : Nat} (h : Mem.AgreeOn (Set.Ico a (a + 8)) m.mem m'.mem) :
    m'.word a = m.word a := Mem.readLE_congr h

theorem word_setWord {m : Mempool} {a v : Nat} (hv : v < wordSize) : (m.setWord a v).word a = v :=
  Mem.readLE_writeLE _ hv

theorem word_setWord_ne {m : Mempool} {a v b : Nat} (h : b + 8 ≤ a ∨ a + 8 ≤ b) :
    (m.setWord a v).word b = m.word b := Mem.readLE_writeLE_ne _ h

theorem setWord_agree {m : Mempool} {a v : Nat} {s : Set Nat} (h : Disjoint s (Set.Ico a (a + 8))) :
    Mem.AgreeOn s m.mem (m.setWord a v).mem := Mem.agreeOn_writeLE _ h

section
variable {m m' : Mempool} {blocks runs : Nat → Option Nat} {N : Nat → Nat → Option Nat}
  {own : Nat → Option Owner} {l q a i : Nat}

/-- Ownership does not depend on the memory, the clock or the table root. -/
theorem Owned.congr (ho : Owned m blocks runs N own) (h1 : m'.available = m.available)
    (h2 : m'.managed = m.managed) (h3 : m'.expandOnlyFromSelf = m.expandOnlyFromSelf) :
    Owned m' blocks runs N own where
  inv := h1 ▸ ho.inv
  free := h1 ▸ ho.free
  stores := h1 ▸ ho.stores
  inside b hb := by
    have := ho.inside b hb
    unfold managedBytes at *
    rwa [h2]
  low := h2 ▸ ho.low
  self := by rw [h1, h2, h3]; exact ho.self
  blocks := ho.blocks
  runs := ho.runs
  nodes := ho.nodes

theorem entry_subset_page (a : Nat) (hi : i < 512) :
    Set.Ico (entryAddr a i) (entryAddr a i + 8) ⊆ page a := by
  rintro b ⟨h1, h2⟩
  unfold entryAddr at *
  exact ⟨by omega, by unfold poolSize; omega⟩

section

variable (ho : Owned m blocks runs N own) (hN : N l q = some a)
include ho hN

theorem Owned.node_held : held own (.node l q) = page a := by
  rw [ho.nodes, nodeBytes, hN]

theorem Owned.node_lt : a < wordSize := by
  have ha : a ∈ held own (.node l q) := by
    rw [ho.node_held hN]
    exact ⟨le_refl _, Nat.lt_add_of_pos_right Chain.poolSize_pos⟩
  obtain ⟨s, hs, -, has⟩ := ho.inside a (by rw [ha]; simp)
  have := ho.low s hs
  omega

theorem Owned.node_word (hi : i < 512) (hmem : Mem.AgreeOn (held own (.node l q)) m.mem m'.mem) :
    m'.word (entryAddr a i) = m.word (entryAddr a i) := by
  refine word_congr (hmem.mono ?_)
  rw [ho.node_held hN]
  exact entry_subset_page a hi

end

/-- A write to one entry leaves the other entries of the table alone. -/
theorem Owned.setWord_entry (ho : Owned m blocks runs N own) {l₁ q₁ b j v : Nat}
    (ha : N l q = some a) (hb : N l₁ q₁ = some b) (hi : i < 512) (hj : j < 512)
    (hne : ¬(l = l₁ ∧ q = q₁ ∧ i = j)) :
    (m'.setWord (entryAddr b j) v).word (entryAddr a i) = m'.word (entryAddr a i) := by
  by_cases hnode : l = l₁ ∧ q = q₁
  · obtain ⟨rfl, rfl⟩ := hnode
    rw [ha] at hb
    cases hb
    refine word_setWord_ne ?_
    unfold entryAddr
    omega
  · refine word_congr (setWord_agree ?_)
    have hd : Disjoint (page a) (page b) := by
      rw [← ho.node_held ha, ← ho.node_held hb]
      exact disjoint_held own (by simpa using hnode)
    exact (hd.mono_left (entry_subset_page a hi)).mono_right (entry_subset_page b hj)

theorem Headers.frame (hh : Headers m blocks)
    (hmem : ∀ p s, blocks p = some s → Mem.AgreeOn (blockBytes blocks p) m.mem m'.mem) :
    Headers m' blocks := by
  intro p s hp
  obtain ⟨h1, h2, h3, h4, h5⟩ := hh p s hp
  have hag := hmem p s hp
  rw [blockBytes, hp] at hag
  unfold headerSize at *
  refine ⟨h1, h2, h3, ?_, ?_⟩
  · rw [word_congr (hag.mono ?_), h4]
    rintro b ⟨hb1, hb2⟩
    exact ⟨hb1, by omega⟩
  · rw [word_congr (hag.mono ?_), h5]
    rintro b ⟨hb1, hb2⟩
    exact ⟨by omega, by omega⟩

theorem Owned.headers_setWord (ho : Owned m blocks runs N own) {v : Nat} (ha : N l q = some a)
    (hi : i < 512) (hh : Headers m' blocks) : Headers (m'.setWord (entryAddr a i) v) blocks := by
  refine hh.frame fun p s hp => setWord_agree ?_
  rw [← ho.blocks]
  refine (disjoint_held own (show Owner.block p ≠ .node l q by simp)).mono_right ?_
  rw [ho.node_held ha]
  exact entry_subset_page a hi

end

end Unisym.Mempool
