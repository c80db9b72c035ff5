/-
# `HeapBlocks` — blocks with headers

A block is the 16 bytes of its header and its data behind them.  `allocate`
takes both out of the pool before it writes the header, so that the header
lies in memory the block owns; `deallocate` reads it back.  A partial
deallocation moves the header in front of what is left: the live block at
`ptr` becomes the shorter one at `ptr + size`.
-/
import Unisym.Mempool.HeapCalls

namespace Unisym.Mempool

open Ownership Function

section
variable {h : Host} {m : Mempool} {blocks runs : Nat → Option Nat}
  {N : Nat → Nat → Option Nat} {leaf : Nat → Nat} {own : Nat → Option Owner}

variable {p s a size : Nat}

theorem blockBytes_some (hp : blocks p = some s) :
    blockBytes blocks p = Set.Ico (p - headerSize) (p + s) := by
  unfold blockBytes
  rw [hp]

theorem blockBytes_none (hp : blocks p = none) : blockBytes blocks p = ∅ := by
  unfold blockBytes
  rw [hp]

theorem blockBytes_update_ne {p' : Nat} {v : Option Nat} (hne : p' ≠ p) :
    blockBytes (update blocks p v) p' = blockBytes blocks p' := by
  unfold blockBytes
  rw [update_of_ne hne]

theorem Owned.block_none (ho : Owned m blocks runs N own) (hh : Headers m blocks)
    {k : Owner} (hk : k ≠ .block p) (ha : a ∈ held own k) (h1 : p - headerSize ≤ a) (h2 : a < p) :
    blocks p = none := by
  cases hp : blocks p with
  | none => rfl
  | some s =>
    obtain ⟨-, hs, -⟩ := hh p s hp
    have hin : a ∈ held own (.block p) := by
      rw [ho.blocks, blockBytes_some hp]
      exact ⟨h1, by omega⟩
    exact absurd hin (Set.disjoint_left.mp (disjoint_held own hk) ha)

/-- Writes to memory that belongs to no table node leave the table alone. -/
theorem Core.of_writes {m' : Mempool} {blocks' : Nat → Option Nat} {own' : Nat → Option Owner}
    (hc : Core m blocks runs N leaf own) (ho : Owned m' blocks' runs N own')
    (hroot : m'.pageRoot = m.pageRoot)
    (hmem : ∀ l q, Mem.AgreeOn (held own (.node l q)) m.mem m'.mem)
    (hh : Headers m' blocks') : Core m' blocks' runs N leaf own' :=
  ⟨ho, hc.table.frame hroot (fun hN _ hi => hc.owned.node_word hN hi (hmem _ _)), hh⟩

/-- A header at the front of a block -/
abbrev withHeader (m : Mempool) (a s : Nat) : Mempool := (m.setWord a s).setWord (a + 8) headerProp

theorem withHeader_words (hs : s < wordSize) :
    (withHeader m a s).word a = s ∧ (withHeader m a s).word (a + 8) = headerProp := by
  refine ⟨?_, word_setWord (by decide)⟩
  rw [word_setWord_ne (by omega), word_setWord hs]

theorem withHeader_agree {S : Set Nat} (hd : Disjoint S (Set.Ico a (a + headerSize))) :
    Mem.AgreeOn S m.mem (withHeader m a s).mem := by
  unfold headerSize at hd
  refine (setWord_agree (hd.mono_right ?_)).trans (setWord_agree (hd.mono_right ?_))
  · exact Set.Ico_subset_Ico_right (by omega)
  · exact Set.Ico_subset_Ico (by omega) (by omega)

theorem Headers.kept (hh : Headers m blocks)
    (hd : ∀ p', blocks p' ≠ none → Disjoint (blockBytes blocks p') (Set.Ico a (a + headerSize))) :
    Headers (withHeader m a s) blocks :=
  hh.frame fun p' s' hps => withHeader_agree (hd p' (by rw [hps]; exact Option.some_ne_none _))

theorem Headers.put (hh : Headers (withHeader m a s) blocks) (hs : 0 < s) (hfit : a + headerSize + s < wordSize) :
    Headers (withHeader m a s) (update blocks (a + headerSize) (some s)) := by
  intro p' s' hps
  by_cases hpp : p' = a + headerSize
  · subst hpp
    rw [update_self] at hps
    cases hps
    have hwords := withHeader_words (m := m) (a := a) (show s < wordSize by omega)
    rw [Nat.add_sub_cancel]
    exact ⟨Nat.le_add_left _ _, hs, hfit, hwords⟩
  · rw [update_of_ne hpp] at hps
    exact hh p' s' hps

/-! ## Allocation -/

/-- The header that `allocate` picks and the block behind it lie in a free
slice. -/
def BlockFits (c : Chain) (align bound size : Nat) : Prop :=
  ∀ header, (usedSlices c).findSome? (fitBlock align bound size) = some header →
    ∃ s ∈ Chain.flat c, s.address ≤ header ∧ header + (headerSize + size) ≤ s.fin

theorem usedSlices_subset (c : Chain) {s : Slice} (hs : s ∈ usedSlices c) : s ∈ Chain.flat c := by
  unfold usedSlices at hs
  obtain ⟨p, hp, hsp⟩ := List.mem_flatMap.mp hs
  exact List.mem_flatMap.mpr ⟨p, List.takeWhile_subset _ hp, hsp⟩

/-- The bytes of a block of `size` bytes at `a`; none for the null pointer. -/
def lentBlock (a size : Nat) : Set Nat :=
  if a = 0 then ∅ else Set.Ico (a - headerSize) (a + size)

theorem lentBlock_zero (size : Nat) : lentBlock 0 size = ∅ := if_pos rfl

theorem lentBlock_pos (ha : 0 < a) (size : Nat) :
    lentBlock a size = Set.Ico (a - headerSize) (a + size) := if_neg (Nat.ne_of_gt ha)

theorem Heap.allocOnce (hh : Heap m blocks runs) {align bound : Nat} (hsize : 0 < size)
    (hfit : BlockFits m.available align bound size) :
    allocOnce h align bound size m = none ∨
      ∃ a m', allocOnce h align bound size m = some (a, m') ∧ Same m m' ∧
        Books m.available m'.available m.nodeAt m'.nodeAt ∅ (lentBlock a size) ∧
        ((a = 0 ∧ Heap m' blocks runs) ∨
          (0 < a ∧ blocks a = none ∧ Heap m' (update blocks a (some size)) runs)) := by
  unfold Mempool.allocOnce
  cases hsc : (usedSlices m.available).findSome? (fitBlock align bound size) with
  | none => exact Or.inl rfl
  | some header =>
  right
  obtain ⟨N, leaf, own, hc, hl, hr⟩ := hh
  obtain ⟨s, hs, -, hfin⟩ := hfit header hsc
  have hsw := hc.owned.inv.noWrap s hs
  have hlt : header + (headerSize + size) < wordSize := lt_of_le_of_lt hfin hsw
  have htot : wadd headerSize size = headerSize + size := wadd_eq (by omega)
  have hptr : wadd header headerSize = header + headerSize := wadd_eq (by omega)
  have hh16 : headerSize = 16 := rfl
  dsimp only
  rw [htot, hptr]
  rcases hc.owned.toPools.take (h := h) (s := ⟨header, headerSize + size⟩)
    (k := some (.block (header + headerSize))) hlt (by simp only; omega)
    (fun _ hk => by cases hk; rfl) with ht | ⟨c', own', ht, hpools, hfree, hheld⟩
  · rw [ht]
    have hc' : Core { m with tick := m.tick + 1 } blocks runs N leaf own :=
      hc.of_owned (hc.owned.congr rfl rfl rfl) rfl rfl
    refine ⟨0, _, rfl, ⟨rfl, rfl, rfl, rfl, rfl, Nat.le_succ _⟩, ?_,
      Or.inl ⟨rfl, N, leaf, own, hc', hl, hr⟩⟩
    rw [lentBlock_zero, (hc.sameTable hc').nodes]
    exact Books.refl _ _
  obtain ⟨-, -, hbooks⟩ := takeAvail_books (s := ⟨header, headerSize + size⟩) hc.owned.inv hlt
    (show 0 < headerSize + size by omega) ht
  rw [ht]
  have hbytes : (⟨header, headerSize + size⟩ : Slice).bytes =
      Set.Ico header (header + (headerSize + size)) := rfl
  have hnone : blocks (header + headerSize) = none := by
    refine hc.owned.block_none hc.headers (k := .free) (a := header) (by simp) ?_ (by omega)
      (by omega)
    exact hfree ⟨le_refl _, by simp only [Slice.fin_mk]; omega⟩
  -- the header lies in the bytes just taken
  have hhead : ∀ {k : Owner}, k.client = true → Disjoint (held own k)
      (Set.Ico header (header + headerSize)) := by
    intro k hk
    refine ((disjoint_held own ?_).mono_right hfree).mono_right ?_
    · rintro rfl; simp [Owner.client] at hk
    · rw [hbytes]; exact Set.Ico_subset_Ico_right (by omega)
  have hc' : Core (withHeader { m with available := c', tick := m.tick + 1 } header size)
      (update blocks (header + headerSize) (some size)) runs N leaf own' := by
    refine hc.of_writes ⟨⟨hpools.inv, hpools.free, hpools.stores, hpools.inside, hpools.low,
      hpools.self⟩, fun p => ?_, fun a => ?_, fun l q => ?_⟩ rfl
      (fun l q => withHeader_agree (hhead rfl)) ?_
    · rw [hheld _ rfl, hc.owned.blocks]
      by_cases hpp : p = header + headerSize
      · rw [if_pos (by rw [hpp]), hpp, blockBytes_none hnone, blockBytes_some (update_self ..),
          Set.empty_union, hbytes]
        congr 1
        omega
      · rw [if_neg (by simpa using Ne.symm hpp), blockBytes_update_ne hpp]
    · rw [hheld _ rfl, if_neg (by simp), hc.owned.runs]
    · rw [hheld _ rfl, if_neg (by simp), hc.owned.nodes]
    refine Headers.put (Headers.kept hc.headers fun p' _ => ?_) hsize (by omega)
    rw [← hc.owned.blocks]
    exact hhead rfl
  refine ⟨header + headerSize, _, rfl, ⟨rfl, rfl, rfl, rfl, rfl, Nat.le_succ _⟩, ?_,
    Or.inr ⟨by omega, hnone, N, leaf, own', hc', hl, hr⟩⟩
  rw [lentBlock_pos (by omega), Nat.add_sub_cancel, Nat.add_assoc, (hc.sameTable hc').nodes]
  exact hbooks _

/-- Every attempt of `allocate` to cut a block picks one that fits. -/
def BlocksFit (h : Host) (m : Mempool) (size alignment boundary : Nat) : Prop :=
  let align := shiftOne alignment
  let bound := boundOf alignment boundary
  BlockFits m.available align bound (blockSize size) ∧
    let again := expand h m (wadd (wadd headerSize (blockSize size)) (max bound align))
    again.1 = true → BlockFits again.2.available align bound (blockSize size)

theorem blockSize_pos (size : Nat) : 0 < blockSize size := by
  unfold blockSize
  split <;> omega

theorem Heap.allocate_block (hh : Heap m blocks runs) (hf : HostFresh h m)
    {alignment boundary : Nat} (hpage : isPageRequest size alignment boundary = false)
    (hfit : BlocksFit h m size alignment boundary) :
    ∃ a m', allocate h m size alignment boundary = (a, m') ∧ Evolves h m m' ∧
      Lends h m m' (lentBlock a (blockSize size)) ∧
      ((a = 0 ∧ Heap m' blocks runs) ∨
        (0 < a ∧ blocks a = none ∧ Heap m' (update blocks a (some (blockSize size))) runs)) := by
  obtain ⟨hfit1, hfit2⟩ := hfit
  have hnone : Lends h m m (lentBlock 0 (blockSize size)) := by
    rw [lentBlock_zero]
    exact Lends.refl h m
  unfold Mempool.allocate
  dsimp only at *
  rw [hpage]
  simp only [Bool.false_eq_true, if_false]
  split
  · exact ⟨0, m, rfl, (Same.refl m).evolves, hnone, Or.inl ⟨rfl, hh⟩⟩
  rcases hh.allocOnce (h := h) (blockSize_pos size) hfit1 with h1 | ⟨a, m', h1, hs, hb, hcase⟩
  · rw [h1]
    dsimp only
    split
    · rename_i hexp
      obtain ⟨ok, m₂, h2, hh₂, he₂, -⟩ := hh.expand hf
        (wadd (wadd headerSize (blockSize size)) (max (boundOf alignment boundary)
          (shiftOne alignment)))
      obtain ⟨-, hnodes, hman, added, hadd, hb₂⟩ := expand_books (h := h) hh.inv hf.valid hexp
        (wadd (wadd headerSize (blockSize size)) (max (boundOf alignment boundary)
          (shiftOne alignment)))
      rw [h2] at hfit2 hnodes hman hb₂ ⊢
      have hempty : Lends h m m₂ (lentBlock 0 (blockSize size)) := by
        refine ⟨hman, added, hadd, ?_⟩
        rw [lentBlock_zero, hnodes]
        exact hb₂ _
      cases ok with
      | false => exact ⟨0, m₂, rfl, he₂, hempty, Or.inl ⟨rfl, hh₂⟩⟩
      | true =>
        rcases hh₂.allocOnce (h := h) (blockSize_pos size) (hfit2 rfl) with
          h3 | ⟨a, m₃, h3, hs₃, hb₃, hcase⟩
        · dsimp only; rw [h3]
          exact ⟨0, m₂, rfl, he₂, hempty, Or.inl ⟨rfl, hh₂⟩⟩
        · dsimp only; rw [h3]
          rw [hnodes] at hb₃
          exact ⟨a, m₃, rfl, he₂.trans hs₃.evolves,
            ⟨hs₃.managed ▸ hman, added, hadd, (hb₂ _).pass hb₃⟩, hcase⟩
    · exact ⟨0, m, rfl, (Same.refl m).evolves, hnone, Or.inl ⟨rfl, hh⟩⟩
  · rw [h1]
    exact ⟨a, m', rfl, hs.evolves, ⟨hs.managed ▸ List.Subset.refl _, ∅, Or.inl rfl, hb⟩, hcase⟩

/-! ## Deallocation -/

/-- The live blocks after a deallocation of `size` bytes at the block `p` of `s`
bytes that the pool took back. -/
def cutBlock (blocks : Nat → Option Nat) (p s size : Nat) : Nat → Option Nat :=
  if size = 0 ∨ size = s then update blocks p none
  else if size < s then update (update blocks p none) (p + size) (some (s - size))
  else update blocks p none

theorem Heap.deallocateBlock_whole (hh : Heap m blocks runs)
    (hp : blocks p = some s) (hsize : size = 0 ∨ size = s) :
    ∃ ok m', deallocateBlock h m p size = (ok, m') ∧ Same m m' ∧
      (¬Chain.Starved (h.pool m.tick) m.available ⟨p - headerSize, headerSize + s⟩ → ok = true) ∧
      Books m.available m'.available m.nodeAt m'.nodeAt (if ok then blockBytes blocks p else ∅) ∅ ∧
      ((ok = false ∧ Heap m' blocks runs) ∨ (ok = true ∧ Heap m' (update blocks p none) runs)) := by
  obtain ⟨N, leaf, own, hc, hl, hr⟩ := hh
  obtain ⟨h16, hs, hfin, hw1, hw2⟩ := hc.headers p s hp
  have heq : (if size = 0 then s else size) = s := by
    rcases hsize with rfl | rfl
    · rfl
    · rw [if_neg (by omega)]
  have htot : wadd headerSize s = headerSize + s := wadd_eq (by unfold headerSize at *; omega)
  unfold Mempool.deallocateBlock
  rw [if_neg (by omega)]
  dsimp only
  rw [hw1, hw2, if_neg (by simp; omega), heq, if_pos rfl, htot]
  have hbytes : (⟨p - headerSize, headerSize + s⟩ : Slice).bytes = held own (.block p) := by
    rw [hc.owned.blocks, blockBytes_some hp, Slice.bytes, Slice.fin_mk]
    congr 1
    omega
  have hnw : (⟨p - headerSize, headerSize + s⟩ : Slice).NoWrap := by
    unfold Slice.NoWrap
    simp only
    omega
  have hpos : 0 < (⟨p - headerSize, headerSize + s⟩ : Slice).length := by simp only; omega
  have hok := giveAvail_ok (h := h) hc.owned.inv hnw hpos (by
    rw [hbytes, ← hc.owned.free]
    exact disjoint_held own (by simp))
  rcases hc.owned.toPools.give (h := h) hnw hpos
    (by rw [hbytes]; exact hc.owned.inside_held _)
    (fun i => by rw [hbytes]; exact disjoint_held own (by simp)) with
    hg | ⟨c', own', taken, hg, hpools, -, -, -, hheld⟩
  · rw [hg] at hok ⊢
    have hc' : Core { m with tick := m.tick + 1 } blocks runs N leaf own :=
      hc.of_owned (hc.owned.congr rfl rfl rfl) rfl rfl
    refine ⟨false, _, rfl, ⟨rfl, rfl, rfl, rfl, rfl, Nat.le_succ _⟩, hok, ?_,
      Or.inl ⟨rfl, N, leaf, own, hc', hl, hr⟩⟩
    rw [(hc.sameTable hc').nodes]
    exact Books.refl _ _
  obtain ⟨-, hbooks⟩ := giveAvail_books hc.owned.inv hnw hpos hg
  rw [hg]
  have hne : ∀ {k : Owner}, k.client = true → k ≠ .block p → held own' k = held own k := by
    intro k hk hkp
    rw [hheld k hk, hbytes]
    exact sdiff_eq_left.mpr (disjoint_held own hkp)
  have hc' : Core { m with available := c', tick := m.tick + 1 } (update blocks p none) runs N leaf
      own' := by
    refine hc.of_writes ⟨hpools, fun p' => ?_, fun a => ?_, fun l q => ?_⟩ rfl
      (fun _ _ => Mem.AgreeOn.refl _ _) fun p' s' hps => ?_
    · by_cases hpp : p' = p
      · rw [hpp, hheld _ rfl, hbytes, Set.sdiff_self, blockBytes_none (update_self ..)]
      · rw [hne rfl (by simpa using hpp), hc.owned.blocks, blockBytes_update_ne hpp]
    · rw [hne rfl (by simp), hc.owned.runs]
    · rw [hne rfl (by simp), hc.owned.nodes]
    by_cases hpp : p' = p
    · rw [hpp, update_self] at hps; simp at hps
    · rw [update_of_ne hpp] at hps
      exact hc.headers p' s' hps
  refine ⟨true, _, rfl, ⟨rfl, rfl, rfl, rfl, rfl, Nat.le_succ _⟩, fun _ => rfl, ?_,
    Or.inr ⟨rfl, N, leaf, own', hc', hl, hr⟩⟩
  rw [if_pos rfl, ← hc.owned.blocks, ← hbytes, (hc.sameTable hc').nodes]
  exact hbooks _

theorem Heap.deallocateBlock_part (hh : Heap m blocks runs)
    (hp : blocks p = some s) (h0 : size ≠ 0) (hne : size ≠ s) :
    ∃ ok m', deallocateBlock h m p size = (ok, m') ∧ Same m m' ∧ SameTable m m' ∧
      (¬Chain.Starved (h.pool m.tick) m.available ⟨p - headerSize, min s size⟩ → ok = true) ∧
      (ok = true → Set.Ico (p - headerSize) (p - headerSize + min s size) ⊆ m'.available.bytes ∧
        Books m.available m'.available m.nodeAt m'.nodeAt
          (Set.Ico (p - headerSize) (p - headerSize + min s size)) ∅) ∧
      Heap m' (cutBlock blocks p s size) runs := by
  obtain ⟨N, leaf, own, hc, hl, hr⟩ := hh
  obtain ⟨h16, hs, hfin, hw1, hw2⟩ := hc.headers p s hp
  unfold Mempool.deallocateBlock
  rw [if_neg (by omega)]
  dsimp only
  rw [hw1, hw2, if_neg (by simp; omega), if_neg h0, if_neg hne]
  generalize hd : min s size = d
  have hd0 : 0 < d := by omega
  have hds : d ≤ s := by omega
  have hh16 : headerSize = 16 := rfl
  have hnew : p + d - headerSize = p - headerSize + d := by omega
  rw [hnew]
  have hblk : held own (.block p) = Set.Ico (p - headerSize) (p + s) := by
    rw [hc.owned.blocks, blockBytes_some hp]
  -- the rest goes to the shorter block, or to nobody
  have hnone : blocks (p + d) = none := by
    refine hc.owned.block_none hc.headers (k := .block p) (a := p + d - 1) (by simp; omega) ?_
      (by omega) (by omega)
    rw [hblk]
    exact ⟨by omega, by omega⟩
  let m₁ := withHeader m (p - headerSize + d) (s - d)
  have hmoved : Set.Ico (p - headerSize + d) (p - headerSize + d + headerSize) ⊆ held own (.block p) := by
    rw [hblk]
    exact Set.Ico_subset_Ico (by omega) (by omega)
  let rest : Set Nat := Set.Ico (p - headerSize + d) (p + s)
  let k : Option Owner := if d < s then some (.block (p + d)) else none
  have hk : ∀ k', k = some k' ↔ d < s ∧ k' = .block (p + d) := by
    intro k'
    by_cases hlt : d < s <;> simp [k, hlt, eq_comm]
  have hrest : rest ⊆ held own (.block p) := by
    rw [hblk]
    exact Set.Ico_subset_Ico_left (by omega)
  have hfar : ∀ {k' : Owner}, k ≠ some k' → .block p ≠ k' →
      held (assign own rest k) k' = held own k' := fun h1 h2 => held_assign_other h1 h2 hrest
  have hfront : held (assign own rest k) (.block p) = Set.Ico (p - headerSize) (p - headerSize + d) := by
    have hkp : k ≠ some (.block p) := by
      rw [Ne, hk, Owner.block.injEq]
      omega
    rw [held_assign_ne hkp, hblk]
    ext a
    simp only [rest, Set.mem_sdiff, Set.mem_Ico]
    omega
  have hp₁ : Pools m₁ (assign own rest k) := by
    refine ⟨hc.owned.inv, ?_, fun i => ?_, ?_, hc.owned.low, hc.owned.self⟩
    · rw [hfar (by simp [hk]) (by simp)]; exact hc.owned.free
    · rw [hfar (by simp [hk]) (by simp)]; exact hc.owned.stores i
    · intro b hb
      by_cases hbr : b ∈ rest
      · exact hc.owned.inside b (by rw [hrest hbr]; simp)
      · rw [assign_of_not_mem hbr] at hb; exact hc.owned.inside b hb
  have hnw : (⟨p - headerSize, d⟩ : Slice).NoWrap := by unfold Slice.NoWrap; simp only; omega
  have hapart : Disjoint (⟨p - headerSize, d⟩ : Slice).bytes m.available.bytes := by
    rw [← hc.owned.free]
    refine (disjoint_held own (show Owner.block p ≠ .free by simp)).mono_left ?_
    rw [hblk]
    exact Set.Ico_subset_Ico_right (by simp only [Slice.fin_mk]; omega)
  have hgive := giveAvail_ok (h := h) (m := m₁) hc.owned.inv hnw hd0 hapart
  obtain ⟨ok, c', own', hg, hpools, hempty, hkeep⟩ := hp₁.discard (h := h)
    (s := ⟨p - headerSize, d⟩) hnw hd0
    (k := .block p) rfl hfront.symm
  have hbooks : ok = true → Set.Ico (p - headerSize) (p - headerSize + d) ⊆ c'.bytes ∧
      ∀ N, Books m.available c' N N (Set.Ico (p - headerSize) (p - headerSize + d)) ∅ := by
    rintro rfl
    exact giveAvail_books (m := m₁) (s := ⟨p - headerSize, d⟩) hc.owned.inv hnw hd0 hg
  rw [hg] at hgive ⊢
  have hcut : cutBlock blocks p s size =
      if d < s then update (update blocks p none) (p + d) (some (s - d))
      else update blocks p none := by
    unfold cutBlock
    rw [if_neg (by omega)]
    by_cases hlt : size < s
    · have : d = size := by omega
      rw [if_pos hlt, this, if_pos hlt]
    · rw [if_neg hlt, if_neg (by omega)]
  suffices hc' : Core { m₁ with available := c', tick := m.tick + 1 } (cutBlock blocks p s size) runs N
      leaf own' by
    refine ⟨ok, { m₁ with available := c', tick := m.tick + 1 }, rfl,
      ⟨rfl, rfl, rfl, rfl, rfl, Nat.le_succ _⟩, hc.sameTable hc', hgive,
      fun hok => ⟨(hbooks hok).1, ?_⟩, N, leaf, own', hc', hl, hr⟩
    rw [(hc.sameTable hc').nodes]
    exact (hbooks hok).2 _
  refine hc.of_writes ⟨⟨hpools.inv, hpools.free, hpools.stores, hpools.inside, hpools.low,
    hpools.self⟩, fun p' => ?_, fun a => ?_, fun l q => ?_⟩ rfl ?_ ?_
  · rw [hcut]
    by_cases hpp : p' = p
    · subst hpp
      rw [hempty, blockBytes_none]
      split
      · rw [update_of_ne (by omega), update_self]
      · rw [update_self]
    · rw [hkeep _ rfl (by simpa using hpp)]
      by_cases hlt : d < s
      · rw [if_pos hlt]
        by_cases hpd : p' = p + d
        · subst hpd
          rw [(hk _).mpr ⟨hlt, rfl⟩, held_assign_self, hc.owned.blocks, blockBytes_none hnone, Set.empty_union,
            blockBytes_some (update_self ..)]
          simp only [rest]
          congr 1 <;> omega
        · rw [hfar (by simp [hk, hpd]) (by simpa using Ne.symm hpp), hc.owned.blocks, blockBytes_update_ne hpd,
            blockBytes_update_ne hpp]
      · rw [if_neg hlt, blockBytes_update_ne hpp]
        rw [hfar (by simp [hk, hlt]) (by simpa using Ne.symm hpp), hc.owned.blocks]
  · rw [hkeep _ rfl (by simp), hfar (by simp [hk]) (by simp), hc.owned.runs]
  · rw [hkeep _ rfl (by simp), hfar (by simp [hk]) (by simp), hc.owned.nodes]
  · exact fun l q => withHeader_agree ((disjoint_held own (by simp)).mono_right hmoved)
  · -- the headers: the moved one and the old ones
    have hpt : Headers m (update blocks p none) := by
      intro p' s' hps
      by_cases hpp : p' = p
      · rw [hpp, update_self] at hps; simp at hps
      · rw [update_of_ne hpp] at hps; exact hc.headers p' s' hps
    have hold : Headers m₁ (update blocks p none) := hpt.kept fun p' hps => by
      have hpp : p' ≠ p := fun heq => hps (by rw [heq, update_self])
      rw [blockBytes_update_ne hpp, ← hc.owned.blocks]
      exact (disjoint_held own (by simpa using hpp)).mono_right hmoved
    rw [hcut]
    split
    · rename_i hlt
      rw [show p + d = p - headerSize + d + headerSize by omega]
      exact hold.put (by omega) (by omega)
    · exact hold

end

end Unisym.Mempool
