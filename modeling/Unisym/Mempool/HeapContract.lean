/-
# `HeapContract` — what `allocate` promises

`Contract` is what a caller of `allocate` may count on: an address that is a
multiple of the alignment, a block that does not wrap and was free, data that
crosses no line of the boundary, and a free set that lost the block, storage
pages and nothing else.

The code adds the caller's numbers to addresses and compares the sums with the
ends of slices; a sum that passes 2^64 compares as a small one.  `BlockSums` and
`PageSums` say that no sum does, for the slices that are long enough to be looked
at.  Under them the two searches find what exact arithmetic finds (`exactNext`),
and the contract holds (`allocate_contract`).
-/
import Unisym.Mempool.HeapSafety

namespace Unisym.Mempool

open Ownership Function

/-! ## The place of a block, exactly -/

/-- The first address for the data of a block behind a header at `start` or later,
without overflow. -/
def exactNext (align bound size start : Nat) : Nat :=
  let next := (start + headerSize + (align - 1)) / align * align
  if 1 < bound ∧ next / bound ≠ (next + size - 1) / bound then (next / bound + 1) * bound else next

section
variable {align bound size start : Nat}

theorem shiftOne_eq {k : Nat} (hk : k < 64) : shiftOne k = 2 ^ k :=
  Nat.mod_eq_of_lt (Nat.pow_lt_pow_right (by omega) hk)

theorem pow_dvd_wordSize {k : Nat} (hk : k < 64) : 2 ^ k ∣ wordSize :=
  Nat.pow_dvd_pow 2 (Nat.le_of_lt hk)

/-- Rounding up, and then to the next line, only goes up. -/
theorem le_exactNext (align bound size start : Nat) :
    (start + headerSize + (align - 1)) / align * align ≤ exactNext align bound size start := by
  unfold exactNext
  dsimp only
  split
  · rename_i hb
    have := Nat.lt_div_mul_add (b := bound)
      (a := (start + headerSize + (align - 1)) / align * align) (by omega)
    rw [Nat.add_mul, Nat.one_mul]
    omega
  · exact le_refl _

theorem start_lt_exactNext (start : Nat) (hal : 0 < align) :
    start + headerSize ≤ (start + headerSize + (align - 1)) / align * align := by
  have := Nat.lt_div_mul_add hal (a := start + headerSize + (align - 1))
  omega

theorem dvd_exactNext (hdvd : bound ≠ 0 → align ∣ bound) :
    align ∣ exactNext align bound size start := by
  unfold exactNext
  dsimp only
  split
  · rename_i hb
    exact (hdvd (by omega)).trans (Nat.dvd_mul_left ..)
  · exact Nat.dvd_mul_left ..

theorem exactNext_inside (hb : 1 < bound) (hpos : 0 < size) (hle : size ≤ bound) :
    exactNext align bound size start / bound =
      (exactNext align bound size start + size - 1) / bound := by
  unfold exactNext
  dsimp only
  generalize (start + headerSize + (align - 1)) / align * align = next
  split
  · rw [Nat.mul_div_cancel _ (by omega), Nat.add_sub_assoc hpos, Nat.mul_comm _ bound,
      Nat.mul_add_div (by omega), Nat.div_eq_of_lt (a := size - 1) (by omega), Nat.add_zero]
  · rename_i hno
    by_contra hne
    exact hno ⟨hb, hne⟩

/-- Where no sum passes the word, the code finds the exact place. -/
theorem nextAlign_eq {p : Slice} (hal : 0 < align) (hword : align < wordSize)
    (hdvd : align ∣ wordSize) (hpos : 0 < size)
    (hsum : exactNext align bound size p.address + size < wordSize) :
    nextAlign align bound size p = exactNext align bound size p.address := by
  have hge := le_exactNext align bound size p.address
  have hstart := start_lt_exactNext p.address hal
  have hx : wadd p.address headerSize = p.address + headerSize := wadd_eq (by omega)
  -- a sum that passed the word would be rounded to the word or more
  have hy : p.address + headerSize + (align - 1) < wordSize := by
    by_contra hbig
    obtain ⟨k, hk⟩ := hdvd
    have hle : k ≤ (p.address + headerSize + (align - 1)) / align := by
      rw [Nat.le_div_iff_mul_le hal, Nat.mul_comm, ← hk]
      omega
    have := Nat.mul_le_mul_right align hle
    rw [Nat.mul_comm, ← hk] at this
    omega
  have hceil : ceilAlign align (p.address + headerSize) =
      (p.address + headerSize + (align - 1)) / align * align := by
    unfold ceilAlign floorAlign
    rw [wsub_eq hal hword, wadd_eq hy]
  unfold nextAlign
  unfold exactNext at *
  dsimp only at *
  rw [hx, hceil]
  generalize (p.address + headerSize + (align - 1)) / align * align = next at *
  have hend : wsub (wadd next size) 1 = next + size - 1 := by
    rw [wadd_eq (by omega), wsub_eq (by omega) (by omega)]
  have hiff : (bound > 1 ∧ floorAlign bound next ≠ floorAlign bound (next + size - 1)) ↔
      1 < bound ∧ next / bound ≠ (next + size - 1) / bound := by
    refine and_congr_right fun hb => not_congr ?_
    unfold floorAlign
    exact Nat.mul_left_inj (by omega)
  rw [hend]
  by_cases hcross : 1 < bound ∧ next / bound ≠ (next + size - 1) / bound
  · rw [if_pos hcross] at hsum
    rw [if_pos hcross, if_pos (hiff.mpr hcross)]
    unfold floorAlign
    rw [Nat.add_mul, Nat.one_mul] at *
    exact wadd_eq (by omega)
  · rw [if_neg hcross, if_neg fun h => hcross (hiff.mp h)]

/-- A slice that fits holds the block at its exact place. -/
theorem fitBlock_exact {p : Slice} {header : Nat} (hp : p.NoWrap) (hal : 0 < align)
    (hword : align < wordSize) (hdvd : align ∣ wordSize) (hpos : 0 < size)
    (htot : headerSize + size < wordSize)
    (hsum : headerSize + size ≤ p.length → exactNext align bound size p.address + size < wordSize)
    (hfit : fitBlock align bound size p = some header) :
    header + headerSize = exactNext align bound size p.address ∧ p.address ≤ header ∧
      header + (headerSize + size) ≤ p.fin ∧ header + headerSize + size < wordSize := by
  have hf : p.fin = p.address + p.length := rfl
  unfold fitBlock at hfit
  rw [wadd_eq htot] at hfit
  split at hfit
  · simp at hfit
  rename_i hlen
  have hsum' := hsum (Nat.le_of_not_lt hlen)
  have hge := le_exactNext align bound size p.address
  have hstart := start_lt_exactNext p.address hal
  dsimp only at hfit
  rw [nextAlign_eq hal hword hdvd hpos hsum', wadd_eq hsum', hp.endo] at hfit
  split at hfit
  · rename_i hfront
    rw [wadd_eq (by omega)] at hfront
    cases hfit
    exact ⟨hfront.2.symm, le_refl _, by omega, by omega⟩
  split at hfit
  · rename_i hend
    rw [wsub_eq (by omega) (by omega), Option.some.injEq] at hfit
    omega
  · simp at hfit

end

/-! ## The contract -/

/-- The bytes that a request answered with `ret` takes. -/
def lentTo (size alignment boundary ret : Nat) : Set Nat :=
  if ret = 0 then ∅
  else Set.Ico (ret - if isPageRequest size alignment boundary then 0 else headerSize)
    (ret + blockSize size)

/-- What `allocate` promises of its answer `r.1` and the state `r.2` after it. -/
structure Contract (h : Host) (m : Mempool) (size alignment boundary : Nat) (r : Nat × Mempool) :
    Prop where
  aligned : 2 ^ alignment ∣ r.1
  noWrap : r.1 ≠ 0 → (isPageRequest size alignment boundary = false → headerSize ≤ r.1) ∧
    r.1 + blockSize size < wordSize
  inside : r.1 ≠ 0 → alignment < boundary →
    r.1 / 2 ^ boundary = (r.1 + blockSize size - 1) / 2 ^ boundary
  free : ∃ added, Added h m added ∧
    lentTo size alignment boundary r.1 ⊆ m.available.bytes ∪ added ∧
    ∃ pages ⊆ storage r.2, r.2.available.bytes =
      ((m.available.bytes ∪ added) \ lentTo size alignment boundary r.1) \ pages

/-- No sum that `allocate` forms for a block and a slice of `c` that is long enough
passes the word. -/
def BlockSums (c : Chain) (align bound size : Nat) : Prop :=
  headerSize + size < wordSize ∧ ∀ p ∈ Chain.flat c, headerSize + size ≤ p.length →
    exactNext align bound size p.address + size < wordSize

section
variable {h : Host} {m : Mempool} {align bound size : Nat}

theorem allocOnce_books (hc : m.available.Inv) (hal : 0 < align) (hword : align < wordSize)
    (hdvd : align ∣ wordSize) (hpos : 0 < size)
    (hsums : BlockSums m.available align bound size) :
    allocOnce h align bound size m = none ∨
      ∃ a m', allocOnce h align bound size m = some (a, m') ∧
        (a ≠ 0 → headerSize ≤ a ∧ a + size < wordSize ∧
          ∃ start, a = exactNext align bound size start) ∧
        ∀ N, Books m.available m'.available N N ∅
          (if a = 0 then ∅ else Set.Ico (a - headerSize) (a + size)) := by
  unfold allocOnce
  cases hsc : (usedSlices m.available).findSome? (fitBlock align bound size) with
  | none => exact Or.inl rfl
  | some header =>
    right
    obtain ⟨p, hp, hfit⟩ := List.exists_of_findSome?_eq_some hsc
    have hpf := usedSlices_subset _ hp
    obtain ⟨hat, -, -, hlt⟩ := fitBlock_exact (hc.noWrap p hpf) hal hword hdvd hpos
      hsums.1 (hsums.2 p hpf) hfit
    dsimp only
    rw [wadd_eq hsums.1, wadd_eq (by omega)]
    rcases takeAvail_spec (h := h) (s := ⟨header, headerSize + size⟩) hc
      (show header + (headerSize + size) < wordSize by omega)
      (show 0 < headerSize + size by omega) with ht | ⟨c', ht, -, -, -, hbooks⟩
    · rw [ht]
      exact ⟨0, _, rfl, fun h0 => absurd rfl h0, fun N => Books.refl _ N⟩
    · rw [ht]
      refine ⟨header + headerSize, _, rfl, fun _ => ⟨by omega, hlt, p.address, hat⟩, fun N => ?_⟩
      have h16 : headerSize = 16 := rfl
      rw [if_neg (by omega), Nat.add_sub_cancel, Nat.add_assoc]
      exact hbooks N

/-! ### Requests for a block -/

/-- The sums of a request for a block, before and after an `Expand`. -/
def BlockRequestOk (h : Host) (m : Mempool) (size alignment boundary : Nat) : Prop :=
  let align := shiftOne alignment
  let bound := boundOf alignment boundary
  let blk := blockSize size
  bound = 0 ∨ blk ≤ bound → BlockSums m.available align bound blk ∧
    let again := expand h m (wadd (wadd headerSize blk) (max bound align))
    again.1 = true → BlockSums again.2.available align bound blk

/-- `bound` is nothing, or the power the caller asked for. -/
theorem boundOf_cases (alignment boundary : Nat) :
    (boundOf alignment boundary = 0 ∧ (alignment < boundary → 64 ≤ boundary)) ∨
      (boundOf alignment boundary = 2 ^ boundary ∧ alignment < boundary ∧ boundary < 64) := by
  unfold boundOf
  rcases Nat.lt_or_ge alignment boundary with hlt | hge
  · rw [if_neg (by omega), if_neg (by omega)]
    rcases Nat.lt_or_ge boundary 64 with h64 | h64
    · exact Or.inr ⟨shiftOne_eq h64, hlt, h64⟩
    · exact Or.inl ⟨Nat.mod_eq_zero_of_dvd (Nat.pow_dvd_pow 2 h64), fun _ => h64⟩
  · rw [if_pos hge]
    exact Or.inl ⟨rfl, fun hlt => absurd hlt (Nat.not_lt.mpr hge)⟩

/-- Data that ends below 2^64 crosses no line of 2^64 or more. -/
theorem div_pow_eq {a n k : Nat} (hlt : a + n < wordSize) (hk : 64 ≤ k) :
    a / 2 ^ k = (a + n - 1) / 2 ^ k := by
  have hle : wordSize ≤ 2 ^ k := Nat.pow_le_pow_right (by decide) hk
  rw [Nat.div_eq_of_lt (by omega), Nat.div_eq_of_lt (by omega)]

/-- A state that kept the books over one block, or over none. -/
theorem Contract.of_block {alignment boundary sz a : Nat} {m' : Mempool} {added : Set Nat}
    (halign : alignment < 64) (hpage : isPageRequest sz alignment boundary = false)
    (hbound : blockSize sz ≤ boundOf alignment boundary ∨ boundOf alignment boundary = 0)
    (ha : a ≠ 0 → headerSize ≤ a ∧ a + blockSize sz < wordSize ∧
      ∃ start, a = exactNext (shiftOne alignment) (boundOf alignment boundary) (blockSize sz) start)
    (hadd : Added h m added)
    (hbooks : ∀ N, Books m.available m'.available N N added
      (if a = 0 then ∅ else Set.Ico (a - headerSize) (a + blockSize sz))) :
    Contract h m sz alignment boundary (a, m') where
  aligned := by
    rcases Nat.eq_zero_or_pos a with rfl | hpos
    · exact Nat.dvd_zero _
    obtain ⟨-, -, start, rfl⟩ := ha (Nat.ne_of_gt hpos)
    rw [← shiftOne_eq halign]
    refine dvd_exactNext fun hne => ?_
    rcases boundOf_cases alignment boundary with ⟨h0, -⟩ | ⟨hb, hlt, -⟩
    · exact absurd h0 hne
    · rw [hb, shiftOne_eq halign]
      exact Nat.pow_dvd_pow 2 (Nat.le_of_lt hlt)
  noWrap h0 := ⟨fun _ => (ha h0).1, (ha h0).2.1⟩
  inside h0 hlt := by
    obtain ⟨-, hend, start, rfl⟩ := ha h0
    rcases boundOf_cases alignment boundary with ⟨-, h64⟩ | ⟨hb, -, -⟩
    · exact div_pow_eq hend (h64 hlt)
    · rw [hb] at hbound ⊢
      have h1 : 1 < 2 ^ boundary := Nat.one_lt_two_pow (by omega)
      exact exactNext_inside h1 (blockSize_pos sz) (hbound.resolve_right (by omega))
  free := by
    have hlent : lentTo sz alignment boundary a =
        if a = 0 then ∅ else Set.Ico (a - headerSize) (a + blockSize sz) := by
      unfold lentTo
      rw [hpage]
      rfl
    have hb := hbooks m'.nodeAt
    rw [← hlent] at hb
    exact ⟨added, hadd, hb.covered, hb.free⟩

theorem allocate_block_contract {alignment boundary sz : Nat} (hc : m.available.Inv)
    (hv : HostValid h m) (halign : alignment < 64)
    (hpage : isPageRequest sz alignment boundary = false)
    (hok : BlockRequestOk h m sz alignment boundary) :
    Contract h m sz alignment boundary (allocate h m sz alignment boundary) := by
  unfold BlockRequestOk at hok
  unfold allocate
  dsimp only at *
  rw [hpage]
  simp only [Bool.false_eq_true, if_false]
  by_cases hbig : boundOf alignment boundary > 0 ∧ blockSize sz > boundOf alignment boundary
  · -- the block cannot lie between two lines
    rw [if_pos hbig]
    have hnull : ∀ N, Books m.available m.available N N ∅ ∅ := fun N => Books.refl _ N
    refine ⟨Nat.dvd_zero _, fun h0 => absurd rfl h0, fun h0 => absurd rfl h0, ∅, Or.inl rfl, ?_⟩
    exact ⟨Set.empty_subset _, (hnull m.nodeAt).free⟩
  rw [if_neg hbig]
  have hbound : blockSize sz ≤ boundOf alignment boundary ∨ boundOf alignment boundary = 0 := by omega
  obtain ⟨hsums, hagain⟩ := hok hbound.symm
  have hpow := shiftOne_eq halign
  have hal : 0 < shiftOne alignment := by rw [hpow]; exact Nat.two_pow_pos _
  have hword : shiftOne alignment < wordSize := Nat.mod_lt _ (by decide)
  have hdvd : shiftOne alignment ∣ wordSize := by rw [hpow]; exact pow_dvd_wordSize halign
  have hone := fun {m : Mempool} (hc : m.available.Inv) (hs : BlockSums m.available
      (shiftOne alignment) (boundOf alignment boundary) (blockSize sz)) =>
    allocOnce_books (h := h) hc hal hword hdvd (blockSize_pos sz) hs
  rcases hone hc hsums with h1 | ⟨a, m', h1, ha, hbooks⟩
  · rw [h1]
    dsimp only
    split
    · rename_i hexp
      obtain ⟨hc₂, -, -, added, hadd, hb₂⟩ := expand_books (h := h) hc hv hexp
        (wadd (wadd headerSize (blockSize sz)) (max (boundOf alignment boundary) (shiftOne alignment)))
      rcases hex : expand h m (wadd (wadd headerSize (blockSize sz))
        (max (boundOf alignment boundary) (shiftOne alignment))) with ⟨ok, m₂⟩
      rw [hex] at hagain hc₂ hb₂
      have hempty : Contract h m sz alignment boundary (0, m₂) :=
        .of_block halign hpage hbound (fun h0 => absurd rfl h0) hadd (by simpa using hb₂)
      cases ok with
      | false => exact hempty
      | true =>
        dsimp only
        rcases hone hc₂ (hagain rfl) with h3 | ⟨a, m₃, h3, ha, hb₃⟩
        · rw [h3]
          exact hempty
        · rw [h3]
          exact .of_block halign hpage hbound ha hadd fun N => (hb₂ N).pass (hb₃ N)
    · exact .of_block halign hpage hbound (fun h0 => absurd rfl h0) (Or.inl rfl)
        (by simpa using fun N => Books.refl m.available N)
  · rw [h1]
    exact .of_block halign hpage hbound ha (Or.inl rfl) hbooks

/-! ### Requests for pages -/

/-- No sum that `allocate_pages` forms for a run and a slice of `c` passes the word. -/
def RunSums (c : Chain) (align size : Nat) : Prop :=
  ∀ s ∈ Chain.flat c, ceilAlign align s.address + size < wordSize

theorem ceilAlign_zero_or_le (hal : 0 < align) (hword : align < wordSize) {x : Nat}
    (hx : x < wordSize) : ceilAlign align x = 0 ∨ x ≤ ceilAlign align x := by
  unfold ceilAlign floorAlign
  rw [wsub_eq hal hword]
  rcases Nat.lt_or_ge (x + (align - 1)) wordSize with hlt | hge
  · right
    rw [wadd_eq hlt]
    have := Nat.lt_div_mul_add hal (a := x + (align - 1))
    omega
  · left
    have hw : wadd x (align - 1) < align := by
      unfold wadd
      rw [Nat.mod_eq_sub_mod hge, Nat.mod_eq_of_lt (by omega)]
      omega
    rw [Nat.div_eq_of_lt hw, Nat.zero_mul]

theorem runFits_of_sums (hal : 0 < align) (hword : align < wordSize) : ∀ {c : Chain},
    (∀ s ∈ Chain.flat c, s.NoWrap) → RunSums c align size → RunFits c align size
  | [], _, _ => fun hne => absurd rfl hne
  | p :: rest, hnw, hsums => by
    have ih := runFits_of_sums hal hword
      (fun s hs => hnw s (List.mem_append_right _ hs))
      (fun s hs => hsums s (List.mem_append_right _ hs))
    have hlater : findRun align size rest ≠ 0 → ∃ s ∈ Chain.flat (p :: rest),
        s.address ≤ findRun align size rest ∧ findRun align size rest + size ≤ s.fin := by
      intro hne
      obtain ⟨s, hs, h12⟩ := ih hne
      exact ⟨s, List.mem_append_right _ hs, h12⟩
    unfold RunFits findRun
    split
    · exact hlater
    · rename_i s hs
      split
      · exact hlater
      · rename_i hne
        intro _
        have hmem : s ∈ Chain.flat (p :: rest) :=
          List.mem_append_left _ (List.mem_of_find?_eq_some hs)
        have hfit := List.find?_some hs
        have hs64 := hnw s hmem
        have hx : s.address < wordSize := by unfold Slice.NoWrap at hs64; omega
        refine ⟨s, hmem, (ceilAlign_zero_or_le hal hword hx).resolve_left hne, ?_⟩
        simp only [decide_eq_true_eq] at hfit
        rwa [wadd_eq (hsums s hmem), hs64.endo] at hfit

/-- The sums of a request for pages, in both attempts. -/
def PageSums (h : Host) (m : Mempool) (pageCount alignment : Nat) : Prop :=
  let align := pageAlign alignment
  let size := pageCount * mempoolPageSize
  RunSums (ensurePageRoot h m).2.available align size ∧
    let again := expand h (attemptAlloc h pageCount align size m).2 (wadd size align)
    again.1 = true → RunSums (ensurePageRoot h again.2).2.available align size

theorem Heap.noWrap_root {blocks runs : Nat → Option Nat} (hh : Heap m blocks runs) :
    ∀ s ∈ Chain.flat (ensurePageRoot h m).2.available, s.NoWrap := by
  obtain ⟨N, leaf, own, hc, -⟩ := hh
  obtain ⟨ok, m₁, N₁, own₁, h1, hc₁, -⟩ := ensurePageRoot_spec (h := h) hc
  rw [h1]
  exact hc₁.owned.inv.noWrap

theorem Heap.pagesFit {blocks runs : Nat → Option Nat} {n alignment : Nat}
    (hh : Heap m blocks runs) (hf : HostFresh h m) (halign : alignment < 64) (hn : 0 < n)
    (hcont : n ≠ pageMetaCont) (hsums : PageSums h m n alignment) : PagesFit h m n alignment := by
  have hmax : max alignment mempoolPageShift < 64 := by
    unfold mempoolPageShift
    omega
  have hal : 0 < pageAlign alignment := by
    unfold pageAlign
    rw [shiftOne_eq hmax]
    exact Nat.two_pow_pos _
  have hword : pageAlign alignment < wordSize := Nat.mod_lt _ (by decide)
  have hfit₁ := runFits_of_sums hal hword (hh.noWrap_root (h := h)) hsums.1
  refine ⟨hfit₁, fun hok => runFits_of_sums hal hword ?_ (hsums.2 hok)⟩
  obtain ⟨a, m₁, h1, hs₁, -, hcase⟩ :=
    hh.attemptAlloc (h := h) hn hcont (pageAlign_dvd alignment) hfit₁
  rw [h1]
  have hheap : ∃ runs', Heap m₁ blocks runs' := by
    rcases hcase with ⟨-, hh₁⟩ | ⟨-, -, -, -, hh₁⟩
    · exact ⟨_, hh₁⟩
    · exact ⟨_, hh₁⟩
  obtain ⟨runs', hh₁⟩ := hheap
  obtain ⟨ok, m₂, h2, hh₂, -⟩ := hh₁.expand (hf.same hs₁)
    (wadd (n * mempoolPageSize) (pageAlign alignment))
  rw [h2]
  exact hh₂.noWrap_root

/-- When a request for pages keeps the contract. -/
def PageRequestOk (h : Host) (m : Mempool) (pageCount alignment : Nat) : Prop :=
  (HostFresh h m ∧ ∃ blocks runs, Heap m blocks runs) ∧ PageSums h m pageCount alignment ∧
    PagesKept h m pageCount alignment

theorem allocate_pages_contract {alignment boundary sz : Nat} (halign : alignment < 64)
    (hpage : isPageRequest sz alignment boundary = true)
    (hok : PageRequestOk h m (blockSize sz / mempoolPageSize) alignment) :
    Contract h m sz alignment boundary (allocate h m sz alignment boundary) := by
  obtain ⟨⟨hf, blocks, runs, hh⟩, hsums, hkept⟩ := hok
  obtain ⟨hshift, hbound, hwhole⟩ : alignment ≥ mempoolPageShift ∧ boundOf alignment boundary = 0 ∧
      blockSize sz % mempoolPageSize = 0 := by
    unfold isPageRequest at hpage
    simpa using hpage
  have hall : allocate h m sz alignment boundary =
      allocatePages h m (blockSize sz / mempoolPageSize) alignment := by
    unfold allocate
    dsimp only
    rw [if_pos hpage]
  have hpos := blockSize_pos sz
  have hmul : blockSize sz / mempoolPageSize * mempoolPageSize = blockSize sz :=
    Nat.div_mul_cancel (Nat.dvd_of_mod_eq_zero hwhole)
  have hlent : ∀ a, lentTo sz alignment boundary a = lentRun a (blockSize sz / mempoolPageSize) := by
    intro a
    unfold lentTo lentRun
    rw [hpage, hmul]
    rfl
  rw [hall]
  generalize hn : blockSize sz / mempoolPageSize = n at *
  have hn0 : 0 < n := by
    rcases Nat.eq_zero_or_pos n with rfl | hn0
    · rw [Nat.zero_mul] at hmul
      omega
    · exact hn0
  by_cases hcont : n = pageMetaCont
  · -- more pages than there are
    have hnull : allocatePages h m n alignment = (0, m) := if_pos (Or.inr hcont)
    rw [hnull]
    refine ⟨Nat.dvd_zero _, fun h0 => absurd rfl h0, fun h0 => absurd rfl h0, ∅, Or.inl rfl, ?_⟩
    have hb := Books.refl m.available m.nodeAt
    rw [hlent, lentRun_zero]
    exact ⟨Set.empty_subset _, hb.free⟩
  obtain ⟨a, m', ha, -, hbooks, hcase⟩ :=
    hh.allocatePages hf (hh.pagesFit hf halign hn0 hcont hsums)
  obtain ⟨-, added, hadd, hb⟩ := hbooks hkept
  have hpow : pageAlign alignment = 2 ^ alignment := by
    unfold pageAlign
    rw [max_eq_left hshift, shiftOne_eq halign]
  rw [ha]
  have hend : a ≠ 0 → a + blockSize sz < wordSize := by
    intro h0
    rcases hcase with ⟨rfl, -⟩ | ⟨-, -, hnw, -⟩
    · exact absurd rfl h0
    · rwa [hmul] at hnw
  refine ⟨?_, fun h0 => ⟨fun hfalse => absurd (hpage.symm.trans hfalse) (by decide), hend h0⟩,
    fun h0 hlt => ?_, added, hadd, ?_⟩
  · rcases hcase with ⟨rfl, -⟩ | ⟨-, hdvd, -⟩
    · exact Nat.dvd_zero _
    · rwa [hpow] at hdvd
  · rcases boundOf_cases alignment boundary with ⟨-, h64⟩ | ⟨hb, -, -⟩
    · exact div_pow_eq (hend h0) (h64 hlt)
    · exact absurd (hb.symm.trans hbound) (Nat.ne_of_gt (Nat.two_pow_pos _))
  · rw [hlent]
    exact ⟨hb.covered, hb.free⟩

/-! ### All requests -/

/-- When a request keeps the contract. -/
def RequestOk (h : Host) (m : Mempool) (size alignment boundary : Nat) : Prop :=
  if isPageRequest size alignment boundary then
    PageRequestOk h m (blockSize size / mempoolPageSize) alignment
  else BlockRequestOk h m size alignment boundary

/-- Every request none of whose sums passes the word is answered by the contract. -/
theorem allocate_contract (h : Host) (m : Mempool) (size alignment boundary : Nat)
    (hc : m.available.Inv) (hv : HostValid h m) (halign : alignment < 64)
    (hok : RequestOk h m size alignment boundary) :
    Contract h m size alignment boundary (allocate h m size alignment boundary) := by
  unfold RequestOk at hok
  by_cases hpage : isPageRequest size alignment boundary = true
  · rw [if_pos hpage] at hok
    exact allocate_pages_contract halign hpage hok
  · rw [if_neg hpage] at hok
    exact allocate_block_contract hc hv halign (Bool.not_eq_true _ ▸ hpage) hok

end

/-! ## A free slice that ends behind a line -/

/-- One free slice, sixteen bytes of which lie before 0x1000. -/
def linePool : Mempool :=
  appendBoth noHost (init false 0x40000 false (fun _ => 0)) ⟨0xFF0, 0x100⟩

theorem linePool_inv : linePool.available.Inv :=
  (appendBoth_books (Chain.inv_fresh 0 0) (by decide) (by decide)).1

theorem linePool_flat : Chain.flat linePool.available = [⟨0xFF0, 0x100⟩] := by decide +kernel

/-- Sixteen bytes that may not cross a line of 64. -/
theorem allocate_contract_line : Contract noHost linePool 16 0 6 (allocate noHost linePool 16 0 6) := by
  refine allocate_contract noHost linePool 16 0 6 linePool_inv (fun t _ size raw hr => ?_) (by decide) ?_
  · exact absurd hr (by simp [noHost])
  · refine fun _ => ⟨⟨by decide, fun p hp _ => ?_⟩, fun hok => absurd hok (by decide)⟩
    rw [linePool_flat, List.mem_singleton] at hp
    rw [hp]
    decide

/-- The header of a block may lie before the line its data begins at; and a size
whose sum with the header passes the word is answered with a block that is not
there. -/
theorem allocate_header_before_line :
    ((allocate noHost linePool 16 0 6).1 ≠ 0 ∧
      ((allocate noHost linePool 16 0 6).1 - headerSize) / 2 ^ 6 ≠
        ((allocate noHost linePool 16 0 6).1 + 16 - 1) / 2 ^ 6) ∧
    ((allocate noHost linePool (2 ^ 64 - 8) 0 0).1 ≠ 0 ∧
      wordSize < (allocate noHost linePool (2 ^ 64 - 8) 0 0).1 + (2 ^ 64 - 8) ∧
      ¬Set.Ico ((allocate noHost linePool (2 ^ 64 - 8) 0 0).1 - headerSize)
        ((allocate noHost linePool (2 ^ 64 - 8) 0 0).1 + (2 ^ 64 - 8)) ⊆ linePool.available.bytes) := by
  have h1 : (allocate noHost linePool 16 0 6).1 = 0x1000 := by decide +kernel
  have h2 : (allocate noHost linePool (2 ^ 64 - 8) 0 0).1 = 0x1000 := by decide +kernel
  rw [h1, h2]
  refine ⟨by decide, by decide, by decide, fun hsub => ?_⟩
  have hin := hsub (a := 0x2000) ⟨by decide, by decide⟩
  rw [Chain.bytes, linePool_flat, bytesOf_singleton] at hin
  exact absurd hin.2 (by decide)

end Unisym.Mempool
