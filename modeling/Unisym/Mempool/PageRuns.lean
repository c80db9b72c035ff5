/-
# `PageRuns` — page runs and their table entries

`LeafOk runs leaf` is the agreement between the live runs and the page table:
the page count at the head of a run, `PAGE_META_CONT` on its other pages,
`PAGE_META_FREE` elsewhere, and no entry shared by two runs.  A run of more
than 2^36 pages meets its own entries again, so that its head reads
`PAGE_META_CONT`; such a run can never be given back.
-/
import Unisym.Mempool.HeapOps

namespace Unisym.Mempool

open Ownership Function

/-- The page `i` of the run at `a`, as the page table sees it. -/
def runKey (a i : Nat) : Nat := key (a / mempoolPageSize + i)

/-- The leaf entries are those of the live runs. -/
structure LeafOk (runs : Nat → Option Nat) (leaf : Nat → Nat) : Prop where
  head : ∀ {a n}, runs a = some n →
    (n ≤ 2 ^ 36 ∧ leaf (runKey a 0) = n) ∨ (2 ^ 36 < n ∧ leaf (runKey a 0) = pageMetaCont)
  cont : ∀ {a n i}, runs a = some n → 0 < i → i < n → leaf (runKey a i) = pageMetaCont
  free : ∀ {k}, (∀ a n i, runs a = some n → i < n → runKey a i ≠ k) → leaf k = pageMetaFree
  apart : ∀ {a n i a' n' j}, runs a = some n → runs a' = some n' → i < n → j < n' →
    runKey a i = runKey a' j → a = a'

/-- The live runs are runs of pages. -/
def RunsOk (runs : Nat → Option Nat) : Prop :=
  ∀ {a n}, runs a = some n →
    0 < a ∧ a % mempoolPageSize = 0 ∧ 0 < n ∧ n ≠ pageMetaCont ∧ a + n * mempoolPageSize < wordSize

/-! ## The loop that sets entries -/

/-- What `setEntries` does to the leaf entries. -/
def setLeaves (first : Nat) (value : Nat → Nat) : Nat → Nat → (Nat → Nat) → Nat → Nat
  | 0, _, leaf => leaf
  | n + 1, p, leaf => setLeaves first value n (p + 1) (update leaf (key (first + p)) (value p))

theorem setLeaves_out (first : Nat) (value : Nat → Nat) {k : Nat} : ∀ (n p : Nat) (leaf : Nat → Nat),
    (∀ i, p ≤ i → i < p + n → key (first + i) ≠ k) → setLeaves first value n p leaf k = leaf k
  | 0, _, _, _ => rfl
  | n + 1, p, leaf, hk => by
    unfold setLeaves
    rw [setLeaves_out first value n (p + 1) _ (fun i h1 h2 => hk i (by omega) (by omega)),
      update_of_ne (hk p (le_refl _) (by omega)).symm]

theorem setLeaves_in (first : Nat) (value : Nat → Nat) {k : Nat} :
    ∀ (n p : Nat) (leaf : Nat → Nat), (∃ i, p ≤ i ∧ i < p + n ∧ key (first + i) = k) →
      ∃ j, p ≤ j ∧ j < p + n ∧ key (first + j) = k ∧
        (∀ i, p ≤ i → i < p + n → key (first + i) = k → i ≤ j) ∧
        setLeaves first value n p leaf k = value j
  | 0, _, _, ⟨i, h1, h2, _⟩ => by omega
  | n + 1, p, leaf, ⟨i, h1, h2, hi⟩ => by
    by_cases hlater : ∃ i, p + 1 ≤ i ∧ i < p + 1 + n ∧ key (first + i) = k
    · obtain ⟨j, hj1, hj2, hj3, hj4, hj5⟩ := setLeaves_in first value n (p + 1)
        (update leaf (key (first + p)) (value p)) hlater
      refine ⟨j, by omega, by omega, hj3, fun i' h1' h2' h3' => ?_, hj5⟩
      rcases Nat.eq_or_lt_of_le h1' with rfl | hlt
      · omega
      · exact hj4 i' hlt (by omega) h3'
    · have hip : i = p := by
        by_contra hne
        exact hlater ⟨i, by omega, by omega, hi⟩
      subst hip
      refine ⟨i, le_refl _, h2, hi, fun i' h1' h2' h3' => ?_, ?_⟩
      · by_contra hgt
        exact hlater ⟨i', by omega, by omega, h3'⟩
      · unfold setLeaves
        rw [setLeaves_out first value n (i + 1) _
          (fun i' h1' h2' h3' => hlater ⟨i', h1', h2', h3'⟩), hi, update_self]

section
variable {h : Host} {m : Mempool} {blocks runs : Nat → Option Nat}
  {N : Nat → Nat → Option Nat} {leaf : Nat → Nat} {own : Nat → Option Owner}

/-- `*get_leaf_entry(page_no, false) = v` on an existing path. -/
theorem Core.setLeafEntry (hc : Core m blocks runs N leaf own) {p b v : Nat}
    (hb : N 0 (key p / 512) = some b) (hv : v < wordSize) :
    Core (m.setLeafEntry p v) blocks runs N (update leaf (key p) v) own ∧
      Same m (m.setLeafEntry p v) ∧ (m.setLeafEntry p v).available = m.available := by
  have hm : m.setLeafEntry p v = m.setWord (entryAddr b (key p % 512)) v := by
    unfold Mempool.setLeafEntry
    rw [hc.table.getLeafEntry_eq, hb]
    rfl
  have hi : key p % 512 < 512 := Nat.mod_lt _ (by decide)
  rw [hm]
  refine ⟨⟨hc.owned.congr rfl rfl rfl, hc.table.setLeaf hb rfl (word_setWord hv) ?_,
    hc.owned.headers_setWord hb hi hc.headers⟩, ⟨rfl, rfl, rfl, rfl, rfl, le_refl _⟩, rfl⟩
  exact fun hN i hi' hne => hc.owned.setWord_entry hN hb hi' hi hne

theorem Core.setEntries (first : Nat) (value : Nat → Nat) (hv : ∀ i, value i < wordSize) :
    ∀ (n p : Nat) {m : Mempool} {leaf : Nat → Nat}, Core m blocks runs N leaf own →
      (∀ j, p ≤ j → j < p + n → ∃ b, N 0 (key (first + j) / 512) = some b) →
      Core (setEntries first value n p m) blocks runs N (setLeaves first value n p leaf) own ∧
        Same m (setEntries first value n p m) ∧
        (setEntries first value n p m).available = m.available
  | 0, _, m, _, hc, _ => ⟨hc, Same.refl m, rfl⟩
  | n + 1, p, m, leaf, hc, hN => by
    obtain ⟨b, hb⟩ := hN p (le_refl _) (by omega)
    obtain ⟨hc₁, hs₁, ha₁⟩ := hc.setLeafEntry hb (hv p)
    obtain ⟨hc₂, hs₂, ha₂⟩ := Core.setEntries first value hv n (p + 1) hc₁
      (fun j h1 h2 => hN j (by omega) (by omega))
    exact ⟨hc₂, hs₁.trans hs₂, ha₂.trans ha₁⟩

/-! ## Runs come and go -/

variable {a n : Nat}

section

variable (hl : LeafOk runs leaf) (hr : RunsOk runs)
include hl hr

theorem LeafOk.ne_free {i : Nat} (ha : runs a = some n) (hi : i < n) : leaf (runKey a i) ≠ pageMetaFree := by
  obtain ⟨-, -, hn, -⟩ := hr ha
  have hcont : pageMetaCont ≠ pageMetaFree := by decide
  rcases Nat.eq_zero_or_pos i with rfl | hpos
  · rcases hl.head ha with ⟨-, h⟩ | ⟨-, h⟩
    · rw [h]; unfold pageMetaFree; omega
    · rw [h]; exact hcont
  · rw [hl.cont ha hpos hi]; exact hcont

theorem LeafOk.add (hn : 0 < n) (hnone : runs a = none)
    (hfree : ∀ j, j < n → leaf (runKey a j) = pageMetaFree) :
    LeafOk (update runs a (some n)) (setLeaves (a / mempoolPageSize)
      (fun p => if p = 0 then n else pageMetaCont) n 0 leaf) := by
  -- no older run shares an entry with the new one
  have hother : ∀ {a' n' i j}, runs a' = some n' → i < n' → j < n → runKey a' i ≠ runKey a j := by
    intro a' n' i j ha' hi hj heq
    exact hl.ne_free hr ha' hi (heq ▸ hfree j hj)
  have hold : ∀ {a' n' i}, runs a' = some n' → i < n' →
      setLeaves (a / mempoolPageSize) (fun p => if p = 0 then n else pageMetaCont) n 0 leaf
        (runKey a' i) = leaf (runKey a' i) := by
    intro a' n' i ha' hi
    exact setLeaves_out _ _ _ _ _ (fun j _ hj => (hother ha' hi (by omega)).symm)
  have hcases : ∀ {a' n'}, update runs a (some n) a' = some n' →
      (a' = a ∧ n' = n) ∨ (a' ≠ a ∧ runs a' = some n') := by
    intro a' n' ha'
    by_cases haa : a' = a
    · subst haa
      rw [update_self] at ha'
      exact Or.inl ⟨rfl, (Option.some.inj ha').symm⟩
    · rw [update_of_ne haa] at ha'
      exact Or.inr ⟨haa, ha'⟩
  refine ⟨?_, ?_, ?_, ?_⟩
  · intro a' n' ha'
    rcases hcases ha' with ⟨rfl, rfl⟩ | ⟨-, ha'⟩
    · obtain ⟨j, -, hj2, hj3, hj4, hj5⟩ := setLeaves_in (a' / mempoolPageSize)
        (fun p => if p = 0 then n' else pageMetaCont) (k := runKey a' 0) n' 0 leaf
        ⟨0, le_refl _, by omega, rfl⟩
      rw [hj5]
      by_cases hj0 : j = 0
      · refine Or.inl ⟨?_, if_pos hj0⟩
        by_contra hgt
        have := hj4 (2 ^ 36) (Nat.zero_le _) (by omega) (by unfold runKey key; omega)
        omega
      · right
        refine ⟨?_, if_neg hj0⟩
        -- another page of the run has the key of the head
        unfold runKey key at hj3
        omega
    · rw [hold ha' (hr ha').2.2.1]
      exact hl.head ha'
  · intro a' n' i ha' hi0 hi
    rcases hcases ha' with ⟨rfl, rfl⟩ | ⟨-, ha'⟩
    · obtain ⟨j, -, -, -, hj4, hj5⟩ := setLeaves_in (a' / mempoolPageSize)
        (fun p => if p = 0 then n' else pageMetaCont) (k := runKey a' i) n' 0 leaf
        ⟨i, Nat.zero_le _, by omega, rfl⟩
      have := hj4 i (Nat.zero_le _) (by omega) rfl
      rw [hj5, if_neg (by omega)]
    · rw [hold ha' hi]
      exact hl.cont ha' hi0 hi
  · intro k hk
    rw [setLeaves_out _ _ _ _ _ (fun i _ hi => hk a n i (update_self ..) (by omega))]
    refine hl.free fun a' n' i ha' hi => hk a' n' i ?_ hi
    rw [update_of_ne, ha']
    rintro rfl
    rw [hnone] at ha'
    simp at ha'
  · intro a₁ n₁ i a₂ n₂ j h1 h2 hi hj heq
    rcases hcases h1 with ⟨e1, e1'⟩ | ⟨-, h1'⟩ <;> rcases hcases h2 with ⟨e2, e2'⟩ | ⟨-, h2'⟩
    · rw [e1, e2]
    · subst e1 e1'
      exact absurd heq.symm (hother h2' hj hi)
    · subst e2 e2'
      exact absurd heq (hother h1' hi hj)
    · exact hl.apart h1' h2' hi hj heq

theorem LeafOk.remove (ha : runs a = some n) : LeafOk (update runs a none)
      (setLeaves (a / mempoolPageSize) (fun _ => pageMetaFree) n 0 leaf) := by
  have hcases : ∀ {a' n'}, update runs a none a' = some n' → a' ≠ a ∧ runs a' = some n' := by
    intro a' n' ha'
    by_cases haa : a' = a
    · subst haa; rw [update_self] at ha'; simp at ha'
    · rw [update_of_ne haa] at ha'; exact ⟨haa, ha'⟩
  have hold : ∀ {a' n' i}, a' ≠ a → runs a' = some n' → i < n' →
      setLeaves (a / mempoolPageSize) (fun _ => pageMetaFree) n 0 leaf (runKey a' i) =
        leaf (runKey a' i) := by
    intro a' n' i hne ha' hi
    refine setLeaves_out _ _ _ _ _ (fun j _ hj heq => hne ?_)
    exact (hl.apart ha ha' (i := j) (by omega) hi heq).symm
  refine ⟨?_, ?_, ?_, ?_⟩
  · intro a' n' ha'
    obtain ⟨hne, ha'⟩ := hcases ha'
    rw [hold hne ha' (hr ha').2.2.1]
    exact hl.head ha'
  · intro a' n' i ha' hi0 hi
    obtain ⟨hne, ha'⟩ := hcases ha'
    rw [hold hne ha' hi]
    exact hl.cont ha' hi0 hi
  · intro k hk
    by_cases hin : ∃ i, i < n ∧ runKey a i = k
    · obtain ⟨i, hi, hki⟩ := hin
      obtain ⟨j, -, -, -, -, hj5⟩ := setLeaves_in (a / mempoolPageSize) (fun _ => pageMetaFree)
        (k := k) n 0 leaf ⟨i, Nat.zero_le _, by omega, hki⟩
      rw [hj5]
    · rw [setLeaves_out _ _ _ _ _ (fun i _ hi heq => hin ⟨i, by omega, heq⟩)]
      refine hl.free fun a' n' i ha' hi heq => ?_
      by_cases haa : a' = a
      · subst haa
        rw [ha] at ha'
        cases ha'
        exact hin ⟨i, hi, heq⟩
      · exact hk a' n' i (by rw [update_of_ne haa, ha']) hi heq
  · intro a₁ n₁ i a₂ n₂ j h1 h2 hi hj heq
    exact hl.apart (hcases h1).2 (hcases h2).2 hi hj heq

end

theorem RunsOk.remove (hr : RunsOk runs) (a : Nat) : RunsOk (update runs a none) := by
  intro a' n' ha'
  by_cases haa : a' = a
  · subst haa; rw [update_self] at ha'; simp at ha'
  · rw [update_of_ne haa] at ha'; exact hr ha'

theorem RunsOk.add (hr : RunsOk runs) (h1 : 0 < a) (h2 : a % mempoolPageSize = 0)
    (h3 : 0 < n) (h4 : n ≠ pageMetaCont) (h5 : a + n * mempoolPageSize < wordSize) :
    RunsOk (update runs a (some n)) := by
  intro a' n' ha'
  by_cases haa : a' = a
  · subst haa
    rw [update_self] at ha'
    cases ha'
    exact ⟨h1, h2, h3, h4, h5⟩
  · rw [update_of_ne haa] at ha'; exact hr ha'

/-! ## Ownership of runs -/

theorem runBytes_update_ne {a' : Nat} {v : Option Nat} (hne : a' ≠ a) :
    runBytes (update runs a v) a' = runBytes runs a' := by
  unfold runBytes
  rw [update_of_ne hne]

theorem runBytes_some (ha : runs a = some n) :
    runBytes runs a = Set.Ico a (a + n * mempoolPageSize) := by
  unfold runBytes
  rw [ha]

theorem runBytes_none (ha : runs a = none) : runBytes runs a = ∅ := by
  unfold runBytes
  rw [ha]

theorem Owned.take_run (ho : Owned m blocks runs N own) (hr : RunsOk runs) (hn : 0 < n)
    (hnw : a + n * mempoolPageSize < wordSize) :
    takeAvail h m ⟨a, n * mempoolPageSize⟩ = (false, { m with tick := m.tick + 1 }) ∨
      ∃ c' own', takeAvail h m ⟨a, n * mempoolPageSize⟩ =
          (true, { m with available := c', tick := m.tick + 1 }) ∧ runs a = none ∧
        Owned { m with available := c', tick := m.tick + 1 } blocks (update runs a (some n)) N
          own' := by
  have hpos : 0 < n * mempoolPageSize := Nat.mul_pos hn mempoolPageSize_pos
  rcases ho.toPools.take (h := h) (s := ⟨a, n * mempoolPageSize⟩) (k := some (.run a)) hnw hpos
    (fun _ hk => by cases hk; rfl) with ht | ⟨c', own', ht, hpools, hfree, hheld⟩
  · exact Or.inl ht
  right
  have hnone : runs a = none := by
    cases ha : runs a with
    | none => rfl
    | some n' =>
      have h1 : a ∈ held own (.run a) := by
        rw [ho.runs, runBytes_some ha]
        have := Nat.mul_pos (hr ha).2.2.1 mempoolPageSize_pos
        exact ⟨le_refl _, by omega⟩
      have h2 : a ∈ held own .free := hfree (mem_bytes_address hpos)
      exact absurd h2 (Set.disjoint_left.mp (disjoint_held own (by simp)) h1)
  refine ⟨c', own', ht, hnone, hpools, fun p => ?_, fun a' => ?_, fun l q => ?_⟩
  · rw [hheld _ rfl, if_neg (by simp), ho.blocks]
  · rw [hheld _ rfl, ho.runs]
    by_cases haa : a' = a
    · subst haa
      rw [if_pos rfl, runBytes_none hnone, runBytes_some (update_self ..), Set.empty_union]
      rfl
    · rw [if_neg (by simpa using Ne.symm haa), runBytes_update_ne haa]
  · rw [hheld _ rfl, if_neg (by simp), ho.nodes]

theorem Owned.inside_held (ho : Owned m blocks runs N own) (k : Owner) :
    held own k ⊆ managedBytes m := fun b hb => ho.inside b (by rw [hb]; simp)

theorem Owned.give_run (ho : Owned m blocks runs N own) (hr : RunsOk runs)
    (ha : runs a = some n) :
    giveAvail h m ⟨a, n * mempoolPageSize⟩ = (false, { m with tick := m.tick + 1 }) ∨
      ∃ c' own' taken, giveAvail h m ⟨a, n * mempoolPageSize⟩ =
          (true, { m with available := c', tick := m.tick + 1 }) ∧
        Chain.Growth (h.pool m.tick) m.available c' taken ∧
        c'.bytes = (m.available.bytes ∪ Set.Ico a (a + n * mempoolPageSize)) \ taken ∧
        Owned { m with available := c', tick := m.tick + 1 } blocks (update runs a none) N own' := by
  obtain ⟨-, -, hn, -, hnw⟩ := hr ha
  have hbytes : (⟨a, n * mempoolPageSize⟩ : Slice).bytes = held own (.run a) := by
    rw [ho.runs, runBytes_some ha]
    rfl
  rcases ho.toPools.give (h := h) (s := ⟨a, n * mempoolPageSize⟩) hnw
    (Nat.mul_pos hn mempoolPageSize_pos) (by rw [hbytes]; exact ho.inside_held _)
    (fun i => by rw [hbytes]; exact disjoint_held own (by simp)) with
    hg | ⟨c', own', taken, hg, hpools, hgrow, hb, -, hheld⟩
  · exact Or.inl hg
  right
  have hne : ∀ {k : Owner}, k.client = true → k ≠ .run a → held own' k = held own k := by
    intro k hk hka
    rw [hheld k hk, hbytes]
    exact sdiff_eq_left.mpr (disjoint_held own hka)
  refine ⟨c', own', taken, hg, hgrow, hb, hpools, fun p => by rw [hne rfl (by simp), ho.blocks],
    fun a' => ?_, fun l q => by rw [hne rfl (by simp), ho.nodes]⟩
  by_cases haa : a' = a
  · subst haa
    rw [hheld _ rfl, hbytes, Set.sdiff_self, runBytes_none (update_self ..)]
  · rw [hne rfl (by simpa using haa), ho.runs, runBytes_update_ne haa]

theorem Core.of_owned {m' : Mempool} {runs' : Nat → Option Nat} {own' : Nat → Option Owner}
    (hc : Core m blocks runs N leaf own) (ho : Owned m' blocks runs' N own')
    (hmem : m'.mem = m.mem) (hroot : m'.pageRoot = m.pageRoot) :
    Core m' blocks runs' N leaf own' := by
  have hw : ∀ a, m'.word a = m.word a := fun a => by unfold word; rw [hmem]
  refine ⟨ho, hc.table.frame hroot (fun _ _ _ => hw _), ?_⟩
  exact hc.headers.frame fun p s _ => by rw [hmem]; exact Mem.AgreeOn.refl _ _

end

end Unisym.Mempool
