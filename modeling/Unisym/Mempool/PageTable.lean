/-
# `PageTable` — the radix tree in memory, and the map it stands for

A page-table node is named by its level and by the page-number prefix it
serves, and `N level prefix` is where it lies.  `Table m N leaf` says that the
memory holds exactly these nodes, linked the way `get_leaf_entry` walks them,
and that the leaf entry of page key `k` is `leaf k`.  The walk then needs no
induction over memory any more:

    getLeafEntry m page = (N 0 (key page / 512)).map (entry (key page % 512))

`get_leaf_entry` shifts and masks, so that only the low 36 bits of a page
number (`key`) choose the entry.
-/
import Unisym.Mempool.Mempool
import Mathlib.Tactic.IntervalCases

namespace Unisym.Mempool

/-- The bits of a page number that the page table looks at. -/
def key (pageNo : Nat) : Nat := pageNo % 2 ^ 36

theorem key_lt (p : Nat) : key p < 2 ^ 36 := Nat.mod_lt _ (by decide)

theorem key_of_lt {p : Nat} (h : p < 2 ^ 36) : key p = p := Nat.mod_eq_of_lt h

theorem entryIndex_key {l : Nat} (hl : l ≤ 3) (p : Nat) :
    entryIndex l p = key p / 512 ^ l % 512 := by
  unfold entryIndex key pageMetaEntryCount
  interval_cases l <;> omega

theorem entryIndex_lt (l p : Nat) : entryIndex l p < 512 := Nat.mod_lt _ (by decide)

theorem prefix_step {l : Nat} (hl : l + 1 ≤ 3) (p : Nat) :
    key p / 512 ^ (l + 2) * 512 + entryIndex (l + 1) p = key p / 512 ^ (l + 1) := by
  rw [entryIndex_key hl, Nat.pow_succ 512 (l + 1), ← Nat.div_div_eq_div_mul]
  exact Nat.div_add_mod' _ _

/-- The memory holds the nodes `N` and the leaf entries `leaf`. -/
structure Table (m : Mempool) (N : Nat → Nat → Option Nat) (leaf : Nat → Nat) : Prop where
  root : m.pageRoot = (N 3 0).getD 0
  inner : ∀ {l q a}, N (l + 1) q = some a → ∀ i < 512,
    m.word (entryAddr a i) = (N l (q * 512 + i)).getD 0
  leaves : ∀ {q a}, N 0 q = some a → ∀ i < 512, m.word (entryAddr a i) = leaf (q * 512 + i)
  pos : ∀ {l q a}, N l q = some a → 0 < a
  level : ∀ {l q a}, N l q = some a → l ≤ 3 ∧ q < 512 ^ (3 - l)
  parent : ∀ {l q a}, N l q = some a → l < 3 → ∃ b, N (l + 1) (q / 512) = some b
  cover : ∀ {k}, leaf k ≠ 0 → ∃ b, N 0 (k / 512) = some b

section
variable {m m' : Mempool} {N : Nat → Nat → Option Nat} {leaf : Nat → Nat}

variable {l q a l' q' b : Nat}

theorem Table.getD_eq_zero (t : Table m N leaf) :
    (N l q).getD 0 = 0 ↔ N l q = none := by
  cases h : N l q with
  | none => simp
  | some a => simpa using Nat.ne_of_gt (t.pos h)

theorem Table.ancestor (t : Table m N leaf) {k : Nat} : ∀ (n : Nat) {l b : Nat}, l + n ≤ 3 →
    N l (k / 512 ^ (l + 1)) = some b → ∃ a, N (l + n) (k / 512 ^ (l + n + 1)) = some a
  | 0, _, _, _, h => ⟨_, h⟩
  | n + 1, l, b, hl, h => by
    obtain ⟨c, hc⟩ := t.parent h (by omega)
    rw [Nat.div_div_eq_div_mul, ← Nat.pow_succ] at hc
    obtain ⟨a, ha⟩ := t.ancestor n (l := l + 1) (by omega) hc
    refine ⟨a, ?_⟩
    rwa [Nat.add_right_comm, Nat.add_assoc] at ha

/-- Walking down from a node reaches the node below it on the path, if there
is one. -/
theorem Table.walk_eq (t : Table m N leaf) (p : Nat) : ∀ {l a : Nat}, l ≤ 3 →
    N l (key p / 512 ^ (l + 1)) = some a →
      walk m p l a = (N 0 (key p / 512)).map (fun b => entryAddr b (key p % 512))
  | 0, a, _, h => by
    rw [Nat.zero_add, Nat.pow_one] at h
    unfold walk
    rw [h, entryIndex_key (by omega), Nat.pow_zero, Nat.div_one]
    rfl
  | l + 1, a, hl, h => by
    have hchild := t.inner h (entryIndex (l + 1) p) (entryIndex_lt ..)
    rw [prefix_step hl] at hchild
    unfold walk
    simp only [hchild]
    cases hn : N l (key p / 512 ^ (l + 1)) with
    | none =>
      have h0 : N 0 (key p / 512) = none := by
        cases h0 : N 0 (key p / 512) with
        | none => rfl
        | some b =>
          obtain ⟨c, hc⟩ := t.ancestor (k := key p) l (l := 0) (by omega) (by simpa using h0)
          rw [Nat.zero_add, hn] at hc
          simp at hc
      rw [h0]
      rfl
    | some c =>
      have hc := Nat.ne_of_gt (t.pos hn)
      simp only [Option.getD_some, if_neg hc]
      exact t.walk_eq p (by omega) hn

theorem prefix_lt (hq : q < 512 ^ (3 - l)) :
    q * 512 ^ (l + 1) < 512 ^ (l + (3 - l) + 1) := by
  calc q * 512 ^ (l + 1) < 512 ^ (3 - l) * 512 ^ (l + 1) :=
        Nat.mul_lt_mul_of_pos_right hq (Nat.pos_of_ne_zero (by simp))
    _ = 512 ^ (l + (3 - l) + 1) := by rw [← Nat.pow_add]; congr 1; omega

theorem key_root (p : Nat) : key p / 512 ^ (3 + 1) = 0 := by
  have := key_lt p
  exact Nat.div_eq_of_lt (by omega)

theorem Table.getLeafEntry_eq (t : Table m N leaf) (p : Nat) :
    m.getLeafEntry p = (N 0 (key p / 512)).map (fun b => entryAddr b (key p % 512)) := by
  unfold getLeafEntry
  cases hr : N 3 0 with
  | none =>
    rw [if_pos (by rw [t.root, hr]; rfl)]
    cases h0 : N 0 (key p / 512) with
    | none => rfl
    | some b =>
      obtain ⟨c, hc⟩ := t.ancestor (k := key p) 3 (l := 0) (by omega) (by simpa using h0)
      rw [Nat.zero_add, key_root, hr] at hc
      simp at hc
  | some r =>
    have hroot : m.pageRoot = r := by rw [t.root, hr]; rfl
    rw [hroot, if_neg (Nat.ne_of_gt (t.pos hr))]
    exact t.walk_eq p (l := 3) (by decide) (by rw [key_root]; exact hr)

theorem Table.leafEntry_eq (t : Table m N leaf) (p : Nat) : m.leafEntry p = leaf (key p) := by
  unfold leafEntry
  rw [t.getLeafEntry_eq]
  cases h0 : N 0 (key p / 512) with
  | none =>
    by_contra hne
    obtain ⟨b, hb⟩ := t.cover (Ne.symm hne)
    rw [h0] at hb
    simp at hb
  | some b =>
    have := t.leaves h0 (key p % 512) (Nat.mod_lt _ (by decide))
    rw [Nat.div_add_mod'] at this
    exact this

/-! ## The nodes of the table -/

/-- `n` steps of the walk of `get_leaf_entry`, from a node at `level`. -/
def nodeFrom (m : Mempool) (pageNo : Nat) : Nat → Nat → Nat → Option Nat
  | 0, _, node => some node
  | n + 1, level, node =>
      let child := m.word (entryAddr node (entryIndex level pageNo))
      if child = 0 then none else nodeFrom m pageNo n (level - 1) child

/-- The node at `level` that serves the pages with number prefix `pfx`. -/
def nodeAt (m : Mempool) (level pfx : Nat) : Option Nat :=
  if level ≤ 3 ∧ pfx < 512 ^ (3 - level) ∧ m.pageRoot ≠ 0 then
    nodeFrom m (pfx * 512 ^ (level + 1)) (3 - level) 3 m.pageRoot
  else none

theorem nodeFrom_congr {m m' : Mempool} (hmem : m'.mem = m.mem) (p : Nat) :
    ∀ n l a, nodeFrom m' p n l a = nodeFrom m p n l a
  | 0, _, _ => rfl
  | n + 1, l, a => by
    unfold nodeFrom word
    rw [hmem]
    simp only [nodeFrom_congr hmem p n]

theorem nodeAt_congr {m m' : Mempool} (hmem : m'.mem = m.mem) (hroot : m'.pageRoot = m.pageRoot) :
    m'.nodeAt = m.nodeAt := by
  funext l q
  unfold nodeAt
  rw [hroot, nodeFrom_congr hmem]

theorem Table.nodeFrom_eq (t : Table m N leaf) (p : Nat) : ∀ {n l a : Nat}, n ≤ l → l ≤ 3 →
    N l (key p / 512 ^ (l + 1)) = some a →
      nodeFrom m p n l a = N (l - n) (key p / 512 ^ (l - n + 1))
  | 0, l, a, _, _, h => h.symm
  | n + 1, l + 1, a, hn, hl, h => by
    have hchild := t.inner h (entryIndex (l + 1) p) (entryIndex_lt ..)
    rw [prefix_step hl] at hchild
    unfold nodeFrom
    simp only [hchild, Nat.add_sub_cancel]
    rw [show l + 1 - (n + 1) = l - n by omega]
    cases hc : N l (key p / 512 ^ (l + 1)) with
    | none =>
      cases h0 : N (l - n) (key p / 512 ^ (l - n + 1)) with
      | none => rfl
      | some b =>
        obtain ⟨c, hc'⟩ := t.ancestor (k := key p) n (l := l - n) (by omega) h0
        rw [show l - n + n = l by omega, hc] at hc'
        simp at hc'
    | some c =>
      rw [Option.getD_some, if_neg (Nat.ne_of_gt (t.pos hc))]
      exact t.nodeFrom_eq p (by omega) (by omega) hc

theorem Table.no_nodes (t : Table m N leaf) (hr : m.pageRoot = 0) (l q : Nat) : N l q = none := by
  have h3 : N 3 0 = none := t.getD_eq_zero.mp (t.root ▸ hr)
  cases h : N l q with
  | none => rfl
  | some a =>
    obtain ⟨hl, hq⟩ := t.level h
    have hk : q * 512 ^ (l + 1) / 512 ^ (l + 1) = q :=
      Nat.mul_div_cancel _ (Nat.pos_of_ne_zero (by simp))
    obtain ⟨c, hc⟩ := t.ancestor (k := q * 512 ^ (l + 1)) (3 - l) (l := l) (by omega)
      (by rw [hk]; exact h)
    have hz : q * 512 ^ (l + 1) / 512 ^ (l + (3 - l) + 1) = 0 :=
      Nat.div_eq_of_lt (prefix_lt hq)
    rw [hz, show l + (3 - l) = 3 by omega, h3] at hc
    simp at hc

theorem Table.nodeAt_eq (t : Table m N leaf) (l q : Nat) : m.nodeAt l q = N l q := by
  unfold nodeAt
  split
  · rename_i hin
    obtain ⟨hl, hq, hr⟩ := hin
    obtain ⟨r, hr3⟩ : ∃ r, N 3 0 = some r := by
      cases h3 : N 3 0 with
      | none => exact absurd (by rw [t.root, h3]; rfl) hr
      | some r => exact ⟨r, rfl⟩
    have hroot : m.pageRoot = r := by rw [t.root, hr3]; rfl
    have hkey : key (q * 512 ^ (l + 1)) = q * 512 ^ (l + 1) := by
      refine key_of_lt (lt_of_lt_of_le (prefix_lt hq) ?_)
      rw [show l + (3 - l) + 1 = 4 by omega]
      decide
    rw [hroot, t.nodeFrom_eq _ (by omega) (le_refl 3) (by rw [key_root]; exact hr3), hkey,
      show 3 - (3 - l) = l by omega, Nat.mul_div_cancel _ (Nat.pos_of_ne_zero (by simp))]
  · rename_i hout
    cases h : N l q with
    | none => rfl
    | some a =>
      obtain ⟨hl, hq⟩ := t.level h
      refine absurd ⟨hl, hq, fun hr => ?_⟩ hout
      rw [t.no_nodes hr] at h
      simp at h

/-! ## Changing the table -/

theorem Table.frame (t : Table m N leaf) (hroot : m'.pageRoot = m.pageRoot)
    (hw : ∀ {l q a}, N l q = some a → ∀ i < 512,
      m'.word (entryAddr a i) = m.word (entryAddr a i)) : Table m' N leaf where
  root := hroot.trans t.root
  inner h i hi := (hw h i hi).trans (t.inner h i hi)
  leaves h i hi := (hw h i hi).trans (t.leaves h i hi)
  pos := t.pos
  level := t.level
  parent := t.parent
  cover := t.cover

/-- A node map with one more node. -/
def addNode (N : Nat → Nat → Option Nat) (l q a : Nat) : Nat → Nat → Option Nat :=
  fun l' q' => if l' = l ∧ q' = q then some a else N l' q'

theorem addNode_self (N : Nat → Nat → Option Nat) (l q a : Nat) : addNode N l q a l q = some a :=
  if_pos ⟨rfl, rfl⟩

theorem addNode_ne {N : Nat → Nat → Option Nat} (h : ¬(l' = l ∧ q' = q)) :
    addNode N l q a l' q' = N l' q' := if_neg h

theorem addNode_eq_some {N : Nat → Nat → Option Nat}
    (h : addNode N l q a l' q' = some b) : (l' = l ∧ q' = q ∧ b = a) ∨ N l' q' = some b := by
  unfold addNode at h
  split at h
  · rename_i heq
    exact Or.inl ⟨heq.1, heq.2, (Option.some.inj h).symm⟩
  · exact Or.inr h

theorem addNode_of_some {N : Nat → Nat → Option Nat} (hnew : N l q = none)
    (h : N l' q' = some b) : addNode N l q a l' q' = some b := by
  rw [addNode_ne, h]
  rintro ⟨rfl, rfl⟩
  rw [hnew] at h
  simp at h

theorem Table.child_none (t : Table m N leaf) {i : Nat} (hnew : N (l + 1) q = none)
    (hi : i < 512) (hl : l < 3) : N l (q * 512 + i) = none := by
  cases hc : N l (q * 512 + i) with
  | none => rfl
  | some c =>
    obtain ⟨b, hb⟩ := t.parent hc hl
    rw [show (q * 512 + i) / 512 = q by omega, hnew] at hb
    simp at hb

theorem Table.link (t : Table m N leaf) (hl : l < 3) (hnew : N l q = none)
    (hpar : N (l + 1) (q / 512) = some b) (ha : 0 < a) (hroot : m'.pageRoot = m.pageRoot)
    (hzero : ∀ i < 512, m'.word (entryAddr a i) = 0)
    (hentry : m'.word (entryAddr b (q % 512)) = a)
    (hold : ∀ {l' q' a'}, N l' q' = some a' → ∀ i < 512,
      ¬(l' = l + 1 ∧ q' = q / 512 ∧ i = q % 512) →
        m'.word (entryAddr a' i) = m.word (entryAddr a' i)) :
    Table m' (addNode N l q a) leaf where
  root := by rw [hroot, t.root, addNode_ne (by omega)]
  inner := by
    intro l' q' a' hN i hi
    rcases addNode_eq_some hN with ⟨hl', hq', rfl⟩ | h
    · -- the entries of the new node
      subst hl' hq'
      rw [hzero i hi, addNode_ne (by omega), t.child_none hnew hi (by omega)]
      rfl
    · by_cases hlink : l' + 1 = l + 1 ∧ q' = q / 512 ∧ i = q % 512
      · obtain ⟨h1, hq', rfl⟩ := hlink
        have hl' : l' = l := by omega
        subst hl' hq'
        rw [hpar] at h
        rw [← Option.some.inj h, hentry, Nat.div_add_mod', addNode_self]
        rfl
      · rw [hold h i hi hlink, t.inner h i hi, addNode_ne]
        rintro ⟨rfl, hq⟩
        exact hlink ⟨rfl, by omega, by omega⟩
  leaves := by
    intro q' a' h i hi
    rcases addNode_eq_some h with ⟨hl', hq', rfl⟩ | h
    · subst hq'
      rw [hzero i hi]
      by_contra hne
      obtain ⟨c, hc⟩ := t.cover (Ne.symm hne)
      rw [show (q' * 512 + i) / 512 = q' by omega, hl', hnew] at hc
      simp at hc
    · rw [hold h i hi (by omega), t.leaves h i hi]
  pos := by
    intro l' q' a' h
    rcases addNode_eq_some h with ⟨-, -, rfl⟩ | h
    · exact ha
    · exact t.pos h
  level := by
    intro l' q' a' h
    rcases addNode_eq_some h with ⟨rfl, rfl, -⟩ | h
    · refine ⟨by omega, ?_⟩
      have hq := (t.level hpar).2
      rw [show 3 - l' = (3 - (l' + 1)) + 1 by omega, Nat.pow_succ]
      omega
    · exact t.level h
  parent := by
    intro l' q' a' h hlt
    rcases addNode_eq_some h with ⟨rfl, rfl, -⟩ | h
    · exact ⟨b, addNode_of_some hnew hpar⟩
    · obtain ⟨c, hc⟩ := t.parent h hlt
      exact ⟨c, addNode_of_some hnew hc⟩
  cover := by
    intro k hk
    obtain ⟨c, hc⟩ := t.cover hk
    exact ⟨c, addNode_of_some hnew hc⟩

theorem Table.makeRoot (t : Table m N leaf) (hr : m.pageRoot = 0) (ha : 0 < a)
    (hroot : m'.pageRoot = a) (hzero : ∀ i < 512, m'.word (entryAddr a i) = 0) :
    Table m' (addNode N 3 0 a) leaf where
  root := by rw [hroot, addNode_self]; rfl
  inner := by
    intro l' q' a' h i hi
    rcases addNode_eq_some h with ⟨hl', hq', rfl⟩ | h
    · rw [hzero i hi, addNode_ne (by omega), t.no_nodes hr]
      rfl
    · rw [t.no_nodes hr] at h; simp at h
  leaves := by
    intro q' a' h i hi
    rcases addNode_eq_some h with ⟨hl', -⟩ | h
    · omega
    · rw [t.no_nodes hr] at h; simp at h
  pos := by
    intro l' q' a' h
    rcases addNode_eq_some h with ⟨-, -, rfl⟩ | h
    · exact ha
    · exact t.pos h
  level := by
    intro l' q' a' h
    rcases addNode_eq_some h with ⟨rfl, rfl, -⟩ | h
    · exact ⟨le_refl _, by decide⟩
    · exact t.level h
  parent := by
    intro l' q' a' h hlt
    rcases addNode_eq_some h with ⟨rfl, rfl, -⟩ | h
    · omega
    · rw [t.no_nodes hr] at h; simp at h
  cover := by
    intro k hk
    obtain ⟨c, hc⟩ := t.cover hk
    rw [t.no_nodes hr] at hc
    simp at hc

theorem Table.setLeaf (t : Table m N leaf) {k v : Nat} (hb : N 0 (k / 512) = some b)
    (hroot : m'.pageRoot = m.pageRoot) (hentry : m'.word (entryAddr b (k % 512)) = v)
    (hold : ∀ {l q a}, N l q = some a → ∀ i < 512, ¬(l = 0 ∧ q = k / 512 ∧ i = k % 512) →
        m'.word (entryAddr a i) = m.word (entryAddr a i)) :
    Table m' N (Function.update leaf k v) where
  root := hroot.trans t.root
  inner h i hi := (hold h i hi (by omega)).trans (t.inner h i hi)
  leaves := by
    intro q a h i hi
    by_cases hk : q = k / 512 ∧ i = k % 512
    · obtain ⟨rfl, rfl⟩ := hk
      rw [hb] at h
      rw [← Option.some.inj h, hentry, Nat.div_add_mod', Function.update_self]
    · rw [hold h i hi (fun h => hk h.2), t.leaves h i hi, Function.update_of_ne]
      rintro rfl
      exact hk ⟨by omega, by omega⟩
  pos := t.pos
  level := t.level
  parent := t.parent
  cover := by
    intro k' hk'
    by_cases h : k' = k
    · rw [h]; exact ⟨b, hb⟩
    · rw [Function.update_of_ne h] at hk'
      exact t.cover hk'

end

end Unisym.Mempool
