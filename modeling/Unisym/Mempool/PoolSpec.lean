/-
# `PoolSpec` — `Append` and `Remove` are set operations

Growing is what makes `SinglePool` hard: a chain that owns its storage grows by
removing a page from the very set it represents, while an insertion or a
removal is pending.  `prepareNextPool_spec` shows that the inner removal always
has room, since the page just linked is empty, and that the page keeps away
from the pending removal.  `insert_spec` and `remove_spec` then need at most
one growth, and the depth of calls is bounded.
-/
import Unisym.Mempool.PoolEdit

namespace Unisym.Mempool

open List

/-- The bytes of the page at `a`. -/
def page (a : Nat) : Set Nat := Set.Ico a (a + poolSize)

namespace Chain

open Unisym.Intervals

/-- How the list of pools of `c` became that of `c'`, and which bytes of `c`
were taken to store a new pool. -/
inductive Growth (host : Option Nat) (c c' : Chain) : Set Nat → Prop where
  /-- No new pool. -/
  | none (hskel : c'.skel = c.skel) : Growth host c c' ∅
  /-- One new pool, stored in a page of the chain itself. -/
  | own {a : Nat} (hfull : c.tailFull = true) (howner : c.ownerId = 1)
      (hskel : c'.skel = c.skel ++ [(a, c.ownerId)]) (hfree : page a ⊆ c.bytes) :
      Growth host c c' (page a)
  /-- One new pool, stored where the outer allocator says. -/
  | host {a : Nat} (hfull : c.tailFull = true) (howner : c.ownerId ≠ 1)
      (hskel : c'.skel = c.skel ++ [(a, c.ownerId)]) (hhost : host = some a) :
      Growth host c c' ∅

section
variable {c c' : Chain} {s : Slice} {host : Option Nat}

theorem Growth.subset {taken : Set Nat} (h : Growth host c c' taken) : taken ⊆ c.bytes := by
  cases h with
  | none => exact Set.empty_subset _
  | own _ _ _ hfree => exact hfree
  | host => exact Set.empty_subset _

theorem Growth.edit {taken b : Set Nat} {c'' : Chain} (h : Growth host c c' taken)
    (he : Edit c' c'' b) : Growth host c c'' taken := by
  cases h with
  | none hskel => exact .none (he.skel.trans hskel)
  | own hfull howner hskel hfree => exact .own hfull howner (he.skel.trans hskel) hfree
  | host hfull howner hskel hhost => exact .host hfull howner (he.skel.trans hskel) hhost

/-! ## Where a new pool is stored -/

theorem poolSize_pos : 0 < poolSize := by decide

theorem le_ceilAlign {x : Nat} (hx : x < wordSize) :
    x ≤ ceilAlign poolSize x ∨ ceilAlign poolSize x = 0 := by
  unfold ceilAlign floorAlign wadd wsub poolSize wordSize at *
  omega

/-- A page found in `p` lies in `p`, and away from the pending removal. -/
theorem storagePage_spec {excluded : Option Slice} {p : Slice} {a : Nat} (hp : p.NoWrap)
    (hx : ∀ x ∈ excluded, x.NoWrap) (h : storagePage excluded p = some a) (h0 : a ≠ 0) :
    p.address ≤ a ∧ a + poolSize ≤ p.fin ∧ ∀ x ∈ excluded, Disjoint (page a) x.bytes := by
  unfold storagePage at h
  split at h
  · simp at h
  rename_i hlen
  rw [hp.endo] at h
  have hpw : p.fin < wordSize := hp
  have key : ∀ b, (if b ≥ p.address ∧ b ≤ p.fin ∧ poolSize ≤ p.fin - b then some b else none) =
      some a → b = a ∧ p.address ≤ a ∧ a + poolSize ≤ p.fin := by
    intro b hb
    split at hb
    · rename_i hin
      cases hb
      exact ⟨rfl, hin.1, by omega⟩
    · simp at hb
  cases excluded with
  | none =>
    obtain ⟨-, h1, h2⟩ := key _ h
    exact ⟨h1, h2, fun _ hx => by simp at hx⟩
  | some x =>
    obtain ⟨hb, h1, h2⟩ := key _ h
    have hxn := hx x rfl
    have hxw : x.fin < wordSize := hxn
    refine ⟨h1, h2, fun y hy => ?_⟩
    cases hy
    have hor : x.fin ≤ a ∨ a + poolSize ≤ x.address := by
      simp only [hxn.endo] at hb
      split at hb
      · -- moved beyond the pending removal, unless that wraps to zero
        rcases le_ceilAlign hxw with hle | hz <;> omega
      · rename_i hno
        rw [hb, wadd_eq (by omega)] at hno
        omega
    rw [Set.disjoint_left]
    rintro b ⟨hab, hba⟩ ⟨hxb, hbx⟩
    rcases hor with hor | hor <;> omega

theorem findStorage_spec {excluded : Option Slice} (hx : ∀ x ∈ excluded, x.NoWrap) {a : Nat} :
    ∀ {c : Chain}, (∀ s ∈ flat c, s.NoWrap) → findStorage excluded c = some a →
      ∃ l₁ p l₂, flat c = l₁ ++ p :: l₂ ∧ p.address ≤ a ∧ a + poolSize ≤ p.fin ∧
        ∀ x ∈ excluded, Disjoint (page a) x.bytes
  | [], _, h => by simp [findStorage] at h
  | q :: rest, hw, h => by
    have hrest : findStorage excluded rest = some a → ∃ l₁ p l₂,
        flat (q :: rest) = l₁ ++ p :: l₂ ∧ p.address ≤ a ∧ a + poolSize ≤ p.fin ∧
          ∀ x ∈ excluded, Disjoint (page a) x.bytes := by
      intro h'
      obtain ⟨l₁, p, l₂, hl, hp⟩ := findStorage_spec hx
        (fun s hs => hw s (mem_append_right _ hs)) h'
      exact ⟨q.live ++ l₁, p, l₂, by rw [flat_cons, hl, append_assoc], hp⟩
    unfold findStorage at h
    split at h
    · simp at h
    · split at h
      · rename_i b hb
        split at h
        · exact hrest h
        · rename_i hb0
          simp only [Option.some.injEq] at h
          subst h
          obtain ⟨p, hp, hpb⟩ := exists_of_findSome?_eq_some hb
          obtain ⟨l₁, l₂, hl⟩ := append_of_mem hp
          refine ⟨l₁, p, l₂ ++ flat rest, by rw [flat_cons, hl]; simp, ?_⟩
          exact storagePage_spec (hw p (mem_append_left _ hp)) hx hpb hb0
      · exact hrest h

/-! ## Growing -/

theorem flat_fresh (a o : Nat) : flat [SinglePool.fresh a o] = [] :=
  flat_eq_nil (by intro p hp; rw [mem_singleton.mp hp]; rfl)

theorem flat_append_fresh (c : Chain) (a o : Nat) :
    flat (c ++ [SinglePool.fresh a o]) = flat c := by
  rw [flat_append, flat_fresh, append_nil]

theorem Inv.append_fresh (h : Inv c) (a o : Nat) : Inv (c ++ [SinglePool.fresh a o]) where
  nonempty := by simp
  packed := by
    obtain ⟨h1, h2⟩ := h.packed
    refine ⟨?_, ?_⟩
    · intro p hp
      rcases mem_append.mp hp with hp | hp
      · exact h1 p hp
      · rw [mem_singleton.mp hp]; exact Nat.zero_le _
    · refine pairwise_append.mpr ⟨h2, pairwise_singleton .., ?_⟩
      intro p _ q hq hne
      rw [mem_singleton.mp hq] at hne
      exact absurd rfl hne
  sep := by rw [flat_append_fresh]; exact h.sep
  noWrap := by rw [flat_append_fresh]; exact h.noWrap

theorem bytes_append_fresh (c : Chain) (a o : Nat) :
    Chain.bytes (c ++ [SinglePool.fresh a o]) = c.bytes := by
  unfold Chain.bytes
  rw [flat_append_fresh]

theorem skel_append_fresh (c : Chain) (a o : Nat) :
    skel (c ++ [SinglePool.fresh a o]) = c.skel ++ [(a, o)] := by
  simp [skel, SinglePool.fresh]

/-- A chain one pool longer than what its slices fill has an empty tail. -/
theorem tailFull_of_length (h : Inv c) {n : Nat} (hlen : c.length = n + 1)
    (hle : (flat c).length ≤ cntSlicesPerPool * n + 1) : c.tailFull = false := by
  have hcnt := h.shape.cnt_eq (l := n) (by omega)
  have hsmall : c.cnt n < cntSlicesPerPool - 2 := by
    rw [hcnt]
    rw [cntSlicesPerPool_eq] at *
    omega
  unfold tailFull tailCnt
  rw [hlen, Nat.add_sub_cancel]
  exact decide_eq_false (Nat.not_le.mpr hsmall)

/-- Where a growing chain would store its new pool. -/
def newStorage (host : Option Nat) (c : Chain) (excluded : Option Slice) : Option Nat :=
  if c.ownerId = 1 then findStorage excluded c else host

/-- What a growing chain leaves: the same slices but for the page taken, and an
empty tail. -/
structure Grown (host : Option Nat) (excluded : Option Slice) (c c' : Chain)
    (taken : Set Nat) : Prop where
  inv : Inv c'
  growth : Growth host c c' taken
  bytes : c'.bytes = c.bytes \ taken
  room : c'.tailFull = false
  excluded : ∀ x ∈ excluded, Disjoint taken x.bytes

/-- `PrepareNextPool` grows the chain by one pool or leaves it alone. -/
theorem prepareNextPool_spec (fuel : Nat) (h : Inv c) (hfull : c.tailFull = true)
    {e : Option Slice} (hx : ∀ x ∈ e, x.NoWrap) :
    (newStorage host c e = none ∧
      prepareNextPool host (fuel + 3) c e = some (false, c)) ∨
    (∃ a c' taken, newStorage host c e = some a ∧
      prepareNextPool host (fuel + 3) c e = some (true, c') ∧
      Grown host e c c' taken ∧ c'.skel = c.skel ++ [(a, c.ownerId)]) := by
  have hle := h.shape.2
  unfold prepareNextPool newStorage
  by_cases hown : c.ownerId = 1
  · rw [if_pos hown, if_pos hown]
    cases hf : findStorage e c with
    | none => exact Or.inl ⟨rfl, rfl⟩
    | some a =>
      right
      obtain ⟨l₁, p, l₂, hl, hpa, hap, hdisj⟩ := findStorage_spec hx h.noWrap hf
      have hg := h.append_fresh a c.ownerId
      have hroom : tailFull (c ++ [SinglePool.fresh a c.ownerId]) = false :=
        tailFull_of_length hg (n := c.length) (by simp) (by rw [flat_append_fresh]; omega)
      have hpw := h.noWrap p (by rw [hl]; simp)
      obtain ⟨c', hc', hedit⟩ := remove_room host fuel (s := ⟨a, poolSize⟩) hg
        (lt_of_le_of_lt hap hpw) poolSize_pos (by rw [flat_append_fresh]; exact hl) hpa hap
        (fun _ _ => hroom)
      have hskel : c'.skel = c.skel ++ [(a, c.ownerId)] := by
        rw [hedit.skel, skel_append_fresh]
      have hpage : page a ⊆ c.bytes := by
        rw [Chain.bytes, hl]
        refine Set.Subset.trans ?_ (bytes_subset_bytesOf (s := p) (by simp))
        exact fun b hb => ⟨le_trans hpa hb.1, lt_of_lt_of_le hb.2 hap⟩
      refine ⟨a, c', page a, rfl, by simp only [hc'],
        ⟨hedit.inv, .own hfull hown hskel hpage, ?_, ?_, hdisj⟩, hskel⟩
      · rw [hedit.bytes, bytes_append_fresh]
        rfl
      · refine tailFull_of_length hedit.inv (n := c.length) ?_ ?_
        · rw [length_eq_of_skel hedit.skel]; simp
        · have := hedit.length_le
          rw [flat_append_fresh] at this
          omega
  · rw [if_neg hown, if_neg hown]
    cases hhost : host with
    | none => exact Or.inl ⟨rfl, rfl⟩
    | some a =>
      right
      have hg := h.append_fresh a c.ownerId
      refine ⟨a, _, ∅, rfl, rfl, ⟨hg, .host hfull hown (skel_append_fresh ..) rfl, ?_, ?_, ?_⟩,
        skel_append_fresh ..⟩
      · rw [bytes_append_fresh, Set.sdiff_empty]
      · exact tailFull_of_length hg (n := c.length) (by simp) (by rw [flat_append_fresh]; omega)
      · exact fun _ _ => Set.empty_disjoint _

/-! ## Insertion and removal -/

/-- What a completed operation on `s` leaves, up to the page it may have taken. -/
structure Done (host : Option Nat) (s : Slice) (c c' : Chain) (taken b : Set Nat) : Prop where
  inv : Inv c'
  growth : Growth host c c' taken
  apart : Disjoint taken s.bytes
  bytes : c'.bytes = b \ taken

theorem Edit.done {b : Set Nat} (h : Edit c c' b) : Done host s c c' ∅ b :=
  ⟨h.inv, .none h.skel, Set.empty_disjoint _, by rw [h.bytes, Set.sdiff_empty]⟩

/-- Inserting into a gap stores the slice, unless the chain had to grow and
could not. -/
theorem insert_spec (fuel : Nat) {l₁ l₂ : List Slice} (h : Inv c) (hs : s.NoWrap)
    (hpos : 0 < s.length) (hl : flat c = l₁ ++ l₂) (hg : Gap s l₁ l₂) :
    insert host (fuel + 4) c l₁.length s = some (false, c) ∨
      ∃ c' taken, insert host (fuel + 4) c l₁.length s = some (true, c') ∧
        Done host s c c' taken (c.bytes ∪ s.bytes) := by
  cases hroom : c.tailFull with
  | false =>
    obtain ⟨c', hc', hedit⟩ := insert_room host (fuel + 3) h hs hpos hl hg hroom
    exact Or.inr ⟨c', ∅, hc', hedit.done⟩
  | true =>
    unfold insert
    simp only [h.shape.lengthOf]
    rw [if_neg (by rw [hl]; simp)]
    rcases seeLeft_spec h hs hpos hl hg with ⟨h1, hleft⟩ | ⟨c', h1, hedit⟩
    · rcases seeRight_spec h hs hpos hl hg hleft with ⟨h2, -⟩ | ⟨c', h2, hedit⟩
      · rw [h1, h2]
        simp only [hroom, if_true]
        rcases prepareNextPool_spec fuel h hroom (e := none)
          (fun _ hx => by simp at hx) with ⟨-, hp⟩ | ⟨-, c', taken, -, hp, hgrown, -⟩
        · rw [hp]; exact Or.inl rfl
        · rw [hp]
          right
          have hdisj : Disjoint s.bytes c.bytes := by
            rw [Chain.bytes, hl]; exact hg.disjoint
          -- the slices may have moved: look the gap up again
          have hsub : c'.bytes ⊆ c.bytes := by
            rw [hgrown.bytes]; exact Set.sdiff_subset
          obtain ⟨k₁, k₂, hk, hgk⟩ := exists_gap hpos hgrown.inv.sep (hdisj.mono_right hsub)
          obtain ⟨idx, hidx⟩ := ifContainNon_gap hgrown.inv hs hpos hk hgk
          obtain ⟨m₁, m₂, hm, rfl, hgm⟩ := ifContainNon_spec hgrown.inv hs hidx
          obtain ⟨c'', hc'', hedit⟩ := insert_room host (fuel + 2) hgrown.inv hs hpos hm hgm
            hgrown.room
          refine ⟨c'', taken, by simp only [hidx, hc''], hedit.inv, hgrown.growth.edit hedit,
            (hdisj.mono_right hgrown.growth.subset).symm, ?_⟩
          rw [hedit.bytes, hgrown.bytes, Set.union_sdiff_distrib]
          congr 1
          exact (sdiff_eq_left.mpr (hdisj.mono_right hgrown.growth.subset)).symm
      · rw [h1, h2]; exact Or.inr ⟨c', ∅, rfl, hedit.done⟩
    · rw [h1]; exact Or.inr ⟨c', ∅, rfl, hedit.done⟩

theorem append_spec (h : Inv c) (hs : s.NoWrap) (hpos : 0 < s.length) :
    c.append host s = some (false, c) ∨
      ∃ c' taken, c.append host s = some (true, c') ∧ Disjoint s.bytes c.bytes ∧
        Done host s c c' taken (c.bytes ∪ s.bytes) := by
  unfold append
  cases hidx : c.ifContainNon s with
  | none => exact Or.inl rfl
  | some idx =>
    obtain ⟨l₁, l₂, hl, rfl, hg⟩ := ifContainNon_spec h hs hidx
    rcases insert_spec 4 h hs hpos hl hg with hi | ⟨c', taken, hi, hdone⟩
    · exact Or.inl hi
    · refine Or.inr ⟨c', taken, hi, ?_, hdone⟩
      rw [Chain.bytes, hl]
      exact hg.disjoint

/-- When `Append` makes the chain grow: the last pool is full, the slice touches
no slice of the chain, and there is storage. -/
def Grows (host : Option Nat) (c : Chain) (s : Slice) : Prop :=
  c.tailFull = true ∧ (∀ x ∈ flat c, x.fin < s.address ∨ s.fin < x.address) ∧
    newStorage host c none ≠ none

section

variable (h : Inv c) (hs : s.NoWrap) (hpos : 0 < s.length)
include h hs hpos

theorem append_skel (hng : ¬Grows host c s) {ok : Bool} (ha : c.append host s = some (ok, c')) :
    c'.skel = c.skel := by
  unfold append at ha
  cases hidx : c.ifContainNon s with
  | none => rw [hidx] at ha; cases ha; rfl
  | some idx =>
    rw [hidx] at ha
    obtain ⟨l₁, l₂, hl, rfl, hg⟩ := ifContainNon_spec h hs hidx
    simp only [callDepth] at ha
    cases hroom : c.tailFull with
    | false =>
      obtain ⟨c'', hc'', hedit⟩ := insert_room host 7 h hs hpos hl hg hroom
      rw [hc''] at ha
      cases ha
      exact hedit.skel
    | true =>
      unfold insert at ha
      simp only [h.shape.lengthOf] at ha
      rw [if_neg (by rw [hl]; simp)] at ha
      rcases seeLeft_spec h hs hpos hl hg with ⟨h1, hleft⟩ | ⟨c'', h1, hedit⟩
      · rcases seeRight_spec h hs hpos hl hg hleft with ⟨h2, hright⟩ | ⟨c'', h2, hedit⟩
        · rw [h1, h2] at ha
          simp only [hroom, if_true] at ha
          have hnone : newStorage host c none = none := by
            by_contra hne
            refine hng ⟨hroom, fun x hx => ?_, hne⟩
            rw [hl] at hx
            exact (mem_append.mp hx).imp (hleft x) (hright x)
          rcases prepareNextPool_spec 4 h hroom (e := none)
            (fun _ hx => by simp at hx) with ⟨-, hp⟩ | ⟨a, -, -, hst, -⟩
          · rw [hp] at ha; cases ha; rfl
          · rw [hnone] at hst; simp at hst
        · rw [h1, h2] at ha; cases ha; exact hedit.skel
      · rw [h1] at ha; cases ha; exact hedit.skel

/-- A chain that grows stores the slice and has one pool more. -/
theorem append_grows (hg : Grows host c s) :
    ∃ a c', c.append host s = some (true, c') ∧ c'.skel = c.skel ++ [(a, c.ownerId)] := by
  obtain ⟨hfull, hfar, hst⟩ := hg
  have hsf : s.fin = s.address + s.length := rfl
  have hdisj : Disjoint s.bytes (bytesOf (flat c)) := by
    rw [Set.disjoint_left]
    rintro b ⟨h1, h2⟩ ⟨x, hx, h3, h4⟩
    rcases hfar x hx with h5 | h5 <;> omega
  obtain ⟨k₁, k₂, hk, hgk⟩ := exists_gap hpos h.sep hdisj
  obtain ⟨idx, hidx⟩ := ifContainNon_gap h hs hpos hk hgk
  obtain ⟨l₁, l₂, hl, rfl, hgap⟩ := ifContainNon_spec h hs hidx
  have hleft : ∀ x ∈ l₁, x.fin < s.address := by
    intro x hx
    have h1 := hgap.1 x hx
    have h2 := h.sep.lt (x := x) (by rw [hl]; simp [hx])
    rcases hfar x (by rw [hl]; simp [hx]) with h5 | h5 <;> omega
  have hright : ∀ y ∈ l₂, s.fin < y.address := by
    intro y hy
    have h1 := hgap.2 y hy
    have h2 := h.sep.lt (x := y) (by rw [hl]; simp [hy])
    rcases hfar y (by rw [hl]; simp [hy]) with h5 | h5 <;> omega
  unfold append insert callDepth
  rw [hidx]
  simp only [h.shape.lengthOf]
  rw [if_neg (by rw [hl]; simp)]
  rcases seeLeft_spec h hs hpos hl hgap with ⟨h1, -⟩ | ⟨c'', h1, -⟩
  · rcases seeRight_spec h hs hpos hl hgap hleft with ⟨h2, -⟩ | ⟨c'', h2, -⟩
    · rw [h1, h2]
      simp only [hfull, if_true]
      rcases prepareNextPool_spec 4 h hfull (e := none)
        (fun _ hx => by simp at hx) with ⟨hno, -⟩ | ⟨a, c', taken, -, hp, hgrown, hskel⟩
      · exact absurd hno hst
      · rw [hp]
        have hsub : c'.bytes ⊆ c.bytes := by
          rw [hgrown.bytes]; exact Set.sdiff_subset
        obtain ⟨m₁, m₂, hm, hgm⟩ := exists_gap hpos hgrown.inv.sep (hdisj.mono_right hsub)
        obtain ⟨idx, hidx'⟩ := ifContainNon_gap hgrown.inv hs hpos hm hgm
        obtain ⟨n₁, n₂, hn, rfl, hgn⟩ := ifContainNon_spec hgrown.inv hs hidx'
        obtain ⟨c'', hc'', hedit⟩ := insert_room host 6 hgrown.inv hs hpos hn hgn hgrown.room
        exact ⟨a, c'', by simp only [hidx', hc''], hedit.skel.trans hskel⟩
    · exact absurd h2 (seeRight_none h hs hl hright c'')
  · exact absurd h1 (seeLeft_none h hl hleft c'')

theorem append_last (hlast : ∀ x ∈ flat c, x.fin < s.address) (hroom : c.tailFull = false) :
    ∃ c', c.append host s = some (true, c') ∧ Inv c' ∧ flat c' = flat c ++ [s] ∧
      c'.skel = c.skel := by
  have hgap : Gap s (flat c) [] :=
    ⟨fun x hx => Nat.le_of_lt (hlast x hx), fun _ hy => absurd hy not_mem_nil⟩
  obtain ⟨idx, hidx⟩ := ifContainNon_gap h hs hpos (append_nil _).symm hgap
  obtain ⟨l₁, l₂, hl, rfl, hg⟩ := ifContainNon_spec h hs hidx
  have hsf : s.fin = s.address + s.length := rfl
  -- nothing lies behind `s`
  have hl₂ : l₂ = [] := by
    cases l₂ with
    | nil => rfl
    | cons y r =>
      have h1 := hg.2 y mem_cons_self
      have h2 := hlast y (by rw [hl]; simp)
      have h3 := h.sep.lt (x := y) (by rw [hl]; simp)
      omega
  subst hl₂
  rw [append_nil] at hl
  obtain ⟨c', hc', hedit⟩ := insert_room host 7 h hs hpos (by rw [hl]; simp)
    hg hroom
  obtain ⟨c'', hc'', hshape, hskel, hflat⟩ := place_spec s h.shape (h.room hroom) (le_refl _)
  have hleft : ∀ x ∈ l₁, x.fin < s.address := hl ▸ hlast
  have hsame : c.insert host 8 l₁.length s = some (true, c'') := by
    unfold insert
    simp only [h.shape.lengthOf]
    rw [if_neg (by rw [hl]; simp)]
    rcases seeLeft_spec h hs hpos (by rw [hl]; simp) hg with ⟨h1, -⟩ | ⟨d, h1, -⟩
    · rcases seeRight_spec h hs hpos (by rw [hl]; simp) hg hleft with
        ⟨h2, -⟩ | ⟨d, h2, -⟩
      · rw [h1, h2]
        simp only [hroom, Bool.false_eq_true, if_false]
        rw [← hl, hc'']
      · exact absurd h2 (seeRight_none h hs (by rw [hl]; simp)
          (fun _ hy => absurd hy not_mem_nil) d)
    · exact absurd h1 (seeLeft_none h (show flat c = l₁ ++ [] by rw [hl]; simp) hleft d)
  rw [hc'] at hsame
  cases hsame
  refine ⟨c', ?_, hedit.inv, ?_, hskel⟩
  · unfold append
    rw [hidx]
    exact hc'
  · rw [hflat, insertIdx_length_self]

theorem remove_spec : c.remove host s = some (false, c) ∨
      ∃ c' taken, c.remove host s = some (true, c') ∧ s.bytes ⊆ c.bytes ∧
        Done host s c c' taken (c.bytes \ s.bytes) := by
  have hsf : s.fin = s.address + s.length := rfl
  unfold remove callDepth
  cases hfind : ifContainAll s 0 c with
  | none => left; unfold removeSlice; rw [hfind]
  | some i =>
    rw [ifContainAll_eq s 0 h.packed] at hfind
    obtain ⟨l₁, x, l₂, hl, hi, hx1, hx2⟩ :=
      scanAll_some hs h.noWrap (Option.join_eq_some_iff.mp hfind)
    have hsub : s.bytes ⊆ c.bytes := by
      rw [Chain.bytes, hl]
      refine Set.Subset.trans ?_ (bytes_subset_bytesOf (s := x) (by simp))
      exact fun b hb => ⟨le_trans hx1 hb.1, lt_of_lt_of_le hb.2 hx2⟩
    by_cases hroom : x.address < s.address → s.fin < x.fin → c.tailFull = false
    · obtain ⟨c', hc', hedit⟩ := remove_room host 6 h hs hpos hl hx1 hx2 hroom
      exact Or.inr ⟨c', ∅, hc', hsub, hedit.done⟩
    · simp only [Classical.not_imp, Bool.not_eq_false] at hroom
      obtain ⟨hlt1, hlt2, hfull⟩ := hroom
      obtain ⟨hitem, hleft, hright⟩ := remove_parent h hs hl hx1 hx2
      have hxf : x.fin = x.address + x.length := rfl
      have hii : i = l₁.length := by rw [hi, Nat.zero_mul, Nat.zero_add]
      have hfind' : ifContainAll s 0 c = some l₁.length := by
        rw [ifContainAll_eq s 0 h.packed, hfind, hii]
      unfold removeSlice
      rw [hfind']
      simp only [hitem, hleft, hright]
      rw [if_neg (by omega), if_neg (by omega), if_neg (by omega)]
      simp only [hfull, if_true]
      rcases prepareNextPool_spec 4 h hfull (e := some s)
        (fun x hx => by cases hx; exact hs) with ⟨-, hp⟩ | ⟨-, c', taken, -, hp, hgrown, -⟩
      · rw [hp]; exact Or.inl rfl
      · rw [hp]
        right
        have hdisj := hgrown.excluded s rfl
        have hsub' : s.bytes ⊆ c'.bytes := by
          rw [hgrown.bytes]
          exact fun b hb => ⟨hsub hb, fun hbt => Set.disjoint_left.mp hdisj hbt hb⟩
        obtain ⟨k₁, y, k₂, hk, hy1, hy2⟩ :=
          hgrown.inv.sep.exists_of_Ico_subset (a := s.address) (b := s.fin) (by omega) hsub'
        obtain ⟨c'', hc'', hedit⟩ := remove_room host 5 hgrown.inv hs hpos hk hy1 hy2
          (fun _ _ => hgrown.room)
        refine ⟨c'', taken, hc'', hsub, hedit.inv, hgrown.growth.edit hedit, hdisj, ?_⟩
        rw [hedit.bytes, hgrown.bytes, Set.sdiff_sdiff_comm]

end

end

theorem inv_fresh (a o : Nat) : Inv [SinglePool.fresh a o] where
  nonempty := cons_ne_nil _ _
  packed := ⟨fun p hp => by rw [mem_singleton.mp hp]; exact Nat.zero_le _,
    pairwise_singleton ..⟩
  sep := by rw [flat_fresh]; exact separated_nil
  noWrap := by rw [flat_fresh]; simp

end Chain

end Unisym.Mempool
