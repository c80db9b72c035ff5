/-
# `Blocks` — a memory of separate blocks

A pointer is a block and a place in it.  A cell that was not written has no value, and an access outside of a
block has no result.  A block that is written from its beginning on is what was written so far, and the cells that
are left (`Begins`): one more cell goes behind, as long as one is left.
-/
import Mathlib.Logic.Function.Basic

namespace Unisym.Blocks

open Function List

structure Pointer where
  block : Nat
  place : Nat
  deriving DecidableEq, Repr

def Pointer.add (p : Pointer) (n : Nat) : Pointer := { p with place := p.place + n }

@[simp] theorem Pointer.add_block (p : Pointer) (n : Nat) : (p.add n).block = p.block := rfl
@[simp] theorem Pointer.add_place (p : Pointer) (n : Nat) : (p.add n).place = p.place + n := rfl

theorem Pointer.add_add (p : Pointer) (n k : Nat) : (p.add n).add k = p.add (n + k) := by
  rw [Pointer.add, Pointer.add, Pointer.add, Nat.add_assoc]

/-- The blocks, and the one that is allocated next. -/
structure Memory (α : Type) where
  blocks : Nat → Option (List (Option α))
  next : Nat
  fresh : ∀ b, next ≤ b → blocks b = none

namespace Memory

variable {α : Type} {m m' : Memory α} {b size : Nat} {text : List α}

/-- The cells from a pointer to the end of its block. -/
def cells (m : Memory α) (p : Pointer) : List (Option α) := ((m.blocks p.block).getD []).drop p.place

def load (m : Memory α) (p : Pointer) : Option α := (m.cells p).head?.join

def store (m : Memory α) (p : Pointer) (v : α) : Option (Memory α) :=
  match h : m.blocks p.block with
  | none => none
  | some cells =>
      if p.place < cells.length then
        some
          { blocks := update m.blocks p.block (some (cells.set p.place (some v)))
            next := m.next
            fresh := fun b hb => by
              have hne : b ≠ p.block := fun he => Option.some_ne_none cells (h.symm.trans (he ▸ m.fresh b hb))
              rw [update_of_ne hne, m.fresh b hb] }
      else none

/-- A new block with these cells. -/
def alloc (m : Memory α) (cells : List (Option α)) : Memory α where
  blocks := update m.blocks m.next (some cells)
  next := m.next + 1
  fresh := fun b hb => by rw [update_of_ne (by omega), m.fresh b (by omega)]

/-- Only this block may differ. -/
def SameBut (b : Nat) (m m' : Memory α) : Prop := ∀ b', b' ≠ b → m'.blocks b' = m.blocks b'

theorem SameBut.refl (b : Nat) (m : Memory α) : SameBut b m m := fun _ _ => rfl

theorem SameBut.trans {m₁ m₂ m₃ : Memory α} (h : SameBut b m₁ m₂) (h' : SameBut b m₂ m₃) : SameBut b m₁ m₃ :=
  fun b' hb => (h' b' hb).trans (h b' hb)

theorem SameBut.cells (h : SameBut b m m') {p : Pointer} (hp : p.block ≠ b) : m'.cells p = m.cells p := by
  rw [Memory.cells, Memory.cells, h p.block hp]

theorem sameBut_alloc (m : Memory α) (cells : List (Option α)) : SameBut m.next m (m.alloc cells) :=
  fun _ hb => update_of_ne hb _ _

theorem blocks_alloc (m : Memory α) (cells : List (Option α)) : (m.alloc cells).blocks m.next = some cells :=
  update_self _ _ _

theorem cells_add (m : Memory α) (p : Pointer) (n : Nat) : m.cells (p.add n) = (m.cells p).drop n := by
  rw [cells, cells, drop_drop]
  rfl

/-- The block is this text, and the cells behind it. -/
def Begins (m : Memory α) (b size : Nat) (text : List α) : Prop :=
  ∃ rest, m.blocks b = some (text.map some ++ rest) ∧ text.length + rest.length = size

theorem begins_alloc (m : Memory α) (cells : List (Option α)) : (m.alloc cells).Begins m.next cells.length [] :=
  ⟨cells, blocks_alloc m cells, Nat.zero_add _⟩

theorem Begins.length_le (h : m.Begins b size text) : text.length ≤ size := by
  obtain ⟨rest, -, hlength⟩ := h
  omega

theorem Begins.full (h : m.Begins b size text) (hsize : text.length = size) : m.blocks b = some (text.map some) := by
  obtain ⟨rest, hblock, hlength⟩ := h
  have hrest : rest = [] := length_eq_zero_iff.mp (by omega)
  rw [hblock, hrest, append_nil]

/-- One more cell. -/
theorem Begins.store (h : m.Begins b size text) (hroom : text.length < size) (v : α) :
    ∃ m', m.store ⟨b, text.length⟩ v = some m' ∧ m'.Begins b size (text ++ [v]) ∧ SameBut b m m' := by
  obtain ⟨rest, hblock, hlength⟩ := h
  match rest with
  | [] =>
    rw [length_nil] at hlength
    omega
  | c :: rest =>
    have hin : text.length < (text.map some ++ c :: rest).length := by
      simp only [length_append, length_map, length_cons]
      omega
    refine ⟨⟨update m.blocks b (some ((text.map some ++ c :: rest).set text.length (some v))), m.next,
      fun b' hb' => ?_⟩, ?_, ?_, fun b' hb' => update_of_ne hb' _ _⟩
    · have hne : b' ≠ b := fun he => Option.some_ne_none _ (hblock.symm.trans (he ▸ m.fresh b' hb'))
      rw [update_of_ne hne, m.fresh b' hb']
    · rw [Memory.store]
      split
      · next hnone => exact absurd (hblock.symm.trans hnone) (Option.some_ne_none _)
      · next cells hcells =>
        obtain rfl := Option.some.inj (hblock.symm.trans hcells)
        rw [if_pos hin]
    · refine ⟨rest, ?_, ?_⟩
      · have hset : (text.map some ++ c :: rest).set text.length (some v) = (text ++ [v]).map some ++ rest := by
          rw [set_append_right _ _ (Nat.le_of_eq (length_map _)), length_map, Nat.sub_self, set_cons_zero,
            map_append, append_assoc]
          rfl
        exact (update_self _ _ _).trans (congrArg some hset)
      · rw [length_append, length_singleton]
        rw [length_cons] at hlength
        omega

/-- Nothing goes behind a full block. -/
theorem Begins.store_full (h : m.Begins b size text) (hfull : text.length = size) (v : α) :
    m.store ⟨b, text.length⟩ v = none := by
  have hblock := h.full hfull
  rw [Memory.store]
  split
  · rfl
  · next cells hcells =>
    obtain rfl := Option.some.inj (hblock.symm.trans hcells)
    exact if_neg (by rw [length_map]; exact Nat.lt_irrefl _)

theorem store_sameBut {q : Pointer} {v : α} (h : m.store q v = some m') : SameBut q.block m m' := by
  rw [Memory.store] at h
  split at h
  · exact absurd h.symm (Option.some_ne_none _)
  · split at h
    · obtain rfl := Option.some.inj h
      exact fun b hb => update_of_ne hb _ _
    · exact absurd h.symm (Option.some_ne_none _)

/-- The text from a pointer on, one cell after the other. -/
def putAll : (text : List α) → (m : Memory α) → (q : Pointer) → Option (Memory α)
  | [], m, _ => some m
  | c :: text, m, q => do
      let m ← m.store q c
      putAll text m (q.add 1)

theorem putAll_append (s t : List α) (m : Memory α) (q : Pointer) :
    putAll (s ++ t) m q = (putAll s m q).bind fun m => putAll t m (q.add s.length) := by
  induction s generalizing m q with
  | nil => rfl
  | cons c s ih =>
    rw [cons_append, putAll, putAll, Option.bind_eq_bind]
    cases m.store q c with
    | none => rfl
    | some m' =>
      rw [Option.bind_some, Option.bind_some, ih, length_cons, Pointer.add_add, Nat.add_comm 1]

theorem putAll_sameBut {q : Pointer} (h : putAll text m q = some m') : SameBut q.block m m' := by
  induction text generalizing m q with
  | nil =>
    obtain rfl := Option.some.inj h
    exact SameBut.refl _ _
  | cons c text ih =>
    obtain ⟨m₁, hstore, hrest⟩ := Option.bind_eq_some_iff.mp h
    exact (store_sameBut hstore).trans (ih (q := q.add 1) hrest)

/-- A text goes behind as long as there is room. -/
theorem Begins.put_room (h : m.Begins b size text) (more : List α) (hroom : text.length + more.length ≤ size) :
    ∃ m', putAll more m ⟨b, text.length⟩ = some m' ∧ m'.Begins b size (text ++ more) := by
  induction more generalizing m text with
  | nil => exact ⟨m, rfl, by rw [append_nil]; exact h⟩
  | cons c more ih =>
    rw [length_cons] at hroom
    obtain ⟨m₁, hstore, hbegins, -⟩ := h.store (by omega) c
    have hlength : (text ++ [c]).length = text.length + 1 := length_append
    obtain ⟨m₂, hput, hend⟩ := ih hbegins (by omega)
    rw [hlength] at hput
    rw [append_assoc, singleton_append] at hend
    refine ⟨m₂, ?_, hend⟩
    rw [Memory.putAll, hstore]
    exact hput

/-- And not if there is none. -/
theorem Begins.put_full (h : m.Begins b size text) (more : List α) (hfull : size < text.length + more.length) :
    putAll more m ⟨b, text.length⟩ = none := by
  have hle := h.length_le
  induction more generalizing m text with
  | nil => exact absurd hfull (Nat.not_lt.mpr hle)
  | cons c more ih =>
    rw [length_cons] at hfull
    rw [Memory.putAll]
    by_cases hroom : text.length < size
    · obtain ⟨m₁, hstore, hbegins, -⟩ := h.store hroom c
      have hlength : (text ++ [c]).length = text.length + 1 := length_append
      have hnone := ih hbegins (by omega) hbegins.length_le
      rw [hlength] at hnone
      rw [hstore]
      exact hnone
    · rw [h.store_full (by omega) c]
      rfl

end Memory

end Unisym.Blocks
