/-
# `Packing` — numbers packed from fields

A machine word is often a row of fields, each with its own width.  `pack` is the number of such
a row, its first field in the lowest bits, and `field` reads some bits of a number.  A field
that fits its width is read back from where it stands (`field_pack`).

A word that is put together by shifts and bitwise or, each field shifted past those below it, is
such a row (`orRow_pack`).
-/
import Mathlib.Data.Nat.Bitwise

namespace Unisym.Packing

/-- The `width` bits of a number from bit `low` on. -/
def field (n low width : Nat) : Nat := n / 2 ^ low % 2 ^ width

theorem field_lt (n low width : Nat) : field n low width < 2 ^ width :=
  Nat.mod_lt _ (Nat.two_pow_pos width)

/-- Bits of a number as a shift and a mask give them. -/
theorem shiftRight_and (n low width : Nat) : (n >>> low) &&& (2 ^ width - 1) = field n low width := by
  rw [Nat.and_two_pow_sub_one_eq_mod, Nat.shiftRight_eq_div_pow]
  rfl

/-- Fields that are next to each other. -/
theorem field_add (n : Nat) {low next width width' total : Nat} (hnext : next = low + width)
    (htotal : total = width + width') :
    field n low total = field n low width + 2 ^ width * field n next width' := by
  subst hnext htotal
  unfold field
  rw [Nat.pow_add, Nat.mod_mul, Nat.div_div_eq_div_mul, ← Nat.pow_add]

theorem or_shiftLeft {a k : Nat} (h : a < 2 ^ k) (b : Nat) : a ||| b <<< k = a + 2 ^ k * b := by
  rw [Nat.or_comm, ← Nat.shiftLeft_add_eq_or_of_lt h, Nat.shiftLeft_eq, Nat.mul_comm, Nat.add_comm]

/-! ## Rows -/

/-- The number of a row of fields, each with its width. -/
def pack : List (Nat × Nat) → Nat
  | [] => 0
  | f :: fs => f.2 + 2 ^ f.1 * pack fs

/-- The bits of a row. -/
def bits : List (Nat × Nat) → Nat
  | [] => 0
  | f :: fs => f.1 + bits fs

/-- Each field has room for its number. -/
def Fits (fs : List (Nat × Nat)) : Prop := ∀ f ∈ fs, f.2 < 2 ^ f.1

theorem pack_append (fs gs : List (Nat × Nat)) : pack (fs ++ gs) = pack fs + 2 ^ bits fs * pack gs := by
  induction fs with
  | nil => simp [pack, bits]
  | cons f fs ih =>
    show f.2 + 2 ^ f.1 * pack (fs ++ gs) = f.2 + 2 ^ f.1 * pack fs + 2 ^ (f.1 + bits fs) * pack gs
    rw [ih, Nat.mul_add, Nat.pow_add, Nat.mul_assoc, Nat.add_assoc]

theorem pack_lt {fs : List (Nat × Nat)} (h : Fits fs) : pack fs < 2 ^ bits fs := by
  induction fs with
  | nil => exact Nat.one_pos
  | cons f fs ih =>
    obtain ⟨hf, hfs⟩ := List.forall_mem_cons.mp h
    have hrow := Nat.mul_le_mul_left (2 ^ f.1) (ih hfs)
    show f.2 + 2 ^ f.1 * pack fs < 2 ^ (f.1 + bits fs)
    rw [Nat.mul_succ] at hrow
    rw [Nat.pow_add]
    omega

/-- A row put together by shifts and bitwise or, on the lowest `low` bits `n`. -/
def orRow (low n : Nat) : List (Nat × Nat) → Nat
  | [] => n
  | f :: fs => orRow (low + f.1) (n ||| f.2 <<< low) fs

theorem orRow_eq {fs : List (Nat × Nat)} {low n : Nat} (hn : n < 2 ^ low) (h : Fits fs) :
    orRow low n fs = n + 2 ^ low * pack fs := by
  induction fs generalizing low n with
  | nil => rfl
  | cons f fs ih =>
    obtain ⟨hf, hfs⟩ := List.forall_mem_cons.mp h
    have hnext := Nat.mul_le_mul_left (2 ^ low) hf
    show orRow (low + f.1) (n ||| f.2 <<< low) fs = n + 2 ^ low * (f.2 + 2 ^ f.1 * pack fs)
    rw [or_shiftLeft hn, ih (by rw [Nat.pow_add]; rw [Nat.mul_succ] at hnext; omega) hfs, Nat.mul_add,
      Nat.pow_add, Nat.mul_assoc, Nat.add_assoc]

theorem orRow_pack {f : Nat × Nat} {fs : List (Nat × Nat)} (h : Fits (f :: fs)) :
    orRow f.1 f.2 fs = pack (f :: fs) :=
  orRow_eq (List.forall_mem_cons.mp h).1 (List.forall_mem_cons.mp h).2

/-- A field is read back from behind those below it. -/
theorem field_pack (fs : List (Nat × Nat)) {gs : List (Nat × Nat)} {n width v : Nat}
    (hn : n = pack (fs ++ (width, v) :: gs)) (h : Fits (fs ++ (width, v) :: gs)) :
    field n (bits fs) width = v := by
  subst hn
  have hbelow : Fits fs := fun f hf => h f (List.mem_append_left _ hf)
  have hv : v < 2 ^ width := h (width, v) List.mem_append_cons_self
  rw [pack_append]
  unfold field
  rw [Nat.add_mul_div_left _ _ (Nat.two_pow_pos _), Nat.div_eq_of_lt (pack_lt hbelow), Nat.zero_add]
  show (v + 2 ^ width * pack gs) % 2 ^ width = v
  rw [Nat.add_mul_mod_self_left, Nat.mod_eq_of_lt hv]

/-- What stands above the first fields. -/
theorem pack_div (fs : List (Nat × Nat)) {gs : List (Nat × Nat)} {n : Nat} (hn : n = pack (fs ++ gs))
    (h : Fits fs) : n / 2 ^ bits fs = pack gs := by
  subst hn
  rw [pack_append, Nat.add_mul_div_left _ _ (Nat.two_pow_pos _), Nat.div_eq_of_lt (pack_lt h),
    Nat.zero_add]

end Unisym.Packing
