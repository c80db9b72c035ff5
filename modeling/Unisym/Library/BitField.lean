/-
# `BitField` — bit fields of a byte store

A byte store is also a sequence of bits, the bits of a byte in ascending order.
`field m pos w` is the number in the `w` bits from `pos` on, and `FieldSet` says
that a store differs from another in one field only.  A table whose entries are
not whole bytes is a table of fields: its entries change one at a time because
their bits are apart.
-/
import Unisym.Library.ByteMem
import Mathlib.Data.Nat.Bitwise

namespace Unisym

namespace Mem

/-- Bit `i` of a store. -/
def bit (m : Mem) (i : Nat) : Bool := (m (i / 8)).toNat.testBit (i % 8)

/-- The number in the `w` bits from `pos` on. -/
def field (m : Mem) (pos w : Nat) : Nat :=
  readLE m (pos / 8) ((pos % 8 + w + 7) / 8) / 2 ^ (pos % 8) % 2 ^ w

/-- `m'` is `m` with `v` in the `w` bits from `pos` on. -/
def FieldSet (m m' : Mem) (pos w v : Nat) : Prop :=
  ∀ i, m'.bit i = if pos ≤ i ∧ i < pos + w then v.testBit (i - pos) else m.bit i

theorem bit_byte (m : Mem) (a : Nat) {j : Nat} (hj : j < 8) :
    m.bit (8 * a + j) = (m a).toNat.testBit j := by
  unfold bit
  rw [show (8 * a + j) / 8 = a by omega, show (8 * a + j) % 8 = j by omega]

/-- The bits of a number in a store. -/
theorem testBit_readLE (m : Mem) : ∀ (n a j : Nat),
    (readLE m a n).testBit j = (decide (j < 8 * n) && m.bit (8 * a + j))
  | 0, a, j => by simp [readLE]
  | n + 1, a, j => by
    have hsplit : readLE m a (n + 1) = 2 ^ 8 * readLE m (a + 1) n + (m a).toNat := by
      rw [readLE, Nat.add_comm, show (256 : Nat) = 2 ^ 8 from rfl]
    rw [hsplit, Nat.testBit_two_pow_mul_add _ (m a).toNat_lt]
    split
    · rename_i hj
      rw [bit_byte m a hj, decide_eq_true (by omega), Bool.true_and]
    · rename_i hj
      rw [testBit_readLE m n (a + 1), show 8 * (a + 1) + (j - 8) = 8 * a + j by omega]
      congr 1
      exact decide_eq_decide.mpr (by omega)

theorem testBit_field (m : Mem) (pos w j : Nat) :
    (field m pos w).testBit j = (decide (j < w) && m.bit (pos + j)) := by
  unfold field
  rw [Nat.testBit_mod_two_pow, Nat.testBit_div_two_pow, testBit_readLE]
  by_cases hj : j < w
  · have hin : j + pos % 8 < 8 * ((pos % 8 + w + 7) / 8) := by omega
    rw [decide_eq_true hin, Bool.true_and, show 8 * (pos / 8) + (j + pos % 8) = pos + j by omega]
  · rw [decide_eq_false hj, Bool.false_and, Bool.false_and]

/-- A number is a field when it has the bits of the field. -/
theorem eq_field {m : Mem} {pos w x : Nat}
    (h : ∀ j, x.testBit j = (decide (j < w) && m.bit (pos + j))) : x = field m pos w :=
  Nat.eq_of_testBit_eq fun j => by rw [h, testBit_field]

theorem field_congr {m m' : Mem} {pos pos' w : Nat}
    (h : ∀ j, j < w → m'.bit (pos' + j) = m.bit (pos + j)) : field m' pos' w = field m pos w := by
  refine eq_field fun j => ?_
  rw [testBit_field]
  by_cases hj : j < w
  · rw [h j hj]
  · rw [decide_eq_false hj, Bool.false_and, Bool.false_and]

/-- Bits come from bytes. -/
theorem bit_congr {m m' : Mem} {i i' : Nat} (hbyte : m' (i' / 8) = m (i / 8)) (hi : i' % 8 = i % 8) :
    m'.bit i' = m.bit i := by
  unfold bit
  rw [hbyte, hi]

end Mem

end Unisym
