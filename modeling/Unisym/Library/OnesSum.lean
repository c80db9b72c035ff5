/-
# `OnesSum` — sums with an end-around carry

Adding in one's complement is adding modulo `m` with `m` itself in place of zero: `endAround m s`
is what is left of a sum `s`.  A number that is put beside a sum so that all of it comes to `m`
is a check of it.
-/
import Mathlib.Data.Nat.Init
import Mathlib.Algebra.Group.Nat.Defs

namespace Unisym.OnesSum

variable {m s : Nat}

/-- The sum `s` with its carries added in. -/
def endAround (m s : Nat) : Nat := if s = 0 then 0 else (s - 1) % m + 1

theorem endAround_zero : endAround m 0 = 0 := rfl

theorem endAround_of_pos (hs : 0 < s) : endAround m s = (s - 1) % m + 1 := if_neg (by omega)

theorem endAround_le (hm : 0 < m) : endAround m s ≤ m := by
  have hmod := Nat.mod_lt (s - 1) hm
  unfold endAround
  split <;> omega

theorem endAround_of_le (h : s ≤ m) : endAround m s = s := by
  unfold endAround
  split
  case isTrue hs => exact hs.symm
  case isFalse hs =>
    rw [Nat.mod_eq_of_lt (by omega)]
    omega

/-- One round of carrying: as often as `m` is taken away, something is left. -/
theorem endAround_carry (hs : 0 < s) (k : Nat) : endAround m (m * k + s) = endAround m s := by
  rw [endAround_of_pos hs, endAround_of_pos (by omega)]
  have hsplit : m * k + s - 1 = s - 1 + m * k := by omega
  rw [hsplit, Nat.add_mul_mod_self_left]

/-- The complement of a sum completes it. -/
theorem endAround_complement (hm : 0 < m) (s : Nat) : endAround m (s + (m - endAround m s)) = m := by
  rcases Nat.eq_zero_or_pos s with rfl | hs
  · rw [endAround_zero, Nat.zero_add, Nat.sub_zero]
    exact endAround_of_le (Nat.le_refl m)
  · have hmod := Nat.mod_lt (s - 1) hm
    have hdiv := Nat.div_add_mod (s - 1) m
    have hsum : s + (m - endAround m s) = m * ((s - 1) / m) + m := by
      rw [endAround_of_pos hs]
      omega
    rw [hsum, endAround_carry hm]
    exact endAround_of_le (Nat.le_refl m)

/-- In place of a complement that is zero, `m` completes the sum as well. -/
theorem endAround_complement_zero (hm : 0 < m) (h : endAround m s = m) : endAround m (s + m) = m := by
  have hs : 0 < s := by
    rcases Nat.eq_zero_or_pos s with rfl | hs
    · rw [endAround_zero] at h
      omega
    · exact hs
  have hsum : s + m = m * 1 + s := by omega
  rw [hsum, endAround_carry hs]
  exact h

/-! ## Sums of words -/

/-- The sum of the words of two bytes, the last filled up with a zero. -/
def wordSum : List UInt8 → Nat
  | [] => 0
  | [b] => b.toNat * 256
  | b0 :: b1 :: rest => b0.toNat * 256 + b1.toNat + wordSum rest

theorem wordSum_append : (xs ys : List UInt8) → xs.length % 2 = 0 →
    wordSum (xs ++ ys) = wordSum xs + wordSum ys
  | [], _, _ => (Nat.zero_add _).symm
  | [_], _, h => by cases h
  | b0 :: b1 :: rest, ys, h => by
    rw [List.length_cons, List.length_cons] at h
    have ih := wordSum_append rest ys (by omega)
    simp only [List.cons_append, wordSum, ih]
    omega

theorem wordSum_le : (xs : List UInt8) → 2 * wordSum xs ≤ 65535 * (xs.length + 1)
  | [] => Nat.zero_le _
  | [b] => by
    have hb := b.toNat_lt
    simp only [wordSum, List.length_cons, List.length_nil]
    omega
  | b0 :: b1 :: rest => by
    have ih := wordSum_le rest
    have h0 := b0.toNat_lt
    have h1 := b1.toNat_lt
    simp only [wordSum, List.length_cons]
    omega

end Unisym.OnesSum
