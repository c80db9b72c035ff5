/-
# `BitCodes` — codes of any widths in a stream of bytes

Numbers are written into bytes one after the other, each with a width of its own, the least significant
bit first.  A stream is then one large number, and to read a code is a remainder and a quotient by a
power of two.  A bit buffer holds the low bits of what is left.
-/
import Mathlib.Data.Nat.Bitwise
import Mathlib.Tactic.Ring

namespace Unisym.BitCodes

/-! ## Bytes as one number -/

/-- The bytes as a number, the first the least significant. -/
def bytesValue : List UInt8 → Nat
  | [] => 0
  | b :: bs => b.toNat + 256 * bytesValue bs

theorem bytesValue_append : (bs cs : List UInt8) →
    bytesValue (bs ++ cs) = bytesValue bs + 2 ^ (8 * bs.length) * bytesValue cs
  | [], cs => by simp [bytesValue]
  | b :: bs, cs => by
    rw [List.cons_append, bytesValue, bytesValue, bytesValue_append bs cs, List.length_cons]
    ring

theorem bytesValue_lt : (bs : List UInt8) → bytesValue bs < 2 ^ (8 * bs.length)
  | [] => by simp [bytesValue]
  | b :: bs => by
    have ih := bytesValue_lt bs
    have hb := b.toNat_lt
    rw [bytesValue, List.length_cons, Nat.mul_add, Nat.pow_add]
    omega

/-! ## Codes -/

/-- The codes as one number, each a number and its width. -/
def packValue : List (Nat × Nat) → Nat
  | [] => 0
  | (code, width) :: codes => code + 2 ^ width * packValue codes

def packWidth : List (Nat × Nat) → Nat
  | [] => 0
  | (_, width) :: codes => width + packWidth codes

/-- A stream that begins with these codes, read by quotients and remainders. -/
theorem read_pack {value code width pad : Nat} {codes : List (Nat × Nat)} (hcode : code < 2 ^ width)
    (h : value = packValue ((code, width) :: codes) + 2 ^ packWidth ((code, width) :: codes) * pad) :
    value % 2 ^ width = code ∧
      value / 2 ^ width = packValue codes + 2 ^ packWidth codes * pad := by
  have hsplit : value = code + 2 ^ width * (packValue codes + 2 ^ packWidth codes * pad) := by
    rw [h, packValue, packWidth, Nat.pow_add]
    ring
  have hpos : 0 < 2 ^ width := Nat.two_pow_pos width
  rw [hsplit]
  exact ⟨by rw [Nat.add_mul_mod_self_left, Nat.mod_eq_of_lt hcode],
    by rw [Nat.add_mul_div_left _ _ hpos, Nat.div_eq_of_lt hcode, Nat.zero_add]⟩

/-! ## The bit buffer -/

/-- What is left of the first bytes, after their lowest `used` bits. -/
def buffered (bytes : List UInt8) (used : Nat) : Nat := bytesValue bytes / 2 ^ used

theorem buffered_lt {bytes : List UInt8} {used count : Nat} (h : used + count = 8 * bytes.length) :
    buffered bytes used < 2 ^ count := by
  rw [buffered, Nat.div_lt_iff_lt_mul (Nat.two_pow_pos used), ← Nat.pow_add, Nat.add_comm count, h]
  exact bytesValue_lt bytes

/-- A byte more goes above the bits that are there. -/
theorem buffered_concat {bytes : List UInt8} {used count : Nat} (b : UInt8)
    (h : used + count = 8 * bytes.length) :
    buffered (bytes ++ [b]) used = buffered bytes used ||| b.toNat <<< count := by
  have hlt := buffered_lt h
  rw [Nat.shiftLeft_eq, Nat.mul_comm, Nat.or_comm, ← Nat.two_pow_add_eq_or_of_lt hlt, buffered,
    buffered, bytesValue_append, ← h, Nat.pow_add, Nat.mul_assoc,
    Nat.add_mul_div_left _ _ (Nat.two_pow_pos used), Nat.add_comm]
  simp [bytesValue]

/-- The low bits of the buffer are those of the whole stream. -/
theorem buffered_mod {bytes rest : List UInt8} {used n : Nat} (h : used + n ≤ 8 * bytes.length) :
    buffered bytes used % 2 ^ n = bytesValue (bytes ++ rest) / 2 ^ used % 2 ^ n := by
  obtain ⟨k, hk⟩ := Nat.le.dest h
  rw [buffered, bytesValue_append, ← hk, Nat.pow_add, Nat.pow_add, Nat.mul_assoc, Nat.mul_assoc,
    Nat.add_mul_div_left _ _ (Nat.two_pow_pos used), Nat.add_mul_mod_self_left]

theorem buffered_div {bytes : List UInt8} {used n : Nat} :
    buffered bytes used / 2 ^ n = buffered bytes (used + n) := by
  rw [buffered, buffered, Nat.div_div_eq_div_mul, ← Nat.pow_add]

end Unisym.BitCodes
