/-
# `ByteMem` — a byte-addressed store with little-endian words

A store is a function from addresses to bytes, so that a frame condition is an
equation between two functions on a set of addresses.  `readLE m a n` is the
number in the `n` bytes from `a` on, least significant first; `writeLE` and
`fill` change the `n` bytes from `a` on and nothing else.
-/
import Mathlib.Algebra.Group.Nat.Defs
import Mathlib.Order.CompletePartialOrder
import Mathlib.Data.Set.Lattice

namespace Unisym

/-- A byte-addressed store. -/
abbrev Mem := Nat → UInt8

namespace Mem

/-- The little-endian number in the `n` bytes at `a`. -/
def readLE (m : Mem) (a : Nat) : Nat → Nat
  | 0 => 0
  | n + 1 => (m a).toNat + 256 * readLE m (a + 1) n

/-- Write the low `n` bytes of `v` at `a`, least significant first. -/
def writeLE (m : Mem) (a n v : Nat) : Mem := fun b =>
  if a ≤ b ∧ b < a + n then UInt8.ofNat (v / 256 ^ (b - a)) else m b

/-- Set the `n` bytes at `a`. -/
def fill (m : Mem) (a n : Nat) (v : UInt8) : Mem := fun b =>
  if a ≤ b ∧ b < a + n then v else m b

/-- The stores agree on a set of addresses. -/
def AgreeOn (s : Set Nat) (m m' : Mem) : Prop := ∀ b ∈ s, m' b = m b

theorem AgreeOn.refl (s : Set Nat) (m : Mem) : AgreeOn s m m := fun _ _ => rfl

theorem AgreeOn.trans {s : Set Nat} {m₁ m₂ m₃ : Mem} (h : AgreeOn s m₁ m₂)
    (h' : AgreeOn s m₂ m₃) : AgreeOn s m₁ m₃ := fun b hb => (h' b hb).trans (h b hb)

theorem AgreeOn.mono {s t : Set Nat} {m m' : Mem} (h : AgreeOn s m m') (hts : t ⊆ s) :
    AgreeOn t m m' := fun b hb => h b (hts hb)

theorem agreeOn_writeLE {s : Set Nat} {a n v : Nat} (m : Mem)
    (h : Disjoint s (Set.Ico a (a + n))) : AgreeOn s m (m.writeLE a n v) := by
  intro b hb
  unfold writeLE
  rw [if_neg fun hab => Set.disjoint_left.mp h hb ⟨hab.1, hab.2⟩]

theorem agreeOn_fill {s : Set Nat} {a n : Nat} {v : UInt8} (m : Mem)
    (h : Disjoint s (Set.Ico a (a + n))) : AgreeOn s m (m.fill a n v) := by
  intro b hb
  unfold fill
  rw [if_neg fun hab => Set.disjoint_left.mp h hb ⟨hab.1, hab.2⟩]

/-- A number is read from its own bytes only. -/
theorem readLE_congr {m m' : Mem} : ∀ {n a : Nat}, AgreeOn (Set.Ico a (a + n)) m m' →
    readLE m' a n = readLE m a n
  | 0, _, _ => rfl
  | n + 1, a, h => by
    unfold readLE
    rw [h a ⟨by omega, by omega⟩,
      readLE_congr fun b hb => h b ⟨by have := hb.1; omega, by have := hb.2; omega⟩]

theorem readLE_lt (m : Mem) : ∀ (n a : Nat), readLE m a n < 256 ^ n
  | 0, _ => by simp [readLE]
  | n + 1, a => by
    have ih := readLE_lt m n (a + 1)
    have hb := (m a).toNat_lt
    unfold readLE
    rw [Nat.pow_succ]
    omega

theorem toNat_ofNat (v : Nat) : (UInt8.ofNat v).toNat = v % 256 := by
  simp [UInt8.toNat_ofNat']

/-- Reading `n` of the bytes written, from the `k`-th on. -/
theorem readLE_writeLE_from (m : Mem) (a len v : Nat) : ∀ (n k : Nat), k + n ≤ len →
    readLE (m.writeLE a len v) (a + k) n = v / 256 ^ k % 256 ^ n
  | 0, k, _ => by simp [readLE, Nat.mod_one]
  | n + 1, k, h => by
    have hbyte : m.writeLE a len v (a + k) = UInt8.ofNat (v / 256 ^ k) := by
      unfold writeLE
      rw [if_pos ⟨by omega, by omega⟩, Nat.add_sub_cancel_left]
    unfold readLE
    rw [hbyte, Nat.add_assoc, readLE_writeLE_from m a len v n (k + 1) (by omega), toNat_ofNat,
      Nat.pow_succ 256 n, Nat.mul_comm (256 ^ n), Nat.mod_mul, Nat.pow_succ 256 k,
      Nat.div_div_eq_div_mul]

theorem readLE_writeLE {a n v : Nat} (m : Mem) (hv : v < 256 ^ n) :
    readLE (m.writeLE a n v) a n = v := by
  have h := readLE_writeLE_from m a n v n 0 (by omega)
  rwa [Nat.add_zero, Nat.pow_zero, Nat.div_one, Nat.mod_eq_of_lt hv] at h

theorem readLE_writeLE_ne {a n v b k : Nat} (m : Mem) (h : b + k ≤ a ∨ a + n ≤ b) :
    readLE (m.writeLE a n v) b k = readLE m b k := by
  refine readLE_congr (agreeOn_writeLE m ?_)
  rw [Set.disjoint_left]
  rintro c ⟨h1, h2⟩ ⟨h3, h4⟩
  omega

theorem readLE_fill_zero (m : Mem) (a len : Nat) : ∀ (n b : Nat), a ≤ b → b + n ≤ a + len →
    readLE (m.fill a len 0) b n = 0
  | 0, _, _, _ => rfl
  | n + 1, b, h1, h2 => by
    have hb : m.fill a len 0 b = 0 := by
      unfold fill
      rw [if_pos ⟨h1, by omega⟩]
    unfold readLE
    rw [hb, readLE_fill_zero m a len n (b + 1) (by omega) (by omega)]
    rfl

end Mem

end Unisym
