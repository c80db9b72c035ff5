/-
# `Laps` — a ring whose cells tell the lap they are filled in

Places in a ring of `n` cells are numbered on and on: the place `k` is the cell `k % n` in the lap
`k / n`.  Each cell has one bit, and a cell is filled when its bit is that of the lap in which the reader
comes to it.  The bit changes its meaning with every lap, so that a cell that was read is empty at once.
-/
import Mathlib.Logic.Function.Basic

namespace Unisym.Laps

variable {n : Nat}

/-! ## Places -/

/-- The bit that marks a cell as filled in the lap of the place `k`; it is set in the first lap. -/
def lap (n k : Nat) : Bool := k / n % 2 = 0

variable {j k : Nat}

theorem lap_eq (h : j / n = k / n) : lap n j = lap n k := by
  rw [lap, lap, h]

theorem lap_flip (h : k / n = j / n + 1) : lap n k = !lap n j := by
  simp only [lap, h]
  by_cases hj : j / n % 2 = 0
  · rw [decide_eq_true hj, decide_eq_false (by omega)]
    rfl
  · rw [decide_eq_false hj, decide_eq_true (by omega)]
    rfl

theorem lap_add (hn : 0 < n) (k : Nat) : lap n (k + n) = !lap n k :=
  lap_flip (Nat.add_div_right k hn)

theorem lap_zero : lap n 0 = true := by
  rw [lap, Nat.zero_div]
  rfl

theorem mod_succ (h : k % n + 1 < n) : (k + 1) % n = k % n + 1 := by
  have hdiv := Nat.div_add_mod k n
  have hsplit : k + 1 = k % n + 1 + n * (k / n) := by omega
  rw [hsplit, Nat.add_mul_mod_self_left, Nat.mod_eq_of_lt h]

theorem div_succ (h : k % n + 1 < n) : (k + 1) / n = k / n := by
  have hdiv := Nat.div_add_mod k n
  have hsplit : k + 1 = k % n + 1 + n * (k / n) := by omega
  rw [hsplit, Nat.add_mul_div_left _ _ (by omega), Nat.div_eq_of_lt h, Nat.zero_add]

theorem lap_succ (h : k % n + 1 < n) : lap n (k + 1) = lap n k := lap_eq (div_succ h)

theorem succ_eq_mul (h : k % n + 1 = n) : k + 1 = n * (k / n + 1) := by
  have hdiv := Nat.div_add_mod k n
  rw [Nat.mul_succ]
  omega

theorem mod_wrap (h : k % n + 1 = n) : (k + 1) % n = 0 := by
  rw [succ_eq_mul h, Nat.mul_mod_right]

theorem div_wrap (h : k % n + 1 = n) : (k + 1) / n = k / n + 1 := by
  rw [succ_eq_mul h, Nat.mul_div_cancel_left _ (by omega)]

theorem lap_wrap (h : k % n + 1 = n) : lap n (k + 1) = !lap n k := lap_flip (div_wrap h)

/-- Two places less than a lap apart are the same cell only when they are the same. -/
theorem place_inj {c : Nat} (hj : c ≤ j) (hj' : j < c + n) (hk : c ≤ k) (hk' : k < c + n)
    (h : j % n = k % n) : j = k := by
  rcases Nat.lt_trichotomy j k with hlt | heq | hgt
  · have hmod : (k - j) % n = 0 := Nat.sub_mod_eq_zero_of_mod_eq h.symm
    rw [Nat.mod_eq_of_lt (by omega)] at hmod
    omega
  · exact heq
  · have hmod : (j - k) % n = 0 := Nat.sub_mod_eq_zero_of_mod_eq h
    rw [Nat.mod_eq_of_lt (by omega)] at hmod
    omega

/-! ## The lap in front of the reader -/

/-- Of the `n` places from `first` on, those in `filled` have the bit of their lap. -/
def Window (n : Nat) (bit : Nat → Bool) (first : Nat) (filled : Nat → Prop) : Prop :=
  ∀ k, first ≤ k → k < first + n → (bit (k % n) = lap n k ↔ filled k)

variable {bit bit' : Nat → Bool} {first : Nat} {filled filled' : Nat → Prop}

theorem Window.start (hbit : ∀ i, bit i = false) (hfilled : ∀ k, ¬ filled k) :
    Window n bit 0 filled := by
  intro k _ hk
  rw [hbit, lap_eq (j := k) (k := 0) (by rw [Nat.div_eq_of_lt (by omega), Nat.zero_div]), lap_zero]
  exact iff_of_false nofun (hfilled k)

/-- A place that is not filled has the bit of the lap before. -/
theorem Window.not_filled (h : Window n bit first filled) (hk : first ≤ k)
    (hk' : k < first + n) (hfilled : ¬ filled k) : bit (k % n) = !lap n k := by
  have hne := mt (h k hk hk').mp hfilled
  cases hbit : bit (k % n) <;> cases hlap : lap n k <;> simp_all

/-- One place changes. -/
theorem Window.set (h : Window n bit first filled) (hk : first ≤ k) (hk' : k < first + n)
    (hother : ∀ i < n, i ≠ k % n → bit' i = bit i) (hfilled : ∀ j, j ≠ k → (filled' j ↔ filled j))
    (hnew : bit' (k % n) = lap n k ↔ filled' k) : Window n bit' first filled' := by
  intro j hj hj'
  by_cases hjk : j = k
  · subst hjk
    exact hnew
  · have hlt : j % n < n := Nat.mod_lt _ (by omega)
    rw [hother _ hlt fun hmod => hjk (place_inj hj hj' hk hk' hmod), hfilled j hjk]
    exact h j hj hj'

/-- The reader goes on; the cell that it leaves is not filled any more. -/
theorem Window.advance (hn : 0 < n) (h : Window n bit first filled) (hread : filled first)
    (hfar : ¬ filled (first + n)) : Window n bit (first + 1) filled := by
  intro k hk hk'
  rcases Nat.lt_or_eq_of_le (Nat.le_of_lt_succ (Nat.add_right_comm _ _ _ ▸ hk')) with hlt | rfl
  · exact h k (Nat.le_of_succ_le hk) hlt
  · rw [Nat.add_mod_right, (h first (Nat.le_refl _) (Nat.lt_add_of_pos_right hn)).mpr hread, lap_add hn]
    exact iff_of_false (by cases lap n first <;> decide) hfar

end Unisym.Laps
