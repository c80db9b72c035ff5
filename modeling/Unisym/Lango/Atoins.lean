/-
# `Atoins` — `atoins` on digits

`atoins` wraps at 64 bits with every digit, so it gives the number of the digits as a word with
a sign.
-/
import Unisym.Lango.CloverParser

namespace Unisym.Lango

theorem toSigned_step (a : Nat) (d : Nat) :
    toSigned (toSigned a * 10 + d) = toSigned ((10 * a + d : Nat) : Int) := by
  unfold toSigned
  rw [← Int.bmod_add_bmod, Int.bmod_mul_bmod, Int.bmod_add_bmod]
  congr 1
  omega

theorem atoinsDigits_digits : (fuel : Nat) → (ds : Text) → (a : Nat) → ds.length ≤ fuel →
    (∀ ch ∈ ds, ch.isDigit = true) →
    atoinsDigits fuel (toSigned a) ds = toSigned (Nat.ofDigitChars 10 ds a : Nat)
  | 0, ds, a, hlength, _ => by
    rw [List.length_eq_zero_iff.mp (Nat.le_zero.mp hlength), Nat.ofDigitChars_nil]
    rfl
  | _ + 1, [], a, _, _ => by
    rw [Nat.ofDigitChars_nil]
    rfl
  | fuel + 1, ch :: ds, a, hlength, hdigits => by
    obtain ⟨hch, hds⟩ := List.forall_mem_cons.mp hdigits
    rw [atoinsDigits, if_pos hch, toSigned_step, Nat.ofDigitChars_cons]
    exact atoinsDigits_digits fuel ds _ (Nat.le_of_succ_le_succ hlength) hds

theorem atoins_digits {ds : Text} (hlength : ds.length ≤ 20) (hdigits : ∀ ch ∈ ds, ch.isDigit = true) :
    atoins ds = toSigned (Nat.ofDigitChars 10 ds 0 : Nat) := by
  rw [← atoinsDigits_digits 20 ds 0 hlength hdigits]
  unfold atoins
  split
  · exact absurd (hdigits '-' List.mem_cons_self) (by decide)
  · exact absurd (hdigits '+' List.mem_cons_self) (by decide)
  · rfl

theorem atoins_minus_digits {ds : Text} (hlength : ds.length ≤ 20)
    (hdigits : ∀ ch ∈ ds, ch.isDigit = true) :
    atoins ('-' :: ds) = toSigned (-(Nat.ofDigitChars 10 ds 0 : Nat)) := by
  show toSigned (-atoinsDigits 20 0 ds) = _
  have hds := atoinsDigits_digits 20 ds 0 hlength hdigits
  rw [show toSigned ((0 : Nat) : Int) = 0 from rfl] at hds
  rw [hds]
  exact Int.bmod_neg_bmod

/-! ## Range -/

theorem toSigned_range (n : Int) : -2 ^ 63 ≤ toSigned n ∧ toSigned n < 2 ^ 63 :=
  ⟨Int.le_bmod (by decide), Int.bmod_lt (by decide)⟩

theorem toSigned_of_range {n : Int} (hlow : -2 ^ 63 ≤ n) (hhigh : n < 2 ^ 63) : toSigned n = n :=
  Int.bmod_eq_of_le hlow hhigh

theorem atoinsDigits_range : (fuel : Nat) → (text : Text) → {inst : Int} →
    (-2 ^ 63 ≤ inst ∧ inst < 2 ^ 63) →
    -2 ^ 63 ≤ atoinsDigits fuel inst text ∧ atoinsDigits fuel inst text < 2 ^ 63
  | 0, _, _, hinst => hinst
  | _ + 1, [], _, hinst => hinst
  | fuel + 1, ch :: text, inst, hinst => by
    unfold atoinsDigits
    split
    · exact atoinsDigits_range fuel text (toSigned_range _)
    · exact hinst

theorem atoins_range (text : Text) : -2 ^ 63 ≤ atoins text ∧ atoins text < 2 ^ 63 := by
  have hzero : -2 ^ 63 ≤ (0 : Int) ∧ (0 : Int) < 2 ^ 63 := by decide
  unfold atoins
  split
  · exact toSigned_range _
  · exact atoinsDigits_range 20 _ hzero
  · exact atoinsDigits_range 20 _ hzero

end Unisym.Lango
