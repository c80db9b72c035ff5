/-
# `Digits` — numbers written most significant digit first

`value b ds` is the number with the digits `ds` in base `b`, read from the left.
It is Mathlib's `Nat.ofDigits` of the reversed list; what is added here is what
written arithmetic needs: the next digit on the left, the order of numbers as
the order of their digits, and leading zeros.
-/
import Mathlib.Data.Nat.Digits.Lemmas

namespace Unisym.Digits

open List

variable {b : Nat}

/-- The number with these digits, the first the most significant. -/
def value (b : Nat) (ds : List Nat) : Nat := Nat.ofDigits b ds.reverse

theorem value_nil : value b [] = 0 := rfl

theorem value_cons (d : Nat) (ds : List Nat) :
    value b (d :: ds) = d * b ^ ds.length + value b ds := by
  unfold value
  rw [reverse_cons, Nat.ofDigits_append, Nat.ofDigits_singleton, length_reverse,
    Nat.mul_comm, Nat.add_comm]

theorem value_singleton (d : Nat) : value b [d] = d := by
  rw [value_cons, value_nil, length_nil, Nat.pow_zero, Nat.mul_one, Nat.add_zero]

theorem value_append (xs ys : List Nat) :
    value b (xs ++ ys) = value b xs * b ^ ys.length + value b ys := by
  unfold value
  rw [reverse_append, Nat.ofDigits_append, length_reverse, Nat.mul_comm, Nat.add_comm]

theorem value_concat (xs : List Nat) (d : Nat) : value b (xs ++ [d]) = value b xs * b + d := by
  rw [value_append, value_singleton, length_singleton, Nat.pow_one]

theorem value_replicate_zero (n : Nat) : value b (List.replicate n 0) = 0 := by
  unfold value
  rw [reverse_replicate, Nat.ofDigits_replicate_zero]

variable {ds es : List Nat} {d : Nat}

theorem value_lt (hb : 1 < b) (hds : ∀ d ∈ ds, d < b) :
    value b ds < b ^ ds.length := by
  have h := Nat.ofDigits_lt_base_pow_length hb (fun d hd => hds d (mem_reverse.mp hd))
  rw [length_reverse] at h
  exact h

/-- A zero on the left does not count. -/
theorem value_zero_cons (ds : List Nat) : value b (0 :: ds) = value b ds := by
  rw [value_cons, Nat.zero_mul, Nat.zero_add]

/-- A number without a zero on the left is as long as it is large. -/
theorem pow_le_value (hd : d ≠ 0) : b ^ ds.length ≤ value b (d :: ds) := by
  rw [value_cons]
  have hmul : 1 * b ^ ds.length ≤ d * b ^ ds.length :=
    Nat.mul_le_mul_right _ (Nat.pos_of_ne_zero hd)
  omega

/-- Numbers of one length are ordered as their first digits, or as the rest
where these agree. -/
theorem value_lt_of_head {e : Nat} (hb : 1 < b) (hds : ∀ x ∈ ds, x < b)
    (hlen : ds.length = es.length) (h : d < e) : value b (d :: ds) < value b (e :: es) := by
  have hlt := value_lt hb hds
  have hmul : (d + 1) * b ^ ds.length ≤ e * b ^ ds.length := Nat.mul_le_mul_right _ h
  rw [value_cons, value_cons, ← hlen]
  rw [Nat.add_mul, Nat.one_mul] at hmul
  omega

theorem value_cons_lt_iff (hlen : ds.length = es.length) :
    value b (d :: ds) < value b (d :: es) ↔ value b ds < value b es := by
  rw [value_cons, value_cons, hlen]
  omega

/-- The digits `vs` on the right do not count in a comparison with a multiple of their
power. -/
theorem mul_pow_le_value_append {m : Nat} (us : List Nat) {vs : List Nat} (hb : 1 < b) (hvs : ∀ d ∈ vs, d < b) :
    m * b ^ vs.length ≤ value b (us ++ vs) ↔ m ≤ value b us := by
  have hlt := value_lt hb hvs
  rw [value_append]
  constructor
  · intro hle
    refine Nat.le_of_lt_succ (Nat.lt_of_mul_lt_mul_right (a := b ^ vs.length) ?_)
    rw [Nat.succ_mul]
    omega
  · intro hle
    have hmul := Nat.mul_le_mul_right (b ^ vs.length) hle
    omega

/-- No superfluous zero on the left. -/
def Canonical (ds : List Nat) : Prop := ds ≠ [] ∧ (ds.head? = some 0 → ds = [0])

/-- A canonical number other than a lone zero is as long as it is large. -/
theorem Canonical.pow_le (h : Canonical ds) (hne : ds ≠ [0]) :
    b ^ ds.length ≤ value b ds * b := by
  obtain ⟨d, ds, rfl⟩ := exists_cons_of_ne_nil h.1
  have hd : d ≠ 0 := fun hd => hne (h.2 (by rw [hd]; rfl))
  have hle : b ^ ds.length ≤ value b (d :: ds) := pow_le_value hd
  rw [length_cons, Nat.pow_succ]
  exact Nat.mul_le_mul_right b hle

/-- A shorter canonical number is smaller. -/
theorem value_lt_of_length (hb : 1 < b) (hds : ∀ x ∈ ds, x < b)
    (hes : Canonical es) (hlen : ds.length < es.length) (hne : ds ≠ []) :
    value b ds < value b es := by
  obtain ⟨e, es, rfl⟩ := exists_cons_of_ne_nil hes.1
  have hpos := length_pos_of_ne_nil hne
  rw [length_cons] at hlen
  have he : e ≠ 0 := fun he => by
    have hone := hes.2 (by rw [he]; rfl)
    rw [List.cons.injEq] at hone
    rw [hone.2, length_nil] at hlen
    omega
  calc value b ds < b ^ ds.length := value_lt hb hds
    _ ≤ b ^ es.length := Nat.pow_le_pow_right (Nat.zero_lt_of_lt hb) (by omega)
    _ ≤ value b (e :: es) := pow_le_value he

/-- The zeros on the left taken away, except the last digit. -/
def strip : List Nat → List Nat
  | 0 :: d :: ds => strip (d :: ds)
  | ds => ds

theorem strip_value : ∀ ds : List Nat, value b (strip ds) = value b ds
  | [] => rfl
  | [d] => by cases d <;> rfl
  | 0 :: d :: ds => by
    rw [strip, strip_value (d :: ds), value_zero_cons]
  | (d + 1) :: e :: ds => rfl

theorem strip_canonical : ∀ {ds : List Nat}, ds ≠ [] → Canonical (strip ds)
  | [], h => absurd rfl h
  | [0], _ => ⟨by decide, fun _ => rfl⟩
  | [d + 1], _ => ⟨cons_ne_nil _ _, fun h => by cases h⟩
  | 0 :: d :: ds, _ => @strip_canonical (d :: ds) (cons_ne_nil _ _)
  | (d + 1) :: e :: ds, _ => ⟨cons_ne_nil _ _, fun h => by cases h⟩

theorem mem_strip : ∀ {ds : List Nat} {x : Nat}, x ∈ strip ds → x ∈ ds
  | [], _, h => h
  | [0], _, h => h
  | [_ + 1], _, h => h
  | 0 :: d :: ds, _, h => mem_cons_of_mem 0 (@mem_strip (d :: ds) _ h)
  | (_ + 1) :: _ :: _, _, h => h

theorem strip_of_head (h : es.head? ≠ some 0) : strip es = es := by
  match es with
  | [] => rfl
  | [0] | [_ + 1] => rfl
  | 0 :: _ :: _ => exact absurd rfl h
  | (_ + 1) :: _ :: _ => rfl

theorem strip_replicate (hne : es ≠ []) (h : es.head? ≠ some 0) :
    ∀ z : Nat, strip (List.replicate z 0 ++ es) = es
  | 0 => strip_of_head h
  | z + 1 => by
    have ih := strip_replicate hne h z
    obtain ⟨d, ds, hds⟩ := exists_cons_of_ne_nil
      (append_ne_nil_of_right_ne_nil (List.replicate z 0) hne)
    rw [hds] at ih
    rw [replicate_succ, cons_append, hds, strip, ih]

theorem strip_zeros : ∀ z : Nat, strip (List.replicate (z + 1) 0) = [0]
  | 0 => rfl
  | z + 1 => by
    rw [replicate_succ, replicate_succ, strip, ← replicate_succ, strip_zeros z]

/-- Digits are zeros and a rest that does not start with one. -/
theorem exists_zeros : ∀ ds : List Nat, ∃ z es, ds = List.replicate z 0 ++ es ∧ es.head? ≠ some 0
  | [] => ⟨0, [], rfl, by simp⟩
  | 0 :: ds => by
    obtain ⟨z, es, hds, hes⟩ := exists_zeros ds
    exact ⟨z + 1, es, by rw [hds, replicate_succ, cons_append], hes⟩
  | (d + 1) :: ds => ⟨0, (d + 1) :: ds, rfl, by simp⟩

end Unisym.Digits
