/-
# `Cells` — storage that is written cell by cell

A cell of new storage holds no value before it is written.  `fetch` and `store` give nothing
where the storage has no such cell, and `fetch` also where the cell was never written.  A
loop that assigns one cell in every round (`assign`) never fails, and its effect is known,
when each round finds the value it should find, whatever the earlier rounds have written
(`assign_eq`).
-/
import Mathlib.Data.List.Basic

namespace Unisym.Cells

variable {α : Type}

/-- The value in a cell. -/
def fetch (m : List (Option α)) (i : Nat) : Option α := (m[i]?).join

/-- Write a cell. -/
def store (m : List (Option α)) (i : Nat) (x : α) : Option (List (Option α)) :=
  if i < m.length then some (m.set i (some x)) else none

/-- The rounds `0 … n - 1`: round `k` assigns what `src` finds to the cell `dst k`. -/
def assign (dst : Nat → Nat) (src : Nat → List (Option α) → Option α) :
    Nat → List (Option α) → Option (List (Option α))
  | 0, m => some m
  | n + 1, m => do
      let m ← assign dst src n m
      let x ← src n m
      store m (dst n) x

variable {m : List (Option α)} {i : Nat}

theorem fetch_of_le (h : m.length ≤ i) : fetch m i = none := by
  rw [fetch, List.getElem?_eq_none h]
  rfl

theorem lt_of_fetch {x : α} (h : fetch m i = some x) :
    i < m.length := by
  by_contra hge
  rw [fetch_of_le (Nat.le_of_not_lt hge)] at h
  cases h

theorem fetch_set_self (h : i < m.length) (x : α) :
    fetch (m.set i (some x)) i = some x := by
  rw [fetch, List.getElem?_set_self h]
  rfl

theorem fetch_set_ne {j : Nat} (h : i ≠ j) (x : Option α) :
    fetch (m.set i x) j = fetch m j := by
  rw [fetch, List.getElem?_set_ne h, fetch]

theorem store_eq (h : i < m.length) (x : α) :
    store m i x = some (m.set i (some x)) := if_pos h

/-- The storage after `n` rounds that were to write the values `val`. -/
structure Assigned (dst : Nat → Nat) (val : Nat → Option α) (n : Nat) (m m' : List (Option α)) :
    Prop where
  length : m'.length = m.length
  written : ∀ k < n, fetch m' (dst k) = val k
  kept : ∀ j, (∀ k < n, dst k ≠ j) → fetch m' j = fetch m j

/-- A loop over different cells, each round of which finds its value in the storage that
the rounds before it leave. -/
theorem assign_eq {dst : Nat → Nat} {src : Nat → List (Option α) → Option α}
    {val : Nat → Option α} (n : Nat) (hlen : ∀ k < n, dst k < m.length)
    (hne : ∀ k < n, ∀ j < k, dst j ≠ dst k) (hval : ∀ k < n, (val k).isSome = true)
    (hsrc : ∀ k < n, ∀ m', Assigned dst val k m m' → src k m' = val k) :
    ∃ m', assign dst src n m = some m' ∧ Assigned dst val n m m' := by
  induction n with
  | zero => exact ⟨m, rfl, rfl, fun k hk => absurd hk (Nat.not_lt_zero k), fun _ _ => rfl⟩
  | succ n ih =>
    obtain ⟨m', hm', hall⟩ := ih (fun k hk => hlen k (Nat.lt_succ_of_lt hk))
      (fun k hk => hne k (Nat.lt_succ_of_lt hk)) (fun k hk => hval k (Nat.lt_succ_of_lt hk))
      (fun k hk => hsrc k (Nat.lt_succ_of_lt hk))
    have hin : dst n < m'.length := hall.length ▸ hlen n (Nat.lt_succ_self n)
    obtain ⟨x, hx⟩ := Option.isSome_iff_exists.mp (hval n (Nat.lt_succ_self n))
    refine ⟨m'.set (dst n) (some x), ?_, ?_, ?_, ?_⟩
    · simp only [assign, hm', hsrc n (Nat.lt_succ_self n) m' hall, hx, Option.bind_eq_bind,
        Option.bind_some]
      exact store_eq hin x
    · rw [List.length_set, hall.length]
    · intro k hk
      rcases Nat.lt_succ_iff_lt_or_eq.mp hk with hlt | rfl
      · rw [fetch_set_ne (hne n (Nat.lt_succ_self n) k hlt).symm]
        exact hall.written k hlt
      · rw [fetch_set_self hin x, hx]
    · intro j hj
      rw [fetch_set_ne (hj n (Nat.lt_succ_self n))]
      exact hall.kept j fun k hk => hj k (Nat.lt_succ_of_lt hk)

/-- A loop that ends has found a value in every round. -/
theorem isSome_of_assign {dst : Nat → Nat} {val : Nat → Option α} :
    ∀ {n : Nat} {m m' : List (Option α)}, assign dst (fun k _ => val k) n m = some m' → ∀ k < n, (val k).isSome
  | 0, _, _, _, _, hk => absurd hk (Nat.not_lt_zero _)
  | n + 1, m, m', h, k, hk => by
    simp only [assign, Option.bind_eq_bind, Option.bind_eq_some_iff] at h
    obtain ⟨m₁, h₁, x, hx, -⟩ := h
    rcases Nat.lt_succ_iff_lt_or_eq.mp hk with hk | rfl
    · exact isSome_of_assign h₁ k hk
    · rw [hx]; rfl

end Unisym.Cells
