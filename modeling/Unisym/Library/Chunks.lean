/-
# `Chunks` — a place in a list that is cut into chunks

Elements are taken one after the other out of nonempty chunks.  `leftAfter` is what is left then: the
rest of the chunk begun last, which may be empty, and the chunks not begun.
-/
import Mathlib.Data.List.Basic
import Mathlib.Algebra.Order.Ring.Nat

namespace Unisym.Chunks

open List

variable {α : Type}

/-- What is left of a chunk and the chunks behind it when `n` elements are taken. -/
def leftAfter : List α → List (List α) → Nat → List α × List (List α)
  | chunk, chunks, 0 => (chunk, chunks)
  | _ :: chunk, chunks, n + 1 => leftAfter chunk chunks n
  | [], chunk :: chunks, n + 1 => leftAfter chunk.tail chunks n
  | [], [], _ + 1 => ([], [])

/-- Nothing is lost. -/
theorem leftAfter_flatten : (n : Nat) → (chunk : List α) → (chunks : List (List α)) →
    (∀ c ∈ chunks, c ≠ []) →
    (leftAfter chunk chunks n).1 ++ (leftAfter chunk chunks n).2.flatten =
      (chunk ++ chunks.flatten).drop n
  | 0, _, _, _ => by simp [leftAfter]
  | n + 1, _ :: chunk, chunks, h => by
    rw [leftAfter, leftAfter_flatten n chunk chunks h, cons_append, drop_succ_cons]
  | n + 1, [], [], _ => by simp [leftAfter]
  | n + 1, [], chunk :: chunks, h => by
    obtain ⟨x, c, hchunk⟩ := exists_cons_of_ne_nil (h chunk mem_cons_self)
    rw [leftAfter, leftAfter_flatten n _ chunks fun c hc => h c (mem_cons_of_mem _ hc), hchunk]
    simp

/-- The chunks not begun are chunks of the list. -/
theorem leftAfter_subset : (n : Nat) → (chunk : List α) → (chunks : List (List α)) →
    (leftAfter chunk chunks n).2 ⊆ chunks
  | 0, _, _ => fun _ h => h
  | n + 1, _ :: chunk, chunks => leftAfter_subset n chunk chunks
  | _ + 1, [], [] => fun _ h => h
  | n + 1, [], chunk :: chunks => fun _ h =>
    mem_cons_of_mem _ (leftAfter_subset n chunk.tail chunks h)

/-- One element more. -/
theorem leftAfter_succ : (n : Nat) → (chunk : List α) → (chunks : List (List α)) →
    leftAfter chunk chunks (n + 1) =
      leftAfter (leftAfter chunk chunks n).1 (leftAfter chunk chunks n).2 1
  | 0, _, _ => rfl
  | n + 1, _ :: chunk, chunks => leftAfter_succ n chunk chunks
  | n + 1, [], [] => by simp [leftAfter]
  | n + 1, [], chunk :: chunks => leftAfter_succ n chunk.tail chunks

/-- A chunk is at its end when whole chunks are taken. -/
theorem leftAfter_nil_iff : (n : Nat) → (chunk : List α) → (chunks : List (List α)) →
    (∀ c ∈ chunks, c ≠ []) → n ≤ (chunk ++ chunks.flatten).length →
    ((leftAfter chunk chunks n).1 = [] ↔
      ∃ k, n = chunk.length + ((chunks.take k).map List.length).sum)
  | 0, chunk, chunks, _, _ => by
    constructor
    · intro h
      have hnil : chunk = [] := h
      subst hnil
      exact ⟨0, rfl⟩
    · rintro ⟨k, hk⟩
      exact show chunk = [] from eq_nil_of_length_eq_zero (by omega)
  | n + 1, x :: chunk, chunks, h, hn => by
    rw [leftAfter, leftAfter_nil_iff n chunk chunks h (Nat.le_of_succ_le_succ hn)]
    refine exists_congr fun k => ?_
    rw [length_cons]
    omega
  | n + 1, [], [], _, hn => absurd hn (Nat.not_succ_le_zero n)
  | n + 1, [], chunk :: chunks, h, hn => by
    have hrest : ∀ c ∈ chunks, c ≠ [] := fun c hc => h c (mem_cons_of_mem _ hc)
    obtain ⟨x, c, rfl⟩ := exists_cons_of_ne_nil (h chunk mem_cons_self)
    rw [leftAfter, tail_cons,
      leftAfter_nil_iff n c chunks hrest (Nat.le_of_succ_le_succ hn)]
    constructor
    · rintro ⟨k, hk⟩
      exact ⟨k + 1, by simp only [take_succ_cons, map_cons, sum_cons,
        length_cons, length_nil]; omega⟩
    · rintro ⟨k, hk⟩
      cases k with
      | zero => exact absurd hk (Nat.succ_ne_zero n)
      | succ k =>
        refine ⟨k, ?_⟩
        simp only [take_succ_cons, map_cons, sum_cons, length_cons,
          length_nil] at hk
        omega

end Unisym.Chunks
