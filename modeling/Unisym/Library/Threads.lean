/-
# `Threads` — singly linked lists in a store

A store holds nodes at keys; a node has a neighbour `next` and a value `val`, read through a
`Reader`.  `Thread` says that the links lead from one pointer through a list of entries, keys
with values, to another.  A list is cut and joined at any place (`thread_append`); a part
whose last link is set anew leads to the new place (`Thread.relink`), and a part that is not
touched leads where it did (`Thread.congr`).
-/
import Unisym.Library.Links

namespace Unisym.Threads

open Links

/-- How to read a node. -/
structure Reader (κ ν β : Type*) where
  next : ν → Option κ
  val : ν → β

variable {κ ν β : Type*} (L : Reader κ ν β)

/-- From `p` the links lead through the entries to `q`. -/
def Thread (cells : κ → Option ν) : Option κ → List (κ × β) → Option κ → Prop
  | p, [], q => p = q
  | p, e :: es, q => p = some e.1 ∧ ∃ n, cells e.1 = some n ∧ L.val n = e.2 ∧
      Thread cells (L.next n) es q

variable {L} {cells cells' : κ → Option ν}

theorem thread_append {q : Option κ} {ys : List (κ × β)} : ∀ {p : Option κ} {xs : List (κ × β)},
    Thread L cells p (xs ++ ys) q ↔ ∃ m, Thread L cells p xs m ∧ Thread L cells m ys q
  | p, [] => by
    refine ⟨fun h => ⟨p, rfl, h⟩, ?_⟩
    rintro ⟨m, rfl, h⟩
    exact h
  | p, e :: xs => by
    constructor
    · rintro ⟨hp, n, hn, hval, h⟩
      obtain ⟨m, hxs, hys⟩ := thread_append.mp h
      exact ⟨m, ⟨hp, n, hn, hval, hxs⟩, hys⟩
    · rintro ⟨m, ⟨hp, n, hn, hval, hxs⟩, hys⟩
      exact ⟨hp, n, hn, hval, thread_append.mpr ⟨m, hxs, hys⟩⟩

/-- Where a list begins. -/
theorem Thread.start {p q : Option κ} : ∀ {es : List (κ × β)}, Thread L cells p es q →
    p = (headKey es).or q
  | [], h => h
  | _ :: _, h => h.1

/-- The entries of a list are in the store. -/
theorem Thread.mem {e : κ × β} : ∀ {es : List (κ × β)} {p q : Option κ}, Thread L cells p es q →
    e ∈ es → ∃ n, cells e.1 = some n ∧ L.val n = e.2
  | f :: es, p, q, ⟨_, n, hn, hval, h⟩, he => by
    rcases List.mem_cons.mp he with rfl | he
    · exact ⟨n, hn, hval⟩
    · exact h.mem he

/-- The node of an entry. -/
theorem Thread.node {p q : Option κ} {xs : List (κ × β)} {e : κ × β} {ys : List (κ × β)}
    (h : Thread L cells p (xs ++ e :: ys) q) :
    ∃ n, cells e.1 = some n ∧ L.val n = e.2 ∧ L.next n = (headKey ys).or q := by
  obtain ⟨m, -, -, n, hn, hval, hys⟩ := thread_append.mp h
  exact ⟨n, hn, hval, hys.start⟩

/-- The links stay as they are. -/
theorem Thread.congr : ∀ {es : List (κ × β)} {p q : Option κ}, Thread L cells p es q →
    (∀ e ∈ es, ∀ n, cells e.1 = some n → ∃ n', cells' e.1 = some n' ∧ L.val n' = L.val n ∧
      L.next n' = L.next n) → Thread L cells' p es q
  | [], _, _, h, _ => h
  | e :: es, p, q, ⟨hp, n, hn, hval, h⟩, hsame => by
    obtain ⟨n', hn', hval', hnext'⟩ := hsame e List.mem_cons_self n hn
    refine ⟨hp, n', hn', hval'.trans hval, ?_⟩
    rw [hnext']
    exact h.congr fun f hf => hsame f (List.mem_cons_of_mem e hf)

/-- The last link is set anew. -/
theorem Thread.relink [DecidableEq κ] {q' : Option κ} : ∀ {es : List (κ × β)} {p q : Option κ},
    Thread L cells p es q → (keys es).Nodup →
    (∀ e ∈ es, ∀ n, cells e.1 = some n → ∃ n', cells' e.1 = some n' ∧ L.val n' = L.val n ∧
      L.next n' = if lastKey es = some e.1 then q' else L.next n) →
    Thread L cells' ((headKey es).or q') es q'
  | [], _, _, _, _, _ => rfl
  | [e], p, q, ⟨_, n, hn, hval, _⟩, _, hset => by
    obtain ⟨n', hn', hval', hnext'⟩ := hset e List.mem_cons_self n hn
    exact ⟨rfl, n', hn', hval'.trans hval, hnext'.trans (if_pos rfl)⟩
  | e :: f :: es, p, q, ⟨_, n, hn, hval, h⟩, hnodup, hset => by
    obtain ⟨n', hn', hval', hnext'⟩ := hset e List.mem_cons_self n hn
    have hcons := List.nodup_cons.mp hnodup
    have hlast : lastKey (e :: f :: es) = lastKey (f :: es) := lastKey_cons_cons e f es
    have hne : lastKey (f :: es) ≠ some e.1 := fun heq => hcons.1 (lastKey_mem heq)
    rw [hlast, if_neg hne] at hnext'
    have hstart : L.next n = (headKey (f :: es)).or q' := h.start
    refine ⟨rfl, n', hn', hval'.trans hval, ?_⟩
    rw [hnext', hstart]
    refine h.relink hcons.2 fun g hg m hm => ?_
    rw [← hlast]
    exact hset g (List.mem_cons_of_mem e hg) m hm

/-- A walk along the links meets the entries in order. -/
theorem Thread.walk {fuel : Nat} : ∀ {es : List (κ × β)} {p : Option κ},
    Thread L cells p es none → es.length ≤ fuel → Links.walk L.next cells fuel p = some (keys es) := by
  induction fuel with
  | zero =>
    intro es p h hlen
    rw [List.length_eq_zero_iff.mp (Nat.le_zero.mp hlen)] at h ⊢
    rw [show p = none from h, Links.walk]
    rfl
  | succ fuel ih =>
    intro es p h hlen
    cases es with
    | nil =>
      rw [show p = none from h, Links.walk]
      rfl
    | cons e es =>
      obtain ⟨rfl, n, hn, -, hrest⟩ := h
      rw [Links.walk, hn]
      dsimp only
      rw [ih hrest (Nat.le_of_succ_le_succ hlen)]
      rfl

end Unisym.Threads
