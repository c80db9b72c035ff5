/-
# `Links` — doubly linked lists in a store

A store holds nodes at keys; a node has a right neighbour `next`, a left
neighbour `left` and a value `val`, read through a `Layout`, so that a
development keeps its own record.  `Linked` says that a list of entries, keys
with values, is what the store holds along the links, in both directions.

Every edit of such a list replaces a middle part (`Linked.replace`), turns the
list around (`Linked.reverse`) or changes values (`Linked.revalue`).  What a
walk along the links visits is `walk_next` and `walk_left`.
-/
import Mathlib.Data.List.Nodup
import Mathlib.Data.List.Induction
import Mathlib.Data.List.Perm.Subperm

namespace Unisym.Links

open List

/-- How to read a node. -/
structure Layout (κ ν β : Type*) where
  next : ν → Option κ
  left : ν → Option κ
  val : ν → β

variable {κ ν β : Type*}

/-- The key of the first entry. -/
def headKey (es : List (κ × β)) : Option κ := es.head?.map Prod.fst

/-- The key of the last entry. -/
def lastKey (es : List (κ × β)) : Option κ := es.getLast?.map Prod.fst

/-- The keys of the entries. -/
def keys (es : List (κ × β)) : List κ := es.map Prod.fst

@[simp] theorem headKey_nil : headKey ([] : List (κ × β)) = none := rfl

@[simp] theorem headKey_cons (e : κ × β) (es : List (κ × β)) : headKey (e :: es) = some e.1 := rfl

@[simp] theorem lastKey_nil : lastKey ([] : List (κ × β)) = none := rfl

@[simp] theorem lastKey_concat (es : List (κ × β)) (e : κ × β) : lastKey (es ++ [e]) = some e.1 := by
  unfold lastKey
  rw [getLast?_append, getLast?_singleton]
  rfl

theorem lastKey_append_cons (xs : List (κ × β)) (e : κ × β) (ys : List (κ × β)) :
    lastKey (xs ++ e :: ys) = lastKey (e :: ys) := by
  unfold lastKey
  rw [getLast?_append, getLast?_cons, Option.some_or]

@[simp] theorem lastKey_cons_cons (e f : κ × β) (ys : List (κ × β)) :
    lastKey (e :: f :: ys) = lastKey (f :: ys) := lastKey_append_cons [e] f ys

theorem headKey_append_cons (xs : List (κ × β)) (e : κ × β) (ys : List (κ × β)) :
    headKey (xs ++ e :: ys) = headKey (xs ++ [e]) := by
  cases xs <;> rfl

theorem headKey_append (xs ys : List (κ × β)) : headKey (xs ++ ys) = (headKey xs).or (headKey ys) := by
  cases xs <;> rfl

theorem lastKey_append (xs ys : List (κ × β)) : lastKey (xs ++ ys) = (lastKey ys).or (lastKey xs) := by
  cases ys using List.reverseRecOn with
  | nil =>
    rw [append_nil]
    rfl
  | append_singleton ys e =>
    rw [← append_assoc, lastKey_concat, lastKey_concat]
    rfl

variable {es xs m ys : List (κ × β)} {e : κ × β} {i : Nat} {cells cells' : κ → Option ν}

/-! ## The ends of an edited list -/

/-- The last key after an entry behind `e` -/
theorem lastKey_behind {last : Option κ} (h : last = lastKey (xs ++ e :: ys)) (p : κ) (v : β) :
    (if ys = [] then some p else last) = lastKey (xs ++ e :: (p, v) :: ys) := by
  rw [lastKey_append_cons, lastKey_cons_cons]
  cases ys with
  | nil => exact if_pos rfl
  | cons f ys =>
    rw [if_neg (cons_ne_nil f ys), h, lastKey_append_cons, lastKey_cons_cons, lastKey_cons_cons]

/-- The ends without a middle part -/
theorem ends_without {root last : Option κ} (hroot : root = headKey (xs ++ (m ++ ys)))
    (hlast : last = lastKey (xs ++ (m ++ ys))) :
    (if lastKey xs = none then headKey ys else root) = headKey (xs ++ ys) ∧
      (if headKey ys = none then lastKey xs else last) = lastKey (xs ++ ys) := by
  constructor
  · rw [hroot, headKey_append, headKey_append]
    cases xs using List.reverseRecOn with
    | nil => rfl
    | append_singleton xs f =>
      rw [lastKey_concat, if_neg (Option.some_ne_none _)]
      cases xs <;> rfl
  · rw [hlast, lastKey_append, lastKey_append, lastKey_append]
    cases ys with
    | nil => rfl
    | cons y ys =>
      rw [headKey_cons, if_neg (Option.some_ne_none _), lastKey, getLast?_cons]
      rfl

/-- An end is null together with the count. -/
theorem end_eq_none {p : Option κ} {n : Nat} (hn : n = es.length) (hp : p = headKey es ∨ p = lastKey es) :
    p = none ↔ n = 0 := by
  rw [hn, length_eq_zero_iff]
  cases es using List.reverseRecOn with
  | nil => exact ⟨fun _ => rfl, fun _ => by rcases hp with hp | hp <;> exact hp⟩
  | append_singleton es e =>
    refine ⟨fun hnone => ?_, fun hnil => absurd hnil (append_ne_nil_of_right_ne_nil es
      (cons_ne_nil e []))⟩
    rw [hnone, lastKey_concat] at hp
    rcases hp with hp | hp
    · cases es <;> cases hp
    · cases hp

theorem headKey_mem {p : κ} (h : headKey es = some p) : p ∈ keys es := by
  cases es with
  | nil => cases h
  | cons e es =>
    cases h
    exact mem_cons_self

theorem lastKey_mem {p : κ} (h : lastKey es = some p) : p ∈ keys es := by
  cases es using List.reverseRecOn with
  | nil => cases h
  | append_singleton es e =>
    rw [lastKey_concat] at h
    cases h
    exact mem_map_of_mem mem_append_cons_self

@[simp] theorem keys_append (xs ys : List (κ × β)) : keys (xs ++ ys) = keys xs ++ keys ys :=
  map_append

@[simp] theorem keys_cons (e : κ × β) (es : List (κ × β)) : keys (e :: es) = e.1 :: keys es := rfl

theorem mem_keys (h : e ∈ es) : e.1 ∈ keys es :=
  mem_map_of_mem h

/-! ## Keys that are numbers -/

section Numbers

variable {fresh : Nat} {es xs ys : List (Nat × β)}

theorem length_le (hnodup : (keys es).Nodup) (hlt : ∀ p ∈ keys es, p < fresh) : es.length ≤ fresh := by
  have hsub : keys es ⊆ List.range fresh := fun p hp => mem_range.mpr (hlt p hp)
  have hle := (hnodup.subperm hsub).length_le
  rwa [keys, length_map, length_range] at hle

/-- An entry at the next number -/
theorem keys_insert (hnodup : (keys (xs ++ ys)).Nodup) (hlt : ∀ p ∈ keys (xs ++ ys), p < fresh) (v : β) :
    (keys (xs ++ (fresh, v) :: ys)).Nodup ∧ ∀ p ∈ keys (xs ++ (fresh, v) :: ys), p < fresh + 1 := by
  have hnotin : fresh ∉ keys (xs ++ ys) := fun hmem => Nat.lt_irrefl _ (hlt _ hmem)
  have hperm : (keys (xs ++ (fresh, v) :: ys)).Perm (fresh :: keys (xs ++ ys)) := by
    rw [keys_append, keys_append, keys_cons]
    exact perm_middle
  refine ⟨hperm.nodup_iff.mpr (nodup_cons.mpr ⟨hnotin, hnodup⟩), fun p hp => ?_⟩
  rcases mem_cons.mp (hperm.mem_iff.mp hp) with rfl | hp
  · exact Nat.lt_succ_self _
  · exact Nat.lt_succ_of_lt (hlt p hp)

end Numbers

/-- Entries of one key are at one place. -/
theorem index_eq (hnodup : (keys es).Nodup) {j : Nat} (hi : i < es.length)
    (hj : j < es.length) (h : es[i].1 = es[j].1) : i = j := by
  have hget : ∀ k (hk : k < es.length), (keys es)[k]? = some es[k].1 := fun k hk => by
    rw [keys, getElem?_map, getElem?_eq_getElem hk]
    rfl
  refine (getElem?_inj ?_ hnodup).mp ((hget i hi).trans ((congrArg some h).trans (hget j hj).symm))
  rwa [keys, length_map]

/-- Entries keep their keys where only values change. -/
@[simp] theorem keys_map (f : κ × β → β) (es : List (κ × β)) : keys (es.map fun e => (e.1, f e)) = keys es := by
  simp [keys]

@[simp] theorem headKey_map (f : κ × β → β) (es : List (κ × β)) :
    headKey (es.map fun e => (e.1, f e)) = headKey es := by
  simp [headKey, Function.comp_def]

@[simp] theorem lastKey_map (f : κ × β → β) (es : List (κ × β)) :
    lastKey (es.map fun e => (e.1, f e)) = lastKey es := by
  simp [lastKey, Function.comp_def]

/-- The value of an entry, when two entries have exchanged theirs -/
def exchanged [DecidableEq κ] (a b e : κ × β) : β := if e.1 = a.1 then b.2 else if e.1 = b.1 then a.2 else e.2

theorem set_set_eq_map [DecidableEq κ] (hnodup : (keys es).Nodup) {j : Nat}
    (hi : i < es.length) (hj : j < es.length) (hne : i ≠ j) :
    (es.set i (es[i].1, es[j].2)).set j (es[j].1, es[i].2) = es.map fun e => (e.1, exchanged es[i] es[j] e) := by
  refine ext_getElem (by simp) fun k hk hk' => ?_
  rw [length_map] at hk'
  rw [getElem_map, getElem_set, getElem_set]
  by_cases hkj : j = k
  · subst hkj
    rw [if_pos rfl, exchanged, if_neg fun hkey => hne (index_eq hnodup hi hj hkey.symm), if_pos rfl]
  rw [if_neg hkj]
  by_cases hki : i = k
  · subst hki
    rw [if_pos rfl, exchanged, if_pos rfl]
  · rw [if_neg hki, exchanged, if_neg fun hkey => hki (index_eq hnodup hi hk' hkey.symm),
      if_neg fun hkey => hkj (index_eq hnodup hj hk' hkey.symm)]

/-- The cells of two entries, whose values are set to each other's -/
theorem exchanged_cell [DecidableEq κ] {val : ν → β} (put : β → ν → ν) (hput : ∀ n, put (val n) n = n) {a b : κ × β}
    {n k l : ν} (ha : cells a.1 = some n) (hn : val n = a.2) (hb : cells b.1 = some k) (hk : val k = b.2)
    (hne : a.1 ≠ b.1) (he : cells e.1 = some l) (hl : val l = e.2) :
    Function.update (Function.update cells a.1 (some (put (val k) n))) b.1 (some (put (val n) k)) e.1 =
      (cells e.1).map (put (exchanged a b e)) := by
  unfold exchanged
  by_cases hq : e.1 = b.1
  · have hnq : e.1 ≠ a.1 := fun hp => hne (hp.symm.trans hq)
    rw [if_neg hnq, if_pos hq, hq, Function.update_self, hb, ← hn]
    rfl
  rw [Function.update_of_ne hq]
  by_cases hp : e.1 = a.1
  · rw [if_pos hp, hp, Function.update_self, ha, ← hk]
    rfl
  · rw [Function.update_of_ne hp, if_neg hp, if_neg hq, he, Option.map_some, ← hl, hput]

/-- A list in three parts -/
theorem exists_middle {α : Type*} {es : List α} {n : Nat} (h : i + n ≤ es.length) :
    ∃ xs m ys, es = xs ++ (m ++ ys) ∧ xs.length = i ∧ m.length = n := by
  refine ⟨es.take i, (es.drop i).take n, (es.drop i).drop n, ?_, ?_, ?_⟩
  · rw [take_append_drop, take_append_drop]
  · rw [length_take_of_le (by omega)]
  · rw [length_take_of_le (by rw [length_drop]; omega)]

theorem getElem?_behind (xs m ys : List (κ × β)) :
    (xs ++ (m ++ ys))[xs.length + m.length]?.map Prod.fst = headKey ys := by
  rw [getElem?_append_right (Nat.le_add_right _ _), Nat.add_sub_cancel_left,
    getElem?_append_right (Nat.le_refl _), Nat.sub_self, ← head?_eq_getElem?]
  rfl

variable (L : Layout κ ν β)

/-- The node of an entry between two parts of the list. -/
def Between (cells : κ → Option ν) (xs : List (κ × β)) (e : κ × β) (ys : List (κ × β)) : Prop :=
  ∃ n, cells e.1 = some n ∧ L.next n = headKey ys ∧ L.left n = lastKey xs ∧ L.val n = e.2

/-- The store holds the entries, linked in this order. -/
def Linked (cells : κ → Option ν) (es : List (κ × β)) : Prop :=
  ∀ xs e ys, es = xs ++ e :: ys → Between L cells xs e ys

variable {L}

theorem linked_nil (cells : κ → Option ν) : Linked L cells [] := fun xs e ys h => by
  cases xs <;> cases h

/-- The entries of a list are in the store. -/
theorem Linked.mem (h : Linked L cells es)
    (he : e ∈ es) : ∃ n, cells e.1 = some n ∧ L.val n = e.2 := by
  obtain ⟨xs, ys, rfl⟩ := append_of_mem he
  obtain ⟨n, hn, -, -, hval⟩ := h xs e ys rfl
  exact ⟨n, hn, hval⟩

/-- An entry of two parts is in the first or in the second. -/
theorem append_eq_append_cons {α : Type*} {e : α} : ∀ {xs ys us vs : List α},
    xs ++ ys = us ++ e :: vs →
      (∃ w, xs = us ++ e :: w ∧ vs = w ++ ys) ∨ ∃ w, ys = w ++ e :: vs ∧ us = xs ++ w
  | [], _, us, _, h => Or.inr ⟨us, h, rfl⟩
  | x :: xs, ys, [], vs, h => by
    rw [cons_append, nil_append, List.cons.injEq] at h
    obtain ⟨rfl, rfl⟩ := h
    exact Or.inl ⟨xs, rfl, rfl⟩
  | x :: xs, ys, u :: us, vs, h => by
    rw [cons_append, cons_append, List.cons.injEq] at h
    obtain ⟨rfl, h⟩ := h
    rcases append_eq_append_cons h with ⟨w, rfl, hvs⟩ | ⟨w, hys, rfl⟩
    · exact Or.inl ⟨w, rfl, hvs⟩
    · exact Or.inr ⟨w, hys, rfl⟩

section

variable (hnodup : (keys (xs ++ e :: ys)).Nodup)
include hnodup

/-- An entry is the first where there is none before it. -/
theorem headKey_eq_iff : some e.1 = headKey (xs ++ e :: ys) ↔ xs = [] := by
  cases xs with
  | nil => exact ⟨fun _ => rfl, fun _ => rfl⟩
  | cons x xs =>
    refine ⟨fun h => ?_, fun h => by cases h⟩
    have hx : e.1 = x.1 := Option.some.inj h
    rw [cons_append, keys_cons, nodup_cons, keys_append] at hnodup
    exact absurd (mem_append_right _ (hx ▸ mem_cons_self)) hnodup.1

/-- An entry is the last where there is none behind it. -/
theorem lastKey_eq_iff : some e.1 = lastKey (xs ++ e :: ys) ↔ ys = [] := by
  rw [lastKey_append_cons]
  cases ys with
  | nil => exact ⟨fun _ => rfl, fun _ => rfl⟩
  | cons y ys =>
    refine ⟨fun h => ?_, fun h => by cases h⟩
    rw [lastKey_cons_cons] at h
    rw [keys_append, keys_cons] at hnodup
    exact absurd (lastKey_mem h.symm) (nodup_cons.mp (nodup_append.mp hnodup).2.1).1

/-- The first entry, when an entry is taken out -/
theorem headKey_without [DecidableEq κ] :
    (if some e.1 = headKey (xs ++ e :: ys) then headKey ys else headKey (xs ++ e :: ys)) = headKey (xs ++ ys) := by
  have hiff := headKey_eq_iff hnodup
  cases xs with
  | nil => rw [if_pos (hiff.mpr rfl), nil_append]
  | cons x xs =>
    rw [if_neg fun h => cons_ne_nil x xs (hiff.mp h)]
    rfl

/-- The last entry, when an entry is taken out -/
theorem lastKey_without [DecidableEq κ] :
    (if some e.1 = lastKey (xs ++ e :: ys) then lastKey xs else lastKey (xs ++ e :: ys)) = lastKey (xs ++ ys) := by
  have hiff := lastKey_eq_iff hnodup
  cases ys with
  | nil => rw [if_pos (hiff.mpr rfl), append_nil]
  | cons y ys =>
    rw [if_neg fun h => cons_ne_nil y ys (hiff.mp h), lastKey_append_cons, lastKey_append_cons, lastKey_cons_cons]

end

/-- The middle part `m` becomes `m'`: the links at its two ends are set anew, the
other nodes keep theirs. -/
theorem Linked.replace [DecidableEq κ] {m : List (κ × β)}
    (m' : List (κ × β)) (h : Linked L cells (xs ++ (m ++ ys))) (hnodup : (keys (xs ++ (m ++ ys))).Nodup)
    (hnew : ∀ us e vs, m' = us ++ e :: vs → Between L cells' (xs ++ us) e (vs ++ ys))
    (hold : ∀ e ∈ xs ++ ys, ∀ n, cells e.1 = some n → ∃ n', cells' e.1 = some n' ∧
      L.next n' = (if lastKey xs = some e.1 then headKey (m' ++ ys) else L.next n) ∧
      L.left n' = (if headKey ys = some e.1 then lastKey (xs ++ m') else L.left n) ∧
      L.val n' = L.val n) :
    Linked L cells' (xs ++ (m' ++ ys)) := by
  have hdisjoint : ∀ p ∈ keys xs, p ∉ keys ys := by
    rw [keys_append, keys_append] at hnodup
    intro p hp hq
    exact (nodup_append.mp hnodup).2.2 p hp p (mem_append_right _ hq) rfl
  intro us e vs heq
  rcases append_eq_append_cons heq with ⟨w, rfl, rfl⟩ | ⟨w, hw, rfl⟩
  · -- the entry is in `xs`
    rw [append_assoc, cons_append] at h hnodup
    obtain ⟨n, hn, hnext, hleft, hval⟩ := h us e _ rfl
    have hmem : e ∈ us ++ e :: w := mem_append_cons_self
    obtain ⟨n', hn', hnext', hleft', hval'⟩ := hold e (mem_append_left _ hmem) n hn
    have hhead : headKey ys ≠ some e.1 := fun hhead =>
      hdisjoint e.1 (mem_keys hmem) (headKey_mem hhead)
    rw [if_neg hhead] at hleft'
    refine ⟨n', hn', ?_, hleft'.trans hleft, hval'.trans hval⟩
    rw [hnext', lastKey_append_cons]
    cases w with
    | nil => exact if_pos rfl
    | cons f w =>
      have hne : lastKey (e :: f :: w) ≠ some e.1 := by
        intro hlast
        have hlast' : lastKey (f :: w) = some e.1 :=
          (lastKey_append_cons [e] f w).symm.trans hlast
        rw [keys_append, keys_cons, keys_append] at hnodup
        exact (nodup_cons.mp (nodup_append.mp hnodup).2.1).1
          (mem_append_left _ (lastKey_mem hlast'))
      rw [if_neg hne, hnext]
      rfl
  rcases append_eq_append_cons hw with ⟨w, rfl, rfl⟩ | ⟨w, rfl, rfl⟩
  · exact hnew _ e _ rfl
  · -- the entry is in `ys`
    have hassoc : xs ++ (m ++ (w ++ e :: vs)) = xs ++ (m ++ w) ++ e :: vs := by
      rw [append_assoc, append_assoc]
    obtain ⟨n, hn, hnext, hleft, hval⟩ := h _ e vs hassoc
    have hmem : e ∈ w ++ e :: vs := mem_append_cons_self
    obtain ⟨n', hn', hnext', hleft', hval'⟩ := hold e (mem_append_right _ hmem) n hn
    have hlast : lastKey xs ≠ some e.1 := fun hlast =>
      hdisjoint e.1 (lastKey_mem hlast) (mem_keys hmem)
    rw [if_neg hlast] at hnext'
    refine ⟨n', hn', hnext'.trans hnext, ?_, hval'.trans hval⟩
    rw [hleft']
    cases w with
    | nil =>
      rw [nil_append, headKey_cons, if_pos rfl, append_nil]
    | cons f w =>
      have hne : headKey (f :: w ++ e :: vs) ≠ some e.1 := by
        intro hhead
        have hfe : f.1 = e.1 := Option.some.inj hhead
        rw [keys_append, keys_append] at hnodup
        have hcons := (nodup_append.mp (nodup_append.mp hnodup).2.1).2.1
        rw [cons_append, keys_cons, keys_append] at hcons
        exact (nodup_cons.mp hcons).1
          (mem_append_right _ (hfe ▸ mem_cons_self))
      rw [if_neg hne, hleft, ← append_assoc, lastKey_append_cons, ← append_assoc,
        lastKey_append_cons]

/-- The nodes read from the right. -/
def Layout.mirror (L : Layout κ ν β) : Layout κ ν β := ⟨L.left, L.next, L.val⟩

theorem Linked.mirror (h : Linked L cells es) :
    Linked L.mirror cells es.reverse := by
  intro xs e ys heq
  have hes : es = ys.reverse ++ e :: xs.reverse := by
    rw [← reverse_reverse es, heq, reverse_append, reverse_cons, append_assoc]
    rfl
  obtain ⟨n, hn, hnext, hleft, hval⟩ := h _ e _ hes
  refine ⟨n, hn, ?_, ?_, hval⟩
  · rw [lastKey, getLast?_reverse] at hleft
    exact hleft
  · rw [headKey, head?_reverse] at hnext
    exact hnext

/-- The list turned around: every node has its links exchanged. -/
theorem Linked.reverse (h : Linked L cells es)
    (hswap : ∀ e ∈ es, ∀ n, cells e.1 = some n → ∃ n', cells' e.1 = some n' ∧
      L.next n' = L.left n ∧ L.left n' = L.next n ∧ L.val n' = L.val n) :
    Linked L cells' es.reverse := by
  intro xs e ys heq
  obtain ⟨n, hn, hnext, hleft, hval⟩ := h.mirror xs e ys heq
  have hmem : e ∈ es := by
    rw [← mem_reverse, heq]
    exact mem_append_cons_self
  obtain ⟨n', hn', hnext', hleft', hval'⟩ := hswap e hmem n hn
  exact ⟨n', hn', hnext'.trans hnext, hleft'.trans hleft, hval'.trans hval⟩

/-- Values changed by key. -/
theorem Linked.revalue (f : κ × β → β)
    (h : Linked L cells es) (hval : ∀ e ∈ es, ∀ n, cells e.1 = some n → ∃ n', cells' e.1 = some n' ∧
      L.next n' = L.next n ∧ L.left n' = L.left n ∧ L.val n' = f e) :
    Linked L cells' (es.map fun e => (e.1, f e)) := by
  intro xs e' ys heq
  obtain ⟨us, ws, rfl, rfl, hws⟩ := map_eq_append_iff.mp heq
  obtain ⟨e, vs, rfl, rfl, rfl⟩ := map_eq_cons_iff.mp hws
  obtain ⟨n, hn, hnext, hleft, -⟩ := h us e vs rfl
  obtain ⟨n', hn', hnext', hleft', hval'⟩ := hval e
    mem_append_cons_self n hn
  refine ⟨n', hn', ?_, ?_, hval'⟩
  · rw [hnext', hnext, headKey, headKey, head?_map, Option.map_map]
    rfl
  · rw [hleft', hleft, lastKey, lastKey, getLast?_map, Option.map_map]
    rfl

/-- The links stay as they are. -/
theorem Linked.congr (h : Linked L cells es)
    (hsame : ∀ e ∈ es, ∀ n, cells e.1 = some n → ∃ n', cells' e.1 = some n' ∧
      L.next n' = L.next n ∧ L.left n' = L.left n ∧ L.val n' = L.val n) : Linked L cells' es := by
  intro xs e ys heq
  obtain ⟨n, hn, hnext, hleft, hval⟩ := h xs e ys heq
  have hmem : e ∈ es := heq ▸ mem_append_cons_self
  obtain ⟨n', hn', hnext', hleft', hval'⟩ := hsame e hmem n hn
  exact ⟨n', hn', hnext'.trans hnext, hleft'.trans hleft, hval'.trans hval⟩

/-! ## Walks -/

/-- The keys met from `p` on along `step`, up to the end of the links; there is
nothing where it is not reached in so many steps. -/
def walk (step : ν → Option κ) (cells : κ → Option ν) : Nat → Option κ → Option (List κ)
  | _, none => some []
  | 0, some _ => none
  | fuel + 1, some p =>
      match cells p with
      | none => none
      | some n => (walk step cells fuel (step n)).map (p :: ·)

theorem walk_next_from : ∀ {fuel : Nat} (xs ys : List (κ × β)),
    Linked L cells (xs ++ ys) → ys.length ≤ fuel →
      walk L.next cells fuel (headKey ys) = some (keys ys)
  | _, _, [], _, _ => by
    rw [headKey_nil, walk]
    rfl
  | 0, _, _ :: _, _, h => absurd h (Nat.not_succ_le_zero _)
  | fuel + 1, xs, e :: ys, h, hfuel => by
    obtain ⟨n, hn, hnext, -, -⟩ := h xs e ys rfl
    rw [headKey_cons, walk, hn]
    have hrest : xs ++ e :: ys = (xs ++ [e]) ++ ys := by rw [append_assoc]; rfl
    dsimp only
    rw [hnext, walk_next_from (xs ++ [e]) ys (hrest ▸ h) (Nat.le_of_succ_le_succ hfuel)]
    rfl

/-- To the right the entries are met in order. -/
theorem walk_next {fuel : Nat} (h : Linked L cells es)
    (hfuel : es.length ≤ fuel) : walk L.next cells fuel (headKey es) = some (keys es) :=
  walk_next_from [] es h hfuel

/-- To the left they are met in reverse order. -/
theorem walk_left {fuel : Nat} (h : Linked L cells es)
    (hfuel : es.length ≤ fuel) : walk L.left cells fuel (lastKey es) = some (keys es).reverse := by
  have hwalk : walk L.mirror.next cells fuel (headKey es.reverse) = some (keys es.reverse) :=
    walk_next h.mirror (by rwa [length_reverse])
  rwa [headKey, head?_reverse, keys, map_reverse] at hwalk

end Unisym.Links
