/-
# `ArrayInitializerSpec` — the fill of an array and the standard

Where braced lists come only between sub-arrays, the loop of the fill and the standard go through a list group by group
(`Grouped`), and so agree, also on the bound that is left out.  Where the standard allows a list and one of its braced
lists comes inside a sub-array, they do not: the standard goes on with the next scalar, and the fill leaves it empty.
-/
import Mathlib.Algebra.BigOperators.Ring.List
import Mathlib.Tactic.Ring
import Unisym.Lango.ArrayInitializer
import Unisym.Library.Steps

namespace Unisym.Lango.FrontendC

open List

/-! ## Expressions in a row -/

section Rows

variable {α : Type}

theorem word_eq {n : Nat} (h : n < 2 ^ 64) : word n = n := Nat.mod_eq_of_lt h

/-- The source's product is the word that the product makes. -/
theorem foldl_word_eq (dims : List Nat) {count : Nat} (h : count < 2 ^ 64) :
    dims.foldl (fun count d => word (count * d)) count = word (count * dims.prod) := by
  induction dims generalizing count with
  | nil => rw [foldl_nil, prod_nil, Nat.mul_one, word_eq h]
  | cons d dims ih =>
    have hword : word (count * d) < 2 ^ 64 := Nat.mod_lt _ (Nat.two_pow_pos 64)
    rw [foldl_cons, ih hword, prod_cons, ← Nat.mul_assoc]
    exact Nat.mod_mul_mod _ _ _

theorem arraySubobjectElements_eq {dims : List Nat} (h : dims.prod < 2 ^ 64) :
    arraySubobjectElements dims = dims.prod := by
  rw [arraySubobjectElements, foldl_word_eq dims (by decide), Nat.one_mul, word_eq h]

variable {object : List (Init α) → Initialised α} {size : Nat}

theorem initialiseEach_succ {count : Nat} {items : List (Init α)}
    (h : items ≠ []) :
    initialiseEach object size (count + 1) items =
      match object items with
      | none => none
      | some (values, items) =>
        (initialiseEach object size count items).map fun (rest, items) => (values ++ rest, items) := by
  cases items with
  | nil => exact (h rfl).elim
  | cons item items => rfl

theorem all_map_append (values : List (Option α)) (result : Initialised α) :
    all (result.map fun (rest, items) => (values ++ rest, items)) = (all result).map (values ++ ·) := by
  rcases result with _ | ⟨rest, _ | ⟨item, items⟩⟩ <;> rfl

/-- A list starts with expressions, up to its end or a braced list. -/
theorem exists_expressions (items : List (Init α)) : ∃ (es : List α) (rest : List (Init α)),
    items = es.map .expr ++ rest ∧ (rest = [] ∨ ∃ first more items, rest = .block first more :: items) := by
  induction items with
  | nil => exact ⟨[], [], rfl, .inl rfl⟩
  | cons item items ih =>
    cases item with
    | block first more => exact ⟨[], _, rfl, .inr ⟨first, more, items, rfl⟩⟩
    | expr e =>
      obtain ⟨es, rest, rfl, hrest⟩ := ih
      exact ⟨e :: es, rest, rfl, hrest⟩

/-- The values of the scalars of an object of this size that takes expressions -/
def row (size : Nat) (es : List α) : List (Option α) :=
  (es.take size).map some ++ List.replicate (size - es.length) none

theorem row_add (size more : Nat) (es : List α) : row (size + more) es = row size es ++ row more (es.drop size) := by
  simp only [row, length_drop]
  rcases Nat.le_total size es.length with h | h
  · rw [take_add, Nat.sub_eq_zero_of_le h]
    have hsub : size + more - es.length = more - (es.length - size) := by omega
    simp [hsub]
  · have hfull : es.take size = es := take_of_length_le h
    have hmore : es.take (size + more) = es := take_of_length_le (by omega)
    have hnone : es.drop size = [] := drop_of_length_le h
    rw [hfull, hmore, hnone, take_nil, map_nil, nil_append, append_assoc,
      replicate_append_replicate]
    congr 2
    omega

/-- The object takes the expressions that are there, up to its size, if nothing else comes first. -/
def TakesRow (object : List (Init α) → Initialised α) (size : Nat) : Prop :=
  ∀ (es : List α) (rest : List (Init α)), es ≠ [] → size ≤ es.length ∨ rest = [] →
    object (es.map .expr ++ rest) = some (row size es, (es.drop size).map .expr ++ rest)

theorem initialiseEach_row (hsize : 0 < size)
    (ho : TakesRow object size) (count : Nat) (es : List α) (rest : List (Init α))
    (h : count * size ≤ es.length ∨ rest = []) :
    initialiseEach object size count (es.map .expr ++ rest) =
      some (row (count * size) es, (es.drop (count * size)).map .expr ++ rest) := by
  induction count generalizing es with
  | zero => simp [initialiseEach, row]
  | succ count ih =>
    have hmul : (count + 1) * size = size + count * size := by ring
    cases es with
    | nil =>
      have hrest : rest = [] := h.resolve_left (by rw [hmul, length_nil]; omega)
      simp [hrest, initialiseEach, row]
    | cons e es =>
      have hfirst : size ≤ (e :: es).length ∨ rest = [] := h.imp_left fun h => by rw [hmul] at h; omega
      have hnext : count * size ≤ ((e :: es).drop size).length ∨ rest = [] :=
        h.imp_left fun h => by rw [hmul] at h; rw [length_drop]; omega
      rw [hmul, row_add, ← drop_drop]
      have hobject := ho (e :: es) rest (by simp) hfirst
      simp only [map_cons, cons_append] at hobject ⊢
      simp only [initialiseEach, hobject, ih _ hnext, Option.map_some]

theorem takesRow_subarray (ho : TakesRow object size) :
    TakesRow (initialiseSubarray object) size := by
  intro es rest hes h
  rw [← ho es rest hes h]
  obtain ⟨e, es, rfl⟩ := exists_cons_of_ne_nil hes
  rfl

theorem takesRow_initialise {ds : List Nat} (hpos : 0 ∉ ds) : TakesRow (α := α) (initialise ds) ds.prod := by
  induction ds with
  | nil =>
    intro es rest hes h
    obtain ⟨e, es, rfl⟩ := exists_cons_of_ne_nil hes
    have hnone : 1 - (e :: es).length = 0 := by simp
    rw [prod_nil, row, hnone]
    rfl
  | cons n ds ih =>
    rw [mem_cons, not_or] at hpos
    have htakes := ih hpos.2
    have hsize : 0 < ds.prod := Nat.pos_of_ne_zero (prod_ne_zero hpos.2)
    intro es rest hes h
    rw [prod_cons] at h ⊢
    cases ds with
    | nil => exact initialiseEach_row (by simp) htakes n es rest h
    | cons d ds =>
      exact initialiseEach_row hsize (takesRow_subarray htakes) n es rest h

end Rows

/-! ## Aligned lists -/

section Fill

variable {α : Type} {fill : Option (List (Init α) → List (Option α) → Nat → Nat → Option (List (Option α)))}
  {child start capacity : Nat} {before done after : List (Option α)}

theorem foldlM_expressions (hcap : capacity < 2 ^ 61) (hstart : start = before.length) (es : List α) {room : Nat}
    (hc : done.length + es.length ≤ capacity) (hr : es.length ≤ room) :
    (es.map Init.expr).foldlM (fillStep fill child start capacity)
        (before ++ (done ++ (List.replicate room none ++ after)), done.length) =
      some (before ++ (done ++ (es.map some ++ (List.replicate (room - es.length) none ++ after))),
        done.length + es.length) := by
  induction es generalizing done room with
  | nil => simp
  | cons e es ih =>
    rw [length_cons] at hc hr
    obtain ⟨room, rfl⟩ : ∃ r, room = r + 1 := ⟨room - 1, by omega⟩
    have hstep : fillStep fill child start capacity
        (before ++ (done ++ (List.replicate (room + 1) none ++ after)), done.length) (.expr e) =
        some (before ++ (done ++ [some e] ++ (List.replicate room none ++ after)), (done ++ [some e]).length) := by
      have hlt : ¬done.length ≥ capacity := by omega
      have hword : word (done.length + 1) = done.length + 1 := word_eq (by omega)
      cases fill <;> simp [fillStep, scalarItem, hlt, hword, hstart, replicate_succ]
    rw [map_cons, foldlM_cons, hstep, some_bind,
      ih (by simp; omega) (by omega)]
    simp [Nat.add_assoc, Nat.add_comm 1]

variable {cursor : Nat} {object : List (Init α) → Initialised α}

theorem roundUp_of_mod_eq_zero (h : cursor % child = 0) : roundUp cursor child = cursor := by
  simp [roundUp, h]

/-- The fill of an array of this size agrees with the standard on the lists that are aligned for it. -/
def Agrees (fill : List (Init α) → List (Option α) → Nat → Nat → Option (List (Option α)))
    (object : List (Init α) → Initialised α) (aligned : List (Init α) → Prop) (size : Nat) : Prop :=
  ∀ (items : List (Init α)) (before after : List (Option α)), items ≠ [] → aligned items →
    before.length + size < 2 ^ 61 →
    fill items (before ++ (List.replicate size none ++ after)) before.length size =
      (all (object items)).map fun values => before ++ (values ++ after)

theorem alignedFrom_expressions {inner : List (Init α) → Prop} (es : List α) (rest : List (Init α)) :
    AlignedFrom inner child cursor (es.map .expr ++ rest) ↔ AlignedFrom inner child (cursor + es.length) rest := by
  induction es generalizing cursor with
  | nil => rfl
  | cons e es ih =>
    rw [map_cons, cons_append, AlignedFrom, ih, length_cons, Nat.add_right_comm, Nat.add_assoc]

/-- A list in groups, each of which is for one sub-array: a braced list, a row of expressions that fills it, or the last
ones, which do not. -/
inductive Grouped (aligned : List (Init α) → Prop) (child : Nat) : List (Init α) → Prop
  | nil : Grouped aligned child []
  | braced {first : Init α} {more items : List (Init α)} :
      aligned (first :: more) → Grouped aligned child items → Grouped aligned child (.block first more :: items)
  | full {es : List α} {items : List (Init α)} :
      es.length = child → Grouped aligned child items → Grouped aligned child (es.map .expr ++ items)
  | last {es : List α} : es ≠ [] → es.length < child → Grouped aligned child (es.map .expr)

theorem grouped_of_aligned {aligned : List (Init α) → Prop} (hchild : 0 < child)
    (hcursor : cursor % child = 0) (items : List (Init α)) (ha : AlignedFrom aligned child cursor items) :
    Grouped aligned child items := by
  induction hn : items.length using Nat.strong_induction_on generalizing items cursor with
  | _ n ih =>
  subst hn
  obtain ⟨es, rest, rfl, hrest⟩ := exists_expressions items
  rw [alignedFrom_expressions] at ha
  rcases Nat.lt_or_ge es.length child with hshort | hlong
  · rcases hrest with rfl | ⟨first, more, items, rfl⟩
    · rw [append_nil]
      rcases es with _ | ⟨e, es⟩
      · exact .nil
      · exact .last (by simp) hshort
    · obtain ⟨hstart, hinner, htail⟩ := ha
      rw [Nat.add_mod, hcursor, Nat.zero_add, Nat.mod_mod, Nat.mod_eq_of_lt hshort] at hstart
      obtain rfl := length_eq_zero_iff.mp hstart
      exact .braced hinner (ih _ (by simp) (by simpa using hcursor) items htail rfl)
  · obtain ⟨full, more, rfl, hlen⟩ : ∃ full more, es = full ++ more ∧ full.length = child :=
      ⟨_, _, (take_append_drop child es).symm, length_take_of_le hlong⟩
    rw [length_append, ← Nat.add_assoc, hlen] at ha
    rw [map_append, append_assoc]
    refine .full hlen (ih _ ?_ (by simpa using hcursor) _ ((alignedFrom_expressions more rest).mpr ha) rfl)
    simp only [length_append, length_map]
    omega

/-- A row of expressions is taken by one object, if it fills it or nothing follows. -/
theorem initialiseEach_full {count : Nat} (hrow : TakesRow object child)
    (hchild : 0 < child) {es : List α} (hes : es.length = child) (items : List (Init α)) :
    initialiseEach object child (count + 1) (es.map .expr ++ items) =
      (initialiseEach object child count items).map fun (rest, items) => (es.map some ++ rest, items) := by
  have hne : es ≠ [] := by
    rintro rfl
    simp at hes
    omega
  have hobject := hrow es items hne (.inl hes.ge)
  have htake : es.take child = es := take_of_length_le hes.le
  have hdrop : es.drop child = [] := drop_of_length_le hes.le
  rw [row, htake, hdrop, hes, Nat.sub_self, replicate_zero, append_nil, map_nil, nil_append] at hobject
  rw [initialiseEach_succ (by simp [hne]), hobject]

/-- Between sub-arrays the loop and the standard go on alike. -/
theorem foldlM_subarrays {sub : List (Init α) → List (Option α) → Nat → Nat → Option (List (Option α))}
    {object : List (Init α) → Initialised α} {aligned : List (Init α) → Prop} (hchild : 0 < child)
    (hagrees : Agrees sub object aligned child) (hrow : TakesRow (initialiseSubarray object) child)
    (hlength : ∀ items values rest, object items = some (values, rest) → values.length = child)
    (hcap : start + capacity < 2 ^ 61) (hfits : child ≤ capacity) (hstart : start = before.length)
    {items : List (Init α)} (ha : Grouped aligned child items) {count : Nat}
    (hcount : done.length + count * child = capacity) (hdone : done.length % child = 0) :
    (items.foldlM (fillStep (some sub) child start capacity)
        (before ++ (done ++ (List.replicate (count * child) none ++ after)), done.length)).map (·.1) =
      (all (initialiseEach (initialiseSubarray object) child count items)).map
        fun values => before ++ (done ++ (values ++ after)) := by
  have hmul : ∀ count, (count + 1) * child = child + count * child := fun count => by ring
  induction ha generalizing done count with
  | nil => cases count <;> simp [initialiseEach, all]
  | @braced first more items hinner _ ih =>
    have hround := roundUp_of_mod_eq_zero hdone
    have hword : word (done.length + child) = done.length + child := word_eq (by omega)
    have hword' : word (start + done.length) = start + done.length := word_eq (by omega)
    rw [foldlM_cons, fillStep]
    simp only [hround, hword, hword', Option.bind_eq_bind]
    cases count with
    | zero =>
      have hlarge : done.length + child > capacity := by omega
      simp [hlarge, initialiseEach, all]
    | succ count =>
      rw [hmul] at hcount
      have hsmall : ¬done.length + child > capacity := by omega
      rw [if_neg hsmall, hmul, ← replicate_append_replicate]
      have hsub := hagrees (first :: more) (before ++ done) (List.replicate (count * child) none ++ after)
        (by simp) hinner (by simp; omega)
      simp only [append_assoc, length_append, ← hstart] at hsub
      rw [append_assoc, hsub, initialiseEach, initialiseSubarray]
      cases hobject : all (object (first :: more)) with
      | none => simp [all]
      | some values =>
        have hvalues : values.length = child := by
          unfold all at hobject
          split at hobject
          · next heq => cases hobject; exact hlength _ _ _ heq
          · cases hobject
        have hnext := @ih (done ++ values) count (by simp [hvalues]; omega) (by simp [hvalues, hdone])
        simp only [append_assoc, length_append, hvalues] at hnext
        simp only [Option.map_some, Option.bind_some, hnext, all_map_append, Option.map_map]
        simp only [Function.comp_def, append_assoc]
  | @full es items hlen _ ih =>
    cases count with
    | zero =>
      obtain ⟨e, es, rfl⟩ := exists_cons_of_ne_nil (by rintro rfl; simp at hlen; omega : es ≠ [])
      have hfull : done.length ≥ capacity := by omega
      simp [fillStep, scalarItem, hfull, initialiseEach, all]
    | succ count =>
      rw [hmul] at hcount
      have hrun := @foldlM_expressions α (some sub) child start capacity before done after (by omega) hstart es
        ((count + 1) * child) (by omega) (by rw [hmul]; omega)
      have hnext := @ih (done ++ es.map some) count (by simp; omega) (by simp [hlen, hdone])
      rw [hlen, hmul, Nat.add_sub_cancel_left] at hrun
      simp only [append_assoc, length_append, length_map, hlen] at hnext
      rw [foldlM_append, hmul, hrun, some_bind, hnext,
        initialiseEach_full hrow hchild hlen, all_map_append, Option.map_map]
      simp only [Function.comp_def, append_assoc]
  | @last es hne hshort =>
    cases count with
    | zero =>
      obtain ⟨e, es, rfl⟩ := exists_cons_of_ne_nil hne
      have hfull : done.length ≥ capacity := by omega
      simp [fillStep, scalarItem, hfull, initialiseEach, all]
    | succ count =>
      rw [hmul] at hcount
      have hrun := @foldlM_expressions α (some sub) child start capacity before done after (by omega) hstart es
        ((count + 1) * child) (by omega) (by rw [hmul]; omega)
      have heach := initialiseEach_row hchild hrow (count + 1) es [] (.inr rfl)
      have htake : es.take ((count + 1) * child) = es := take_of_length_le (by rw [hmul]; omega)
      have hdrop : es.drop ((count + 1) * child) = [] := drop_of_length_le (by rw [hmul]; omega)
      rw [row, htake, hdrop, append_nil, map_nil, append_nil] at heach
      rw [hrun, heach]
      simp [all]

theorem length_initialiseEach {size : Nat}
    (ho : ∀ items values rest, object items = some (values, rest) → values.length = size) {count : Nat}
    {items rest : List (Init α)} {values : List (Option α)}
    (h : initialiseEach object size count items = some (values, rest)) : values.length = count * size := by
  induction count generalizing items values rest with
  | zero => cases h; simp
  | succ count ih =>
    cases items with
    | nil => cases h; simp
    | cons item items =>
      rw [initialiseEach_succ (by simp)] at h
      split at h
      · cases h
      · next first left hfirst =>
          obtain ⟨⟨more, left⟩, hmore, heq⟩ := Option.map_eq_some_iff.mp h
          cases heq
          rw [length_append, ho _ _ _ hfirst, ih hmore]
          ring

theorem length_initialiseSubarray {size : Nat}
    (ho : ∀ items values rest, object items = some (values, rest) → values.length = size)
    (items : List (Init α)) (values : List (Option α)) (rest : List (Init α))
    (h : initialiseSubarray object items = some (values, rest)) : values.length = size := by
  unfold initialiseSubarray at h
  split at h
  · next first more items =>
      obtain ⟨inner, hinner, heq⟩ := Option.map_eq_some_iff.mp h
      cases heq
      unfold all at hinner
      split at hinner
      · next hobject => cases hinner; exact ho _ _ _ hobject
      · cases hinner
  · exact ho _ _ _ h

theorem length_initialise (dims : List Nat) (items : List (Init α)) (values : List (Option α)) (rest : List (Init α))
    (h : initialise dims items = some (values, rest)) : values.length = dims.prod := by
  induction dims generalizing items values rest with
  | nil =>
    cases items with
    | nil => cases h; rfl
    | cons item items =>
      obtain ⟨e, -, heq⟩ := Option.map_eq_some_iff.mp h
      cases heq
      rfl
  | cons n ds ih =>
    cases ds with
    | nil => exact (length_initialiseEach ih h).trans (by simp)
    | cons d ds => exact length_initialiseEach (length_initialiseSubarray ih) h

theorem foldlM_scalars (hcap : start + capacity < 2 ^ 61) (hstart : start = before.length) (items : List (Init α))
    {count : Nat} (hcount : done.length + count = capacity) :
    (items.foldlM (fillStep none child start capacity)
        (before ++ (done ++ (List.replicate count none ++ after)), done.length)).map (·.1) =
      (all (initialiseEach (initialise []) 1 count items)).map fun values => before ++ (done ++ (values ++ after)) := by
  induction items generalizing count done with
  | nil => cases count <;> simp [initialiseEach, all]
  | cons item items ih =>
    rw [foldlM_cons]
    cases count with
    | zero =>
      have hfull : done.length ≥ capacity := by omega
      cases hitem : scalarItem item <;> simp [fillStep, hitem, hfull, initialiseEach, all]
    | succ count =>
      rw [initialiseEach_succ (by simp), initialise]
      cases hitem : scalarItem item with
      | none => simp [fillStep, hitem, all]
      | some e =>
        have hroom : ¬done.length ≥ capacity := by omega
        have hword : word (done.length + 1) = done.length + 1 := word_eq (by omega)
        have hnext := @ih (done ++ [some e]) count (by simp; omega)
        simp only [append_assoc, length_append, length_singleton, singleton_append] at hnext
        simp only [fillStep, hitem, if_neg hroom, hword, hstart, some_bind,
          Option.map_some, all_map_append, Option.map_map]
        have hset : (before ++ (done ++ (List.replicate (count + 1) none ++ after))).set
            (before.length + done.length) (some e) =
            before ++ (done ++ (some e :: (List.replicate count none ++ after))) := by
          simp [replicate_succ]
        rw [hset, ← hstart, hnext]
        simp [Function.comp_def]

/-- On an aligned list the fill agrees with the standard. -/
theorem agrees_of_aligned {n : Nat} {ds : List Nat} (hpos : 0 ∉ n :: ds) :
    Agrees (α := α) (fillArrayInitializerSlots (n :: ds)) (initialise (n :: ds)) (Aligned ds) (n :: ds).prod := by
  induction ds generalizing n with
  | nil =>
    intro items before after _ _ hsize
    rw [prod_singleton] at hsize ⊢
    exact @foldlM_scalars α _ _ _ before [] after (by omega) rfl items _ (by simp)
  | cons d ds ih =>
    intro items before after _ ha hsize
    rw [mem_cons, not_or] at hpos
    have hn : 0 < n := Nat.pos_of_ne_zero (Ne.symm hpos.1)
    have hchild : 0 < (d :: ds).prod := Nat.pos_of_ne_zero (prod_ne_zero hpos.2)
    rw [prod_cons] at hsize ⊢
    have hfits : (d :: ds).prod ≤ n * (d :: ds).prod := Nat.le_mul_of_pos_left _ hn
    have hrow := takesRow_subarray (takesRow_initialise (α := α) hpos.2)
    rw [fillArrayInitializerSlots, arraySubobjectElements_eq (by omega)]
    have hgrouped := grouped_of_aligned hchild (Nat.zero_mod _) items ha
    exact @foldlM_subarrays α _ _ _ before [] after _ _ _ hchild (ih hpos.2) hrow (length_initialise _) (by omega)
      hfits rfl _ hgrouped n (by simp) (by simp)

end Fill

/-! ## The bound that is left out -/

section Bound

variable {α : Type} {object : List (Init α) → Initialised α} {child : Nat}

/-- The list is taken by so many objects, one after another. -/
inductive Takes (object : List (Init α) → Initialised α) : Nat → List (Init α) → Prop
  | nil : Takes object 0 []
  | cons {k : Nat} {items rest : List (Init α)} {values : List (Option α)} :
      items ≠ [] → object items = some (values, rest) → Takes object k rest → Takes object (k + 1) items

variable {k cursor : Nat} {items : List (Init α)} {ds : List Nat}

theorem Takes.unique {m : Nat} (hk : Takes object k items) (hm : Takes object m items) :
    k = m := by
  induction hk generalizing m with
  | nil =>
    cases hm with
    | nil => rfl
    | cons hne _ _ => exact (hne rfl).elim
  | cons hne hobject _ ih =>
    cases hm with
    | nil => exact (hne rfl).elim
    | cons _ hobject' htail =>
      rw [hobject] at hobject'
      cases hobject'
      rw [ih htail]

/-- An array has room for a list exactly if it has as many elements as the list takes. -/
theorem isSome_all_iff {size count : Nat} :
    (all (initialiseEach object size count items)).isSome ↔ ∃ k ≤ count, Takes object k items := by
  induction count generalizing items with
  | zero =>
    cases items with
    | nil => exact iff_of_true rfl ⟨0, Nat.le_refl 0, .nil⟩
    | cons item items =>
      refine iff_of_false (by simp [initialiseEach, all]) ?_
      rintro ⟨k, hk, ht⟩
      cases ht
      omega
  | succ count ih =>
    cases items with
    | nil => exact iff_of_true rfl ⟨0, Nat.zero_le _, .nil⟩
    | cons item items =>
      rw [initialiseEach_succ (by simp)]
      cases hobject : object (item :: items) with
      | none =>
        refine iff_of_false (by simp [all]) ?_
        rintro ⟨k, hk, ht⟩
        cases ht with
        | cons _ hsome _ => rw [hobject] at hsome; cases hsome
      | some result =>
        obtain ⟨values, rest⟩ := result
        simp only [all_map_append, Option.isSome_map, ih]
        constructor
        · rintro ⟨k, hk, ht⟩
          exact ⟨k + 1, by omega, .cons (by simp) hobject ht⟩
        · rintro ⟨k, hk, ht⟩
          cases ht with
          | cons _ hsome ht =>
            rw [hobject] at hsome
            cases hsome
            exact ⟨_, Nat.le_of_succ_le_succ hk, ht⟩

theorem foldl_requiredStep_expressions (ds : List Nat) (es : List α) (h : cursor + es.length < 2 ^ 64) :
    (es.map Init.expr).foldl (requiredStep ds) cursor = cursor + es.length := by
  induction es generalizing cursor with
  | nil => rfl
  | cons e es ih =>
    rw [length_cons] at h ⊢
    rw [map_cons, foldl_cons, requiredStep, word_eq (by omega), ih (by omega)]
    omega

theorem foldl_requiredStep_scalars (ht : Takes (initialise []) k items)
    (h : cursor + k < 2 ^ 64) : items.foldl (requiredStep []) cursor = cursor + k := by
  generalize hobject : (initialise [] : List (Init α) → Initialised α) = object at ht
  induction ht generalizing cursor with
  | nil => rfl
  | @cons k items rest values hne htaken _ ih =>
    obtain ⟨item, items, rfl⟩ := exists_cons_of_ne_nil hne
    rw [← hobject, initialise] at htaken
    obtain ⟨e, he, heq⟩ := Option.map_eq_some_iff.mp htaken
    cases heq
    have hcount : requiredStep [] cursor item = cursor + 1 := by
      unfold scalarItem at he
      split at he
      · exact word_eq (by omega)
      · simp [requiredStep, scalarInitializerCount, scalarInitializerCounts, @word_eq (cursor + 1) (by omega),
          show word 1 = 1 from rfl]
      · cases he
    rw [foldl_cons, hcount, ih (by omega)]
    omega

/-- Sub-arrays are counted with what the last one leaves open. -/
theorem foldl_requiredStep_grouped {aligned : List (Init α) → Prop} (hds : ds ≠ [])
    (hchild : 0 < child) (hprod : arraySubobjectElements ds = child) (hrow : TakesRow (initialiseSubarray object) child) (ha : Grouped aligned child items)
    (ht : Takes (initialiseSubarray object) k items) (hc : cursor % child = 0)
    (h : cursor + k * child < 2 ^ 61) :
    items.foldl (requiredStep ds) cursor ≤ cursor + k * child ∧
      cursor + k * child < items.foldl (requiredStep ds) cursor + child := by
  have hmul : ∀ k, (k + 1) * child = child + k * child := fun k => by ring
  induction ha generalizing k cursor with
  | nil =>
    cases ht with
    | nil => simp [hchild]
    | cons hne _ _ => exact (hne rfl).elim
  | @braced first more items _ _ ih =>
    cases ht with
    | @cons k _ rest values _ hobject ht =>
      obtain ⟨inner, -, heq⟩ := Option.map_eq_some_iff.mp hobject
      cases heq
      rw [hmul] at h ⊢
      have hstep : requiredStep ds cursor (.block first more) = cursor + child := by
        rw [requiredStep, if_pos hds, hprod, roundUp_of_mod_eq_zero hc, word_eq (by omega)]
      rw [foldl_cons, hstep, ← Nat.add_assoc]
      exact ih ht (by simp [hc]) (by omega)
  | @full es items hlen _ ih =>
    obtain ⟨e, es, rfl⟩ := exists_cons_of_ne_nil (by rintro rfl; simp at hlen; omega : es ≠ [])
    cases ht with
    | @cons k _ rest values _ hobject ht =>
      have htaken := hrow (e :: es) items (by simp) (.inl hlen.ge)
      rw [hobject, drop_of_length_le hlen.le] at htaken
      cases htaken
      rw [hmul] at h ⊢
      rw [foldl_append, foldl_requiredStep_expressions ds _ (by rw [hlen]; omega), hlen, ← Nat.add_assoc]
      exact ih ht (by simp [hc]) (by omega)
  | @last es hne hshort =>
    obtain ⟨e, es, rfl⟩ := exists_cons_of_ne_nil hne
    cases ht with
    | @cons k _ rest values _ hobject ht =>
      have htaken := hrow (e :: es) [] hne (.inr rfl)
      rw [append_nil, hobject, drop_of_length_le hshort.le] at htaken
      cases htaken
      cases ht with
      | cons hne' _ _ => exact (hne' rfl).elim
      | nil =>
        have hpos := length_pos_of_ne_nil hne
        rw [foldl_requiredStep_expressions ds (e :: es) (by omega)]
        omega

/-- What initialises an element whose dimensions are these -/
def elementObject : (ds : List Nat) → List (Init α) → Initialised α
  | [] => initialise []
  | d :: ds => initialiseSubarray (initialise (d :: ds))

theorem initialise_cons (n : Nat) (ds : List Nat) (items : List (Init α)) :
    initialise (n :: ds) items = initialiseEach (elementObject ds) ds.prod n items := by
  cases ds <;> rfl

theorem isSome_initialiseBraced {n : Nat} {first : Init α} {more : List (Init α)} :
    (initialiseBraced (n :: ds) (.block first more)).isSome ↔ ∃ k ≤ n, Takes (elementObject ds) k (first :: more) := by
  rw [initialiseBraced, initialise_cons, isSome_all_iff]

/-- The bound that is found for an aligned list is the number of elements that the list takes. -/
theorem completeArrayType_eq (hpos : 0 ∉ ds) {first : Init α} {more : List (Init α)}
    (ha : Aligned ds (first :: more)) (ht : Takes (elementObject ds) k (first :: more))
    (h : k * ds.prod < 2 ^ 61) :
    completeArrayTypeFromInitializer (0 :: ds) (.block first more) = some (k :: ds) := by
  have hchild : 0 < ds.prod := Nat.pos_of_ne_zero (prod_ne_zero hpos)
  obtain ⟨k, rfl⟩ : ∃ j, k = j + 1 := by
    cases ht with
    | cons => exact ⟨_, rfl⟩
  have hmul : (k + 1) * ds.prod = ds.prod + k * ds.prod := by ring
  have hprod : arraySubobjectElements ds = ds.prod := arraySubobjectElements_eq (by omega)
  have hrequired : requiredArrayElements ds (first :: more) ≤ (k + 1) * ds.prod ∧
      (k + 1) * ds.prod < requiredArrayElements ds (first :: more) + ds.prod := by
    cases ds with
    | nil =>
      rw [prod_nil, Nat.mul_one] at h
      rw [requiredArrayElements, foldl_requiredStep_scalars ht (by omega)]
      simp
    | cons d ds =>
      have hgrouped := grouped_of_aligned hchild (Nat.zero_mod _) _ ha
      have hrow := takesRow_subarray (takesRow_initialise (α := α) hpos)
      have hloop := foldl_requiredStep_grouped (by simp) hchild hprod hrow hgrouped ht (Nat.zero_mod _) (by omega)
      rwa [Nat.zero_add] at hloop
  have hdiv : (requiredArrayElements ds (first :: more) + ds.prod - 1) / ds.prod = k + 1 := by
    rw [Nat.div_eq_iff hchild]
    constructor <;> rw [hmul] at * <;> omega
  rw [completeArrayTypeFromInitializer, if_neg hpos]
  simp only [hprod]
  rw [if_neg (by omega), word_eq (by omega), hdiv]

end Bound

/-! ## Lists that are not aligned -/

section Converse

variable {α : Type} {fill : Option (List (Init α) → List (Option α) → Nat → Nat → Option (List (Option α)))}
  {child start capacity : Nat} {before done after : List (Option α)} {object : List (Init α) → Initialised α}

theorem exists_gap {cursor : Nat} (hchild : 0 < child) (hc : cursor < 2 ^ 61) (hc' : child < 2 ^ 61) :
    ∃ gap ≤ child, roundUp cursor child = cursor + gap ∧ (0 < cursor % child → gap = child - cursor % child) := by
  by_cases h : cursor % child = 0
  · exact ⟨0, Nat.zero_le _, roundUp_of_mod_eq_zero h, by omega⟩
  · exact ⟨child - cursor % child, Nat.sub_le _ _, by rw [roundUp, if_pos h, word_eq (by omega)], fun _ => rfl⟩

/-- The fill of an array of this size writes nowhere else. -/
def Frames (fill : List (Init α) → List (Option α) → Nat → Nat → Option (List (Option α))) (size : Nat) : Prop :=
  ∀ (items : List (Init α)) (before segment after slots : List (Option α)), segment.length = size →
    before.length + size < 2 ^ 61 → fill items (before ++ (segment ++ after)) before.length size = some slots →
    ∃ written, written.length = size ∧ slots = before ++ (written ++ after)

theorem foldlM_frames (hframes : ∀ sub, fill = some sub → 0 < child ∧ child < 2 ^ 61 ∧ Frames sub child)
    (hstart : start = before.length) (hcap : start + capacity < 2 ^ 61) (items : List (Init α))
    {segment : List (Option α)} (hsegment : done.length + segment.length = capacity) {result : List (Option α) × Nat}
    (h : items.foldlM (fillStep fill child start capacity) (before ++ (done ++ (segment ++ after)), done.length) =
      some result) :
    ∃ written, written.length = segment.length ∧ result.1 = before ++ (done ++ (written ++ after)) := by
  induction items generalizing done segment with
  | nil => cases h; exact ⟨segment, rfl, rfl⟩
  | cons item items ih =>
    rw [foldlM_cons, Option.bind_eq_bind, Option.bind_eq_some_iff] at h
    obtain ⟨state, hstate, h⟩ := h
    obtain ⟨front, back, hlen, rfl⟩ : ∃ front back, front.length + back.length = segment.length ∧
        state = (before ++ (done ++ front ++ (back ++ after)), (done ++ front).length) := by
      unfold fillStep at hstate
      simp only at hstate
      split at hstate
      · next sub first more =>
          obtain ⟨hchild, hchild', hsub⟩ := hframes sub rfl
          obtain ⟨gap, hbound, hgap, -⟩ := @exists_gap child done.length hchild (by omega) hchild'
          rw [hgap, word_eq (n := done.length + gap + child) (by omega)] at hstate
          split at hstate
          · cases hstate
          · next hfits =>
            rw [word_eq (by omega)] at hstate
            obtain ⟨slots, hslots, rfl⟩ := Option.map_eq_some_iff.mp hstate
            obtain ⟨skipped, rest, rfl, hskipped⟩ : ∃ skipped rest, segment = skipped ++ rest ∧ skipped.length = gap :=
              ⟨_, _, (take_append_drop gap segment).symm, length_take_of_le (by omega)⟩
            obtain ⟨target, back, rfl, htarget⟩ : ∃ target back, rest = target ++ back ∧ target.length = child :=
              ⟨_, _, (take_append_drop child rest).symm,
                length_take_of_le (by rw [length_append] at hsegment; omega)⟩
            have hplace := hsub (first :: more) (before ++ (done ++ skipped)) target (back ++ after) slots htarget
              (by simp; omega)
              (by rw [← hslots]; simp [hstart, hskipped])
            obtain ⟨written, hwritten, rfl⟩ := hplace
            exact ⟨skipped ++ written, back, by simp [hwritten, htarget]; omega,
              by simp [hskipped, hwritten, Nat.add_assoc]⟩
      · split at hstate
        · cases hstate
        · next e _ =>
          split at hstate
          · cases hstate
          · next hroom =>
            obtain ⟨x, back, rfl⟩ := exists_cons_of_ne_nil
              (ne_nil_of_length_pos (by omega : 0 < segment.length))
            cases hstate
            exact ⟨[some e], back, by simp; omega, by simp [hstart, word_eq (n := done.length + 1) (by omega)]⟩
    obtain ⟨written, hwritten, hresult⟩ := @ih (done ++ front) back (by simp; omega) h
    exact ⟨front ++ written, by simp; omega, by simpa using hresult⟩

theorem frames_fill {n : Nat} {ds : List Nat} (hpos : 0 ∉ n :: ds) :
    Frames (α := α) (fillArrayInitializerSlots (n :: ds)) (n :: ds).prod := by
  induction ds generalizing n with
  | nil =>
    intro items before segment after slots hlen hsize h
    obtain ⟨result, hresult, rfl⟩ := Option.map_eq_some_iff.mp h
    obtain ⟨written, hwritten, heq⟩ := @foldlM_frames α none 1 _ _ before [] after (by simp) rfl hsize items segment (by simpa using hlen) _ hresult
    exact ⟨written, hwritten.trans hlen, heq⟩
  | cons d ds ih =>
    intro items before segment after slots hlen hsize h
    rw [mem_cons, not_or] at hpos
    have hchild : 0 < (d :: ds).prod := Nat.pos_of_ne_zero (prod_ne_zero hpos.2)
    have hfits : (d :: ds).prod ≤ (n :: d :: ds).prod := by
      rw [prod_cons (l := d :: ds)]
      exact Nat.le_mul_of_pos_left _ (Nat.pos_of_ne_zero (Ne.symm hpos.1))
    rw [fillArrayInitializerSlots, arraySubobjectElements_eq (by omega)] at h
    obtain ⟨result, hresult, rfl⟩ := Option.map_eq_some_iff.mp h
    have hsub : ∀ sub, some (fillArrayInitializerSlots (α := α) (d :: ds)) = some sub →
        0 < (d :: ds).prod ∧ (d :: ds).prod < 2 ^ 61 ∧ Frames sub (d :: ds).prod := by
      rintro sub ⟨⟩
      exact ⟨hchild, by omega, ih hpos.2⟩
    obtain ⟨written, hwritten, heq⟩ := @foldlM_frames α _ _ _ _ before [] after hsub rfl hsize items segment (by simpa using hlen) _ hresult
    exact ⟨written, hwritten.trans hlen, heq⟩

/-- What comes behind a row of expressions is for the next scalar. -/
def FillsNext (object : List (Init α) → Initialised α) (size : Nat) : Prop :=
  ∀ (es : List α) (item : Init α) (items rest : List (Init α)) (values : List (Option α)), es.length < size →
    object (es.map .expr ++ item :: items) = some (values, rest) → ∃ e, values[es.length]? = some (some e)

theorem fillsNext_each {size : Nat} (hnext : FillsNext object size) (hrow : TakesRow object size)
    (hlength : ∀ items values rest, object items = some (values, rest) → values.length = size) (hsize : 0 < size)
    (count : Nat) : FillsNext (initialiseEach object size count) (count * size) := by
  induction count with
  | zero => intro es _ _ _ _ hes; simp at hes
  | succ count ih =>
    intro es item items rest values hes h
    have hmul : (count + 1) * size = size + count * size := by ring
    rw [initialiseEach_succ (by simp)] at h
    split at h
    · cases h
    next first left hfirst =>
    obtain ⟨⟨more, left⟩, hmore, heq⟩ := Option.map_eq_some_iff.mp h
    cases heq
    have hlen := hlength _ _ _ hfirst
    rcases Nat.lt_or_ge es.length size with hshort | hlong
    · obtain ⟨e, he⟩ := hnext es item items _ _ hshort hfirst
      exact ⟨e, by rw [getElem?_append_left (by omega), he]⟩
    · have hne : es ≠ [] := ne_nil_of_length_pos (by omega)
      rw [hrow es _ hne (.inl hlong)] at hfirst
      cases hfirst
      obtain ⟨e, he⟩ := ih (es.drop size) item items _ _ (by rw [length_drop]; omega) hmore
      rw [length_drop] at he
      exact ⟨e, by rw [getElem?_append_right (by omega), hlen, he]⟩

theorem fillsNext_subarray {size : Nat} (hnext : FillsNext object size) (hsize : 0 < size) :
    FillsNext (initialiseSubarray object) size := by
  intro es item items rest values hes h
  match es, item with
  | [], .block first more =>
    obtain ⟨inner, hinner, heq⟩ := Option.map_eq_some_iff.mp h
    cases heq
    unfold all at hinner
    split at hinner
    · next hobject => cases hinner; exact hnext [] first more _ _ hsize hobject
    · cases hinner
  | [], .expr e => exact hnext [] (.expr e) items rest values hes h
  | e :: es, item => exact hnext (e :: es) item items rest values hes h

theorem fillsNext_initialise {ds : List Nat} (hpos : 0 ∉ ds) : FillsNext (α := α) (initialise ds) ds.prod := by
  induction ds with
  | nil =>
    intro es item items rest values hes h
    obtain rfl : es = [] := length_eq_zero_iff.mp (by simpa using hes)
    obtain ⟨e, -, heq⟩ := Option.map_eq_some_iff.mp h
    cases heq
    exact ⟨e, rfl⟩
  | cons n ds ih =>
    rw [mem_cons, not_or] at hpos
    have hsize : 0 < ds.prod := Nat.pos_of_ne_zero (prod_ne_zero hpos.2)
    have hrow := takesRow_initialise (α := α) hpos.2
    cases ds with
    | nil => exact fillsNext_each (ih hpos.2) hrow (length_initialise []) hsize n
    | cons d ds =>
      exact fillsNext_each (fillsNext_subarray (ih hpos.2) hsize) (takesRow_subarray hrow)
        (length_initialiseSubarray (length_initialise _)) hsize n

/-- Where the fill of an array of this size gives what the standard gives, the list is aligned for it. -/
def Separates (fill : List (Init α) → List (Option α) → Nat → Nat → Option (List (Option α)))
    (object : List (Init α) → Initialised α) (aligned : List (Init α) → Prop) (size : Nat) : Prop :=
  ∀ (items : List (Init α)) (before after values : List (Option α)), items ≠ [] → before.length + size < 2 ^ 61 →
    all (object items) = some values →
    fill items (before ++ (List.replicate size none ++ after)) before.length size = some (before ++ (values ++ after)) →
    aligned items

/-- If the loop gives what the standard gives, no braced list came inside a sub-array. -/
theorem alignedFrom_of_fill {sub : List (Init α) → List (Option α) → Nat → Nat → Option (List (Option α))}
    {aligned : List (Init α) → Prop} (hchild : 0 < child) (hsep : Separates sub object aligned child)
    (hframes : Frames sub child) (hrow : TakesRow (initialiseSubarray object) child) (hnext : FillsNext object child)
    (hlength : ∀ items values rest, object items = some (values, rest) → values.length = child)
    (hcap : start + capacity < 2 ^ 61) (hfits : child ≤ capacity) (hstart : start = before.length)
    (items : List (Init α)) {count : Nat} {values : List (Option α)} {result : List (Option α) × Nat}
    (hcount : done.length + count * child = capacity) (hdone : done.length % child = 0)
    (hstandard : all (initialiseEach (initialiseSubarray object) child count items) = some values)
    (hcode : items.foldlM (fillStep (some sub) child start capacity)
      (before ++ (done ++ (List.replicate (count * child) none ++ after)), done.length) = some result)
    (hresult : result.1 = before ++ (done ++ (values ++ after))) :
    AlignedFrom aligned child done.length items := by
  have hmul : ∀ count, (count + 1) * child = child + count * child := fun count => by ring
  have hsub : ∀ s, some sub = some s → 0 < child ∧ child < 2 ^ 61 ∧ Frames s child := by
    rintro s ⟨⟩
    exact ⟨hchild, by omega, hframes⟩
  induction hn : items.length using Nat.strong_induction_on generalizing items done count values with
  | _ n ih =>
  subst hn
  obtain ⟨es, rest, rfl, hrest⟩ := exists_expressions items
  rw [alignedFrom_expressions]
  rcases eq_nil_or_concat (es.map Init.expr ++ rest) with hnil | ⟨_, _, hne⟩
  · rw [(append_eq_nil_iff.mp hnil).2]
    trivial
  have hne : es.map Init.expr ++ rest ≠ [] := by rw [hne]; simp
  obtain ⟨count, rfl⟩ : ∃ c, count = c + 1 := by
    cases count with
    | succ c => exact ⟨c, rfl⟩
    | zero =>
      obtain ⟨item, items, heq⟩ := exists_cons_of_ne_nil hne
      rw [heq] at hstandard
      cases hstandard
  rw [hmul] at hcount hcode
  rcases Nat.lt_or_ge es.length child with hshort | hlong
  · rcases hrest with rfl | ⟨first, more, items, rfl⟩
    · trivial
    have hrun := @foldlM_expressions α (some sub) child start capacity before done after (by omega) hstart es
      (child + count * child) (by omega) (by omega)
    rw [foldlM_append, hrun, some_bind, foldlM_cons, Option.bind_eq_bind,
      Option.bind_eq_some_iff] at hcode
    obtain ⟨state, hstate, hcode⟩ := hcode
    obtain ⟨gap, hbound, hgap, hmis⟩ := @exists_gap child (done.length + es.length) hchild (by omega) (by omega)
    rw [fillStep] at hstate
    simp only [hgap, word_eq (n := done.length + es.length + gap + child) (by omega)] at hstate
    split at hstate
    · cases hstate
    next hroom =>
    rw [word_eq (by omega)] at hstate
    obtain ⟨slots, hslots, rfl⟩ := Option.map_eq_some_iff.mp hstate
    obtain ⟨room, hsplit⟩ : ∃ room, child + count * child - es.length = gap + (child + room) :=
      ⟨child + count * child - es.length - gap - child, by omega⟩
    rw [hsplit, ← replicate_append_replicate, ← replicate_append_replicate] at hslots
    have hplace : start + (done.length + es.length + gap) =
        (before ++ (done ++ (es.map some ++ List.replicate gap none))).length := by simp [hstart, Nat.add_assoc]
    rw [hplace] at hslots
    obtain ⟨written, hwritten, rfl⟩ := hframes (first :: more)
      (before ++ (done ++ (es.map some ++ List.replicate gap none))) (List.replicate child none)
      (List.replicate room none ++ after) slots (by simp) (by simp; omega)
      (by simpa only [append_assoc] using hslots)
    have hcursor : done.length + es.length + gap + child =
        (done ++ (es.map some ++ (List.replicate gap none ++ written))).length := by simp [hwritten]; omega
    have hstate' : before ++ (done ++ (es.map some ++ List.replicate gap none)) ++
        (written ++ (List.replicate room none ++ after)) =
        before ++ (done ++ (es.map some ++ (List.replicate gap none ++ written)) ++
          (List.replicate room none ++ after)) := by simp
    rw [hcursor, hstate'] at hcode
    obtain ⟨written', -, hfinal⟩ := foldlM_frames hsub hstart hcap items (by simp [hwritten]; omega) hcode
    rw [hfinal] at hresult
    simp only [append_assoc] at hresult
    have hvalues := append_cancel_left (append_cancel_left hresult)
    rw [initialiseEach_succ hne] at hstandard
    cases hobject : initialiseSubarray object (es.map Init.expr ++ .block first more :: items) with
    | none => rw [hobject] at hstandard; cases hstandard
    | some taken =>
    obtain ⟨front, left⟩ := taken
    rw [hobject] at hstandard
    simp only [all_map_append] at hstandard
    obtain ⟨back, hback, rfl⟩ := Option.map_eq_some_iff.mp hstandard
    have hfront := length_initialiseSubarray hlength _ _ _ hobject
    rcases es with _ | ⟨e, es⟩
    · -- the braced list starts a sub-array: it is aligned, and so is what follows
      have hgap0 : gap = 0 := by
        rw [length_nil, Nat.add_zero, roundUp_of_mod_eq_zero hdone] at hgap
        omega
      subst hgap0
      obtain ⟨inner, hinner, heq⟩ := Option.map_eq_some_iff.mp hobject
      cases heq
      simp only [map_nil, nil_append, replicate_zero, append_assoc] at hvalues hslots hcode
      obtain ⟨rfl, -⟩ := append_inj hvalues (hwritten.trans hfront.symm)
      refine ⟨by simpa using hdone, hsep _ (before ++ done) (List.replicate room none ++ after) written (by simp)
        (by simp; omega) hinner (by rw [append_assoc, length_append]; simpa using hslots), ?_⟩
      have hroom' : room = count * child := by
        simp only [length_nil] at hsplit
        omega
      have htail := @ih items.length (by simp) (done ++ written) items count back
        (by simp [hwritten]; omega) (by simp [hwritten, hdone]) hback
        (by rw [← hroom', append_assoc]; simpa using hcode)
        (by rw [hfinal, append_assoc]; simpa using hresult) rfl
      simpa [hwritten] using htail
    · -- it came inside a sub-array: the standard fills the place that the loop has skipped
      obtain ⟨x, hx⟩ := fillsNext_subarray hnext hchild (e :: es) (.block first more) items left front hshort hobject
      have hpos : (done.length + (e :: es).length) % child = (e :: es).length := by
        rw [Nat.add_mod, hdone, Nat.zero_add, Nat.mod_mod, Nat.mod_eq_of_lt hshort]
      have hgap' := hmis (by rw [hpos]; simp)
      have hplace := congrArg (fun l : List (Option α) => l[(e :: es).length]?) hvalues
      rw [append_assoc front, @getElem?_append_left _ front _ _ (by omega), hx,
        getElem?_append_right (by simp)] at hplace
      simp only [length_map, Nat.sub_self] at hplace
      rw [getElem?_append_left (by rw [length_replicate, hgap', hpos]; omega)] at hplace
      simp [getElem?_replicate] at hplace
  · obtain ⟨full, more, rfl, hlen⟩ : ∃ full more, es = full ++ more ∧ full.length = child :=
      ⟨_, _, (take_append_drop child es).symm, length_take_of_le hlong⟩
    have hrun := @foldlM_expressions α (some sub) child start capacity before done after (by omega) hstart full
      (child + count * child) (by omega) (by omega)
    rw [hlen, Nat.add_sub_cancel_left] at hrun
    rw [map_append, append_assoc, initialiseEach_full hrow hchild hlen, all_map_append] at hstandard
    obtain ⟨back, hback, rfl⟩ := Option.map_eq_some_iff.mp hstandard
    rw [map_append, append_assoc, foldlM_append, hrun, some_bind] at hcode
    have htail := @ih (more.map Init.expr ++ rest).length (by simp; omega) (done ++ full.map some)
      (more.map Init.expr ++ rest) count back (by simp; omega) (by simp [hlen, hdone]) hback
      (by simpa [hlen] using hcode) (by simpa using hresult) rfl
    rw [alignedFrom_expressions] at htail
    simpa [Nat.add_assoc] using htail

theorem separates_fill {n : Nat} {ds : List Nat} (hpos : 0 ∉ n :: ds) :
    Separates (α := α) (fillArrayInitializerSlots (n :: ds)) (initialise (n :: ds)) (Aligned ds) (n :: ds).prod := by
  induction ds generalizing n with
  | nil => intro items _ _ _ _ _ _ _; trivial
  | cons d ds ih =>
    intro items before after values hne hsize hstandard hcode
    rw [mem_cons, not_or] at hpos
    have hchild : 0 < (d :: ds).prod := Nat.pos_of_ne_zero (prod_ne_zero hpos.2)
    rw [prod_cons] at hsize hcode
    have hfits : (d :: ds).prod ≤ n * (d :: ds).prod :=
      Nat.le_mul_of_pos_left _ (Nat.pos_of_ne_zero (Ne.symm hpos.1))
    rw [fillArrayInitializerSlots, arraySubobjectElements_eq (by omega)] at hcode
    obtain ⟨result, hrun, hresult⟩ := Option.map_eq_some_iff.mp hcode
    exact @alignedFrom_of_fill α _ _ _ before [] after _ _ _ hchild (ih hpos.2) (frames_fill hpos.2)
      (takesRow_subarray (takesRow_initialise hpos.2)) (fillsNext_initialise hpos.2) (length_initialise _) hsize hfits
      rfl items _ _ _ (by simp) (by simp) hstandard hrun hresult

end Converse

/-! ## The initialisers of an array -/

section Arrays

variable {α : Type}

/-- The list initialises arrays of elements of these dimensions as the standard says: with every bound the fill
succeeds exactly where the standard allows the list, and puts each expression where the standard puts it; and if the
list fits any bound, the one that is chosen for an omitted bound is the smallest, and the fill succeeds with it.  An
array has fewer than `2 ^ 61` elements: its slots are pointers in one vector. -/
structure Meets (ds : List Nat) (initializer : Init α) : Prop where
  fill : ∀ n, 0 < n → n * ds.prod < 2 ^ 61 →
    buildArrayInitializerSlots (n :: ds) initializer = initialiseBraced (n :: ds) initializer
  bound : ∀ n, 0 < n → n * ds.prod < 2 ^ 61 → (initialiseBraced (n :: ds) initializer).isSome →
    ∃ k, completeArrayTypeFromInitializer (0 :: ds) initializer = some (k :: ds) ∧
      (initialiseBraced (k :: ds) initializer).isSome ∧ (buildArrayInitializerSlots (k :: ds) initializer).isSome ∧
      ∀ m, (initialiseBraced (m :: ds) initializer).isSome → k ≤ m

variable {n : Nat} {ds : List Nat} {first : Init α} {more : List (Init α)}

theorem buildArrayInitializerSlots_eq (hpos : 0 ∉ n :: ds) (h : n * ds.prod < 2 ^ 61) :
    buildArrayInitializerSlots (n :: ds) (.block first more) =
      fillArrayInitializerSlots (n :: ds) (first :: more) ([] ++ (List.replicate (n :: ds).prod none ++ [])) 0
        (n :: ds).prod := by
  have hprod : arraySubobjectElements (n :: ds) = (n :: ds).prod :=
    arraySubobjectElements_eq (by rw [prod_cons]; omega)
  simp only [buildArrayInitializerSlots, hpos, hprod, cons_ne_nil, or_self, if_false, nil_append,
    append_nil]

theorem build_eq_of_aligned (hpos : 0 ∉ n :: ds) (h : n * ds.prod < 2 ^ 61) (ha : Aligned ds (first :: more)) :
    buildArrayInitializerSlots (n :: ds) (.block first more) = initialiseBraced (n :: ds) (.block first more) := by
  rw [buildArrayInitializerSlots_eq hpos h, initialiseBraced]
  refine (agrees_of_aligned hpos (first :: more) [] [] (by simp) ha (by simpa using h)).trans ?_
  simp

theorem meets_of_aligned (hpos : 0 ∉ ds) (ha : Aligned ds (first :: more)) : Meets ds (.block first more) := by
  have hcons : ∀ n, 0 < n → 0 ∉ n :: ds := fun n hn => by simp [hpos, hn.ne]
  refine ⟨fun n hn h => build_eq_of_aligned (hcons n hn) h ha, fun n hn h hfits => ?_⟩
  obtain ⟨k, hkn, ht⟩ := isSome_initialiseBraced.mp hfits
  have hk : 0 < k := by
    cases ht with
    | cons => omega
  have hsmall : k * ds.prod < 2 ^ 61 := lt_of_le_of_lt (Nat.mul_le_mul_right _ hkn) h
  have hstandard : (initialiseBraced (k :: ds) (.block first more)).isSome :=
    isSome_initialiseBraced.mpr ⟨k, Nat.le_refl k, ht⟩
  refine ⟨k, completeArrayType_eq hpos ha ht hsmall, hstandard, ?_, fun m hm => ?_⟩
  · rw [build_eq_of_aligned (hcons k hk) hsmall ha]
    exact hstandard
  · obtain ⟨j, hjm, hj⟩ := isSome_initialiseBraced.mp hm
    rw [ht.unique hj]
    exact hjm

theorem aligned_of_build (hpos : 0 ∉ n :: ds) (h : n * ds.prod < 2 ^ 61)
    (hfits : (initialiseBraced (n :: ds) (.block first more)).isSome)
    (hbuild : buildArrayInitializerSlots (n :: ds) (.block first more) =
      initialiseBraced (n :: ds) (.block first more)) : Aligned ds (first :: more) := by
  obtain ⟨values, hvalues⟩ := Option.isSome_iff_exists.mp hfits
  rw [hvalues, buildArrayInitializerSlots_eq hpos h] at hbuild
  exact separates_fill hpos (first :: more) [] [] values (by simp) (by simpa using h) hvalues (by simpa using hbuild)

end Arrays

end Unisym.Lango.FrontendC
