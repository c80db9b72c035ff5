/-
# `VectorSpec` — the vector is a list

A vector holds a list when its first cells hold the elements of the list, in order
(`Vector.Is`).  Every call keeps this and makes of the lists what the call means
(`Call.Does`), with two exceptions that `Call.Ok` leaves out: `Insert` reads an element of
the vector itself after it has moved the elements, and `operator[]` at the number of
elements refers to the cell behind them.
-/
import Unisym.Datype.Vector
import Unisym.Library.Steps
import Mathlib.Data.List.InsertIdx
import Mathlib.Tactic.Linarith

namespace Unisym.Datype

open Function Cells Option List

namespace Vector

variable {α : Type} {e : Elem α} {v w : Vector α} {xs ys : List α}

/-! ## A vector and its list -/

/-- The vector has the elements `xs`. -/
structure Is (e : Elem α) (v : Vector α) (xs : List α) : Prop where
  count : v.count = xs.length
  items : ∀ i < xs.length, fetch v.cells i = xs[i]?
  fits : v.limit ≤ e.maximum

theorem is_new (e : Elem α) : Is e new [] :=
  ⟨rfl, fun i hi => absurd hi (Nat.not_lt_zero i), Nat.zero_le _⟩

theorem Is.count_le (h : Is e v xs) : v.count ≤ v.limit := by
  rcases Nat.eq_zero_or_pos xs.length with hzero | hpos
  · rw [h.count, hzero]
    exact Nat.zero_le _
  · have hlast : xs.length - 1 < xs.length := Nat.sub_lt hpos Nat.one_pos
    have hfetch := h.items _ hlast
    rw [getElem?_eq_getElem hlast] at hfetch
    have hlt : xs.length - 1 < v.limit := lt_of_fetch hfetch
    rw [h.count]
    omega

theorem isSome_getElem? {i : Nat} (h : i < xs.length) : (xs[i]?).isSome = true := by
  rw [getElem?_eq_getElem h]
  rfl

/-- The loop that copies the elements into other storage. -/
theorem Is.copied (h : Is e v xs) {m : List (Option α)} (hlen : xs.length ≤ m.length) :
    ∃ m', assign id (fun i _ => fetch v.cells i) v.count m = some m' ∧
      Assigned id (fun i => xs[i]?) xs.length m m' := by
  rw [h.count]
  refine assign_eq xs.length (fun k hk => Nat.lt_of_lt_of_le hk hlen)
    (fun k _ j hj => Nat.ne_of_lt hj) (fun k hk => isSome_getElem? hk) ?_
  intro k hk m' _
  exact h.items k hk

theorem assign_zero (start n : Nat) {m : List (Option α)} (hlen : start + n ≤ m.length) (x : α) :
    ∃ m', assign (fun k => start + k) (fun _ _ => some x) n m = some m' ∧
      Assigned (fun k => start + k) (fun _ => some x) n m m' := by
  refine assign_eq n (fun k hk => ?_) (fun k _ j hj => ?_) (fun _ _ => rfl) fun _ _ _ _ => rfl
  · omega
  · exact fun heq => Nat.ne_of_lt hj (Nat.add_left_cancel heq)

/-! ## Growth -/

/-- The limit that is chosen is larger, or the storage cannot grow. -/
theorem grown_spec (e : Elem α) {limit : Nat} (h : limit < e.maximum) :
    limit < e.grown limit ∧ (e.grown limit ≤ e.maximum ∨ e.maximum ≤ 1) := by
  have hmax : e.maximum < 2 ^ 64 := by
    refine Nat.lt_of_le_of_lt (Nat.div_le_self _ _) ?_
    have hle : wordMax - e.cookie ≤ wordMax := Nat.sub_le _ _
    exact Nat.lt_of_le_of_lt hle (by decide)
  unfold Elem.grown
  rcases Nat.lt_or_ge e.maximum 2 with hsmall | hlarge
  · split
    · constructor
      · omega
      · exact Or.inr (by omega)
    · exact ⟨h, Or.inl (Nat.le_refl _)⟩
  · have hsub : (e.maximum + 2 ^ 64 - 2) % 2 ^ 64 = e.maximum - 2 := by omega
    rw [hsub]
    split
    · constructor
      · omega
      · exact Or.inl (by omega)
    · exact ⟨h, Or.inl (Nat.le_refl _)⟩

/-- What `Enlarge` leaves: the elements, and more room when it says so. -/
theorem Is.enlarge (h : Is e v xs) (toLimit : Nat) (alloc : Bool) :
    ∃ r v', v.enlarge e toLimit alloc = some (r, v') ∧ Is e v' xs ∧
      (r = true → v.limit ≤ v'.limit ∧ toLimit ≤ v'.limit ∧ (toLimit = 0 → v.limit < v'.limit)) ∧
      (r = false → v' = v ∧ (alloc = false ∨ e.maximum < toLimit ∨
        toLimit = 0 ∧ e.maximum ≤ v.limit + 1)) := by
  unfold Vector.enlarge
  by_cases hfull : toLimit = 0 ∧ v.limit ≥ e.maximum
  · rw [if_pos hfull]
    exact ⟨false, v, rfl, h, nofun,
      fun _ => ⟨rfl, Or.inr (Or.inr ⟨hfull.1, Nat.le_succ_of_le hfull.2⟩)⟩⟩
  rw [if_neg hfull]
  -- the limit that is asked for, or chosen
  have hmore : ∃ n, (if toLimit = 0 then e.grown v.limit else toLimit) = n ∧ toLimit ≤ n ∧
      (toLimit = 0 → v.limit < n) ∧
      (e.maximum < n → e.maximum < toLimit ∨ toLimit = 0 ∧ e.maximum ≤ v.limit + 1) := by
    by_cases hzero : toLimit = 0
    · have hlt : v.limit < e.maximum := Nat.lt_of_not_le fun hge => hfull ⟨hzero, hge⟩
      obtain ⟨hgrown, hle⟩ := grown_spec e hlt
      refine ⟨e.grown v.limit, if_pos hzero, ?_, fun _ => hgrown, fun hgt => Or.inr ⟨hzero, ?_⟩⟩
      · omega
      · rcases hle with hle | hle <;> omega
    · exact ⟨toLimit, if_neg hzero, Nat.le_refl _, fun hz => absurd hz hzero, Or.inl⟩
  obtain ⟨n, hn, hle, hpos, hover⟩ := hmore
  simp only [hn]
  by_cases hroom : n ≤ v.limit
  · rw [if_pos hroom]
    exact ⟨true, v, rfl, h, fun _ => ⟨Nat.le_refl _, Nat.le_trans hle hroom, fun hzero =>
      absurd (hpos hzero) (Nat.not_lt.mpr hroom)⟩, nofun⟩
  rw [if_neg hroom]
  by_cases hmax : n > e.maximum
  · rw [if_pos hmax]
    exact ⟨false, v, rfl, h, nofun, fun _ => ⟨rfl, Or.inr (hover hmax)⟩⟩
  rw [if_neg hmax]
  cases alloc with
  | false => exact ⟨false, v, rfl, h, nofun, fun _ => ⟨rfl, Or.inl rfl⟩⟩
  | true =>
    have hcount := h.count_le
    have hlen : xs.length ≤ (List.replicate n (none : Option α)).length := by
      rw [length_replicate, ← h.count]
      omega
    obtain ⟨cells, hcells, hall⟩ := h.copied hlen
    have hlimit : (⟨cells, v.count⟩ : Vector α).limit = n := by
      rw [Vector.limit, hall.length, length_replicate]
    refine ⟨true, ⟨cells, v.count⟩, ?_, ⟨h.count, fun i hi => hall.written i hi, ?_⟩, fun _ => ?_,
      nofun⟩
    · rw [if_neg (by decide)]
      simp only [hcells, some_bind]
    · rw [hlimit]
      exact Nat.le_of_not_lt hmax
    · rw [hlimit]
      exact ⟨Nat.le_of_not_le hroom, hle, hpos⟩

theorem Is.room (h : Is e v xs) (short : Prop) [Decidable short] (toLimit : Nat) (alloc : Bool)
    (hshort : ¬short → toLimit ≤ v.limit) :
    ∃ r v', (if short then v.enlarge e toLimit alloc else some (true, v)) = some (r, v') ∧
      Is e v' xs ∧
      (r = true → toLimit ≤ v'.limit ∧ v.limit ≤ v'.limit ∧
        (short → toLimit = 0 → v.limit < v'.limit)) ∧
      (r = false → short ∧ v' = v ∧ (alloc = false ∨ e.maximum < toLimit ∨
        toLimit = 0 ∧ e.maximum ≤ v.limit + 1)) := by
  by_cases hs : short
  · rw [if_pos hs]
    obtain ⟨r, v', henl, his, hyes, hno⟩ := h.enlarge toLimit alloc
    exact ⟨r, v', henl, his, fun hr => ⟨(hyes hr).2.1, (hyes hr).1, fun _ => (hyes hr).2.2⟩,
      fun hr => ⟨hs, hno hr⟩⟩
  · rw [if_neg hs]
    exact ⟨true, v, rfl, h, fun _ => ⟨hshort hs, Nat.le_refl _, fun hyes => absurd hyes hs⟩, nofun⟩

/-! ## Copies -/

theorem Is.copyTo (h : Is e w ys) (hlen : ys.length ≤ v.limit) (hfits : v.limit ≤ e.maximum) :
    ∃ cells, assign id (fun i _ => fetch w.cells i) w.count v.cells = some cells ∧
      cells.length = v.limit ∧ Is e ⟨cells, w.count⟩ ys := by
  obtain ⟨cells, hcells, hall⟩ := h.copied hlen
  exact ⟨cells, hcells, hall.length, h.count, fun i hi => hall.written i hi,
    show cells.length ≤ e.maximum from hall.length ▸ hfits⟩

theorem Is.copy (h : Is e w ys) (alloc : Bool) :
    ∃ v', w.copy e alloc = some v' ∧ (Is e v' ys ∨ alloc = false ∧ Is e v' []) := by
  obtain ⟨r, v', hroom, his, hyes, hno⟩ := (is_new e).room (w.count ≠ 0) w.count alloc
    fun hzero => Nat.le_of_eq (Decidable.not_not.mp hzero)
  simp only [Vector.copy, hroom, bind_eq_bind, bind_some]
  cases r with
  | false =>
    obtain ⟨hnonzero, -, hwhy⟩ := hno rfl
    refine ⟨v', rfl, Or.inr ⟨?_, his⟩⟩
    rcases hwhy with hfalse | hmax | ⟨hzero, -⟩
    · exact hfalse
    · exact absurd (Nat.le_trans h.count_le h.fits) (Nat.not_le.mpr hmax)
    · exact absurd hzero hnonzero
  | true =>
    obtain ⟨cells, hcells, -, hcopy⟩ := h.copyTo (h.count ▸ (hyes rfl).1) his.fits
    refine ⟨⟨cells, w.count⟩, ?_, Or.inl hcopy⟩
    rw [if_neg (by decide)]
    simp only [hcells, bind_some]

theorem Is.assignFrom (h : Is e v xs) (hw : Is e w ys) (alloc : Bool) :
    ∃ v', v.assignFrom e w alloc = some v' ∧ (Is e v' ys ∨ alloc = false ∧ v' = v) := by
  obtain ⟨r, v', hroom, his, hyes, hno⟩ := h.room (w.count > v.limit) w.count alloc
    Nat.le_of_not_lt
  simp only [Vector.assignFrom, hroom, bind_eq_bind, bind_some]
  cases r with
  | false =>
    obtain ⟨hmore, hsame, hwhy⟩ := hno rfl
    refine ⟨v', rfl, Or.inr ⟨?_, hsame⟩⟩
    rcases hwhy with hfalse | hmax | ⟨hzero, -⟩
    · exact hfalse
    · exact absurd (Nat.le_trans hw.count_le hw.fits) (Nat.not_le.mpr hmax)
    · exact absurd hmore (hzero ▸ Nat.not_lt_zero _)
  | true =>
    obtain ⟨cells, hcells, hlimit, hcopy⟩ := hw.copyTo (hw.count ▸ (hyes rfl).1) his.fits
    have htail : w.count + (v'.count - w.count) ≤ cells.length := by
      have hcount := his.count_le
      have hroomy := (hyes rfl).1
      rw [hlimit]
      omega
    obtain ⟨cells', hcells', hall⟩ := assign_zero w.count (v'.count - w.count) htail e.zero
    refine ⟨⟨cells', w.count⟩, ?_, Or.inl ⟨hw.count, fun i hi => ?_, ?_⟩⟩
    · rw [if_neg (by decide)]
      simp only [hcells, hcells', bind_some]
    · -- the tail that is cleared is behind the copy
      have hkept : fetch cells' i = fetch cells i := by
        refine hall.kept i fun k _ => ?_
        rw [hw.count]
        omega
      rw [hkept]
      exact hcopy.items i hi
    · exact show cells'.length ≤ e.maximum from hall.length ▸ hcopy.fits

theorem fromTimes_eq (e : Elem α) (content : α) (times : Nat) (alloc : Bool) :
    ∃ v', fromTimes e content times alloc = some v' ∧
      (Is e v' (List.replicate times content) ∨
        (alloc = false ∨ e.maximum < times) ∧ Is e v' []) := by
  obtain ⟨r, v', hroom, his, hyes, hno⟩ := (is_new e).room (times ≠ 0) times alloc
    fun hzero => Nat.le_of_eq (Decidable.not_not.mp hzero)
  simp only [fromTimes, hroom, bind_eq_bind, bind_some]
  cases r with
  | false =>
    obtain ⟨hnonzero, -, hwhy⟩ := hno rfl
    refine ⟨v', rfl, Or.inr ⟨?_, his⟩⟩
    rcases hwhy with hfalse | hmax | ⟨hzero, -⟩
    · exact Or.inl hfalse
    · exact Or.inr hmax
    · exact absurd hzero hnonzero
  | true =>
    have hlen : times ≤ v'.cells.length := (hyes rfl).1
    obtain ⟨cells, hcells, hall⟩ :
        ∃ m', assign id (fun _ _ => some content) times v'.cells = some m' ∧
          Assigned id (fun _ => some content) times v'.cells m' :=
      assign_eq times (fun k hk => Nat.lt_of_lt_of_le hk hlen)
        (fun k _ j hj => Nat.ne_of_lt hj) (fun _ _ => rfl) fun _ _ _ _ => rfl
    refine ⟨⟨cells, times⟩, ?_, Or.inl ⟨length_replicate.symm, fun i hi => ?_, ?_⟩⟩
    · rw [if_neg (by decide)]
      simp only [hcells, bind_some]
    · rw [length_replicate] at hi
      rw [getElem?_replicate, if_pos hi]
      exact hall.written i hi
    · exact show cells.length ≤ e.maximum from hall.length ▸ his.fits

/-! ## Edits -/

/-- What a source holds before the call. -/
def sourceOf (xs : List α) : Source α → Option α
  | .value x => some x
  | .item j => xs[j]?

/-- What `Insert(idx, ·)` reads: of the elements from `idx` on, those before them. -/
def sourceAfter (xs : List α) (idx : Nat) : Source α → Option α
  | .value x => some x
  | .item j => if j ≤ idx then xs[j]? else xs[j - 1]?

variable {idx : Nat} {vs : Nat → Vector α} {ls : Nat → List α}

theorem Is.shifted (h : Is e v xs) (hidx : idx ≤ xs.length) (hroom : v.count < v.limit) :
    ∃ cells, assign (fun i => v.count - i) (fun i m => fetch m (v.count - i - 1))
        (v.count - idx) v.cells = some cells ∧ cells.length = v.limit ∧
      (∀ j ≤ idx, j < xs.length → fetch cells j = xs[j]?) ∧
      ∀ j, idx < j → j ≤ xs.length → fetch cells j = xs[j - 1]? := by
  have hcount := h.count
  have hlimit : v.limit = v.cells.length := rfl
  obtain ⟨cells, hcells, hall⟩ : ∃ m', assign (fun i => v.count - i)
      (fun i m => fetch m (v.count - i - 1)) (v.count - idx) v.cells = some m' ∧
      Assigned (fun i => v.count - i) (fun i => xs[v.count - i - 1]?) (v.count - idx) v.cells m' := by
    refine assign_eq (v.count - idx) (fun k hk => ?_) (fun k hk j hj => ?_)
      (fun k hk => isSome_getElem? ?_) fun k hk m' hm' => ?_
    · omega
    · omega
    · omega
    · -- the rounds before have written only cells above the one that is read
      rw [hm'.kept (v.count - k - 1) fun j hj => by omega]
      exact h.items _ (by omega)
  refine ⟨cells, hcells, hall.length, fun j hj hlt => ?_, fun j hj hle => ?_⟩
  · rw [hall.kept j fun k hk => by omega]
    exact h.items j hlt
  · have hround : v.count - (v.count - j) = j := by omega
    have hwritten := hall.written (v.count - j) (by omega)
    rw [hround] at hwritten
    exact hwritten

theorem Is.insert (h : Is e v xs) (hidx : idx ≤ xs.length) (hroom : v.count < v.limit)
    {dat : Source α} {y : α} (hy : sourceAfter xs idx dat = some y)
    (hown : ∀ j, dat = .item j → j < xs.length) :
    ∃ v', v.insert idx (some dat) = some (true, v') ∧ Is e v' (xs.insertIdx idx y) := by
  obtain ⟨cells, hcells, hlen, hlow, hhigh⟩ := h.shifted hidx hroom
  have hread : dat.read cells = some y := by
    rw [← hy]
    cases dat with
    | value x => rfl
    | item j =>
      have hj := hown j rfl
      rw [Source.read, sourceAfter]
      split
      · exact hlow j ‹_› hj
      · exact hhigh j (Nat.lt_of_not_le ‹_›) (Nat.le_of_lt hj)
  have hin : idx < cells.length := by
    rw [hlen]
    exact Nat.lt_of_le_of_lt (h.count ▸ hidx) hroom
  refine ⟨⟨cells.set idx (some y), v.count + 1⟩, ?_, ?_, fun i hi => ?_, ?_⟩
  · have hno : ¬(v.count ≥ v.limit ∨ idx > v.count) := by
      rw [h.count] at *
      omega
    simp only [Vector.insert]
    rw [if_neg hno]
    simp only [hcells, hread, store_eq hin, some_bind]
  · rw [length_insertIdx_of_le_length hidx, h.count]
  · rw [length_insertIdx_of_le_length hidx] at hi
    rw [getElem?_insertIdx]
    by_cases hlt : i < idx
    · rw [if_pos hlt, fetch_set_ne (Nat.ne_of_gt hlt)]
      exact hlow i (Nat.le_of_lt hlt) (Nat.lt_of_lt_of_le hlt hidx)
    · rw [if_neg hlt]
      by_cases heq : i = idx
      · rw [if_pos heq, if_pos (Nat.le_of_lt_succ hi), heq]
        exact fetch_set_self hin y
      · rw [if_neg heq, fetch_set_ne fun hsame => heq hsame.symm]
        exact hhigh i (by omega) (by omega)
  · refine show (cells.set idx (some y)).length ≤ e.maximum from ?_
    rw [length_set, hlen]
    exact h.fits

theorem Is.append (h : Is e v xs) {x : Source α} {y : α} (hy : sourceOf xs x = some y)
    (hown : ∀ j, x = .item j → j < xs.length) (alloc : Bool) :
    ∃ r v', v.append e x alloc = some (r, v') ∧ (r = true ∧ Is e v' (xs ++ [y]) ∨
      r = false ∧ v' = v ∧ (alloc = false ∨ e.maximum ≤ xs.length + 1)) := by
  have hread : x.read v.cells = some y := by
    rw [← hy]
    cases x with
    | value x => rfl
    | item j => exact h.items j (hown j rfl)
  obtain ⟨r, v', hroom, his, hyes, hno⟩ := h.room (v.count ≥ v.limit) 0 alloc
    fun _ => Nat.zero_le _
  simp only [Vector.append, hread, hroom, bind_eq_bind, bind_some]
  cases r with
  | false =>
    obtain ⟨hfull, hsame, hwhy⟩ := hno rfl
    refine ⟨false, v, by rw [hsame]; rfl, Or.inr ⟨rfl, rfl, ?_⟩⟩
    rcases hwhy with hfalse | hmax | ⟨-, hmax⟩
    · exact Or.inl hfalse
    · exact absurd hmax (Nat.not_lt_zero _)
    · refine Or.inr ?_
      rw [← h.count]
      omega
  | true =>
    have hin : v'.count < v'.cells.length := by
      obtain ⟨-, hle, hgrew⟩ := hyes rfl
      have hsame : v'.count = v.count := his.count.trans h.count.symm
      have hlimit : v'.limit = v'.cells.length := rfl
      by_cases hfull : v.count ≥ v.limit
      · have hlt := hgrew hfull rfl
        have hcount := h.count_le
        omega
      · omega
    refine ⟨true, ⟨v'.cells.set v'.count (some y), v'.count + 1⟩, ?_, Or.inl ⟨rfl, ?_, fun i hi => ?_,
      ?_⟩⟩
    · rw [if_neg (by decide)]
      simp only [store_eq hin, bind_some]
    · rw [length_append, his.count]
      rfl
    · rw [length_append, length_singleton] at hi
      rcases Nat.lt_succ_iff_lt_or_eq.mp hi with hlt | rfl
      · rw [getElem?_append_left hlt, fetch_set_ne (by rw [his.count]; omega)]
        exact his.items i hlt
      · rw [getElem?_concat_length, his.count]
        exact fetch_set_self (his.count ▸ hin) y
    · refine show (v'.cells.set v'.count (some y)).length ≤ e.maximum from ?_
      rw [length_set]
      exact his.fits

theorem Is.closed (h : Is e v xs) {times : Nat} (hin : idx + times ≤ xs.length) (hpos : 0 < times) :
    ∃ cells, assign (fun i => idx + i) (fun i m => fetch m (idx + times + i))
        (v.count - idx - times) v.cells = some cells ∧ cells.length = v.limit ∧
      (∀ j < idx, fetch cells j = xs[j]?) ∧
      ∀ j, idx ≤ j → j < xs.length - times → fetch cells j = xs[j + times]? := by
  have hcount := h.count
  have hle := h.count_le
  have hlimit : v.limit = v.cells.length := rfl
  obtain ⟨cells, hcells, hall⟩ : ∃ m', assign (fun i => idx + i)
      (fun i m => fetch m (idx + times + i)) (v.count - idx - times) v.cells = some m' ∧
      Assigned (fun i => idx + i) (fun i => xs[idx + times + i]?) (v.count - idx - times)
        v.cells m' := by
    refine assign_eq (v.count - idx - times) (fun k hk => ?_) (fun k hk j hj => ?_)
      (fun k hk => isSome_getElem? ?_) fun k hk m' hm' => ?_
    · omega
    · omega
    · omega
    · -- the rounds before have written only cells below the one that is read
      rw [hm'.kept (idx + times + k) fun j hj => by omega]
      exact h.items _ (by omega)
  refine ⟨cells, hcells, hall.length, fun j hj => ?_, fun j hj hlt => ?_⟩
  · rw [hall.kept j fun k hk => by omega]
    exact h.items j (by omega)
  · have hround : idx + (j - idx) = j := by omega
    have hread : idx + times + (j - idx) = j + times := by omega
    have hwritten := hall.written (j - idx) (by omega)
    rw [hround, hread] at hwritten
    exact hwritten

theorem Is.remove (h : Is e v xs) {times : Nat} (hin : idx + times ≤ xs.length)
    (hpos : 0 < times) :
    ∃ v', v.remove e idx times = some (true, v') ∧
      Is e v' (xs.take idx ++ xs.drop (idx + times)) := by
  have hcount := h.count
  have hle := h.count_le
  have hlength : (xs.take idx ++ xs.drop (idx + times)).length = xs.length - times := by
    rw [length_append, length_take, length_drop]
    omega
  obtain ⟨cells, hcells, hlen, hlow, hhigh⟩ := h.closed hin hpos
  have htail : v.count - times + times ≤ cells.length := by omega
  obtain ⟨cells', hcells', hall⟩ := assign_zero (v.count - times) times htail e.zero
  refine ⟨⟨cells', v.count - times⟩, ?_, ?_, fun i hi => ?_, ?_⟩
  · have hno : ¬(idx ≥ v.count ∨ times > v.count - idx) := by omega
    simp only [Vector.remove]
    rw [if_neg (Nat.ne_of_gt hpos), if_neg hno]
    simp only [hcells, hcells', some_bind]
  · rw [hlength, h.count]
  · rw [hlength] at hi
    have hkept : fetch cells' i = fetch cells i := hall.kept i fun k _ => by omega
    rw [hkept]
    by_cases hlt : i < idx
    · rw [getElem?_append_left (by rw [length_take]; omega), getElem?_take_of_lt hlt]
      exact hlow i hlt
    · have hfront : (xs.take idx).length = idx := length_take_of_le (by omega)
      have hback : idx + times + (i - idx) = i + times := by omega
      rw [getElem?_append_right (by omega), hfront, getElem?_drop, hback]
      exact hhigh i (Nat.le_of_not_lt hlt) hi
  · refine show cells'.length ≤ e.maximum from ?_
    rw [hall.length, hlen]
    exact h.fits

/-- The list with two of its elements exchanged. -/
def swapped (xs : List α) (i j : Nat) : List α :=
  match xs[i]?, xs[j]? with
  | some x, some y => (xs.set i y).set j x
  | _, _ => xs

theorem Is.exchange (h : Is e v xs) {i j : Nat} (hi : i < xs.length) (hj : j < xs.length) :
    ∃ v', v.exchange i j = some (true, v') ∧ Is e v' (swapped xs i j) := by
  by_cases hsame : i = j
  · subst hsame
    refine ⟨v, if_pos rfl, ?_⟩
    have hself : swapped xs i i = xs := by
      simp only [swapped, getElem?_eq_getElem hi, set_getElem_self]
    rw [hself]
    exact h
  · have hcount := h.count
    have hle := h.count_le
    have hlimit : v.limit = v.cells.length := rfl
    have hcell : ∀ k (hk : k < xs.length), v.cells[k]? = some (some xs[k]) := by
      intro k hk
      have hfetch := h.items k hk
      rw [fetch, getElem?_eq_getElem hk] at hfetch
      exact join_eq_some_iff.mp hfetch
    have hswap : swapped xs i j = (xs.set i xs[j]).set j xs[i] := by
      simp only [swapped, getElem?_eq_getElem hi, getElem?_eq_getElem hj]
    refine ⟨⟨(v.cells.set i (some xs[j])).set j (some xs[i]), v.count⟩, ?_, ?_, fun k hk => ?_, ?_⟩
    · have hno : ¬(i ≥ v.count ∨ j ≥ v.count) := by omega
      simp only [Vector.exchange]
      rw [if_neg hsame, if_neg hno, hcell i hi, hcell j hj]
      rfl
    · rw [hswap, length_set, length_set, h.count]
    · rw [hswap, length_set, length_set] at hk
      rw [hswap]
      by_cases hkj : j = k
      · subst hkj
        rw [getElem?_set_self (by rw [length_set]; exact hj)]
        exact fetch_set_self (by rw [length_set]; omega) _
      · rw [getElem?_set_ne hkj, fetch_set_ne hkj]
        by_cases hki : i = k
        · subst hki
          rw [getElem?_set_self hi]
          exact fetch_set_self (by omega) _
        · rw [getElem?_set_ne hki, fetch_set_ne hki]
          exact h.items k hk
    · refine show ((v.cells.set i (some xs[j])).set j (some xs[i])).length ≤ e.maximum from ?_
      rw [length_set, length_set]
      exact h.fits

theorem Is.clear (h : Is e v xs) : ∃ v', v.clear e = some (true, v') ∧ Is e v' [] := by
  obtain ⟨cells, hcells, hall⟩ : ∃ m', assign id (fun _ _ => some e.zero) v.count v.cells = some m' ∧
      Assigned id (fun _ => some e.zero) v.count v.cells m' :=
    assign_eq v.count (fun k hk => Nat.lt_of_lt_of_le hk h.count_le)
      (fun k _ j hj => Nat.ne_of_lt hj) (fun _ _ => rfl) fun _ _ _ _ => rfl
  refine ⟨⟨cells, 0⟩, ?_, rfl, fun i hi => absurd hi (Nat.not_lt_zero i), ?_⟩
  · simp only [Vector.clear, hcells, some_bind]
  · exact show cells.length ≤ e.maximum from hall.length ▸ h.fits

/-! ## Access -/

/-- `operator[]` refers to an element, but for the number of elements. -/
theorem Is.slot_lt_iff (h : Is e v xs) (hne : xs ≠ []) {idx : Int} (hlow : -(v.count : Int) ≤ idx)
    (hword : -2 ^ 63 ≤ idx ∧ idx < 2 ^ 63) : v.slot idx < v.count ↔ idx ≠ v.count := by
  have hpos : 0 < v.count := h.count ▸ length_pos_iff.mpr hne
  have hmax : v.count < 2 ^ 64 := by
    refine Nat.lt_of_le_of_lt (Nat.le_trans h.count_le (Nat.le_trans h.fits (Nat.div_le_self _ _))) ?_
    exact Nat.lt_of_le_of_lt (Nat.sub_le _ _) (by decide)
  unfold slot toStdint
  by_cases hgt : idx > if v.count < 2 ^ 63 then (v.count : Int) else (v.count : Int) - 2 ^ 64
  · rw [if_pos hgt, if_pos (Nat.ne_of_gt hpos)]
    split at hgt <;> omega
  · rw [if_neg hgt]
    split at hgt <;> split <;> omega

/-! ## Runs -/

/-- What a call that returns `r` makes of the lists.  A call that returns false, and a copy
that finds no room, leave them. -/
def Call.Does (e : Elem α) (alloc r : Bool) (ls ls' : Nat → List α) : Call α → Prop
  | .new a => ls' = update ls a []
  | .copy a b => ls' = update ls a (ls b) ∨ alloc = false ∧ ls' = update ls a []
  | .fromTimes a content times =>
      ls' = update ls a (List.replicate times content) ∨
        (alloc = false ∨ e.maximum < times) ∧ ls' = update ls a []
  | .assignFrom a b => ls' = update ls a (ls b) ∨ alloc = false ∧ ls' = ls
  | .insert a idx dat =>
      r = true ∧ (∃ x y, dat = some x ∧ sourceOf (ls a) x = some y ∧ idx ≤ (ls a).length ∧
        ls' = update ls a ((ls a).insertIdx idx y)) ∨ r = false ∧ ls' = ls
  | .append a x =>
      r = true ∧ (∃ y, sourceOf (ls a) x = some y ∧ ls' = update ls a (ls a ++ [y])) ∨
        r = false ∧ ls' = ls ∧ (alloc = false ∨ e.maximum ≤ (ls a).length + 1)
  | .remove a idx times =>
      if times = 0 ∨ idx + times ≤ (ls a).length then
        r = true ∧ ls' = update ls a ((ls a).take idx ++ (ls a).drop (idx + times))
      else r = false ∧ ls' = ls
  | .exchange a i j =>
      if i = j ∨ i < (ls a).length ∧ j < (ls a).length then
        r = true ∧ ls' = update ls a (swapped (ls a) i j)
      else r = false ∧ ls' = ls
  | .clear a => r = true ∧ ls' = update ls a []

def DoesAll (e : Elem α) : List (Bool × Call α) → List Bool → (Nat → List α) →
    (Nat → List α) → Prop
  | [], rs, ls, ls' => rs = [] ∧ ls' = ls
  | (alloc, call) :: calls, rs, ls, ls' =>
      ∃ r rs₁ ls₁, rs = r :: rs₁ ∧ call.Does e alloc r ls ls₁ ∧ DoesAll e calls rs₁ ls₁ ls'

/-- An element that a call is given is there.  `Insert` is given none of the elements that
it moves, unless the one before has the same value or the call is refused. -/
def Call.Ok (vs : Nat → Vector α) : Call α → Prop
  | .append a (.item j) => j < (vs a).count
  | .insert a idx (some (.item j)) =>
      j < (vs a).count ∧ (j ≤ idx ∨ fetch (vs a).cells j = fetch (vs a).cells (j - 1) ∨
        (vs a).count ≥ (vs a).limit ∨ idx > (vs a).count)
  | _ => True

/-- Every call of a run meets its condition. -/
def AllOk (e : Elem α) (vs : Nat → Vector α) : List (Bool × Call α) → Prop
  | [] => True
  | (alloc, call) :: calls =>
      call.Ok vs ∧ ∀ r vs', step e vs alloc call = some (r, vs') → AllOk e vs' calls

/-- The vectors hold the lists. -/
def AllIs (e : Elem α) (vs : Nat → Vector α) (ls : Nat → List α) : Prop :=
  ∀ a, Is e (vs a) (ls a)

theorem AllIs.update (h : AllIs e vs ls) (a : Nat)
    (hv : Is e v xs) : AllIs e (update vs a v) (update ls a xs) := by
  intro b
  by_cases hb : b = a
  · subst hb
    rw [update_self, update_self]
    exact hv
  · rw [update_of_ne hb, update_of_ne hb]
    exact h b

/-- A call on one vector that returns `r` and keeps its elements. -/
theorem AllIs.update_same (h : AllIs e vs ls) (a : Nat) :
    AllIs e (Function.update vs a (vs a)) ls := by
  rw [update_eq_self]
  exact h

theorem AllIs.step_insert (h : AllIs e vs ls)
    (alloc : Bool) (a idx : Nat) (dat : Option (Source α)) (hok : (Call.insert a idx dat).Ok vs) :
    ∃ r vs' ls', step e vs alloc (.insert a idx dat) = some (r, vs') ∧ AllIs e vs' ls' ∧
      (Call.insert a idx dat).Does e alloc r ls ls' := by
  have hcount := (h a).count
  cases dat with
  | none =>
    exact ⟨false, _, ls, rfl, h.update_same a, Or.inr ⟨rfl, rfl⟩⟩
  | some x =>
    by_cases hno : (vs a).count ≥ (vs a).limit ∨ idx > (vs a).count
    · refine ⟨false, _, ls, ?_, h.update_same a, Or.inr ⟨rfl, rfl⟩⟩
      simp only [Vector.step, Vector.insert]
      rw [if_pos hno]
      rfl
    · have hidx : idx ≤ (ls a).length := by omega
      have hroom : (vs a).count < (vs a).limit := by omega
      have hown : ∀ j, x = .item j → j < (ls a).length := by
        rintro j rfl
        exact hcount ▸ hok.1
      obtain ⟨y, hy, hafter⟩ : ∃ y, sourceOf (ls a) x = some y ∧
          sourceAfter (ls a) idx x = some y := by
        cases x with
        | value x => exact ⟨x, rfl, rfl⟩
        | item j =>
          have hj := hown j rfl
          refine ⟨(ls a)[j], getElem?_eq_getElem hj, ?_⟩
          rw [sourceAfter]
          split
          · exact getElem?_eq_getElem hj
          · rcases hok.2 with hle | hsame | hrefused
            · exact absurd hle ‹_›
            · rw [(h a).items j hj, (h a).items (j - 1) (by omega)] at hsame
              rw [← hsame]
              exact getElem?_eq_getElem hj
            · exact absurd hrefused hno
      obtain ⟨v', hins, his⟩ := (h a).insert hidx hroom hafter hown
      refine ⟨true, _, _, ?_, h.update a his, Or.inl ⟨rfl, x, y, rfl, hy, hidx, rfl⟩⟩
      simp only [Vector.step, hins, map_some]

theorem AllIs.step_remove (h : AllIs e vs ls)
    (alloc : Bool) (a idx times : Nat) :
    ∃ r vs' ls', step e vs alloc (.remove a idx times) = some (r, vs') ∧ AllIs e vs' ls' ∧
      (Call.remove a idx times).Does e alloc r ls ls' := by
  have hcount := (h a).count
  rcases Nat.eq_zero_or_pos times with rfl | hpos
  · refine ⟨true, _, ls, rfl, h.update_same a, ?_⟩
    rw [Call.Does, if_pos (Or.inl rfl)]
    refine ⟨rfl, ?_⟩
    rw [Nat.add_zero, take_append_drop, update_eq_self]
  · by_cases hin : idx + times ≤ (ls a).length
    · obtain ⟨v', hrem, his⟩ := (h a).remove hin hpos
      refine ⟨true, _, _, ?_, h.update a his, ?_⟩
      · simp only [Vector.step, hrem, map_some]
      · rw [Call.Does, if_pos (Or.inr hin)]
        exact ⟨rfl, rfl⟩
    · refine ⟨false, _, ls, ?_, h.update_same a, ?_⟩
      · have hno : idx ≥ (vs a).count ∨ times > (vs a).count - idx := by omega
        simp only [Vector.step, Vector.remove]
        rw [if_neg (Nat.ne_of_gt hpos), if_pos hno]
        rfl
      · have hout : ¬(times = 0 ∨ idx + times ≤ (ls a).length) := by omega
        rw [Call.Does, if_neg hout]
        exact ⟨rfl, rfl⟩

theorem AllIs.step_exchange (h : AllIs e vs ls)
    (alloc : Bool) (a i j : Nat) :
    ∃ r vs' ls', step e vs alloc (.exchange a i j) = some (r, vs') ∧ AllIs e vs' ls' ∧
      (Call.exchange a i j).Does e alloc r ls ls' := by
  have hcount := (h a).count
  by_cases hboth : i < (ls a).length ∧ j < (ls a).length
  · obtain ⟨v', hex, his⟩ := (h a).exchange hboth.1 hboth.2
    refine ⟨true, _, _, ?_, h.update a his, ?_⟩
    · simp only [Vector.step, hex, map_some]
    · rw [Call.Does, if_pos (Or.inr hboth)]
      exact ⟨rfl, rfl⟩
  · by_cases hsame : i = j
    · refine ⟨true, _, ls, ?_, h.update_same a, ?_⟩
      · simp only [Vector.step, Vector.exchange]
        rw [if_pos hsame]
        rfl
      · have hnone : (ls a)[i]? = none := by
          refine getElem?_eq_none (Nat.le_of_not_lt fun hi => hboth ⟨hi, hsame ▸ hi⟩)
        have hself : swapped (ls a) i j = ls a := by simp only [swapped, hnone]
        rw [Call.Does, if_pos (Or.inl hsame), hself, update_eq_self]
        exact ⟨rfl, rfl⟩
    · refine ⟨false, _, ls, ?_, h.update_same a, ?_⟩
      · have hno : i ≥ (vs a).count ∨ j ≥ (vs a).count := by omega
        simp only [Vector.step, Vector.exchange]
        rw [if_neg hsame, if_pos hno]
        rfl
      · rw [Call.Does, if_neg fun hor => hor.elim hsame hboth]
        exact ⟨rfl, rfl⟩

theorem AllIs.step (h : AllIs e vs ls) (alloc : Bool)
    {call : Call α} (hok : call.Ok vs) :
    ∃ r vs' ls', Vector.step e vs alloc call = some (r, vs') ∧ AllIs e vs' ls' ∧
      call.Does e alloc r ls ls' := by
  cases call with
  | new a => exact ⟨true, _, _, rfl, h.update a (is_new e), rfl⟩
  | copy a b =>
    obtain ⟨v', hcopy, his⟩ := (h b).copy alloc
    have hstep : Vector.step e vs alloc (.copy a b) = some (true, Function.update vs a v') := by
      simp only [Vector.step, hcopy, map_some]
    rcases his with his | ⟨hfalse, his⟩
    · exact ⟨_, _, _, hstep, h.update a his, Or.inl rfl⟩
    · exact ⟨_, _, _, hstep, h.update a his, Or.inr ⟨hfalse, rfl⟩⟩
  | fromTimes a content times =>
    obtain ⟨v', hfrom, his⟩ := fromTimes_eq e content times alloc
    have hstep : Vector.step e vs alloc (.fromTimes a content times) =
        some (true, Function.update vs a v') := by
      simp only [Vector.step, hfrom, map_some]
    rcases his with his | ⟨hwhy, his⟩
    · exact ⟨_, _, _, hstep, h.update a his, Or.inl rfl⟩
    · exact ⟨_, _, _, hstep, h.update a his, Or.inr ⟨hwhy, rfl⟩⟩
  | assignFrom a b =>
    by_cases hself : a = b
    · refine ⟨true, vs, ls, ?_, h, Or.inl ?_⟩
      · simp only [Vector.step]
        rw [if_neg (not_not.mpr hself)]
      · rw [← hself, update_eq_self]
    · obtain ⟨v', hassign, his⟩ := (h a).assignFrom (h b) alloc
      have hstep : Vector.step e vs alloc (.assignFrom a b) =
          some (true, Function.update vs a v') := by
        simp only [Vector.step]
        rw [if_pos hself, hassign]
        rfl
      rcases his with his | ⟨hfalse, hsame⟩
      · exact ⟨_, _, _, hstep, h.update a his, Or.inl rfl⟩
      · exact ⟨_, _, _, hstep, hsame ▸ h.update_same a, Or.inr ⟨hfalse, rfl⟩⟩
  | insert a idx dat => exact h.step_insert alloc a idx dat hok
  | append a x =>
    have hown : ∀ j, x = .item j → j < (ls a).length := by
      rintro j rfl
      exact (h a).count ▸ hok
    obtain ⟨y, hy⟩ : ∃ y, sourceOf (ls a) x = some y := by
      cases x with
      | value x => exact ⟨x, rfl⟩
      | item j => exact ⟨_, getElem?_eq_getElem (hown j rfl)⟩
    obtain ⟨r, v', happ, his⟩ := (h a).append hy hown alloc
    have hstep : Vector.step e vs alloc (.append a x) = some (r, Function.update vs a v') := by
      simp only [Vector.step, happ, map_some]
    rcases his with ⟨hr, his⟩ | ⟨hr, hsame, hwhy⟩
    · exact ⟨_, _, _, hstep, h.update a his, Or.inl ⟨hr, y, hy, rfl⟩⟩
    · exact ⟨_, _, _, hstep, hsame ▸ h.update_same a, Or.inr ⟨hr, rfl, hwhy⟩⟩
  | remove a idx times => exact h.step_remove alloc a idx times
  | exchange a i j => exact h.step_exchange alloc a i j
  | clear a =>
    obtain ⟨v', hclear, his⟩ := (h a).clear
    refine ⟨true, _, _, ?_, h.update a his, rfl, rfl⟩
    simp only [Vector.step, hclear, map_some]

theorem AllIs.run : ∀ {calls : List (Bool × Call α)} {vs : Nat → Vector α} {ls : Nat → List α},
    AllIs e vs ls → AllOk e vs calls →
      ∃ rs vs' ls', Vector.run e vs calls = some (rs, vs') ∧ AllIs e vs' ls' ∧
        DoesAll e calls rs ls ls'
  | [], vs, ls, h, _ => ⟨[], vs, ls, rfl, h, rfl, rfl⟩
  | (alloc, call) :: calls, vs, ls, h, hok => by
    obtain ⟨r, vs₁, ls₁, hstep, h₁, hdoes⟩ := h.step alloc hok.1
    obtain ⟨rs, vs', ls', hrun, h', hall⟩ := AllIs.run h₁ (hok.2 r vs₁ hstep)
    refine ⟨r :: rs, vs', ls', ?_, h', r, rs, ls₁, rfl, hdoes, hall⟩
    rw [Vector.run, hstep]
    simp only [some_bind, hrun]

/-- After all calls of a run that meets the conditions, no access of which is outside the
storage, each vector is the list that the calls make. -/
theorem vectors_hold_lists (e : Elem α) {calls : List (Bool × Call α)}
    (hok : AllOk e (fun _ => new) calls) :
    ∃ rs vs ls, run e (fun _ => new) calls = some (rs, vs) ∧
      DoesAll e calls rs (fun _ => []) ls ∧
      ∀ a, (vs a).count = (ls a).length ∧ (∀ i < (ls a).length, fetch (vs a).cells i = (ls a)[i]?) ∧
        (vs a).limit * e.size ≤ wordMax - e.cookie ∧
        (ls a ≠ [] → ∀ idx : Int, -((vs a).count : Int) ≤ idx → -2 ^ 63 ≤ idx ∧ idx < 2 ^ 63 →
          ((vs a).slot idx < (vs a).count ↔ idx ≠ (vs a).count)) := by
  have hnew : AllIs e (fun _ => new) fun _ => [] := fun _ => is_new e
  obtain ⟨rs, vs, ls, hrun, his, hall⟩ := hnew.run hok
  refine ⟨rs, vs, ls, hrun, hall, fun a => ⟨(his a).count, (his a).items, ?_, ?_⟩⟩
  · exact Nat.le_trans (Nat.mul_le_mul_right _ (his a).fits) (Nat.div_mul_le_self _ _)
  · exact fun hne idx hlow hword => (his a).slot_lt_iff hne hlow hword

/-- Numbers of eight bytes. -/
def wordElem : Elem Nat := ⟨8, 8, 0, by decide⟩

theorem vectors_hold_lists_some :
    ∃ rs vs ls, run wordElem (fun _ => new)
        [(true, .append 0 (.value 5)), (true, .append 0 (.item 0)), (false, .insert 0 0 (some (.item 1)))] =
          some (rs, vs) ∧
      DoesAll wordElem
        [(true, .append 0 (.value 5)), (true, .append 0 (.item 0)), (false, .insert 0 0 (some (.item 1)))]
        rs (fun _ => []) ls ∧ (vs 0).count = (ls 0).length := by
  have hfirst : Vector.step wordElem (fun _ => new) true (.append 0 (.value 5)) =
      some (true, update (fun _ => new) 0 ⟨[some 5, none], 1⟩) := rfl
  have hok : AllOk wordElem (fun _ => new)
      [(true, .append 0 (.value 5)), (true, .append 0 (.item 0)),
        (false, .insert 0 0 (some (.item 1)))] := by
    refine ⟨trivial, fun r vs h => ⟨?_, fun r' vs' h' => ⟨?_, fun _ _ _ => trivial⟩⟩⟩
    · rw [hfirst] at h
      cases h
      exact Nat.one_pos
    · rw [hfirst] at h
      cases h
      have hsecond : Vector.step wordElem (update (fun _ => new) 0 ⟨[some 5, none], 1⟩) true
          (.append 0 (.item 0)) = some (true, update (update (fun _ => new) 0 ⟨[some 5, none], 1⟩) 0
            ⟨[some 5, some 5], 2⟩) := rfl
      rw [hsecond] at h'
      cases h'
      exact ⟨Nat.lt_succ_self 1, Or.inr (Or.inl rfl)⟩
  obtain ⟨rs, vs, ls, hrun, hall, hall'⟩ := vectors_hold_lists wordElem hok
  exact ⟨rs, vs, ls, hrun, hall, (hall' 0).1⟩

/-- With `1, 2, 3` in the vector, to insert its second element at the front inserts `1`; with
two elements in two cells, `operator[](2)` refers to a third. -/
theorem insert_moves_source :
    (∃ vs, run wordElem (fun _ => new) [(true, .append 0 (.value 1)), (true, .append 0 (.value 2)),
        (true, .append 0 (.value 3)), (true, .insert 0 0 (some (.item 1)))] =
          some ([true, true, true, true], vs) ∧
      (vs 0).cells.take 4 = [some 1, some 1, some 2, some 3] ∧
      (vs 0).cells.take 4 ≠ ([1, 2, 3].insertIdx 0 2).map some) ∧
    ∃ vs, run wordElem (fun _ => new)
        [(true, .append 0 (.value 1)), (true, .append 0 (.value 2))] = some ([true, true], vs) ∧
      (vs 0).count = 2 ∧ (vs 0).limit = 2 ∧ (vs 0).slot 2 = 2 :=
  ⟨⟨_, rfl, rfl, by decide⟩, _, rfl, rfl, rfl, rfl⟩

end Vector

end Unisym.Datype
