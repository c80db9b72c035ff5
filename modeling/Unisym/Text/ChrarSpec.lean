/-
# `ChrarSpec` — arithmetic on decimal strings is exact

A canonical operand is a sign and digits without superfluous zeros (`Signed`);
its bytes are `Signed.chars` and its number is `Signed.toInt`.  The loops keep
the equation of written addition and subtraction (`Columns.run`), and `ChrCpz` strips the zeros (`chrCpz_spec`).

`chrar_exact`: sum and difference are exact as long as the result fits in
`malc_limit`, and the null pointer is returned where it does not.
-/
import Unisym.Library.Digits
import Unisym.Text.Chrar
import Mathlib.Tactic.LinearCombination

namespace Unisym.Text

open Digits List

/-! ## Digits as bytes -/

/-- The byte of a digit. -/
def digitChar (d : Nat) : UInt8 := UInt8.ofNat (48 + d)

/-- All are digits. -/
def Decimal (ds : List Nat) : Prop := ∀ d ∈ ds, d < 10

theorem Decimal.nil : Decimal [] := fun _ h => absurd h not_mem_nil

variable {ds xs ys : List Nat} {x y : Signed}

theorem decimal_cons {d : Nat} : Decimal (d :: ds) ↔ d < 10 ∧ Decimal ds :=
  forall_mem_cons

theorem decimal_append {es : List Nat} : Decimal (ds ++ es) ↔ Decimal ds ∧ Decimal es :=
  forall_mem_append

theorem decimal_reverse : Decimal ds.reverse ↔ Decimal ds :=
  ⟨fun h d hd => h d (mem_reverse.mpr hd), fun h d hd => h d (mem_reverse.mp hd)⟩

theorem isDigit_digitChar : ∀ d < 10, isDigit (digitChar d) = true := by decide

theorem digitChar_ne_zero : ∀ d < 10, digitChar d ≠ 0 := by decide

theorem digitChar_eq_zero : ∀ d < 10, (digitChar d = 48 ↔ d = 0) := by decide

theorem digitChar_not_sign : ∀ d < 10, digitChar d ≠ 43 ∧ digitChar d ≠ 45 := by decide

theorem digitChar_toNat : ∀ d < 10, (digitChar d).toNat = 48 + d := by decide

/-- An operand after its sign. -/
def digitChars (ds : List Nat) : Chars := ds.map digitChar ++ [0]

theorem digitChars_cons (d : Nat) (ds : List Nat) :
    digitChars (d :: ds) = digitChar d :: digitChars ds := rfl

theorem countDigits_digitChars : ∀ {ds : List Nat}, Decimal ds →
    countDigits (digitChars ds) = some ds.length
  | [], _ => rfl
  | d :: ds, h => by
    obtain ⟨hd, hds⟩ := decimal_cons.mp h
    rw [digitChars_cons, countDigits, if_pos (isDigit_digitChar d hd),
      countDigits_digitChars hds]
    rfl

theorem countBytes_digitChars : ∀ {ds : List Nat}, Decimal ds →
    countBytes (digitChars ds) = some ds.length
  | [], _ => rfl
  | d :: ds, h => by
    obtain ⟨hd, hds⟩ := decimal_cons.mp h
    rw [digitChars_cons, countBytes, if_neg (digitChar_ne_zero d hd), countBytes_digitChars hds]
    rfl

theorem charAt_digitChars (xs : List Nat) (d : Nat) (ys : List Nat) :
    charAt (digitChars (xs ++ d :: ys)) xs.length = some (digitChar d) := by
  unfold charAt digitChars
  rw [if_pos (Int.natCast_nonneg _), Int.toNat_natCast, map_append, append_assoc,
    getElem?_append_right (by rw [length_map]), length_map, Nat.sub_self]
  rfl

/-- Digit strings of one length are ordered as their numbers. -/
theorem strCompare_digitChars : ∀ {xs ys : List Nat}, Decimal xs → Decimal ys →
    xs.length = ys.length → ∃ order, strCompare (digitChars xs) (digitChars ys) = some order ∧
      (order < 0 ↔ value 10 xs < value 10 ys) ∧ (order = 0 ↔ xs = ys) ∧
      (0 < order ↔ value 10 ys < value 10 xs)
  | [], [], _, _, _ => ⟨0, rfl, by simp, by simp, by simp⟩
  | x :: xs, y :: ys, hx, hy, hlen => by
    obtain ⟨hx, hxs⟩ := decimal_cons.mp hx
    obtain ⟨hy, hys⟩ := decimal_cons.mp hy
    have hlen' : xs.length = ys.length := Nat.succ.inj hlen
    rw [digitChars_cons, digitChars_cons, strCompare]
    by_cases hxy : x = y
    · subst hxy
      obtain ⟨order, horder, hlt, heq, hgt⟩ := strCompare_digitChars hxs hys hlen'
      rw [if_neg (by simp), if_neg (digitChar_ne_zero x hx)]
      refine ⟨order, horder, ?_, ?_, ?_⟩
      · rw [value_cons_lt_iff hlen', hlt]
      · rw [heq, List.cons.injEq, and_iff_right rfl]
      · rw [value_cons_lt_iff hlen'.symm, hgt]
    · have hne : digitChar x ≠ digitChar y := fun h => hxy (by
        have hnat := congrArg UInt8.toNat h
        rw [digitChar_toNat x hx, digitChar_toNat y hy] at hnat
        omega)
      rw [if_pos hne, digitChar_toNat x hx, digitChar_toNat y hy]
      refine ⟨_, rfl, ?_⟩
      rcases Nat.lt_or_gt_of_ne hxy with h | h
      · have hval := value_lt_of_head (b := 10) (by decide) hxs hlen' h
        exact ⟨⟨fun _ => hval, fun _ => by omega⟩,
          ⟨fun h => by omega, fun h => absurd (List.cons.inj h).1 hxy⟩,
          ⟨fun h => by omega, fun h => by omega⟩⟩
      · have hval := value_lt_of_head (b := 10) (by decide) hys hlen'.symm h
        exact ⟨⟨fun h => by omega, fun h => by omega⟩,
          ⟨fun h => by omega, fun h => absurd (List.cons.inj h).1 hxy⟩,
          ⟨fun _ => hval, fun _ => by omega⟩⟩

/-! ## Cells -/

/-- Digits that were written. -/
def digitCells (ds : List Nat) : Cells := ds.map fun d => some (digitChar d)

theorem put_append (p : Cells) (x : Option UInt8) (post : Cells) (c : UInt8) :
    put (p ++ x :: post) p.length c = some (p ++ some c :: post) := by
  unfold put
  rw [if_pos (by rw [length_append, length_cons]; omega),
    set_append_right _ _ (Nat.le_refl _), Nat.sub_self, set_cons_zero]

theorem cellAt_append (p : Cells) (x : Option UInt8) (post : Cells) :
    cellAt (p ++ x :: post) p.length = x := by
  unfold cellAt
  rw [getElem?_append_right (Nat.le_refl _), Nat.sub_self, getElem?_cons_zero]
  rfl

theorem replicate_snoc (t : Nat) (post : Cells) :
    List.replicate (t + 1) none ++ post = List.replicate t none ++ none :: post := by
  rw [replicate_succ', append_assoc, singleton_append]

/-! ## The loops -/

theorem addDigit : ∀ x < 10, ∀ y < 10, ∀ carry : Bool, ∃ r < 10,
    (let regichar := digitChar x - 0x30 + (digitChar y - 0x30) + (if carry then 1 else 0)
     let carry' := decide (regichar > 9)
     (if carry' then regichar - 10 else regichar) + 0x30 = digitChar r ∧
       x + y + carry.toNat = r + 10 * carry'.toNat) := by
  decide

theorem subDigit : ∀ x < 10, ∀ y < 10, ∀ borrow : Bool, ∃ r < 10,
    (let regichar : Int8 :=
        (digitChar x - 0x30 - (digitChar y - 0x30) - (if borrow then 1 else 0)).toInt8
     let borrow' := decide (regichar < 0)
     (if borrow' then regichar + 10 else regichar).toUInt8 + 0x30 = digitChar r ∧
       x + 10 * borrow'.toNat = r + y + borrow.toNat) := by
  decide

/-- The digit of the shorter operand in the next column, and what is left of it:
`rb` are its digits to come, `yb` those that were added, in `n` columns. -/
theorem next_column {rb yb : List Nat} {k n : Nat} (hrb : Decimal rb) (hle : rb.length ≤ k + 1)
    (hyb : rb ≠ [] → yb.length = n) :
    ∃ y rb' yb', y < 10 ∧
      (if (rb.length : Int) - 1 ≥ 0 then charAt (digitChars (rb.reverse ++ yb))
        ((rb.length : Int) - 1) else some 48) = some (digitChar y) ∧
      (if (rb.length : Int) - 1 ≥ 0 then (rb.length : Int) - 1 - 1
        else (rb.length : Int) - 1) = (rb'.length : Int) - 1 ∧
      rb.reverse ++ yb = rb'.reverse ++ yb' ∧ Decimal rb' ∧ rb'.length ≤ k ∧
      (rb' ≠ [] → yb'.length = n + 1) ∧ value 10 yb' = y * 10 ^ n + value 10 yb := by
  cases rb with
  | nil =>
    exact ⟨0, [], yb, by decide, rfl, rfl, rfl, hrb, Nat.zero_le _, fun h => absurd rfl h,
      by rw [Nat.zero_mul, Nat.zero_add]⟩
  | cons y rb =>
    obtain ⟨hy, hrb⟩ := decimal_cons.mp hrb
    have hyl := hyb (cons_ne_nil _ _)
    have hidx : ((y :: rb).length : Int) - 1 = (rb.reverse.length : Int) := by
      rw [length_cons, length_reverse]
      omega
    have hb : (y :: rb).reverse ++ yb = rb.reverse ++ y :: yb := by
      rw [reverse_cons, append_assoc, singleton_append]
    refine ⟨y, rb, y :: yb, hy, ?_, ?_, hb, hrb, Nat.le_of_succ_le_succ hle, fun _ => ?_, ?_⟩
    · rw [hidx, if_pos (Int.natCast_nonneg _), hb, charAt_digitChars]
    · rw [hidx, if_pos (Int.natCast_nonneg _), length_reverse]
    · rw [length_cons, hyl]
    · rw [value_cons, hyl]

theorem charAt_column (x : Nat) (ra ya : List Nat) :
    charAt (digitChars ((x :: ra).reverse ++ ya)) (((x :: ra).length : Int) - 1) =
      some (digitChar x) := by
  have hidx : ((x :: ra).length : Int) - 1 = (ra.reverse.length : Int) := by
    rw [length_cons, length_reverse]
    omega
  rw [hidx, reverse_cons, append_assoc, singleton_append, charAt_digitChars]

/-- A digit written before those that were written already. -/
theorem put_column (p : Cells) (t : Nat) (w : List Nat) (post : Cells) (c : Nat) :
    put (p ++ (List.replicate (t + 1) none ++ (digitCells w ++ post))) (p.length + t)
        (digitChar c) =
      some (p ++ (List.replicate t none ++ (digitCells (c :: w) ++ post))) := by
  have h := put_append (p ++ List.replicate t none) none (digitCells w ++ post) (digitChar c)
  rw [length_append, length_replicate, append_assoc, append_assoc] at h
  rw [replicate_snoc]
  exact h

/-- The loop writes a digit for each column from the place `k` on; `σ` is the sign of the second operand. -/
structure Columns {β : Type} (σ : Int) (loop : Nat → Int → Int → Bool → Cells → Option β) (done : Bool → Cells → β)
    (k : Nat) (xs ys : List Nat) : Prop where
  done : ∀ endofa endofb carry q, loop 0 endofa endofb carry q = some (done carry q)
  round : ∀ x : Nat, x < 10 → ∀ y : Nat, y < 10 → ∀ carry : Bool, ∃ r : Nat, r < 10 ∧ ∃ carry' : Bool,
    r + σ * (10 * carry'.toNat) = x + σ * (y + carry.toNat) ∧ ∀ t endofa endofb q,
      charAt (digitChars xs) endofa = some (digitChar x) →
      (if endofb ≥ 0 then charAt (digitChars ys) endofb else some 48) = some (digitChar y) →
      loop (t + 1) endofa endofb carry q = (put q (k + t) (digitChar r)).bind
        (loop t (endofa - 1) (if endofb ≥ 0 then endofb - 1 else endofb) carry')

theorem addLoop_columns (signsym : Nat) : Columns 1 (addLoop signsym (digitChars xs) (digitChars ys)) Prod.mk
    (signsym + 1) xs ys where
  done _ _ _ _ := rfl
  round x hx y hy carry := by
    obtain ⟨r, hr, hput, hsum⟩ := addDigit x hx y hy carry
    generalize hcarry : decide ((_ : UInt8) > 9) = carry' at hput hsum
    refine ⟨r, hr, carry', by omega, fun t endofa endofb q hx hy => ?_⟩
    rw [addLoop, hx, hy]
    dsimp only
    rw [hcarry, hput, Nat.add_assoc, Nat.add_comm t, Nat.add_comm 1]
    cases put q (signsym + 1 + t) (digitChar r) <;> rfl

theorem subLoop_columns : Columns (-1) (subLoop 1 (digitChars xs) (digitChars ys)) (fun _ q => q) 1 xs ys where
  done _ _ _ _ := rfl
  round x hx y hy borrow := by
    obtain ⟨r, hr, hput, hsum⟩ := subDigit x hx y hy borrow
    generalize hborrow : decide ((_ : Int8) < 0) = borrow' at hput hsum
    refine ⟨r, hr, borrow', by omega, fun t endofa endofb q hx hy => ?_⟩
    rw [subLoop, hx, hy]
    dsimp only
    rw [hborrow, hput, Nat.add_comm]
    cases put q (1 + t) (digitChar r) <;> rfl

section

variable {β : Type} {σ : Int} {loop : Nat → Int → Int → Bool → Cells → Option β} {done : Bool → Cells → β}

/-- The loop after the digits `ya` and `yb`, which make `w` and the carry; `ra` and `rb` are the digits to come, the
next one first. -/
theorem Columns.run {p : Cells} (h : Columns σ loop done p.length xs ys) (post : Cells) :
    ∀ (ra rb ya yb w : List Nat) (carry : Bool), ra.reverse ++ ya = xs → rb.reverse ++ yb = ys →
    Decimal ra → Decimal rb → Decimal w → rb.length ≤ ra.length → w.length = ya.length →
    (rb ≠ [] → yb.length = ya.length) →
    value 10 w + σ * (carry.toNat * 10 ^ ya.length : Nat) = value 10 ya + σ * value 10 yb →
    ∃ w' carry',
      loop ra.length ((ra.length : Int) - 1) ((rb.length : Int) - 1) carry
          (p ++ (List.replicate ra.length none ++ (digitCells w ++ post))) =
        some (done carry' (p ++ (digitCells w' ++ post))) ∧
      Decimal w' ∧ w'.length = xs.length ∧
      value 10 w' + σ * (Bool.toNat carry' * 10 ^ xs.length : Nat) = value 10 xs + σ * value 10 ys
  | [], rb, ya, yb, w, carry, hxs, hys, _, _, hw, hle, hlen, _, hval => by
    have hrb : rb = [] := length_eq_zero_iff.mp (Nat.le_zero.mp hle)
    subst hrb hxs hys
    exact ⟨w, carry, h.done _ _ _ _, hw, hlen, hval⟩
  | x :: ra, rb, ya, yb, w, carry, hxs, hys, hra, hrb, hw, hle, hlen, hyb, hval => by
    obtain ⟨hx, hra⟩ := decimal_cons.mp hra
    obtain ⟨y, rb', yb', hy, hread, hnext, hb, hrb', hle', hyb', hval'⟩ :=
      next_column hrb hle hyb
    obtain ⟨r, hr, carry', hsum, hloop⟩ := h.round x hx y hy carry
    rw [length_cons, hloop _ _ _ _ (hxs ▸ charAt_column x ra ya) (hys ▸ hread), put_column, Option.bind_some,
      hnext, show ((ra.length + 1 : Nat) : Int) - 1 - 1 = (ra.length : Int) - 1 by omega]
    refine h.run post ra rb' (x :: ya) yb' (r :: w) carry' ?_ (hb ▸ hys) hra hrb'
      (decimal_cons.mpr ⟨hr, hw⟩) hle' (by rw [length_cons, length_cons, hlen]) hyb' ?_
    · rw [← hxs, reverse_cons, append_assoc, singleton_append]
    · rw [value_cons, value_cons, hval', hlen, length_cons]
      push_cast at hval ⊢
      linear_combination (10 ^ ya.length : Int) * hsum + hval

theorem Columns.all {p : Cells} (h : Columns σ loop done p.length xs ys) (hxs : Decimal xs) (hys : Decimal ys)
    (hle : ys.length ≤ xs.length) (post : Cells) : ∃ w carry,
    loop xs.length ((xs.length : Int) - 1) ((ys.length : Int) - 1) false (p ++ (List.replicate xs.length none ++ post)) =
        some (done carry (p ++ (digitCells w ++ post))) ∧
      Decimal w ∧ w.length = xs.length ∧
      value 10 w + σ * (Bool.toNat carry * 10 ^ xs.length : Nat) = value 10 xs + σ * value 10 ys := by
  have hall := h.run post xs.reverse ys.reverse [] [] [] false
    (by rw [reverse_reverse, append_nil]) (by rw [reverse_reverse, append_nil])
    (decimal_reverse.mpr hxs) (decimal_reverse.mpr hys) Decimal.nil
    (by rwa [length_reverse, length_reverse]) rfl (fun _ => rfl) (by simp [value])
  rwa [length_reverse, length_reverse] at hall

end

/-! ## `ChrCpz` -/

theorem cellsLength_bytes (post : Cells) : ∀ {cs : List UInt8} (p : Cells) {fuel : Nat}, 0 ∉ cs →
    cs.length < fuel →
    cellsLength (p ++ (cs.map some ++ some 0 :: post)) fuel p.length = some cs.length
  | _, _, 0, _, h => absurd h (Nat.not_lt_zero _)
  | [], p, fuel + 1, _, _ => by
    have h := cellAt_append p (some 0) post
    rw [cellsLength, map_nil, nil_append, h]
    rfl
  | c :: cs, p, fuel + 1, hcs, hfuel => by
    rw [mem_cons, not_or] at hcs
    have ih := cellsLength_bytes post (p ++ [some c]) hcs.2 (Nat.lt_of_succ_lt_succ hfuel)
    rw [append_assoc, length_append, length_singleton,
      singleton_append] at ih
    have hcell := cellAt_append p (some c) (cs.map some ++ some 0 :: post)
    rw [map_cons, cons_append, cellsLength, hcell]
    dsimp only
    rw [if_neg (Ne.symm hcs.1), ih]
    rfl

theorem countZeros_replicate {c : UInt8} (hc : c ≠ 48) (post : Cells) : ∀ (z : Nat) (p : Cells)
    {fuel : Nat}, z < fuel →
    countZeros (p ++ (List.replicate z (some 48) ++ some c :: post)) fuel p.length = some z
  | _, _, 0, h => absurd h (Nat.not_lt_zero _)
  | 0, p, fuel + 1, _ => by
    have h := cellAt_append p (some c) post
    rw [replicate_zero, nil_append, countZeros, h]
    dsimp only
    rw [if_neg hc]
  | z + 1, p, fuel + 1, hfuel => by
    have ih := countZeros_replicate hc post z (p ++ [some 48]) (Nat.lt_of_succ_lt_succ hfuel)
    rw [append_assoc, length_append, length_singleton, singleton_append] at ih
    have hcell := cellAt_append p (some 48) (List.replicate z (some 48) ++ some c :: post)
    rw [replicate_succ, cons_append, countZeros, hcell]
    dsimp only
    rw [if_pos rfl, ih]
    rfl

theorem memRelative_step {num width addr : Nat} {q r : Cells} {c : UInt8}
    (hread : cellAt q addr = some c) (hwrite : put q (addr - num) c = some r) :
    memRelative num (width + 1) addr q = memRelative num width (addr + 1) r := by
  rw [memRelative, hread]
  dsimp only
  rw [hwrite]

/-- A move down by the length of the gap `g` before the bytes. -/
theorem memRelative_gap (post : Cells) : ∀ (m : List UInt8) (p g : Cells), g ≠ [] →
    ∃ rest, memRelative g.length m.length (p.length + g.length)
        (p ++ (g ++ (m.map some ++ post))) = some (p ++ (m.map some ++ rest)) ∧
      rest.length = g.length + post.length
  | [], p, g, _ => ⟨g ++ post, rfl, length_append⟩
  | c :: m, p, g, hg => by
    obtain ⟨x, g', rfl⟩ := exists_cons_of_ne_nil hg
    have hread := cellAt_append (p ++ x :: g') (some c) (m.map some ++ post)
    rw [length_append, append_assoc] at hread
    have hwrite := put_append p x (g' ++ some c :: (m.map some ++ post)) c
    obtain ⟨rest, ih, hrest⟩ := memRelative_gap post m (p ++ [some c]) (g' ++ [some c])
      (append_ne_nil_of_right_ne_nil _ (cons_ne_nil _ _))
    have hlen : (g' ++ [some c]).length = (x :: g').length := by
      rw [length_append, length_singleton, length_cons]
    rw [hlen, length_append, length_singleton, append_assoc, append_assoc,
      append_assoc] at ih
    refine ⟨rest, ?_, hrest.trans (by rw [hlen])⟩
    have hnext : p.length + (x :: g').length + 1 = p.length + 1 + (x :: g').length := by omega
    refine (memRelative_step hread (r := p ++ some c :: (g' ++ some c :: (m.map some ++ post)))
      ?_).trans ?_
    · rw [Nat.add_sub_cancel]
      exact hwrite
    · rw [hnext]
      exact ih

/-- A string begins with a sign, whose digits follow it, or without one. -/
def Headed (p : Cells) (cs : List UInt8) : Prop :=
  p = [] ∧ cs.head? ≠ some 43 ∧ cs.head? ≠ some 45 ∨ ∃ s, p = [some s] ∧ (s = 43 ∨ s = 45)

theorem chrCpz_eq {p q : Cells} {siz num : Nat}
    (hsign : ∃ s, cellAt q 0 = some s ∧ (if s = 43 ∨ s = 45 then 1 else 0) = p.length)
    (hsiz : cellsLength q (q.length + 1) p.length = some siz)
    (hnum : countZeros q (q.length + 1) p.length = some num) :
    (num = 0 → chrCpz q = some q) ∧
    (num ≠ 0 → ∀ c, cellAt q (p.length + num) = some c → cellAt q (p.length + num - 1) = some 48 →
      chrCpz q = if c = 0 then put q (p.length + 1) 0
        else memRelative num (siz - num + 1) (p.length + num) q) := by
  obtain ⟨s, hs, hp⟩ := hsign
  unfold chrCpz
  rw [hs]
  dsimp only
  rw [hp, hsiz, hnum]
  refine ⟨fun h => if_pos h, fun h c hc hlast => ?_⟩
  dsimp only
  rw [if_neg h, hc, hlast]
  dsimp only
  by_cases hzero : c = 0
  · rw [if_pos ⟨hzero, rfl⟩, if_pos hzero]
  · rw [if_neg (fun hand => hzero hand.1), if_neg hzero]

/-- The characters without the zeros on the left, but for the last one. -/
def stripZeros : List UInt8 → List UInt8
  | [] => []
  | c :: cs => if c = 48 ∧ cs ≠ [] then stripZeros cs else c :: cs

theorem stripZeros_of_head {es : List UInt8} (h : es.head? ≠ some 48) : stripZeros es = es := by
  cases es with
  | nil => rfl
  | cons c cs => exact if_neg fun hc => h (by rw [hc.1]; rfl)

theorem stripZeros_replicate {es : List UInt8} (hne : es ≠ []) (h : es.head? ≠ some 48) (z : Nat) :
    stripZeros (List.replicate z 48 ++ es) = es := by
  induction z with
  | zero => exact stripZeros_of_head h
  | succ z ih =>
    rw [replicate_succ, cons_append, stripZeros,
      if_pos ⟨rfl, append_ne_nil_of_right_ne_nil _ hne⟩, ih]

theorem stripZeros_zeros (z : Nat) : stripZeros (List.replicate (z + 1) 48) = [48] := by
  induction z with
  | zero => rfl
  | succ z ih =>
    rw [replicate_succ, stripZeros, if_pos ⟨rfl, cons_ne_nil _ _⟩, ih]

theorem exists_zeroChars (cs : List UInt8) :
    ∃ z es, cs = List.replicate z 48 ++ es ∧ es.head? ≠ some 48 := by
  induction cs with
  | nil => exact ⟨0, [], rfl, by simp⟩
  | cons c cs ih =>
    by_cases hc : c = 48
    · obtain ⟨z, es, hcs, hes⟩ := ih
      exact ⟨z + 1, es, by rw [hcs, hc, replicate_succ, cons_append], hes⟩
    · exact ⟨0, c :: cs, rfl, fun h => hc (Option.some.inj h)⟩

/-- `ChrCpz` strips the zeros on the left, except the last character, within the bytes
of the string. -/
theorem chrCpz_bytes {p : Cells} {cs : List UInt8} (post : Cells) (hp : Headed p cs) (hcs : 0 ∉ cs)
    (hne : cs ≠ []) :
    ∃ rest, chrCpz (p ++ (cs.map some ++ some 0 :: post)) =
        some (p ++ ((stripZeros cs).map some ++ some 0 :: rest)) ∧
      (stripZeros cs).length + rest.length = cs.length + post.length := by
  have hsign : ∃ s, cellAt (p ++ (cs.map some ++ some 0 :: post)) 0 = some s ∧
      (if s = 43 ∨ s = 45 then 1 else 0) = p.length := by
    obtain ⟨rfl, hplus, hminus⟩ | ⟨s, rfl, hs⟩ := hp
    · obtain ⟨c, cs, rfl⟩ := exists_cons_of_ne_nil hne
      exact ⟨c, rfl, if_neg fun h => h.elim (fun h => hplus (congrArg some h))
        (fun h => hminus (congrArg some h))⟩
    · exact ⟨s, rfl, if_pos hs⟩
  have hlong : cs.length < (p ++ (cs.map some ++ some 0 :: post)).length + 1 := by
    rw [length_append, length_append, length_map]
    omega
  have hsiz := cellsLength_bytes post p hcs hlong
  obtain ⟨z, es, rfl, hes⟩ := exists_zeroChars cs
  have hlen : (List.replicate z (48 : UInt8) ++ es).length = z + es.length := by
    rw [length_append, length_replicate]
  rw [map_append, map_replicate, append_assoc] at hsign hlong hsiz ⊢
  rw [hlen] at hlong hsiz ⊢
  have hfuel : z < (p ++ (List.replicate z (some 48) ++ (es.map some ++ some 0 :: post))).length + 1 :=
    Nat.lt_of_le_of_lt (Nat.le_add_right _ _) hlong
  -- the last zero, where there is one, and what is behind it
  have hlast : ∀ post, z ≠ 0 →
      cellAt (p ++ (List.replicate z (some 48) ++ post)) (p.length + z - 1) = some 48 := by
    intro post hz
    obtain ⟨k, rfl⟩ := Nat.exists_eq_succ_of_ne_zero hz
    have h := cellAt_append (p ++ List.replicate k (some 48)) (some 48) post
    rw [length_append, length_replicate, append_assoc] at h
    rw [Nat.succ_eq_add_one, replicate_succ', append_assoc, ← Nat.add_assoc,
      Nat.add_sub_cancel]
    exact h
  have hafter : ∀ c post,
      cellAt (p ++ (List.replicate z (some 48) ++ c :: post)) (p.length + z) = c := by
    intro c post
    have h := cellAt_append (p ++ List.replicate z (some 48)) c post
    rw [length_append, length_replicate, append_assoc] at h
    exact h
  cases es with
  | nil =>
    -- all zeros: one is kept
    rw [append_nil] at hne
    rw [map_nil, nil_append] at hsign hsiz hfuel ⊢
    have hz : z ≠ 0 := fun h => hne (by rw [h]; rfl)
    have hnum := countZeros_replicate (c := 0) (by decide) post z p hfuel
    have heq := (chrCpz_eq hsign hsiz hnum).2 hz 0 (hafter (some 0) post) (hlast _ hz)
    rw [if_pos rfl] at heq
    obtain ⟨k, rfl⟩ := Nat.exists_eq_succ_of_ne_zero hz
    obtain ⟨x, tail, hx⟩ := exists_cons_of_ne_nil
      (append_ne_nil_of_right_ne_nil (List.replicate k (some (48 : UInt8)))
        (cons_ne_nil (some 0) post))
    have hput := put_append (p ++ [some 48]) x tail 0
    rw [length_append, length_singleton, append_assoc, append_assoc,
      singleton_append, singleton_append] at hput
    have htail := congrArg List.length hx
    rw [length_append, length_replicate, length_cons, length_cons] at htail
    rw [append_nil, heq, Nat.succ_eq_add_one, stripZeros_zeros, replicate_succ,
      cons_append, hx, hput]
    refine ⟨tail, rfl, ?_⟩
    rw [length_singleton, length_nil]
    omega
  | cons c cs =>
    have hc : c ≠ 48 := fun h => hes (by rw [h]; rfl)
    have hc0 : c ≠ 0 := fun h => hcs (by rw [h]; simp)
    rw [map_cons, cons_append] at hsign hsiz hfuel ⊢
    have hnum := countZeros_replicate hc (cs.map some ++ some 0 :: post) z p hfuel
    have heq := chrCpz_eq hsign hsiz hnum
    rw [stripZeros_replicate (cons_ne_nil c cs) hes]
    by_cases hz : z = 0
    · rw [heq.1 hz, hz]
      exact ⟨post, rfl, by rw [Nat.zero_add]⟩
    · have hmove := heq.2 hz c (hafter _ _) (hlast _ hz)
      rw [if_neg hc0, Nat.add_sub_cancel_left] at hmove
      obtain ⟨rest, hrel, hrest⟩ := memRelative_gap post (c :: cs ++ [0]) p
        (List.replicate z (some 48)) (fun h => hz (by
          rw [← length_replicate (n := z) (a := some (48 : UInt8)), h]
          rfl))
      have hmap : (c :: cs ++ [0]).map some ++ post = some c :: (cs.map some ++ some 0 :: post) := by
        rw [map_append, append_assoc]
        rfl
      have hmap' : (c :: cs ++ [0]).map some ++ rest = (c :: cs).map some ++ some 0 :: rest := by
        rw [map_append, append_assoc]
        rfl
      rw [length_replicate, length_append, length_singleton, hmap, hmap'] at hrel
      rw [hmove, hrel]
      rw [length_replicate] at hrest
      exact ⟨rest, rfl, by omega⟩

theorem digitChar_zero : digitChar 0 = 48 := rfl

theorem zero_not_mem_digitChars (hds : Decimal ds) : 0 ∉ ds.map digitChar := by
  intro h
  obtain ⟨d, hd, h0⟩ := mem_map.mp h
  exact digitChar_ne_zero d (hds d hd) h0

theorem stripZeros_map {f : Nat → UInt8} (hf : ∀ d ∈ ds, (f d = 48 ↔ d = 0)) :
    stripZeros (ds.map f) = (strip ds).map f := by
  obtain ⟨z, es, rfl, hes⟩ := exists_zeros ds
  have hzeros : (List.replicate z 0).map f = List.replicate z 48 := by
    rw [map_replicate]
    cases z with
    | zero => rfl
    | succ z =>
      rw [(hf 0 (mem_append_left _ (mem_replicate.mpr ⟨Nat.succ_ne_zero z, rfl⟩))).mpr rfl]
  rw [map_append, hzeros]
  cases es with
  | nil =>
    rw [map_nil, append_nil, append_nil]
    cases z with
    | zero => rfl
    | succ z =>
      rw [stripZeros_zeros, strip_zeros, map_singleton, (hf 0 ?_).mpr rfl]
      rw [append_nil, replicate_succ]
      exact mem_cons_self
  | cons e es =>
    have hhead : ((e :: es).map f).head? ≠ some 48 := fun h =>
      hes (congrArg some ((hf e mem_append_cons_self).mp (Option.some.inj h)))
    rw [map_cons] at hhead
    rw [strip_replicate (cons_ne_nil e es) hes, map_cons]
    rw [stripZeros_replicate (cons_ne_nil _ _) hhead]

theorem stripZeros_digitChars (hds : Decimal ds) :
    stripZeros (ds.map digitChar) = (strip ds).map digitChar :=
  stripZeros_map fun d hd => digitChar_eq_zero d (hds d hd)

theorem digitCells_eq (ds : List Nat) : digitCells ds = (ds.map digitChar).map some := by
  rw [map_map]
  rfl

/-! ## Numbers with a sign -/

/-- A canonical operand. -/
structure Signed where
  minus : Bool
  digits : List Nat
  decimal : Decimal digits
  canonical : Canonical digits

/-- The byte of a sign. -/
def signChar (minus : Bool) : UInt8 := if minus then 45 else 43

/-- The sign before the digits, in signed mode. -/
def signOf : (signsym minus : Bool) → Chars
  | true, minus => [signChar minus]
  | false, _ => []

/-- The bytes of an operand, with the NUL. -/
def Signed.chars (x : Signed) : Chars := signChar x.minus :: digitChars x.digits

/-- The bytes of an operand in either mode. -/
def Signed.operand (signsym : Bool) (x : Signed) : Chars :=
  signOf signsym x.minus ++ digitChars x.digits

/-- The magnitude of an operand. -/
def Signed.magnitude (x : Signed) : Nat := value 10 x.digits

/-- The number an operand denotes. -/
def Signed.toInt (x : Signed) : Int := if x.minus then -(x.magnitude : Int) else x.magnitude

/-- The result is a string with the bytes of `x`. -/
def Result.Is (r : Result) (x : Signed) : Prop := ∃ rest, r = .string (x.chars.map some ++ rest)

/-- `Result.Is` in either mode. -/
def Result.IsOf (signsym : Bool) (r : Result) (x : Signed) : Prop :=
  ∃ rest, r = .string ((x.operand signsym).map some ++ rest)

theorem signChar_cases (minus : Bool) : signChar minus = 43 ∨ signChar minus = 45 := by
  cases minus
  · exact Or.inl rfl
  · exact Or.inr rfl

theorem takeSign_signed (minus : Bool) (hds : Decimal ds) (hne : ds ≠ []) :
    takeSign (signChar minus :: digitChars ds) = some (digitChars ds, minus) := by
  obtain ⟨d, ds, rfl⟩ := exists_cons_of_ne_nil hne
  have hd := digitChar_not_sign d (decimal_cons.mp hds).1
  cases minus with
  | false =>
    unfold takeSign
    rw [digitChars_cons]
    simp [signChar, hd.2]
  | true =>
    unfold takeSign
    simp [signChar]

theorem takeSign_chars (x : Signed) : takeSign x.chars = some (digitChars x.digits, x.minus) :=
  takeSign_signed x.minus x.decimal x.canonical.1

theorem takeSign_digitChars (hds : Decimal ds) (hne : ds ≠ []) :
    takeSign (digitChars ds) = some (digitChars ds, false) := by
  obtain ⟨d, ds, rfl⟩ := exists_cons_of_ne_nil hne
  have hd := digitChar_not_sign d (decimal_cons.mp hds).1
  unfold takeSign
  rw [digitChars_cons]
  simp [hd.1, hd.2]

theorem head_chars (x : Signed) : x.chars.head? = some (signChar x.minus) := rfl

theorem signChar_ne_zero (minus : Bool) : signChar minus ≠ 0 := by cases minus <;> decide

theorem newResult_eq (k : Nat) (minus : Bool) :
    newResult true (k + 2) minus =
      some ([some (signChar minus)] ++ (List.replicate k none ++ [some 0])) := by
  have hend := put_append (List.replicate (k + 1) none) none [] 0
  rw [length_replicate, ← replicate_snoc, append_nil] at hend
  have hstart := put_append [] none (List.replicate k none ++ [some 0]) (signChar minus)
  unfold newResult
  rw [if_pos rfl, show k + 2 - 1 = k + 1 by omega, hend, Option.bind_some, replicate_succ,
    cons_append]
  exact hstart

theorem chars_map (x : Signed) :
    x.chars.map some = [some (signChar x.minus)] ++ (digitCells x.digits ++ [some 0]) := by
  rw [Signed.chars, digitChars, map_cons, map_append, map_map]
  rfl

theorem operand_true (x : Signed) : x.operand true = x.chars := rfl

theorem chrCpz_spec (signsym minus : Bool) (post : Cells) (hds : Decimal ds)
    (hne : ds ≠ []) :
    ∃ rest, chrCpz ((signOf signsym minus).map some ++ (digitCells ds ++ some 0 :: post)) =
        some ((signOf signsym minus).map some ++ (digitCells (strip ds) ++ some 0 :: rest)) ∧
      (strip ds).length + rest.length = ds.length + post.length := by
  have hheaded : Headed ((signOf signsym minus).map some) (ds.map digitChar) := by
    cases signsym with
    | true => exact .inr ⟨signChar minus, rfl, signChar_cases minus⟩
    | false =>
      obtain ⟨d, ds, rfl⟩ := exists_cons_of_ne_nil hne
      have hd := digitChar_not_sign d (decimal_cons.mp hds).1
      exact .inl ⟨rfl, fun h => hd.1 (Option.some.inj h), fun h => hd.2 (Option.some.inj h)⟩
  obtain ⟨rest, hcpz, hlen⟩ := chrCpz_bytes post hheaded (zero_not_mem_digitChars hds)
    (fun h => hne (map_eq_nil_iff.mp h))
  rw [stripZeros_digitChars hds] at hcpz hlen
  rw [length_map, length_map] at hlen
  exact ⟨rest, by rw [digitCells_eq, digitCells_eq]; exact hcpz, hlen⟩

/-- The bytes of an operand in a buffer that goes on with `rest`. -/
theorem operand_cells (signsym : Bool) (x : Signed) (rest : Cells) :
    (x.operand signsym).map some ++ rest =
      (signOf signsym x.minus).map some ++ (digitCells x.digits ++ some 0 :: rest) := by
  rw [Signed.operand, digitChars, map_append, map_append, digitCells_eq,
    append_assoc, append_assoc]
  rfl

theorem result_is (signsym minus : Bool) (post : Cells) (hds : Decimal ds)
    (hne : ds ≠ []) :
    ∃ r z, (chrCpz ((signOf signsym minus).map some ++ (digitCells ds ++ some 0 :: post))).map
          Result.string = some r ∧ r.IsOf signsym z ∧ z.minus = minus ∧
      z.magnitude = value 10 ds := by
  obtain ⟨rest, hcpz, -⟩ := chrCpz_spec signsym minus post hds hne
  refine ⟨_, ⟨minus, strip ds, fun d hd => hds d (mem_strip hd), strip_canonical hne⟩,
    by rw [hcpz, Option.map_some], ⟨rest, ?_⟩, rfl, strip_value ds⟩
  rw [operand_cells]

theorem newResult_spec (signsym : Bool) (k : Nat) (minus : Bool) :
    ∃ post, newResult signsym (k + 2) minus =
      some ((signOf signsym minus).map some ++ (List.replicate k none ++ some 0 :: post)) := by
  cases signsym with
  | true => exact ⟨[], newResult_eq k minus⟩
  | false =>
    have hend := put_append (List.replicate k none) none [none] 0
    rw [length_replicate] at hend
    refine ⟨[none], ?_⟩
    rw [newResult, if_neg Bool.false_ne_true, Nat.add_sub_cancel, replicate_add]
    exact hend

theorem add_longer (signsym minus : Bool) (hxs : Decimal xs) (hys : Decimal ys)
    (hne : xs ≠ []) (hle : ys.length ≤ xs.length) :
    ∃ q carry q' r z, newResult signsym (xs.length - 1 + 4) minus = some q ∧
      addLoop signsym.toNat (digitChars xs) (digitChars ys) (xs.length - 1 + 4 - 3)
        ((xs.length : Int) - 1) ((ys.length : Int) - 1) false q = some (carry, q') ∧
      (put q' signsym.toNat ((if carry then 1 else 0) + 0x30)).bind
          (fun q => (chrCpz q).map Result.string) = some r ∧
      r.IsOf signsym z ∧ z.minus = minus ∧ z.magnitude = value 10 xs + value 10 ys := by
  have hpos := length_pos_of_ne_nil hne
  have hsign : ((signOf signsym minus).map some).length = signsym.toNat := by cases signsym <;> rfl
  obtain ⟨post, hnew⟩ := newResult_spec signsym (xs.length + 1) minus
  have hplace : ((signOf signsym minus).map some ++ [none]).length = signsym.toNat + 1 := by
    rw [length_append, hsign, length_singleton]
  obtain ⟨w, carry, hloop, hw, hlen, hval⟩ :=
    Columns.all (hplace ▸ addLoop_columns signsym.toNat) hxs hys hle (some 0 :: post)
  rw [append_assoc, append_assoc] at hloop
  have hput := put_append ((signOf signsym minus).map some) none (digitCells w ++ some 0 :: post)
    (digitChar carry.toNat)
  have hcarry : (if carry then 1 else 0 : UInt8) + 0x30 = digitChar carry.toNat := by
    cases carry <;> decide
  have hds : Decimal (carry.toNat :: w) :=
    decimal_cons.mpr ⟨by cases carry <;> decide, hw⟩
  obtain ⟨r, z, hcpz, his, hminus, hmag⟩ :=
    result_is signsym minus post hds (cons_ne_nil _ _)
  refine ⟨(signOf signsym minus).map some ++
      ([none] ++ (List.replicate xs.length none ++ some 0 :: post)), carry,
    (signOf signsym minus).map some ++ ([none] ++ (digitCells w ++ some 0 :: post)), r, z, ?_, ?_,
    ?_, his, hminus, ?_⟩
  · rw [show xs.length - 1 + 4 = xs.length + 1 + 2 by omega, hnew, replicate_succ]
    rfl
  · rw [show xs.length - 1 + 4 - 3 = xs.length by omega]
    exact hloop
  · rw [hcarry, ← hsign]
    exact (congrArg (fun o => Option.bind o fun q => (chrCpz q).map Result.string) hput).trans hcpz
  · rw [hmag, value_cons, hlen]
    omega

/-- `ChrSub` of a number and one that is not larger and not longer. -/
theorem sub_larger (minus : Bool) (hxs : Decimal xs) (hys : Decimal ys)
    (hne : xs ≠ []) (hle : ys.length ≤ xs.length) (hval : value 10 ys ≤ value 10 xs) :
    ∃ q q' r z, newResult true (xs.length - 1 + 3) minus = some q ∧
      subLoop 1 (digitChars xs) (digitChars ys) (xs.length - 1 + 3 - 2) ((xs.length : Int) - 1)
        ((ys.length : Int) - 1) false q = some q' ∧
      (chrCpz q').map Result.string = some r ∧ r.Is z ∧ z.minus = minus ∧
      z.magnitude = value 10 xs - value 10 ys := by
  have hpos := length_pos_of_ne_nil hne
  obtain ⟨w, borrow, hloop, hw, hlen, hsum⟩ :=
    Columns.all (p := [some (signChar minus)]) subLoop_columns hxs hys hle [some 0]
  -- nothing is borrowed in the end
  have hlt := value_lt (b := 10) (by decide) hw
  obtain rfl : borrow = false := by
    cases borrow with
    | false => rfl
    | true =>
      rw [hlen] at hlt
      rw [Bool.toNat_true] at hsum
      omega
  rw [Bool.toNat_false] at hsum
  obtain ⟨r, z, hcpz, his, hminus, hmag⟩ := result_is true minus [] hw
    (ne_nil_of_length_pos (by omega))
  refine ⟨[some (signChar minus)] ++ (List.replicate xs.length none ++ [some 0]),
    [some (signChar minus)] ++ (digitCells w ++ [some 0]), r, z, ?_, ?_, hcpz, his, hminus, ?_⟩
  · rw [show xs.length - 1 + 3 = xs.length + 2 by omega, newResult_eq]
  · rw [show xs.length - 1 + 3 - 2 = xs.length by omega]
    exact hloop
  · omega

theorem addMagnitudes_spec (signsym : Bool) (limit : Nat) (minus : Bool) (hxs : Decimal xs)
    (hys : Decimal ys) (hnx : xs ≠ []) (hny : ys ≠ []) :
    (max xs.length ys.length + 3 ≤ limit → ∃ r z,
      addMagnitudes signsym limit (digitChars xs) (digitChars ys) minus minus = some r ∧ r.IsOf signsym z ∧
        z.minus = minus ∧ z.magnitude = value 10 xs + value 10 ys) ∧
    (limit < max xs.length ys.length + 3 →
      addMagnitudes signsym limit (digitChars xs) (digitChars ys) minus minus = some .null) := by
  have hpx := length_pos_of_ne_nil hnx
  have hpy := length_pos_of_ne_nil hny
  unfold addMagnitudes
  rw [countDigits_digitChars hxs, countDigits_digitChars hys]
  dsimp only
  rw [if_neg (by omega)]
  by_cases hlt : xs.length < ys.length
  · rw [if_pos hlt, max_eq_right hlt.le]
    dsimp only
    obtain ⟨q, carry, q', r, z, hnew, hloop, hput, his, hminus, hmag⟩ :=
      add_longer signsym minus hys hxs hny hlt.le
    refine ⟨fun hfit => ⟨r, z, ?_, his, hminus, by rw [hmag, Nat.add_comm]⟩, fun hover => ?_⟩
    · rw [if_neg (by omega), hnew]
      dsimp only
      rw [hloop]
      dsimp only
      rw [← hput]
      cases put q' signsym.toNat ((if carry = true then 1 else 0) + 0x30) <;> rfl
    · rw [if_pos (by omega)]
  · rw [if_neg hlt, max_eq_left (Nat.le_of_not_lt hlt)]
    dsimp only
    obtain ⟨q, carry, q', r, z, hnew, hloop, hput, his, hminus, hmag⟩ :=
      add_longer signsym minus hxs hys hnx (Nat.le_of_not_lt hlt)
    refine ⟨fun hfit => ⟨r, z, ?_, his, hminus, hmag⟩, fun hover => ?_⟩
    · rw [if_neg (by omega), hnew]
      dsimp only
      rw [hloop]
      dsimp only
      rw [← hput]
      cases put q' signsym.toNat ((if carry = true then 1 else 0) + 0x30) <;> rfl
    · rw [if_pos (by omega)]

theorem Signed.magnitude_lt_of_length (h : x.digits.length < y.digits.length) :
    x.magnitude < y.magnitude :=
  value_lt_of_length (by decide) x.decimal y.canonical h x.canonical.1

theorem subMagnitudes_spec (limit : Nat) (minus : Bool) (x y : Signed) :
    (max x.digits.length y.digits.length + 2 ≤ limit → ∃ r z,
      subMagnitudes true limit (digitChars x.digits) (digitChars y.digits) minus minus = some r ∧
        r.Is z ∧ z.minus = xor minus (decide (x.magnitude < y.magnitude)) ∧
        z.magnitude = (x.magnitude - y.magnitude) + (y.magnitude - x.magnitude)) ∧
    (limit < max x.digits.length y.digits.length + 2 →
      subMagnitudes true limit (digitChars x.digits) (digitChars y.digits) minus minus =
        some .null) := by
  have hpx := length_pos_of_ne_nil x.canonical.1
  have hpy := length_pos_of_ne_nil y.canonical.1
  -- the operands are exchanged when the first is smaller
  obtain ⟨order, horder, hxchg⟩ : ∃ order,
      (if x.digits.length = y.digits.length then
        strCompare (digitChars x.digits) (digitChars y.digits) else some 0) = some order ∧
      (x.digits.length < y.digits.length ∨ x.digits.length = y.digits.length ∧ order < 0 ↔
        x.magnitude < y.magnitude) := by
    by_cases hlen : x.digits.length = y.digits.length
    · obtain ⟨order, hcmp, hlt, -, -⟩ := strCompare_digitChars x.decimal y.decimal hlen
      refine ⟨order, by rw [if_pos hlen, hcmp], ?_⟩
      rw [Signed.magnitude, Signed.magnitude, ← hlt]
      exact ⟨fun h => (h.resolve_left (by omega)).2, fun h => Or.inr ⟨hlen, h⟩⟩
    · refine ⟨0, if_neg hlen, fun h => ?_, fun h => Or.inl ?_⟩
      · exact Signed.magnitude_lt_of_length (h.resolve_right fun hand => hlen hand.1)
      · by_contra hge
        have hlt : y.digits.length < x.digits.length := by omega
        exact absurd (Signed.magnitude_lt_of_length hlt) (by omega)
  have hlonger : ∀ {u v : Signed}, u.magnitude ≤ v.magnitude → u.digits.length ≤ v.digits.length :=
    fun h => by
      by_contra hlt
      exact absurd (Signed.magnitude_lt_of_length (Nat.lt_of_not_le hlt)) (by omega)
  unfold subMagnitudes
  rw [countDigits_digitChars x.decimal, countDigits_digitChars y.decimal]
  dsimp only
  rw [if_neg (by omega), horder]
  dsimp only
  by_cases hlt : x.magnitude < y.magnitude
  · have hle := hlonger hlt.le
    rw [decide_eq_true (hxchg.mpr hlt), if_pos rfl, max_eq_right hle]
    dsimp only
    obtain ⟨q, q', r, z, hnew, hloop, hcpz, his, hminus, hmag⟩ :=
      sub_larger (xor minus true) y.decimal x.decimal y.canonical.1 hle hlt.le
    refine ⟨fun hfit => ⟨r, z, ?_, his, by rw [hminus, decide_eq_true hlt], ?_⟩, fun hover => ?_⟩
    · rw [if_neg (by omega), hnew]
      dsimp only
      rw [Bool.toNat_true, hloop]
      exact hcpz
    · rw [hmag, Nat.sub_eq_zero_of_le hlt.le, Nat.zero_add]
      rfl
    · rw [if_pos (by omega)]
  · have hge : y.magnitude ≤ x.magnitude := Nat.le_of_not_lt hlt
    have hle := hlonger hge
    rw [decide_eq_false (fun h => hlt (hxchg.mp h)), if_neg Bool.false_ne_true, max_eq_left hle]
    dsimp only
    obtain ⟨q, q', r, z, hnew, hloop, hcpz, his, hminus, hmag⟩ :=
      sub_larger (xor minus false) x.decimal y.decimal x.canonical.1 hle hge
    refine ⟨fun hfit => ⟨r, z, ?_, his, by rw [hminus, decide_eq_false hlt], ?_⟩, fun hover => ?_⟩
    · rw [if_neg (by omega), hnew]
      dsimp only
      rw [Bool.toNat_true, hloop]
      exact hcpz
    · rw [hmag, Nat.sub_eq_zero_of_le hge, Nat.add_zero]
      rfl
    · rw [if_pos (by omega)]

/-! ## `ChrAdd`, `ChrSub` and `ChrCmp` -/

/-- The size `ChrAdd` takes for its result; magnitudes are added with one sign and
subtracted with two. -/
def addSize (x y : Signed) : Nat :=
  max x.digits.length y.digits.length + if x.minus = y.minus then 3 else 2

/-- The size `ChrSub` takes for its result. -/
def subSize (x y : Signed) : Nat :=
  max x.digits.length y.digits.length + if x.minus = y.minus then 2 else 3

theorem head_digitChars (x : Signed) :
    ∃ c, (digitChars x.digits).head? = some c ∧ c ≠ 0 := by
  obtain ⟨d, ds, hd⟩ := exists_cons_of_ne_nil x.canonical.1
  have hdec := x.decimal
  rw [hd] at hdec ⊢
  exact ⟨digitChar d, rfl, digitChar_ne_zero d (decimal_cons.mp hdec).1⟩

theorem chrAddFrom_digits (signsym : Bool) (limit depth : Nat) (x y : Signed) :
    chrAddFrom signsym limit (depth + 1) (digitChars x.digits) (digitChars y.digits) =
      addMagnitudes signsym limit (digitChars x.digits) (digitChars y.digits) false false := by
  obtain ⟨c, hc, hc0⟩ := head_digitChars x
  obtain ⟨e, he, he0⟩ := head_digitChars y
  rw [chrAddFrom, hc, he]
  dsimp only
  rw [if_neg (not_or.mpr ⟨hc0, he0⟩), takeSign_digitChars x.decimal x.canonical.1,
    takeSign_digitChars y.decimal y.canonical.1]
  rfl

theorem chrSubFrom_digits (signsym : Bool) (limit depth : Nat) (x y : Signed) :
    chrSubFrom signsym limit (depth + 1) (digitChars x.digits) (digitChars y.digits) =
      subMagnitudes signsym limit (digitChars x.digits) (digitChars y.digits) false false := by
  obtain ⟨c, hc, hc0⟩ := head_digitChars x
  obtain ⟨e, he, he0⟩ := head_digitChars y
  rw [chrSubFrom, hc, he]
  dsimp only
  rw [if_neg (not_or.mpr ⟨hc0, he0⟩), takeSign_digitChars x.decimal x.canonical.1,
    takeSign_digitChars y.decimal y.canonical.1]
  rfl

theorem length_chars (x : Signed) : x.chars.length = x.digits.length + 2 := by
  rw [Signed.chars, digitChars, length_cons, length_append, length_map]
  rfl

theorem chrAdd_chars (limit : Nat) (x y : Signed) :
    chrAdd true limit x.chars y.chars =
      if x.minus = y.minus then
        addMagnitudes true limit (digitChars x.digits) (digitChars y.digits) x.minus x.minus
      else if x.minus then
        subMagnitudes true limit (digitChars y.digits) (digitChars x.digits) false false
      else subMagnitudes true limit (digitChars x.digits) (digitChars y.digits) false false := by
  have hdepth : x.chars.length + y.chars.length + 1 =
      x.digits.length + y.digits.length + 3 + 1 + 1 := by
    rw [length_chars, length_chars]
    omega
  unfold chrAdd
  rw [hdepth, chrAddFrom, head_chars, head_chars]
  dsimp only
  rw [if_neg (not_or.mpr ⟨signChar_ne_zero _, signChar_ne_zero _⟩), takeSign_chars, takeSign_chars]
  dsimp only
  rw [chrSubFrom_digits, chrSubFrom_digits]
  by_cases h : x.minus = y.minus
  · rw [if_neg (not_not.mpr h), if_pos h, h]
  · rw [if_pos h, if_neg h]

theorem chrSub_chars (limit : Nat) (x y : Signed) :
    chrSub true limit x.chars y.chars =
      if x.minus = y.minus then
        subMagnitudes true limit (digitChars x.digits) (digitChars y.digits) x.minus x.minus
      else if x.minus then
        (addMagnitudes true limit (digitChars x.digits) (digitChars y.digits) false false).bind
          (setMinus true)
      else addMagnitudes true limit (digitChars x.digits) (digitChars y.digits) false false := by
  have hdepth : x.chars.length + y.chars.length + 1 =
      x.digits.length + y.digits.length + 3 + 1 + 1 := by
    rw [length_chars, length_chars]
    omega
  unfold chrSub
  rw [hdepth, chrSubFrom, head_chars, head_chars]
  dsimp only
  rw [if_neg (not_or.mpr ⟨signChar_ne_zero _, signChar_ne_zero _⟩), takeSign_chars, takeSign_chars]
  dsimp only
  rw [chrAddFrom_digits]
  by_cases h : x.minus = y.minus
  · rw [if_neg (not_not.mpr h), if_pos h, h]
  · rw [if_pos h, if_neg h]

theorem setMinus_is {r : Result} {z : Signed} (h : r.Is z) :
    ∃ r' z', setMinus true r = some r' ∧ r'.Is z' ∧ z'.minus = true ∧ z'.magnitude = z.magnitude := by
  obtain ⟨rest, rfl⟩ := h
  refine ⟨_, { z with minus := true }, ?_, ⟨rest, rfl⟩, rfl, rfl⟩
  have hput := put_append [] (some (signChar z.minus))
    ((digitCells z.digits ++ [some 0]) ++ rest) 45
  rw [chars_map, setMinus, if_pos rfl]
  change (put ([] ++ some (signChar z.minus) :: ((digitCells z.digits ++ [some 0]) ++ rest))
    ([] : Cells).length 45).map Result.string = _
  rw [hput, chars_map]
  rfl

theorem chrAdd_exact (limit : Nat) (x y : Signed) :
    (addSize x y ≤ limit → ∃ r z, chrAdd true limit x.chars y.chars = some r ∧ r.Is z ∧
      z.toInt = x.toInt + y.toInt) ∧
    (limit < addSize x y → chrAdd true limit x.chars y.chars = some .null) := by
  rw [chrAdd_chars]
  unfold addSize
  by_cases h : x.minus = y.minus
  · rw [if_pos h, if_pos h]
    obtain ⟨hfits, hover⟩ := addMagnitudes_spec true limit x.minus x.decimal y.decimal x.canonical.1
      y.canonical.1
    refine ⟨fun hle => ?_, hover⟩
    obtain ⟨r, z, hr, his, hminus, hmag⟩ := hfits hle
    refine ⟨r, z, hr, his, ?_⟩
    unfold Signed.toInt
    rw [hminus, hmag, ← h]
    unfold Signed.magnitude
    split <;> push_cast <;> ring
  · rw [if_neg h, if_neg h]
    have hvalue : ∀ {u v z : Signed}, z.minus = xor false (decide (u.magnitude < v.magnitude)) →
        z.magnitude = (u.magnitude - v.magnitude) + (v.magnitude - u.magnitude) →
        z.toInt = (u.magnitude : Int) - v.magnitude := fun {u v z} hminus hmag => by
      unfold Signed.toInt
      rw [hminus, hmag, Bool.false_xor]
      by_cases hlt : u.magnitude < v.magnitude
      · rw [decide_eq_true hlt, if_pos rfl]
        omega
      · rw [decide_eq_false hlt, if_neg Bool.false_ne_true]
        omega
    cases hx : x.minus with
    | true =>
      have hy : y.minus = false := by
        rw [hx] at h
        simpa using h
      rw [if_pos rfl, max_comm]
      obtain ⟨hfits, hover⟩ := subMagnitudes_spec limit false y x
      refine ⟨fun hle => ?_, hover⟩
      obtain ⟨r, z, hr, his, hminus, hmag⟩ := hfits hle
      refine ⟨r, z, hr, his, ?_⟩
      rw [hvalue hminus hmag, Signed.toInt, Signed.toInt, hx, hy]
      simp only [if_true, Bool.false_eq_true, if_false]
      ring
    | false =>
      have hy : y.minus = true := by
        rw [hx] at h
        simpa using h
      rw [if_neg Bool.false_ne_true]
      obtain ⟨hfits, hover⟩ := subMagnitudes_spec limit false x y
      refine ⟨fun hle => ?_, hover⟩
      obtain ⟨r, z, hr, his, hminus, hmag⟩ := hfits hle
      refine ⟨r, z, hr, his, ?_⟩
      rw [hvalue hminus hmag, Signed.toInt, Signed.toInt, hx, hy]
      simp only [if_true, Bool.false_eq_true, if_false]
      ring

/-- The sign of a difference of magnitudes, for a common sign of the operands. -/
theorem toInt_sub {z : Signed} (h : x.minus = y.minus)
    (hminus : z.minus = xor x.minus (decide (x.magnitude < y.magnitude)))
    (hmag : z.magnitude = (x.magnitude - y.magnitude) + (y.magnitude - x.magnitude)) :
    z.toInt = x.toInt - y.toInt := by
  unfold Signed.toInt
  rw [hminus, hmag, ← h]
  by_cases hlt : x.magnitude < y.magnitude
  · rw [decide_eq_true hlt]
    cases x.minus with
    | true => rw [if_neg (by decide), if_pos rfl, if_pos rfl]; omega
    | false => rw [if_pos (by decide), if_neg Bool.false_ne_true, if_neg Bool.false_ne_true]; omega
  · rw [decide_eq_false hlt]
    cases x.minus with
    | true => rw [if_pos (by decide), if_pos rfl, if_pos rfl]; omega
    | false => rw [if_neg (by decide), if_neg Bool.false_ne_true, if_neg Bool.false_ne_true]; omega

theorem chrSub_exact (limit : Nat) (x y : Signed) :
    (subSize x y ≤ limit → ∃ r z, chrSub true limit x.chars y.chars = some r ∧ r.Is z ∧
      z.toInt = x.toInt - y.toInt) ∧
    (limit < subSize x y → (x.minus = true → y.minus = true) →
      chrSub true limit x.chars y.chars = some .null) := by
  rw [chrSub_chars]
  unfold subSize
  by_cases h : x.minus = y.minus
  · rw [if_pos h, if_pos h]
    obtain ⟨hfits, hover⟩ := subMagnitudes_spec limit x.minus x y
    refine ⟨fun hle => ?_, fun hlt _ => hover hlt⟩
    obtain ⟨r, z, hr, his, hminus, hmag⟩ := hfits hle
    exact ⟨r, z, hr, his, toInt_sub h hminus hmag⟩
  · rw [if_neg h, if_neg h]
    obtain ⟨hfits, hover⟩ := addMagnitudes_spec true limit false x.decimal y.decimal x.canonical.1
      y.canonical.1
    cases hx : x.minus with
    | true =>
      have hy : y.minus = false := by
        rw [hx] at h
        simpa using h
      rw [if_pos rfl]
      refine ⟨fun hle => ?_, fun _ hsigns => ?_⟩
      · obtain ⟨r, z, hr, his, -, hmag⟩ := hfits hle
        obtain ⟨r', z', hr', his', hminus', hmag'⟩ := setMinus_is his
        refine ⟨r', z', by rw [hr, Option.bind_some, hr'], his', ?_⟩
        unfold Signed.toInt
        rw [hminus', hmag', hmag, hx, hy, if_pos rfl, if_pos rfl, if_neg Bool.false_ne_true]
        unfold Signed.magnitude
        push_cast
        ring
      · rw [hsigns rfl] at hy
        cases hy
    | false =>
      have hy : y.minus = true := by
        rw [hx] at h
        simpa using h
      rw [if_neg Bool.false_ne_true]
      refine ⟨fun hle => ?_, fun hlt _ => hover hlt⟩
      obtain ⟨r, z, hr, his, hminus, hmag⟩ := hfits hle
      refine ⟨r, z, hr, his, ?_⟩
      unfold Signed.toInt
      rw [hminus, hmag, hx, hy, if_neg Bool.false_ne_true, if_neg Bool.false_ne_true, if_pos rfl]
      unfold Signed.magnitude
      push_cast
      ring

theorem strCompare_eq_zero : ∀ {u v : Chars}, 0 ∉ u → 0 ∉ v →
    ∃ order, strCompare (u ++ [0]) (v ++ [0]) = some order ∧ (order = 0 ↔ u = v)
  | [], [], _, _ => ⟨0, rfl, by simp⟩
  | [], y :: v, _, hv => by
    have hy : y ≠ 0 := fun h => hv (h ▸ mem_cons_self)
    have hpos : y.toNat ≠ 0 := fun h => hy (UInt8.toNat_inj.mp h)
    refine ⟨((0 : UInt8).toNat : Int) - y.toNat, if_pos (Ne.symm hy), ?_⟩
    rw [show (0 : UInt8).toNat = 0 from rfl]
    simp only [nil_eq, reduceCtorEq, iff_false]
    omega
  | x :: u, [], hu, _ => by
    have hx : x ≠ 0 := fun h => hu (h ▸ mem_cons_self)
    have hpos : x.toNat ≠ 0 := fun h => hx (UInt8.toNat_inj.mp h)
    refine ⟨(x.toNat : Int) - (0 : UInt8).toNat, if_pos hx, ?_⟩
    rw [show (0 : UInt8).toNat = 0 from rfl]
    simp only [reduceCtorEq, iff_false]
    omega
  | x :: u, y :: v, hu, hv => by
    rw [cons_append, cons_append, strCompare]
    by_cases hxy : x = y
    · subst hxy
      have hx : x ≠ 0 := fun h => hu (h ▸ mem_cons_self)
      obtain ⟨order, horder, hzero⟩ := strCompare_eq_zero
        (fun h => hu (mem_cons_of_mem _ h)) (fun h => hv (mem_cons_of_mem _ h))
      refine ⟨order, ?_, by rw [hzero, List.cons.injEq, and_iff_right rfl]⟩
      rw [if_neg (not_not.mpr rfl), if_neg hx, horder]
    · refine ⟨(x.toNat : Int) - y.toNat, if_pos hxy, ?_⟩
      have hne : x.toNat ≠ y.toNat := fun h => hxy (UInt8.toNat_inj.mp h)
      simp only [List.cons.injEq, hxy, false_and, iff_false]
      omega

theorem zero_not_mem_chars (x : Signed) : 0 ∉ signChar x.minus :: x.digits.map digitChar := by
  rintro h
  rcases mem_cons.mp h with h | h
  · exact signChar_ne_zero x.minus h.symm
  · obtain ⟨d, hd, hzero⟩ := mem_map.mp h
    exact digitChar_ne_zero d (x.decimal d hd) hzero

theorem digitChar_inj {d e : Nat} (hd : d < 10) (he : e < 10) (h : digitChar d = digitChar e) :
    d = e := by
  have hnat := congrArg UInt8.toNat h
  rw [digitChar_toNat d hd, digitChar_toNat e he] at hnat
  omega

theorem digits_of_map_eq : ∀ {ds es : List Nat}, Decimal ds → Decimal es →
    ds.map digitChar = es.map digitChar → ds = es
  | [], [], _, _, _ => rfl
  | d :: ds, e :: es, hds, hes, h => by
    obtain ⟨hd, hds⟩ := decimal_cons.mp hds
    obtain ⟨he, hes⟩ := decimal_cons.mp hes
    rw [map_cons, map_cons, List.cons.injEq] at h
    rw [digitChar_inj hd he h.1, digits_of_map_eq hds hes h.2]

theorem Signed.digits_of_magnitude (h : x.magnitude = y.magnitude) :
    x.digits = y.digits := by
  have hlen : x.digits.length = y.digits.length := by
    rcases Nat.lt_trichotomy x.digits.length y.digits.length with hlt | heq | hlt
    · exact absurd (Signed.magnitude_lt_of_length hlt) (by omega)
    · exact heq
    · exact absurd (Signed.magnitude_lt_of_length hlt) (by omega)
  obtain ⟨order, -, hlt, heq, hgt⟩ := strCompare_digitChars x.decimal y.decimal hlen
  unfold Signed.magnitude at h
  exact heq.mp (by omega)

theorem head_zero_iff (x : Signed) :
    (digitChars x.digits).head? = some 48 ↔ x.magnitude = 0 := by
  obtain ⟨minus, digits, hdec, hcan⟩ := x
  obtain ⟨d, ds, rfl⟩ := exists_cons_of_ne_nil hcan.1
  have hd := (decimal_cons.mp hdec).1
  rw [digitChars_cons, head?_cons, Option.some_inj, digitChar_eq_zero d hd]
  constructor
  · intro hzero
    have hone := hcan.2 (by rw [hzero]; rfl)
    change value 10 (d :: ds) = 0
    rw [hone, value_singleton]
  · intro hzero
    by_contra hne
    have hle : 10 ^ ds.length ≤ value 10 (_ :: ds) := pow_le_value hne
    have hpos : 0 < 10 ^ ds.length := Nat.pow_pos (by decide)
    have hval : value 10 (d :: ds) = 0 := hzero
    omega

theorem chrCmp_exact (x y : Signed) : ∃ order, chrCmp x.chars y.chars = some order ∧
    (order < 0 ↔ x.toInt < y.toInt) ∧ (order = 0 ↔ x.toInt = y.toInt) ∧
    (0 < order ↔ y.toInt < x.toInt) := by
  obtain ⟨order, horder, heq⟩ := strCompare_eq_zero (zero_not_mem_chars x) (zero_not_mem_chars y)
  have horder' : strCompare x.chars y.chars = some order := horder
  unfold chrCmp
  rw [horder']
  by_cases hzero : order = 0
  · -- the same string
    have hsame := heq.mp hzero
    rw [List.cons.injEq] at hsame
    have hdigits := digits_of_map_eq x.decimal y.decimal hsame.2
    have hminus : x.minus = y.minus := by
      have hs := hsame.1
      revert hs
      cases x.minus <;> cases y.minus <;> decide
    have hint : x.toInt = y.toInt := by
      rw [Signed.toInt, Signed.toInt, Signed.magnitude, Signed.magnitude, hminus, hdigits]
    dsimp only
    rw [if_pos hzero]
    exact ⟨0, rfl, by omega, by omega, by omega⟩
  · have hdiffer : x.minus = y.minus → x.magnitude ≠ y.magnitude := fun hm hmag =>
      hzero (heq.mpr (by rw [hm, Signed.digits_of_magnitude hmag]))
    dsimp only
    rw [if_neg hzero, takeSign_chars, takeSign_chars]
    dsimp only
    rw [countBytes_digitChars x.decimal, countBytes_digitChars y.decimal]
    by_cases hheads : (digitChars x.digits).head? = some 48 ∧ (digitChars y.digits).head? = some 48
    · have hint : x.toInt = y.toInt := by
        rw [Signed.toInt, Signed.toInt, (head_zero_iff x).mp hheads.1,
          (head_zero_iff y).mp hheads.2]
        simp
      rw [if_pos hheads]
      exact ⟨0, rfl, by omega, by omega, by omega⟩
    · have hboth : ¬(x.magnitude = 0 ∧ y.magnitude = 0) := fun h =>
        hheads ⟨(head_zero_iff x).mpr h.1, (head_zero_iff y).mpr h.2⟩
      rw [if_neg hheads]
      dsimp only
      -- which magnitude is greater
      obtain ⟨order', horder', hgreater⟩ : ∃ order',
          (if x.digits.length = y.digits.length then
            strCompare (digitChars x.digits) (digitChars y.digits) else some 0) = some order' ∧
          ((if x.digits.length = y.digits.length then decide (order' > 0)
            else decide (x.digits.length > y.digits.length)) =
              decide (y.magnitude < x.magnitude)) := by
        by_cases hlen : x.digits.length = y.digits.length
        · obtain ⟨order', hcmp, -, -, hgt⟩ := strCompare_digitChars x.decimal y.decimal hlen
          exact ⟨order', by rw [if_pos hlen, hcmp], by rw [if_pos hlen]; exact decide_eq_decide.mpr hgt⟩
        · refine ⟨0, if_neg hlen, ?_⟩
          rw [if_neg hlen]
          refine decide_eq_decide.mpr ⟨fun h => Signed.magnitude_lt_of_length h, fun h => ?_⟩
          by_contra hle
          have hlt : x.digits.length < y.digits.length := by omega
          exact absurd (Signed.magnitude_lt_of_length hlt) (by omega)
      rw [horder']
      dsimp only
      rw [hgreater]
      unfold Signed.toInt
      cases hx : x.minus <;> cases hy : y.minus
      · have hne := hdiffer (by rw [hx, hy])
        by_cases hgt : y.magnitude < x.magnitude
        · rw [decide_eq_true hgt]
          exact ⟨1, rfl, by simp; omega, by simp; omega, by simp; omega⟩
        · rw [decide_eq_false hgt]
          exact ⟨-1, rfl, by simp; omega, by simp; omega, by simp; omega⟩
      · exact ⟨1, rfl, by simp, by simp; omega, by simp; omega⟩
      · exact ⟨-1, rfl, by simp; omega, by simp; omega, by simp⟩
      · have hne := hdiffer (by rw [hx, hy])
        by_cases hgt : y.magnitude < x.magnitude
        · rw [decide_eq_true hgt]
          exact ⟨-1, rfl, by simp; omega, by simp; omega, by simp; omega⟩
        · rw [decide_eq_false hgt]
          exact ⟨1, rfl, by simp; omega, by simp; omega, by simp; omega⟩

/-- Sum and difference of canonical operands are exact where the result fits in
`malc_limit`, and the null pointer where it does not, but for a difference whose
operands have two signs, the first minus.  The comparison is that of the numbers. -/
theorem chrar_exact (limit : Nat) (x y : Signed) :
    ((addSize x y ≤ limit → ∃ r z, chrAdd true limit x.chars y.chars = some r ∧ r.Is z ∧
        z.toInt = x.toInt + y.toInt) ∧
      (limit < addSize x y → chrAdd true limit x.chars y.chars = some .null)) ∧
    ((subSize x y ≤ limit → ∃ r z, chrSub true limit x.chars y.chars = some r ∧ r.Is z ∧
        z.toInt = x.toInt - y.toInt) ∧
      (limit < subSize x y → (x.minus = true → y.minus = true) →
        chrSub true limit x.chars y.chars = some .null)) ∧
    ∃ order, chrCmp x.chars y.chars = some order ∧ (order < 0 ↔ x.toInt < y.toInt) ∧
      (order = 0 ↔ x.toInt = y.toInt) ∧ (0 < order ↔ y.toInt < x.toInt) :=
  ⟨chrAdd_exact limit x y, chrSub_exact limit x y, chrCmp_exact x y⟩

/-- A number of `n + 1` ones. -/
def ones (n : Nat) : Signed where
  minus := false
  digits := 1 :: List.replicate n 1
  decimal := decimal_cons.mpr ⟨by decide, fun d hd => by
    rw [eq_of_mem_replicate hd]
    decide⟩
  canonical := ⟨cons_ne_nil _ _, fun h => by cases h⟩

/-- `1111 + 11`, with room and without. -/
theorem chrar_exact_ones :
    (∃ r z, chrAdd true 0x1000 (ones 3).chars (ones 1).chars = some r ∧ r.Is z ∧
      z.toInt = (ones 3).toInt + (ones 1).toInt) ∧
    chrAdd true 4 (ones 3).chars (ones 1).chars = some .null := by
  have h := chrar_exact 0x1000 (ones 3) (ones 1)
  have h' := chrar_exact 4 (ones 3) (ones 1)
  exact ⟨h.1.1 (by decide), h'.1.2 (by decide)⟩

/-- With the default `malc_limit`, the sum of two numbers of 4095 digits is not
returned. -/
theorem chrAdd_long_null :
    ¬∀ x y : Signed, ∃ r z, chrAdd true 0x1000 x.chars y.chars = some r ∧ r.Is z ∧
      z.toInt = x.toInt + y.toInt := by
  intro h
  obtain ⟨r, z, hr, ⟨rest, rfl⟩, -⟩ := h (ones 4094) (ones 4094)
  have hsize : 0x1000 < addSize (ones 4094) (ones 4094) := by
    unfold addSize ones
    dsimp only
    rw [length_cons, length_replicate, max_self, if_pos rfl]
    omega
  rw [(chrAdd_exact 0x1000 (ones 4094) (ones 4094)).2 hsize] at hr
  cases hr

end Unisym.Text
